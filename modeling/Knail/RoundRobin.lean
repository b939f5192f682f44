import Knail.SchedulerRing

/-!
# A runnable task is passed over once by each other task

Between two turns of a task that stays runnable, no other task has two turns, as long as no task is switched to
directly. The ring behind the head is the order of the turns to come, and whoever had a turn is behind the task.
-/
namespace Knail.Scheduler

open List Option

variable {s s' s₀ : Sched} {ring ring' seen : List ℕ} {T : ℕ} {ev log log₀ : List Event}

/-- An operation, or a blocked task made ready without a switch to it, as `Mutex::unlock` does. -/
inductive Act
  | op (op : Op)
  | ready (t : ℕ)

variable {a : Act}

def act : Act→Sched→Option (Sched×List Event)
  | .op o, s=>step o s
  | .ready t, s=>some (s.modify t ({· with state:=.ready}),[])

def Act.Valid (s : Sched) : Act→Prop
  | .op o=>o.Valid s
  | .ready t=>s.IsTask t ∧ (s.task t).state = .blocked

def Act.Direct (a : Act) : Prop:=∃t,a = .op (.wake t)

/-- The runs whose acts and the states after them are as required. -/
inductive Acts (ok : Act→Sched→Prop) (s₀ : Sched) : List Event→Sched→Prop
  | start : Acts ok s₀ [] s₀
  | step {log ev : List Event} {s s' : Sched} (a : Act) :
      Acts ok s₀ log s→a.Valid s→act a s=some (s',ev) → ok a s'→Acts ok s₀ (log++ev) s'

theorem act_spec {zombies : List ℕ} {cur : ℕ} (h : Invariant s ring zombies cur) (ha : a.Valid s)
    (hs : act a s=some (s',ev)) :
    ∃ring' zombies cur,Invariant s' ring' zombies cur ∧ Turn a.Direct s s' ring (turns ev) ring':=by
  cases a with
  | op op=>
    obtain ⟨s1,ev1,hs1,hspec⟩:=step_spec h ha
    obtain ⟨rfl,rfl⟩:=Prod.mk.inj (some.inj (hs.symm.trans hs1))
    obtain ⟨ring',zombies,cur,hinv,hturn⟩:=hspec.turn
    refine ⟨ring',zombies,cur,hinv,?_⟩
    rwa [show (Act.op op).Direct=∃t,op = .wake t by simp [Act.Direct]]
  | ready t=>
    obtain ⟨rfl,rfl⟩:=Prod.mk.inj (some.inj hs)
    exact ⟨ring,zombies,cur,h.ready ha.1 ha.2,.stay⟩

theorem Acts.invariant {ok : Act→Sched→Prop} {garbage : ℕ→Task} {idleStack : ℕ}
    (h : Acts ok (init garbage idleStack) log s) : ∃ring zombies cur,Invariant s ring zombies cur:=by
  induction h with
  | start=>exact ⟨_,_,_,invariant_init garbage idleStack⟩
  | step a _ ha hs _ ih=>
    obtain ⟨ring,zombies,cur,hinv⟩:=ih
    obtain ⟨ring',zombies,cur,hinv',-⟩:=act_spec hinv ha hs
    exact ⟨ring',zombies,cur,hinv'⟩

/-- The tasks that had a turn. A second turn has no result, and a new task has had none. -/
def visits : List ℕ→List Event→Option (List ℕ)
  | seen, []=>some seen
  | seen, .switchContext _ u::ev=>if u∈seen then none else visits (u::seen) ev
  | seen, .kmallocTask t::ev=>visits (seen.filter (·≠t)) ev
  | seen, _::ev=>visits seen ev

theorem visits_append (seen : List ℕ) (l r : List Event) :
    visits seen (l++r)=(visits seen l).bind fun seen=>visits seen r:=by
  induction l generalizing seen with
  | nil=>rfl
  | cons e l ih=>cases e <;> simp only [cons_append,visits,ih]; split <;> rfl

theorem visits_turns (seen : List ℕ) (ev : List Event) : visits seen (turns ev)=visits seen ev:=by
  induction ev generalizing seen with
  | nil=>rfl
  | cons e ev ih=>
    cases e with
    | kmallocTask t=>exact ih _
    | switchContext p u=>
      change (if u∈seen then none else visits (u::seen) (turns ev))=_
      rw [ih,visits]
    | _=>exact ih seen

/-- A turn is forgotten only when the task's memory is allocated again. -/
theorem mem_of_visits {u : ℕ} (hu : u∈seen) (hnew : .kmallocTask u∉ev) (h : visits seen ev=some seen') :
    u∈seen':=by
  induction ev generalizing seen with
  | nil=>rwa [←some.inj h]
  | cons e ev ih=>
    have hrest : .kmallocTask u∉ev:=fun hm=>hnew (mem_cons_of_mem _ hm)
    cases e with
    | switchContext p v=>
      simp only [visits] at h
      split at h
      · cases h
      · exact ih (mem_cons_of_mem v hu) hrest h
    | kmallocTask t=>
      have hne : u≠t:=fun e=>hnew (e▸mem_cons_self)
      exact ih (mem_filter.mpr ⟨hu,by simpa using hne⟩) hrest h
    | _=>exact ih hu hrest h

theorem kmallocTask_mem_of_visits {l m r : List Event} {p q u : ℕ}
    (h : visits seen (l++.switchContext p u::(m++.switchContext q u::r))=some seen') : .kmallocTask u∈m:=by
  by_contra hnew
  rw [visits_append,bind_eq_some_iff] at h
  obtain ⟨seen1,-,h⟩:=h
  simp only [visits] at h
  split at h
  · cases h
  rw [visits_append,bind_eq_some_iff] at h
  obtain ⟨seen2,hm,h⟩:=h
  rw [visits,if_pos (mem_of_visits mem_cons_self hnew hm)] at h
  cases h

/-- No task that had a turn comes before `T` in the order of the turns to come. -/
def Ahead (T : ℕ) (seen ring : List ℕ) : Prop:=
  ∃cur rest A B,ring=cur::rest ∧ rest++[cur]=A++T::B ∧ ∀v∈seen,v∉A

/-- The tasks passed over are not `T`, so it comes behind the one that is switched to. -/
theorem split_behind {m n A B : List ℕ} {u cur : ℕ} (h : m++u::n++[cur]=A++T::B) (hm : T∉m) (hu : T≠u) :
    ∃A',A=m++u::A' ∧ n++[cur]=A'++T::B:=by
  rw [append_assoc] at h
  obtain ⟨A',rfl,hA⟩ | ⟨m',rfl,hA⟩:=append_eq_append_iff.mp h
  · cases A' with
    | nil=>exact absurd (cons.inj hA).1.symm hu
    | cons x A'=>
      obtain ⟨rfl,hn⟩:=cons.inj hA
      exact ⟨A',rfl,hn⟩
  · cases m' with
    | nil=>exact absurd (cons.inj hA).1 hu
    | cons x m'=>
      obtain ⟨rfl,-⟩:=cons.inj hA
      simp at hm

/-- One turn keeps whoever had a turn behind `T`, and the turn was not a second one. -/
theorem Ahead.turn (h : Ahead T seen ring) (ht : Turn False s s' ring ev ring') (hnd : ring.Nodup)
    (hT : ∀p,.switchContext p T∉ev) (hrun : s.runnable T=true) (hrun' : s'.runnable T=true) :
    ∃seen',visits seen ev=some seen' ∧ Ahead T seen' ring':=by
  obtain ⟨cur,rest,A,B,rfl,hAB,hseen⟩:=h
  cases ht with
  | stay=>exact ⟨seen,rfl,cur,rest,A,B,rfl,hAB,hseen⟩
  | @unused _ t=>exact ⟨_,rfl,cur,rest,A,B,rfl,hAB,fun v hv=>hseen v (mem_filter.mp hv).1⟩
  | @enqueue _ t=>
    refine ⟨_,rfl,cur,t::rest,t::A,B,rfl,by rw [cons_append,hAB,cons_append],fun v hv hvA=>?_⟩
    obtain ⟨hv,hne⟩:=mem_filter.mp hv
    obtain rfl | hvA:=mem_cons.mp hvA
    · simp at hne
    · exact hseen v hv hvA
  | @pass _ u m n kept hm hkept=>
    have hTu : T≠u:=fun e=>hT cur (e▸mem_cons_self)
    obtain ⟨A,rfl,hA⟩:=split_behind hAB (fun hTm=>by simp [hm T hTm] at hrun) hTu
    have hu : u∉n++[cur]:=by
      intro hu
      obtain ⟨hcur,hmn⟩:=nodup_cons.mp hnd
      obtain hun | hun:=mem_append.mp hu
      · exact (nodup_cons.mp (nodup_append.mp hmn).2.1).1 hun
      · exact hcur (mem_singleton.mp hun▸by simp)
    have hseen' : ∀v∈u::seen,v∉A:=by
      intro v hv hvA
      obtain rfl | hv:=mem_cons.mp hv
      · exact hu (hA▸mem_append_left _ hvA)
      · exact hseen v hv (by simp [hvA])
    refine ⟨u::seen,if_neg fun hus=>hseen u hus (by simp),u,n++kept++m,A,?_⟩
    obtain rfl | ⟨rfl,hdead⟩:=hkept
    · exact ⟨B++m++[u],by simp,by rw [hA]; simp,hseen'⟩
    -- the head is gone, and it was not `T`
    obtain rfl | ⟨B,x,rfl⟩:=eq_nil_or_concat' B
    · obtain ⟨-,hx⟩:=append_inj' hA rfl
      rw [(cons.inj hx).1] at hdead
      simp [hdead] at hrun'
    rw [←cons_append,←append_assoc] at hA
    obtain ⟨rfl,-⟩:=append_inj' hA rfl
    exact ⟨B++m++[u],by simp,by simp,hseen'⟩
  | jump hd=>exact hd.elim

theorem Acts.ahead {garbage : ℕ→Task} {idleStack : ℕ} (h0 : Acts (fun _ _=>True) (init garbage idleStack) log₀ s₀)
    (hcur : s₀.currentTask=some T) (h : Acts (fun a s'=>¬a.Direct ∧ s'.runnable T=true) s₀ log s)
    (hT : ∀p,.switchContext p T∉log) : s.runnable T=true ∧ ∃ring zombies cur seen,
    Invariant s ring zombies cur ∧ visits [] log=some seen ∧ Ahead T seen ring:=by
  induction h with
  | start=>
    obtain ⟨ring,zombies,cur,hinv⟩:=h0.invariant
    obtain rfl:=some.inj (hinv.current.symm.trans hcur)
    obtain ⟨rest,rfl⟩:=hinv.ring_eq
    have hrunning:=(hinv.running cur ((hinv.mem_ring cur).mp mem_cons_self).1).mpr rfl
    exact ⟨runnable_of_running hrunning,_,zombies,cur,[],hinv,rfl,cur,rest,rest,[],rfl,rfl,by simp⟩
  | step a _ ha hs hok ih=>
    obtain ⟨hrun,ring,zombies,cur,seen,hinv,hseen,hahead⟩:=ih fun p hp=>hT p (mem_append_left _ hp)
    obtain ⟨ring',zombies,cur,hinv',hturn⟩:=act_spec hinv ha hs
    rw [eq_false hok.1] at hturn
    obtain ⟨seen',hseen',hahead'⟩:=hahead.turn hturn hinv.nodup
      (fun p hp=>hT p (mem_append_right _ (mem_filter.mp hp).1)) hrun hok.2
    refine ⟨hok.2,ring',zombies,cur,seen',hinv',?_,hahead'⟩
    rw [visits_append,hseen,←hseen',visits_turns]
    rfl

def madeCurrent (log : List Event) : List ℕ:=log.filterMap fun | .switchContext _ u=>some u | _ => none

/-- Between two turns of a task that stays runnable, a task with two turns is one whose memory was allocated again:
no other task is made current more than once. -/
theorem bypass_bounded {garbage : ℕ→Task} {idleStack : ℕ} (h₀ : Acts (fun _ _=>True) (init garbage idleStack) log₀ s₀)
    (hcur : s₀.currentTask=some T) (h : Acts (fun a s'=>¬a.Direct ∧ s'.runnable T=true) s₀ log s)
    (hT : T∉madeCurrent log) {l m r : List Event} {p q u : ℕ}
    (hlog : log=l++.switchContext p u::(m++.switchContext q u::r)) : .kmallocTask u∈m:=by
  subst hlog
  obtain ⟨-,-,-,-,seen,-,hseen,-⟩:=
    Acts.ahead h₀ hcur h fun p hp=>hT (mem_filterMap.mpr ⟨_,hp,rfl⟩)
  exact kmallocTask_mem_of_visits hseen

def between : List Event:=[.kmallocTask 12,.kmalloc,.irqSaveDisable,.irqRestore,.irqSaveDisable,.switchContext 8 12,
  .kfree 9,.kfreeTask 8,.kmallocTask 8,.kmalloc,.irqSaveDisable,.irqRestore,.irqSaveDisable]

/-- While the idle task waits, task 8 has its turn and ends, and a new task in its memory has a turn. -/
theorem bypass_bounded_reused : ∃s,Acts (fun a s'=>¬a.Direct ∧ s'.runnable idleTask=true)
    (init (fun _=>blankTask) 100) ([.kmallocTask 8,.kmalloc,.irqSaveDisable,.irqRestore,.kmallocTask 10,.kmalloc,
    .irqSaveDisable,.irqRestore,.irqSaveDisable,.switchContext 0 10,.irqSaveDisable]++
    .switchContext 10 8::(between++[.switchContext 12 8])) s ∧ .kmallocTask 8∈between:=by
  have hd (op : Op) (h : ∀t,op≠.wake t) : ¬(Act.op op).Direct:=by simpa [Act.Direct] using h
  have hrun:=(Acts.start : Acts (fun a s'=>¬a.Direct ∧ s'.runnable idleTask=true) (init (fun _=>blankTask) 100) [] _)
    |>.step (.op (.spawn (some 8) (some 9) 16384 2)) (by simp [Act.Valid,Op.Valid,Sched.IsTask,init,idleTask]) rfl
      ⟨hd _ (by simp),rfl⟩
    |>.step (.op (.spawn (some 10) (some 11) 16384 2)) (show ∀p,_→¬(_ ∨ _) by simp; decide) rfl ⟨hd _ (by simp),rfl⟩
    |>.step (.op .yield) trivial rfl ⟨hd _ (by simp),rfl⟩
    |>.step (.op .yield) trivial rfl ⟨hd _ (by simp),rfl⟩
    |>.step (.op (.spawn (some 12) (some 13) 16384 2)) (by simp [Act.Valid,Op.Valid]; decide) rfl ⟨hd _ (by simp),rfl⟩
    |>.step (.op (.exit 0)) (show (_ : Option ℕ)≠some idleTask by decide) rfl ⟨hd _ (by simp),rfl⟩
    |>.step (.op .tick) trivial rfl ⟨hd _ (by simp),rfl⟩
    |>.step (.op (.spawn (some 8) (some 9) 16384 2)) (by simp [Act.Valid,Op.Valid]; decide) rfl ⟨hd _ (by simp),rfl⟩
    |>.step (.op .yield) trivial rfl ⟨hd _ (by simp),rfl⟩
  exact Exists.imp (fun s hs=>⟨hs,bypass_bounded .start rfl hs (by decide) rfl⟩) ⟨_,hrun⟩

end Knail.Scheduler
