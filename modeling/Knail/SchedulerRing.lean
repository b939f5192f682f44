import Knail.SchedulerShape

/-!
# The run queue stays one ring over every run

Every scheduler operation keeps the run queue and the zombie list apart: the ring holds the idle task and every task
that is not dead, once each, the current task heads it and is the only running one, and only zombies are freed.
-/
namespace Knail.Scheduler

open List

variable {s s' : Sched} {ring zombies : List ℕ} {cur p : ℕ} {ev log : List Event}
  {live ring' : List ℕ} {cur' dead : ℕ} {t : Option ℕ} {d : Prop}

inductive Op
  | spawn (task stack : Option ℕ) (stackSize quantum : ℕ)
  | enqueueNew (t : ℕ) (new : Task)
  | tick
  | yield
  | blockCurrent
  | wake (t : Option ℕ)
  | wait
  | exit (code : ℤ)
  | preemptDisable
  | preemptEnable

def step : Op→Sched→Option (Sched×List Event)
  | .spawn t st size q, s=>some ((spawn t st size q s).1,(spawn t st size q s).2.2)
  | .enqueueNew t new, s=>some (enqueueNew t new s)
  | .tick, s=>tick s
  | .yield, s=>yield s
  | .blockCurrent, s=>blockCurrent s
  | .wake t, s=>wake t s
  | .wait, s=>(wait s).map fun r=>(r.1,r.2.2)
  | .exit code, s=>exit code s
  | .preemptDisable, s=>some (preemptDisable s,[])
  | .preemptEnable, s=>some (preemptEnable s,[])

/-- The heap returns objects that are not in use, a new task is ready, the idle task
neither blocks nor exits, and only tasks that are not dead are woken. -/
def Op.Valid (s : Sched) : Op→Prop
  | .spawn t _ _ _=>∀p,t=some p→¬s.IsTask p
  | .enqueueNew t new=>¬s.IsTask t ∧ new.state = .ready
  | .blockCurrent | .exit _=>s.currentTask≠some idleTask
  | .wait=>s.currentTask=some idleTask→∀r,Scheduler.wait s=some r → r.2.1≠.blocked
  | .wake t=>∀p,t=some p→s.IsTask p ∧ (s.task p).state≠.dead
  | .tick | .yield | .preemptDisable | .preemptEnable=>True

/-- The Task objects in use after a sequence of heap calls. A second release of an
object, or an allocation of one in use, has no result. -/
def replay : List ℕ→List Event→Option (List ℕ)
  | live, []=>some live
  | live, .kmallocTask p::ev=>if p∈live then none else replay (p::live) ev
  | live, .kfreeTask p::ev=>if p∈live then replay (live.erase p) ev else none
  | live, _::ev=>replay live ev

/-- The pointer is reached from the run queue by following `next`. -/
def OnRing (s : Sched) (p : ℕ) : Prop:=∃xs,Path s.next s.runQueue xs (some p)

theorem replay_append (live : List ℕ) (l r : List Event) : replay live (l++r)=(replay live l).bind (replay · r):=by
  induction l generalizing live with
  | nil=>rfl
  | cons e l ih=>cases e <;> simp only [cons_append,replay] <;> first | exact ih _ | (split <;> simp [ih])

theorem replay_releaseEvents (h : p∈live) (t : Task) : replay live (releaseEvents p t)=some (live.erase p):=by
  cases hs : t.stack <;> cases hc : t.syscallStack <;> simp [releaseEvents,replay,hs,hc,h]

theorem replay_reap {zs : List ℕ} (f : ℕ→Task) (hz : zs.Nodup) (hl : ∀z∈zs,z∈live) :
    replay live (zs.flatMap fun z=>releaseEvents z (f z))=some (live.diff zs):=by
  induction zs generalizing live with
  | nil=>rfl
  | cons z zs ih=>
    rw [nodup_cons] at hz
    rw [flatMap_cons,replay_append,replay_releaseEvents (hl z mem_cons_self),diff_cons]
    refine ih hz.2 fun y hy=>?_
    have hyz : y≠z:=fun e=>hz.1 (e▸hy)
    exact (mem_erase_of_ne hyz).mpr (hl y (mem_cons_of_mem _ hy))

theorem Shape.onRing_iff (h : Shape s ring zombies) : OnRing s p↔p∈ring:=by
  constructor
  · rintro ⟨xs,hxs⟩
    obtain ⟨r,rest,rfl⟩:=exists_cons_of_ne_nil h.ring_ne_nil
    have hclosed (x y : ℕ) (hx : x∈r::rest) (hy : s.next x=some y) : y∈r::rest:=by
      obtain ⟨l,m,he⟩:=append_of_mem hx
      have hm:=(he▸h.cycle).split.2
      rw [hy] at hm
      cases m with
      | nil=>
        obtain rfl:=Option.some.inj (Eq.trans hm h.cycle.1)
        exact mem_cons_self
      | cons z m=>
        obtain rfl:=Option.some.inj hm.1
        rw [he]
        simp
    -- following `next` from a node of the ring never leaves the ring
    have hstay (ys : List ℕ) (a : Option ℕ) (ha : ∀x,a=some x→x∈r::rest)
        (hp : Path s.next a ys (some p)) : p∈r::rest:=by
      induction ys generalizing a with
      | nil=>exact ha p hp
      | cons x ys ih=>exact ih (s.next x) (fun y hy=>hclosed x y (ha x hp.1) hy) hp.2
    refine hstay xs s.runQueue (fun x hx=>?_) hxs
    obtain rfl:=Option.some.inj (hx.symm.trans h.cycle.1)
    exact mem_cons_self
  · intro hp
    obtain ⟨l,m,rfl⟩:=append_of_mem hp
    exact ⟨l,h.cycle.split.1⟩

def turns (ev : List Event) : List Event:=
  ev.filter fun | .kmallocTask _ | .switchContext _ _=>true | _ => false

@[simp] theorem turns_append (l r : List Event) : turns (l++r)=turns l++turns r:=filter_append _ _

/-- What an operation does to the ring. A new task is linked in behind the head, or the turn passes to the first
runnable task behind the head while the head stays in the ring or dies. A direct switch may pass over tasks. -/
inductive Turn (direct : Prop) (s s' : Sched) : List ℕ→List Event→List ℕ→Prop
  | stay {ring : List ℕ} : Turn direct s s' ring [] ring
  | unused {ring : List ℕ} {t : ℕ} : Turn direct s s' ring [.kmallocTask t] ring
  | enqueue {cur t : ℕ} {rest : List ℕ} : Turn direct s s' (cur::rest) [.kmallocTask t] (cur::t::rest)
  | pass {cur u : ℕ} {m n kept : List ℕ} : (∀p∈m,s.runnable p=false) →
      (kept=[cur] ∨ kept=[] ∧ s'.runnable cur=false) →
      Turn direct s s' (cur::m++u::n) [.switchContext cur u] (u::n++kept++m)
  | jump {ring ring' : List ℕ} {ev : List Event} : direct→Turn direct s s' ring ev ring'

/-- What one operation guarantees: the invariant, a legal use of the heap, and that no
task is released while it is in the ring. -/
structure StepSpec (direct : Prop) (s : Sched) (ring : List ℕ) (ev : List Event) (s' : Sched) : Prop where
  turn : ∃ring' zombies cur,Invariant s' ring' zombies cur ∧ Turn direct s s' ring (turns ev) ring'
  heap : replay s.heap ev=some s'.heap
  freed : ∀p∈freedTasks ev,¬OnRing s p ∧ ¬OnRing s' p

theorem StepSpec.invariant (h : StepSpec d s ring ev s') : ∃ring zombies cur,Invariant s' ring zombies cur:=by
  obtain ⟨ring',zombies,cur,hinv,-⟩:=h.turn
  exact ⟨ring',zombies,cur,hinv⟩

theorem StepSpec.mono (h : StepSpec False s ring ev s') : StepSpec d s ring ev s':=by
  obtain ⟨⟨ring',zombies,cur,hinv,hturn⟩,hheap,hfreed⟩:=h
  refine ⟨⟨ring',zombies,cur,hinv,?_⟩,hheap,hfreed⟩
  generalize turns ev=v at hturn ⊢
  cases hturn with
  | stay=>exact .stay
  | unused=>exact .unused
  | enqueue=>exact .enqueue
  | pass hm hk=>exact .pass hm hk
  | jump h=>exact h.elim

theorem StepSpec.irqSave (h : StepSpec d s ring ev s') : StepSpec d s ring ([.irqSaveDisable]++ev) s' where
  turn:=h.turn
  heap:=h.heap
  freed:=h.freed

/-- The turn after `reschedule`: it passes on, unless the head is alone. -/
theorem turn_of_pick {rest m n : List ℕ} {nxt : ℕ} (hl : rest++[cur]=m++nxt::n)
    (hm : ∀p∈m,p∈rest ∧ s.runnable p=false) (hnd : (cur::rest).Nodup) :
    Turn d s s' (cur::rest) (if nxt=cur then [] else [.switchContext cur nxt]) (nxt::n++m):=by
  rcases eq_nil_or_concat' n with rfl | ⟨n,x,rfl⟩
  · obtain ⟨rfl,hx⟩:=append_inj' hl rfl
    obtain rfl : cur=nxt:=by simpa using hx
    rw [if_pos rfl]
    exact .stay
  · rw [show m++nxt::(n++[x])=m++nxt::n++[x] by simp] at hl
    obtain ⟨rfl,hx⟩:=append_inj' hl rfl
    obtain rfl : cur=x:=by simpa using hx
    rw [if_neg (by rintro rfl; simp at hnd)]
    exact .pass (fun p hp=>(hm p hp).2) (.inl rfl)

section

variable (h : Invariant s ring zombies cur)
include h

theorem Invariant.congr (hl : SameLinks s s')
    (hc : s'.currentTask=s.currentTask) (hs : ∀p,(s'.task p).state=(s.task p).state) :
    Invariant s' ring zombies cur where
  toShape:=h.toShape.congr hl (by rw [Sched.runnable,hs]; exact h.idle_runnable)
  current:=hc.trans h.current
  head:=hl.runQueue.trans h.head
  running:=by
    intro p hp
    rw [Sched.IsTask,hl.heap] at hp
    rw [hs]
    exact h.running p hp

theorem Invariant.setPreemptCount (n : ℕ) : Invariant {s with preemptCount:=n} ring zombies cur:=
  h.congr ⟨rfl,rfl,rfl,rfl,fun _=>.rfl⟩ rfl fun _=>rfl

theorem Invariant.modify (p : ℕ) {f : Task→Task} (hn : ∀t,(f t).next=t.next) (hs : ∀t,(f t).state=t.state) :
    Invariant (s.modify p f) ring zombies cur:=by
  refine h.congr (sameLinks_modify s p hn (by rw [hs])) rfl fun q=>?_
  rw [Sched.task_modify]
  split
  · next e => rw [hs,e]
  · rfl

theorem Invariant.reap : Invariant {s with zombieList:=none,heap:=s.heap.diff zombies} ring [] cur where
  toShape:=h.toShape.reap
  current:=h.current
  head:=h.head
  running:=fun p hp=>h.running p (hp.imp_right fun hm=>(h.heap_nodup.mem_sdiff_iff.mp hm).1)

theorem Invariant.ring_eq : ∃rest,ring=cur::rest:=by
  obtain ⟨x,rest,rfl⟩:=exists_cons_of_ne_nil h.ring_ne_nil
  exact ⟨rest,by rw [Option.some.inj (h.head.symm.trans h.cycle.1)]⟩

theorem Invariant.reschedule : ∃nxt s' ring',pickNext s=some nxt ∧
    doSwitch nxt s=some (s',if nxt=cur then [] else [.switchContext cur nxt]) ∧ Invariant s' ring' zombies nxt ∧
    ring'.Perm ring ∧ s'.heap=s.heap ∧ ∀s0,(∀p,s0.runnable p=s.runnable p) →
    Turn d s0 s' ring (if nxt=cur then [] else [.switchContext cur nxt]) ring':=by
  obtain ⟨rest,rfl⟩:=h.ring_eq
  have hcur:=(h.running cur ((h.mem_ring cur).mp mem_cons_self).1).mpr rfl
  obtain ⟨nxt,m,n,s',hl,hm,hp,hdo,hinv,hheap⟩:=
    Scheduler.reschedule h.toShape h.current (fun p hp=>(h.running p hp).mp) fun _=>⟨rfl,hcur⟩
  have hperm:=(perm_append_comm.trans (.of_eq hl.symm)).trans (perm_append_singleton cur rest)
  refine ⟨nxt,s',_,hp,hdo,hinv,hperm,hheap,fun s0 hs=>turn_of_pick hl (fun p hp=>?_) h.nodup⟩
  rw [hs]
  exact hm p hp

end

theorem replay_switch (live : List ℕ) (a b : ℕ) : replay live (if a=b then [] else [.switchContext b a])=some live:=by
  split <;> rfl

theorem replay_restoreUnlessSwitched (live : List ℕ) (a b : ℕ) :
    replay live (restoreUnlessSwitched (if a=b then [] else [.switchContext b a]))=some live:=by
  split <;> rfl

theorem turns_switch (a b : ℕ) :
    turns (if a=b then [] else [.switchContext b a])=(if a=b then [] else [.switchContext b a]):=by
  split <;> rfl

theorem turns_restoreUnlessSwitched (a b : ℕ) : turns (restoreUnlessSwitched (if a=b then [] else [.switchContext b a])) =
    if a=b then [] else [.switchContext b a]:=by
  split <;> rfl

theorem turns_releaseEvents (f : ℕ→Task) (zs : List ℕ) : turns (zs.flatMap fun z=>releaseEvents z (f z))=[]:=by
  induction zs with
  | nil=>rfl
  | cons z zs ih=>
    rw [flatMap_cons,turns_append,ih]
    cases hs : (f z).stack <;> cases hc : (f z).syscallStack <;> simp [releaseEvents,turns,hs,hc]

theorem freedTasks_switch (a b : ℕ) : freedTasks (if a=b then [] else [.switchContext b a])=[]:=by
  split <;> rfl

theorem freedTasks_restoreUnlessSwitched (a b : ℕ) :
    freedTasks (restoreUnlessSwitched (if a=b then [] else [.switchContext b a]))=[]:=by
  split <;> rfl

section

variable (h : Invariant s ring zombies cur)
include h

theorem Invariant.stepSpec_reap
    (h' : Invariant s' ring' [] cur') (hperm : ring'.Perm ring) (hheap : s'.heap=s.heap.diff zombies)
    (hev : ∀live,replay live ev=some live) (hfree : freedTasks ev=[]) (hturn : Turn d s s' ring (turns ev) ring') :
    StepSpec d s ring ((zombies.flatMap fun z=>releaseEvents z (s.task z))++ev) s' where
  turn:=⟨ring',[],cur',h',by rwa [turns_append,turns_releaseEvents]⟩
  heap:=by
    rw [replay_append,replay_reap _ h.zombie_path.nodup_of_none fun z hz=>((h.mem_zombies z).mp hz).1,
      Option.bind_some,hev,hheap]
  freed:=by
    intro p hp
    rw [freedTasks_append,freedTasks_flatMap_releaseEvents,hfree,append_nil] at hp
    rw [h.onRing_iff,h'.onRing_iff,hperm.mem_iff]
    exact ⟨fun hm=>h.notMem_zombies hm hp,fun hm=>h.notMem_zombies hm hp⟩

theorem tick_spec : ∃s' ev,tick s=some (s',ev) ∧ StepSpec False s ring ev s':=by
  have h1:=h.reap
  set s1 : Sched:={s with zombieList:=none,heap:=s.heap.diff zombies} with hs1
  let s2:=if 0<(s1.task cur).timeslice then
    s1.modify cur (fun t=>{t with timeslice:=t.timeslice-1}) else s1
  have h2 : Invariant s2 ring [] cur:=by
    dsimp only [s2]
    split
    · exact h1.modify cur (fun _=>rfl) fun _=>rfl
    · exact h1
  have hheap2 : s2.heap=s.heap.diff zombies:=by
    dsimp only [s2]
    split <;> rfl
  have hrun (p : ℕ) : s.runnable p=s2.runnable p:=by
    dsimp only [s2]
    split
    · rw [Sched.runnable,Sched.runnable,Sched.task_modify]
      split <;> simp [*]
    · rfl
  have hc:=h1.current
  by_cases hsw : (s2.task cur).timeslice=0 ∧ s2.preemptCount=0
  · obtain ⟨nxt,s3,ring',hpick,hdo,h3,hperm,hheap,hturn⟩:=h2.reschedule
    refine ⟨s3,_,?_,h.stepSpec_reap h3 hperm (hheap.trans hheap2) (replay_switch · nxt cur)
      (freedTasks_switch nxt cur) (by rw [turns_switch]; exact hturn s hrun)⟩
    simp only [tick,reapZombies_spec h.toShape,←hs1,Option.bind_eq_bind,Option.bind_some,hc]
    rw [if_pos hsw]
    rw [hpick,Option.bind_some]
    rw [hdo]
    rfl
  · have hspec:=h.stepSpec_reap (d:=False) h2 (.refl _) hheap2 (fun live=>show replay live []=_ from rfl) rfl .stay
    rw [append_nil] at hspec
    refine ⟨s2,_,?_,hspec⟩
    simp only [tick,reapZombies_spec h.toShape,←hs1,Option.bind_eq_bind,Option.bind_some,hc]
    rw [if_neg hsw]
    rfl

theorem yield_spec : ∃s' ev,yield s=some (s',ev) ∧ StepSpec False s ring ev s':=by
  have h1:=h.reap
  set s1 : Sched:={s with zombieList:=none,heap:=s.heap.diff zombies} with hs1
  have h2:=h1.modify cur (f:=({· with timeslice:=0})) (fun _=>rfl) fun _=>rfl
  have hc:=h1.current
  have hrun (p : ℕ) : s.runnable p=(s1.modify cur ({· with timeslice:=0})).runnable p:=by
    rw [Sched.runnable,Sched.runnable,Sched.task_modify]
    split <;> simp [*]
  obtain ⟨nxt,s3,ring',hpick,hdo,h3,hperm,hheap,hturn⟩:=h2.reschedule
  have hspec:=h.stepSpec_reap h3 hperm hheap (replay_restoreUnlessSwitched · nxt cur)
    (freedTasks_restoreUnlessSwitched nxt cur) (by rw [turns_restoreUnlessSwitched]; exact hturn s hrun)
  refine ⟨s3,_,?_,hspec.irqSave⟩
  simp only [yield,reapZombies_spec h.toShape,←hs1,Option.bind_eq_bind,Option.bind_some,hc,hpick,hdo,
    append_assoc,Option.pure_def]

theorem Invariant.block (hidle : s.currentTask≠some idleTask) :
    ∃nxt s' ring',pickNext (s.modify cur ({· with state:=.blocked}))=some nxt ∧
      doSwitch nxt (s.modify cur ({· with state:=.blocked})) =
        some (s',if nxt=cur then [] else [.switchContext cur nxt]) ∧
      Invariant s' ring' zombies nxt ∧ s'.heap=s.heap ∧
      Turn False s s' ring (if nxt=cur then [] else [.switchContext cur nxt]) ring':=by
  have hci : idleTask≠cur:=fun e=>hidle (e▸h.current)
  obtain ⟨rest,rfl⟩:=h.ring_eq
  have hl:=sameLinks_modify s cur (f:=({· with state:=.blocked})) (fun _=>rfl)
    (by simpa using ((h.mem_ring cur).mp mem_cons_self).2)
  have hshape:=h.toShape.congr hl (by
    rw [Sched.runnable,Sched.task_modify_of_ne _ _ hci]
    exact h.idle_runnable)
  obtain ⟨nxt,m,n,s',hlist,hm,hp,hdo,hinv,hheap⟩:=Scheduler.reschedule hshape h.current
    (by
      intro p hp hr
      by_contra hpc
      rw [Sched.task_modify_of_ne _ _ hpc] at hr
      exact hpc ((h.running p hp).mp hr))
    (by
      intro hr
      simp [Sched.runnable] at hr)
  refine ⟨nxt,s',_,hp,hdo,hinv,hheap,turn_of_pick hlist (fun p hp=>⟨(hm p hp).1,?_⟩) h.nodup⟩
  have hpc : p≠cur:=fun e=>(nodup_cons.mp h.nodup).1 (e▸(hm p hp).1)
  have hrun:=(hm p hp).2
  rwa [Sched.runnable,Sched.task_modify_of_ne _ _ hpc] at hrun

end

theorem Invariant.stepSpec_keep {zombies' : List ℕ} (h' : Invariant s' ring' zombies' cur')
    (hheap : s'.heap=s.heap) (hev : ∀live,replay live ev=some live) (hfree : freedTasks ev=[])
    (hturn : Turn d s s' ring (turns ev) ring') : StepSpec d s ring ev s' where
  turn:=⟨ring',zombies',cur',h',hturn⟩
  heap:=by rw [hev,hheap]
  freed:=by simp [hfree]

section

variable (h : Invariant s ring zombies cur)
include h

theorem blockCurrent_spec (hidle : s.currentTask≠some idleTask) :
    ∃s' ev,blockCurrent s=some (s',ev) ∧ StepSpec False s ring ev s':=by
  obtain ⟨nxt,s1,ring',hpick,hdo,h1,hheap,hturn⟩:=h.block hidle
  refine ⟨s1,_,?_,(h1.stepSpec_keep hheap (replay_restoreUnlessSwitched · nxt cur)
    (freedTasks_restoreUnlessSwitched nxt cur) (by rwa [turns_restoreUnlessSwitched])).irqSave⟩
  simp only [blockCurrent,h.current,Option.bind_eq_bind,Option.bind_some,hpick,hdo,Option.pure_def]

theorem Invariant.ready {t : ℕ} (ht : s.IsTask t) (hb : (s.task t).state = .blocked) :
    Invariant (s.modify t ({· with state:=.ready})) ring zombies cur:=by
  have htc : t≠cur:=by
    rintro rfl
    have:=(h.running t ht).mpr rfl
    simp [hb] at this
  have hl:=sameLinks_modify s t (f:=({· with state:=.ready})) (fun _=>rfl) (by simp [hb])
  refine ⟨h.toShape.congr hl ?_,h.current,h.head,fun p hp=>?_⟩
  · by_cases hit : idleTask=t
    · rw [hit]
      simp [Sched.runnable]
    · rw [Sched.runnable,Sched.task_modify_of_ne _ _ hit]
      exact h.idle_runnable
  · by_cases hpt : p=t
    · subst hpt
      simp [htc]
    · rw [Sched.task_modify_of_ne _ _ hpt]
      exact h.running p hp

theorem wake_spec (ht : ∀p,t=some p→s.IsTask p ∧ (s.task p).state≠.dead) :
    ∃s' ev,wake t s=some (s',ev) ∧ StepSpec True s ring ev s':=by
  cases t with
  | none=>exact ⟨s,[],rfl,h.stepSpec_keep rfl (fun _=>rfl) rfl .stay⟩
  | some t=>
    by_cases hb : (s.task t).state = .blocked
    swap
    · exact ⟨s,[],by simp [wake,hb],h.stepSpec_keep rfl (fun _=>rfl) rfl .stay⟩
    have h1:=h.ready (ht t rfl).1 hb
    obtain ⟨l,m,rfl⟩:=append_of_mem ((h.mem_ring t).mpr (ht t rfl))
    have htc : t≠cur:=by
      rintro rfl
      have:=(h.running t (ht t rfl).1).mpr rfl
      simp [hb] at this
    by_cases hc : s.currentTask=some idleTask
    · obtain ⟨s2,hdo,h2,hheap⟩:=doSwitch_spec h1.toShape h1.current
        (fun p hp=>(h1.running p hp).mp) fun e=>absurd e htc
      refine ⟨s2,_,?_,h2.stepSpec_keep hheap (replay_switch · t cur) (freedTasks_switch t cur) (.jump trivial)⟩
      simpa [wake,hb,hc] using hdo
    · exact ⟨_,[],by simp [wake,hb,hc],h1.stepSpec_keep rfl (fun _=>rfl) rfl .stay⟩

theorem spawn_spec {st : Option ℕ} {size q : ℕ}
    (ht : ∀p,t=some p→¬s.IsTask p) : StepSpec False s ring (spawn t st size q s).2.2 (spawn t st size q s).1:=by
  cases t with
  | none=>exact ⟨⟨ring,zombies,cur,h,.stay⟩,rfl,by simp [spawn,freedTasks]⟩
  | some t=>
    have hth : t∉s.heap:=fun hm=>ht t rfl (.inr hm)
    have hring : ¬OnRing s t:=fun hm=>ht t rfl ((h.mem_ring t).mp (h.onRing_iff.mp hm)).1
    cases st with
    | none=>
      refine ⟨⟨ring,zombies,cur,h,.unused⟩,by simp [spawn,replay,hth],?_⟩
      intro p hp
      obtain rfl : p=t:=by simpa [spawn,freedTasks] using hp
      exact ⟨hring,hring⟩
    | some st=>
      let new : Task:={ s.task t with
        stack:=some st,stackSize:=size,syscallStack:=none,fdTable:=none,
        state:=.ready,tid:=s.nextTid,quantum:=q,timeslice:=q,next:=none,pml4:=none }
      obtain ⟨rest,rfl⟩:=h.ring_eq
      have h':=h.enqueue (n:=u32 (s.nextTid+1)) (ht t rfl) (show new.state = .ready from rfl)
      refine ⟨⟨_,zombies,cur,h',.enqueue⟩,?_,by simp [spawn,freedTasks]⟩
      have hq:=h.head
      simp [spawn,replay,hth,enqueue,hq]

theorem enqueueNew_spec {t : ℕ} {new : Task} (ht : ¬s.IsTask t)
    (hnew : new.state = .ready) : StepSpec False s ring (enqueueNew t new s).2 (enqueueNew t new s).1:=by
  obtain ⟨rest,rfl⟩:=h.ring_eq
  have h':=h.enqueue (n:=u32 (s.nextTid+1)) ht hnew
  have hth : t∉s.heap:=fun hm=>ht (.inr hm)
  have hq:=h.head
  exact ⟨⟨_,zombies,cur,h',.enqueue⟩,by simp [enqueueNew,replay,hth,enqueue,hq],by simp [enqueueNew,freedTasks]⟩

theorem blockCurrent_total : ∃r,blockCurrent s=some r:=by
  let s1:=s.modify cur ({· with state:=.blocked})
  have hnext : s1.next=s.next:=s.next_modify cur fun _=>rfl
  have hfuel : ring.length ≤ s1.fuel:=Nat.le_trans h.length_ring (by simp [Sched.fuel,s1])
  have hcycle : Path s1.next (some cur) ring (some cur):=by
    rw [hnext,←h.head]
    exact h.cycle
  obtain ⟨t,-,hp⟩:=pickNext_eq hcycle h.ring_ne_nil h.head hfuel
  obtain ⟨r,hr⟩:=doSwitch_total (show s1.currentTask=some cur from h.current)
    (if s1.runnable t then t else idleTask)
  exact ⟨(r.1,[.irqSaveDisable]++restoreUnlessSwitched r.2),by
    simp only [blockCurrent,h.current,Option.bind_eq_bind,Option.bind_some]
    rw [hp,Option.bind_some]
    rw [hr]
    rfl⟩

end

def IsChild (s : Sched) (cur p : ℕ) : Prop:=(s.task p).parentTid=(s.task cur).tid

/-- What a pass of `wait` does: it takes a zombie child, it fails without zombies and without children, or it
blocks. -/
theorem wait_eq (h : Invariant s ring zombies cur) : (∃l z r,zombies=l++z::r ∧ IsChild s cur z ∧
    wait s=some ({s.unlinkZombie z l.getLast? with heap:=s.heap.erase z},
        .reaped (s.task z).tid (s.task z).exitCode,[.irqSaveDisable]++releaseEvents z (s.task z)++[.irqRestore])) ∨
    (∀z∈zombies,¬IsChild s cur z) ∧
      (zombies=[] ∧ (∀t∈ring,¬IsChild s cur t) ∧ wait s=some (s,.notFound,[.irqSaveDisable,.irqRestore]) ∨
        (zombies=[]→∃t∈ring,IsChild s cur t) ∧
          wait s=(blockCurrent s).map fun r=>(r.1,.blocked,r.2)):=by
  have hfuel : zombies.length<s.fuel:=by
    have:=h.length_zombies
    simp only [Sched.fuel]
    omega
  rcases findZombie_spec h.zombie_path hfuel (s.task cur).tid none with ⟨pr,hf,hnone⟩ | ⟨l,z,r,rfl,hz,hf⟩
  · obtain ⟨b,hb,hliving⟩:=livingChild_spec (s.task cur).tid h.toShape
    have hempty : s.zombieList=none↔zombies=[]:=by
      refine ⟨fun he=>Path.eq_nil_of_none (he▸h.zombie_path),?_⟩
      rintro rfl
      exact h.zombie_path
    refine .inr ⟨hnone,?_⟩
    by_cases hall : s.zombieList=none ∧ b=false
    · refine .inl ⟨hempty.mp hall.1,fun t ht hc=>?_,?_⟩
      · simpa [hall.2] using hliving.mpr ⟨t,ht,hc⟩
      · simp only [wait,h.current,Option.bind_eq_bind,Option.bind_some,hf,hb,if_pos hall]
        rfl
    · refine .inr ⟨fun he=>hliving.mp (by simpa [hempty.mpr he] using hall),?_⟩
      simp only [wait,blockCurrent,h.current,Option.bind_eq_bind,Option.bind_some,hf,hb,if_neg hall]
      cases pickNext (s.modify cur ({· with state:=.blocked})) with
      | none=>rfl
      | some nxt=>cases hdo : doSwitch nxt (s.modify cur ({· with state:=.blocked})) <;> simp [hdo]
  · refine .inl ⟨l,z,r,rfl,hz,?_⟩
    cases hlast : l.getLast? <;> simp [wait,h.current,hf,hlast,Sched.unlinkZombie]

theorem wait_spec (h : Invariant s ring zombies cur)
    (hidle : s.currentTask=some idleTask→∀r,wait s=some r → r.2.1≠.blocked) :
    ∃s' res ev,wait s=some (s',res,ev) ∧ StepSpec False s ring ev s':=by
  rcases wait_eq h with ⟨l,z,r,rfl,-,hw⟩ | ⟨-,⟨-,-,hw⟩ | ⟨-,hw⟩⟩
  · obtain ⟨s1,hs1⟩ : ∃s1 : Sched,s1={s.unlinkZombie z l.getLast? with heap:=s.heap.erase z}:=⟨_,rfl⟩
    rw [←hs1] at hw
    obtain ⟨h1,hstate⟩:=h.toShape.takeZombie hs1
    have hz : z∈l++z::r:=by simp
    have hzh : z∈s.heap:=((h.mem_zombies z).mp hz).1
    have hheap : s1.heap=s.heap.erase z:=by rw [hs1]
    have hcur : s1.currentTask=s.currentTask ∧ s1.runQueue=s.runQueue:=by
      rw [hs1]
      cases l.getLast? <;> exact ⟨rfl,rfl⟩
    have hrun (p : ℕ) (hp : s1.IsTask p) : (s1.task p).state = .running↔p=cur:=by
      rw [hstate]
      exact h.running p (hp.imp_right fun hm=>mem_of_mem_erase (hheap▸hm))
    refine ⟨s1,_,_,hw,⟨ring,l++r,cur,⟨h1,hcur.1.trans h.current,hcur.2.trans h.head,hrun⟩,?_⟩,?_,?_⟩
    · have : turns (releaseEvents z (s.task z))=[]:=by simpa using turns_releaseEvents s.task [z]
      rw [turns_append,turns_append,this]
      exact .stay
    · simp [replay_append,replay,replay_releaseEvents hzh,hheap]
    intro p hp
    rw [freedTasks_append,freedTasks_append,freedTasks_releaseEvents] at hp
    obtain rfl : p=z:=by simpa [freedTasks] using hp
    rw [h.onRing_iff,h1.onRing_iff]
    exact ⟨fun hm=>h.notMem_zombies hm hz,fun hm=>h.notMem_zombies hm hz⟩
  · exact ⟨s,.notFound,_,hw,h.stepSpec_keep rfl (fun _=>rfl) rfl .stay⟩
  · by_cases hc : s.currentTask=some idleTask
    · obtain ⟨r,hr⟩:=blockCurrent_total h
      rw [hr] at hw
      exact absurd rfl (hidle hc _ hw)
    · obtain ⟨s',ev,hblock,hspec⟩:=blockCurrent_spec h hc
      exact ⟨s',.blocked,ev,by rw [hw,hblock]; rfl,hspec⟩

/-- The part of `exit` before the unlinking: the caller is dead, a blocked parent may
have become ready, and nothing moved. -/
structure Dying (s s' : Sched) (dead : ℕ) : Prop where
  heap : s'.heap=s.heap
  runQueue : s'.runQueue=s.runQueue
  zombieList : s'.zombieList=s.zombieList
  currentTask : s'.currentTask=s.currentTask
  next : s'.next=s.next
  isDead : (s'.task dead).state = .dead
  other : ∀p,p≠dead →
    (s'.task p).state=(s.task p).state ∨ (s.task p).state = .blocked ∧ (s'.task p).state = .ready

theorem Dying.reparented {t : Sched} (h : Dying s s' dead) (hr : Reparented s' t) : Dying s t dead:=by
  obtain ⟨f,rfl⟩:=hr
  exact ⟨h.heap,h.runQueue,h.zombieList,h.currentTask,h.next,h.isDead,h.other⟩

theorem Dying.ready {t : ℕ} (h : Dying s s' dead) (ht : (s'.task t).state = .blocked) :
    Dying s (s'.modify t ({· with state:=.ready})) dead:=by
  have htd : dead≠t:=by
    rintro rfl
    simp [h.isDead] at ht
  refine ⟨h.heap,h.runQueue,h.zombieList,h.currentTask,?_,?_,?_⟩
  · rw [s'.next_modify t (by exact fun _=>rfl)]
    exact h.next
  · rw [Sched.task_modify_of_ne _ _ htd]
    exact h.isDead
  intro p hp
  by_cases hpt : p=t
  · subst hpt
    refine .inr ⟨?_,by simp⟩
    rcases h.other p hp with hs | ⟨-,hs⟩
    · exact hs▸ht
    · simp [ht] at hs
  · rw [Sched.task_modify_of_ne _ _ hpt]
    exact h.other p hp

theorem exit_searches {rest : List ℕ} (h : Shape s (dead::rest) zombies) (hd : Dying s s' dead) :
    ∃s1 s2,reparentChildren (s'.task dead).tid s'=some s1 ∧
    notifyParent (s1.task dead).parentTid s1=some s2 ∧ Dying s s2 dead:=by
  have hq : s.runQueue=some dead:=h.cycle.1
  have hcycle : Path s.next (some dead) (dead::rest) (some dead):=hq▸h.cycle
  have hfuel (t : Sched) (ht : t.heap=s.heap) : (dead::rest).length≤t.fuel:=by
    have:=h.length_ring
    simp only [Sched.fuel,ht]
    omega
  obtain ⟨s1,hrep,hr,-⟩:=reparent_spec (by rw [hd.next]; exact hcycle)
    (nodup_cons.mp h.nodup).1 (hfuel s' hd.heap) (s'.task dead).tid
  have h1:=hd.reparented hr
  have hq':=hd.runQueue.trans hq
  have hq1:=h1.runQueue.trans hq
  refine ⟨s1,?_⟩
  by_cases hp : (s1.task dead).parentTid=0
  · exact ⟨s1,by simp [reparentChildren,hq',hrep],by simp [notifyParent,hq1,hp],h1⟩
  obtain ⟨s2,hw,hs2⟩:=wakeParent_spec (by rw [h1.next]; exact hcycle) (by simp)
    (hfuel s1 h1.heap) (s1.task dead).parentTid
  have h2 : Dying s s2 dead:=by
    rcases hs2 with rfl | ⟨t,ht,rfl⟩
    · exact h1
    · exact h1.ready ht
  exact ⟨s2,by simp [reparentChildren,hq',hrep],by simp [notifyParent,hq1,hp,hw],h2⟩

theorem FDTable.mem_freeEvents {t : FDTable} {e : Event} (he : e∈t.freeEvents) : ∃b,e = .kfree b:=by
  simp only [FDTable.freeEvents,mem_append,mem_flatMap,mem_singleton] at he
  rcases he with ⟨slot,-,he⟩ | rfl
  · cases slot with
    | none=>simp [closeEvents] at he
    | some f=>
      simp only [closeEvents,mem_append,mem_singleton] at he
      rcases he with he | rfl
      · cases hb : f.pipeBuffer with
        | none=>simp [hb] at he
        | some b=>exact ⟨b,by simpa [hb] using he⟩
      · exact ⟨_,rfl⟩
  · exact ⟨_,rfl⟩

theorem replay_kfree (live : List ℕ) (hev : ∀e∈ev,∃b,e = .kfree b) : replay live ev=some live:=by
  induction ev with
  | nil=>rfl
  | cons e ev ih=>
    obtain ⟨b,rfl⟩:=hev e mem_cons_self
    exact ih fun e he=>hev e (mem_cons_of_mem _ he)

theorem freedTasks_kfree (hev : ∀e∈ev,∃b,e = .kfree b) : freedTasks ev=[]:=by
  simp only [freedTasks,filterMap_eq_nil_iff]
  intro e he
  obtain ⟨b,rfl⟩:=hev e he
  rfl

theorem turns_kfree (hev : ∀e∈ev,∃b,e = .kfree b) : turns ev=[]:=by
  refine filter_eq_nil_iff.mpr fun e he=>?_
  obtain ⟨b,rfl⟩:=hev e he
  simp

theorem exit_spec {code : ℤ} (h : Invariant s ring zombies cur) (hidle : s.currentTask≠some idleTask) :
    ∃s' ev,exit code s=some (s',ev) ∧ StepSpec False s ring ev s':=by
  obtain ⟨rest,rfl⟩:=h.ring_eq
  have hci : cur≠idleTask:=fun e=>hidle (e▸h.current)
  let s1:=s.modify cur ({· with exitCode:=code,state:=.dead})
  let s2:=s1.modify cur ({· with fdTable:=none})
  have hd : Dying s s2 cur:=by
    refine ⟨rfl,rfl,rfl,rfl,?_,by simp [s2,s1],fun p hp=>.inl ?_⟩
    · rw [s1.next_modify cur (by exact fun _=>rfl),s.next_modify cur (by exact fun _=>rfl)]
    · rw [Sched.task_modify_of_ne _ _ hp,Sched.task_modify_of_ne _ _ hp]
  obtain ⟨s3,s4,hrep,hwake,h4⟩:=exit_searches h.toShape hd
  have hdead (p : ℕ) (hp : p≠cur) : (s4.task p).state = .dead↔(s.task p).state = .dead:=by
    rcases h4.other p hp with hs | ⟨hb,hr⟩
    · rw [hs]
    · simp [hb,hr]
  have hidle4 : s4.runnable idleTask=true:=by
    rcases h4.other idleTask (Ne.symm hci) with hs | ⟨-,hr⟩
    · rw [Sched.runnable,hs]
      exact h.idle_runnable
    · exact runnable_of_ready hr
  obtain ⟨s5,x,l,rfl,hun,hc5,hheap5,hstate5,hshape⟩:=h.toShape.retire hci h4.heap
    h4.runQueue h4.zombieList h4.next h4.isDead hdead hidle4
  set s6 : Sched:={ s5.modify cur ({· with next:=s5.zombieList}) with zombieList:=some cur } with hs6
  have hstate (p : ℕ) : (s6.task p).state=(s4.task p).state:=by
    rw [←hstate5]
    rw [Sched.task_modify]
    by_cases hp : p=cur <;> simp [hp]
  have hc6:=hc5.trans (h4.currentTask.trans h.current)
  -- nobody is running any more, so the switch leaves the dead task
  have hrun (p : ℕ) (hp : s6.IsTask p) (hr : (s6.task p).state = .running) : p=cur:=by
    by_contra hpc
    rw [hstate] at hr
    rcases h4.other p hpc with hs | ⟨-,hs⟩
    · rw [hs] at hr
      exact hpc ((h.running p (by rw [Sched.IsTask,←hheap5]; exact hp)).mp hr)
    · simp [hs] at hr
  obtain ⟨nxt,m,n,s7,hlist,hm,hpick,hdo,h7,hheap⟩:=reschedule hshape hc6 hrun (by
    intro hr
    simp [Sched.runnable,hstate,h4.isDead] at hr)
  have hne : nxt≠cur:=by
    rintro rfl
    have hn:=h.nodup
    rw [hlist] at hn
    simp at hn
  let fdEvents : List Event:=(s.task cur).fdTable.elim [] FDTable.freeEvents
  have hfd (e : Event) (he : e∈fdEvents) : ∃b,e = .kfree b:=by
    dsimp only [fdEvents] at he
    cases hf : (s.task cur).fdTable with
    | none=>simp [hf] at he
    | some t=>
      rw [hf] at he
      exact FDTable.mem_freeEvents he
  have hturn : Turn False s s7 (cur::(l++[x])) [.switchContext cur nxt] (nxt::n++m):=by
    rw [hlist]
    have hk (hm : ∀p∈m,s.runnable p=false) (hd : s7.runnable cur=false) :
        Turn False s s7 (cur::m++nxt::n) [.switchContext cur nxt] (nxt::n++[]++m):=.pass hm (.inr ⟨rfl,hd⟩)
    rw [append_nil] at hk
    refine hk (fun p hp=>?_) ?_
    · have hpc : p≠cur:=fun e=>(nodup_cons.mp h.nodup).1 (by simp [←e,(hm p hp).1])
      have hrun:=(hm p hp).2
      rcases h4.other p hpc with hs | ⟨-,hs⟩
      · rwa [Sched.runnable,hstate,hs] at hrun
      · simp [Sched.runnable,hstate,hs] at hrun
    · have hdead:=((h7.mem_zombies cur).mp mem_cons_self).2
      simp [Sched.runnable,hdead]
  have hkeep : StepSpec False s (cur::(l++[x])) (fdEvents++restoreUnlessSwitched (if nxt=cur then [] else [.switchContext cur nxt]))
      s7:=by
    refine h7.stepSpec_keep (hheap.trans hheap5) (fun live=>?_) ?_ ?_
    · rw [replay_append,replay_kfree live hfd]
      exact replay_restoreUnlessSwitched live nxt cur
    · rw [freedTasks_append,freedTasks_kfree hfd,freedTasks_restoreUnlessSwitched,append_nil]
    · rw [turns_append,turns_kfree hfd,turns_restoreUnlessSwitched,if_neg hne]
      exact hturn
  refine ⟨s7,_,?_,hkeep.irqSave⟩
  have hq6 : s6.runQueue=some x:=hshape.cycle.1
  unfold exit
  rw [h.current,Option.bind_eq_bind,Option.bind_some]
  change (reparentChildren (s2.task cur).tid s2).bind _=_
  rw [hrep,Option.bind_some]
  change (notifyParent (s3.task cur).parentTid s3).bind _=_
  rw [hwake,Option.bind_some]
  change (unlinkTask cur s4).bind _=_
  rw [hun,Option.bind_some]
  rw [←hs6]
  simp only [hq6,hpick,hdo,Option.bind_eq_bind,Option.bind_some]
  cases hf : (s.task cur).fdTable <;> simp [fdEvents,hf]

theorem step_spec {op : Op} (h : Invariant s ring zombies cur) (hop : op.Valid s) :
    ∃s' ev,step op s=some (s',ev) ∧ StepSpec (∃t,op = .wake t) s ring ev s':=by
  cases op with
  | spawn t st size q=>exact ⟨_,_,rfl,(spawn_spec h hop).mono⟩
  | enqueueNew t new=>exact ⟨_,_,rfl,(enqueueNew_spec h hop.1 hop.2).mono⟩
  | tick=>
    obtain ⟨s',ev,hs,hspec⟩:=tick_spec h
    exact ⟨s',ev,hs,hspec.mono⟩
  | yield=>
    obtain ⟨s',ev,hs,hspec⟩:=yield_spec h
    exact ⟨s',ev,hs,hspec.mono⟩
  | blockCurrent=>
    obtain ⟨s',ev,hs,hspec⟩:=blockCurrent_spec h hop
    exact ⟨s',ev,hs,hspec.mono⟩
  | wake t=>
    obtain ⟨s',ev,hs,⟨ring',zombies',cur',hinv,-⟩,hheap,hfreed⟩:=wake_spec h hop
    exact ⟨s',ev,hs,⟨ring',zombies',cur',hinv,.jump ⟨t,rfl⟩⟩,hheap,hfreed⟩
  | wait=>
    obtain ⟨s',res,ev,hw,hspec⟩:=wait_spec h hop
    exact ⟨s',ev,by simp [step,hw],hspec.mono⟩
  | exit code=>
    obtain ⟨s',ev,hs,hspec⟩:=exit_spec h hop
    exact ⟨s',ev,hs,hspec.mono⟩
  | preemptDisable=>exact ⟨_,_,rfl,(h.setPreemptCount _).stepSpec_keep rfl (fun _=>rfl) rfl .stay⟩
  | preemptEnable=>exact ⟨_,_,rfl,(h.setPreemptCount _).stepSpec_keep rfl (fun _=>rfl) rfl .stay⟩

/-- The states that a sequence of valid operations reaches, with everything it did. -/
inductive Run (s₀ : Sched) : List Event→Sched→Prop
  | start : Run s₀ [] s₀
  | step {log ev : List Event} {s s' : Sched} (op : Op) :
      Run s₀ log s → op.Valid s→step op s=some (s',ev)→Run s₀ (log++ev) s'

theorem invariant_init (garbage : ℕ→Task) (idleStack : ℕ) :
    Invariant (init garbage idleStack) [idleTask] [] idleTask:=by
  have hself : (init garbage idleStack).next idleTask=some idleTask:=by simp [init,Sched.next]
  have hstate : ((init garbage idleStack).task idleTask).state = .running:=by simp [init]
  have htask (p : ℕ) : (init garbage idleStack).IsTask p↔p=idleTask:=by simp [init,Sched.IsTask]
  refine ⟨⟨⟨rfl,hself⟩,nodup_singleton _,mem_singleton_self _,?_,rfl,?_,nodup_nil,?_,
    runnable_of_running hstate⟩,rfl,rfl,?_⟩
  · intro p
    rw [htask,mem_singleton]
    exact ⟨fun e=>⟨e,by rw [e,hstate]; simp⟩,And.left⟩
  · simp [init]
  · simp [init]
  intro p hp
  rw [(htask p).mp hp,hstate]
  simp

theorem Run.invariant {garbage : ℕ→Task} {idleStack : ℕ} (h : Run (init garbage idleStack) log s) :
    (∃ring zombies cur,Invariant s ring zombies cur) ∧ replay [] log=some s.heap:=by
  induction h with
  | start=>exact ⟨⟨_,_,_,invariant_init garbage idleStack⟩,rfl⟩
  | step op _ hop hs ih=>
    obtain ⟨⟨ring,zombies,cur,hinv⟩,hheap⟩:=ih
    obtain ⟨s',ev,hs',hspec⟩:=step_spec hinv hop
    obtain ⟨rfl,rfl⟩:=Prod.mk.inj (Option.some.inj (hs.symm.trans hs'))
    exact ⟨hspec.invariant,by rw [replay_append,hheap]; exact hspec.heap⟩

/-- In every reachable state the ring, the zombie list and the current task are as the
scheduler expects, every Task object was released at most once, and the next operation
returns without releasing a task that is in the ring. -/
theorem run_queue_stays_ring {garbage : ℕ→Task} {idleStack : ℕ} (h : Run (init garbage idleStack) log s) :
    (∃ring zombies cur,Invariant s ring zombies cur ∧ ∀p∈zombies,p∉ring) ∧ replay [] log=some s.heap ∧
    ∀op : Op,op.Valid s→∃s' ev,step op s=some (s',ev) ∧ ∀p∈freedTasks ev,¬OnRing s p ∧ ¬OnRing s' p:=by
  obtain ⟨⟨ring,zombies,cur,hinv⟩,hheap⟩:=h.invariant
  refine ⟨⟨ring,zombies,cur,hinv,fun p hz hr=>hinv.notMem_zombies hr hz⟩,hheap,fun op hop=>?_⟩
  obtain ⟨s',ev,hs,hspec⟩:=step_spec hinv hop
  exact ⟨s',ev,hs,hspec.freed⟩

def blankTask : Task where
  stack:=none
  stackSize:=0
  syscallStack:=none
  state:=.ready
  tid:=0
  parentTid:=0
  exitCode:=0
  timeslice:=0
  quantum:=0
  next:=none
  pml4:=none
  fdTable:=none

/-- A task is spawned, runs, exits and is reaped by the next tick. -/
theorem run_queue_stays_ring_reaped : ∃log s,Run (init (fun _=>blankTask) 100) log s ∧ freedTasks log=[8] ∧
    ∃ring zombies cur,Invariant s ring zombies cur ∧ ∀p∈zombies,p∉ring:=by
  have hrun:=(Run.start : Run (init (fun _=>blankTask) 100) [] _)
    |>.step (.spawn (some 8) (some 9) 16384 2) (by simp [Op.Valid,Sched.IsTask,init,idleTask]) rfl
    |>.step .yield trivial rfl
    |>.step (.exit 0) (show (_ : Option ℕ)≠some idleTask by decide) rfl
    |>.step .tick trivial rfl
  exact ⟨_,_,hrun,by decide,(run_queue_stays_ring hrun).1⟩

end Knail.Scheduler
