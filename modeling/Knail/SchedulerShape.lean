import Knail.Scheduler
import Mathlib.Data.List.Perm.Subperm

/-!
# Ring and zombie list as lists of nodes

`Shape` names the nodes of the circular run queue and of the zombie list; `Invariant`
adds that the current task heads the ring and alone is running. Each helper of the
scheduler gets one lemma that says what it does to the two lists.
-/
namespace Knail.Scheduler

open Function List

variable {s s' : Sched} {ring zombies : List ℕ} {p q : ℕ} {f : Task→Task} {t : Sched} {r cur n : ℕ} {zs l m : List ℕ}

namespace Sched

theorem task_modify (s : Sched) (p : ℕ) (f : Task→Task) (q : ℕ) :
    (s.modify p f).task q=if q=p then f (s.task p) else s.task q:=by
  simp [modify,update_apply]

@[simp] theorem task_modify_self (s : Sched) (p : ℕ) (f : Task→Task) :
    (s.modify p f).task p=f (s.task p):=by simp [task_modify]

theorem task_modify_of_ne (s : Sched) (f : Task→Task) (h : q≠p) :
    (s.modify p f).task q=s.task q:=by simp [task_modify,h]

@[simp] theorem heap_modify (s : Sched) (p : ℕ) (f : Task→Task) : (s.modify p f).heap=s.heap:=rfl

@[simp] theorem runQueue_modify (s : Sched) (p : ℕ) (f : Task→Task) : (s.modify p f).runQueue=s.runQueue:=rfl

@[simp] theorem currentTask_modify (s : Sched) (p : ℕ) (f : Task→Task) :
    (s.modify p f).currentTask=s.currentTask:=rfl

@[simp] theorem zombieList_modify (s : Sched) (p : ℕ) (f : Task→Task) : (s.modify p f).zombieList=s.zombieList:=rfl

@[simp] theorem fuel_modify (s : Sched) (p : ℕ) (f : Task→Task) : (s.modify p f).fuel=s.fuel:=rfl

theorem next_modify (s : Sched) (p : ℕ) (hf : ∀t,(f t).next=t.next) : (s.modify p f).next=s.next:=by
  funext q
  by_cases h : q=p
  · subst h
    simp [next,hf]
  · simp [next,task_modify_of_ne s f h]

theorem next_modify_next (s : Sched) (p : ℕ) (v : Option ℕ) :
    (s.modify p ({· with next:=v})).next=update s.next p v:=by
  funext q
  by_cases h : q=p
  · subst h
    simp [next]
  · simp [next,task_modify_of_ne s _ h,update_of_ne h]

end Sched

/-- The ring and the zombie list as lists of nodes. The order of `ring` starts at the
run queue pointer. -/
structure Shape (s : Sched) (ring zombies : List ℕ) : Prop where
  cycle : Path s.next s.runQueue ring s.runQueue
  nodup : ring.Nodup
  idle_mem : idleTask∈ring
  mem_ring : ∀p,p∈ring↔s.IsTask p ∧ (s.task p).state≠.dead
  zombie_path : Path s.next s.zombieList zombies none
  mem_zombies : ∀p,p∈zombies↔p∈s.heap ∧ (s.task p).state = .dead
  heap_nodup : s.heap.Nodup
  idle_static : idleTask∉s.heap
  idle_runnable : s.runnable idleTask=true

/-- Two states with the same links, objects and dead tasks. -/
structure SameLinks (s s' : Sched) : Prop where
  heap : s'.heap=s.heap
  runQueue : s'.runQueue=s.runQueue
  zombieList : s'.zombieList=s.zombieList
  next : s'.next=s.next
  dead : ∀p,(s'.task p).state = .dead↔(s.task p).state = .dead

theorem SameLinks.trans (h : SameLinks s s') (h' : SameLinks s' t) : SameLinks s t where
  heap:=h'.heap.trans h.heap
  runQueue:=h'.runQueue.trans h.runQueue
  zombieList:=h'.zombieList.trans h.zombieList
  next:=h'.next.trans h.next
  dead:=fun p=>(h'.dead p).trans (h.dead p)

theorem sameLinks_modify (s : Sched) (p : ℕ) (hn : ∀t,(f t).next=t.next)
    (hd : (f (s.task p)).state = .dead↔(s.task p).state = .dead) : SameLinks s (s.modify p f) where
  heap:=rfl
  runQueue:=rfl
  zombieList:=rfl
  next:=s.next_modify p hn
  dead:=by
    intro q
    by_cases h : q=p
    · subst h
      simpa using hd
    · rw [s.task_modify_of_ne f h]

namespace Shape

section

variable (h : Shape s ring zombies)
include h

theorem congr (hl : SameLinks s s') (hi : s'.runnable idleTask=true) : Shape s' ring zombies where
  cycle:=by rw [hl.next,hl.runQueue]; exact h.cycle
  nodup:=h.nodup
  idle_mem:=h.idle_mem
  mem_ring:=by
    intro p
    rw [h.mem_ring,Sched.IsTask,Sched.IsTask,hl.heap,ne_eq,ne_eq,hl.dead]
  zombie_path:=by rw [hl.next,hl.zombieList]; exact h.zombie_path
  mem_zombies:=by
    intro p
    rw [h.mem_zombies,hl.heap,hl.dead]
  heap_nodup:=by rw [hl.heap]; exact h.heap_nodup
  idle_static:=by rw [hl.heap]; exact h.idle_static
  idle_runnable:=hi

theorem ring_ne_nil : ring≠[]:=ne_nil_of_mem h.idle_mem

theorem length_ring : ring.length ≤ s.heap.length+1:=by
  have hsub : ring⊆idleTask::s.heap:=by
    intro p hp
    rcases ((h.mem_ring p).mp hp).1 with rfl | hp
    · exact mem_cons_self
    · exact mem_cons_of_mem _ hp
  exact (subperm_of_subset h.nodup hsub).length_le

theorem length_zombies : zombies.length ≤ s.heap.length:=
  (subperm_of_subset h.zombie_path.nodup_of_none (fun p hp=>((h.mem_zombies p).mp hp).1)).length_le

theorem notMem_zombies (hp : p∈ring) : p∉zombies:=
  fun hz=>((h.mem_ring p).mp hp).2 ((h.mem_zombies p).mp hz).2

end

theorem rotate (h : Shape s (l++p::m) zombies) : Shape {s with runQueue:=some p} (p::m++l) zombies:=by
  have hperm : (p::m++l).Perm (l++p::m):=perm_append_comm
  refine ⟨h.cycle.rotate,hperm.nodup_iff.mpr h.nodup,hperm.mem_iff.mpr h.idle_mem,fun q=>?_,
    h.zombie_path,h.mem_zombies,h.heap_nodup,h.idle_static,h.idle_runnable⟩
  exact hperm.mem_iff.trans (h.mem_ring q)

end Shape

/-- The scheduler invariant: one ring, headed by the current task, which alone is running. -/
structure Invariant (s : Sched) (ring zombies : List ℕ) (cur : ℕ) : Prop extends
    Shape s ring zombies where
  current : s.currentTask=some cur
  head : s.runQueue=some cur
  running : ∀p,s.IsTask p→((s.task p).state = .running↔p=cur)

/-- The Task objects that an operation hands back to the heap. -/
def freedTasks (ev : List Event) : List ℕ:=
  ev.filterMap fun | .kfreeTask p=>some p | _ => none

@[simp] theorem freedTasks_append (l r : List Event) :
    freedTasks (l++r)=freedTasks l++freedTasks r:=by simp [freedTasks]

theorem freedTasks_releaseEvents (p : ℕ) (t : Task) : freedTasks (releaseEvents p t)=[p]:=by
  cases hs : t.stack <;> cases hc : t.syscallStack <;> simp [releaseEvents,freedTasks,hs,hc]

theorem pickNext_eq (h : Path s.next (some r) ring (some r)) (hne : ring≠[])
    (hr : s.runQueue=some r) (hfuel : ring.length ≤ s.fuel) :
    ∃t∈ring,pickNext s=some (if s.runnable t then t else idleTask):=by
  obtain ⟨x,rest,rfl⟩:=exists_cons_of_ne_nil hne
  obtain rfl:=Option.some.inj h.1
  have hcycle:=h.2
  let stop:=fun t=>s.runnable t || s.next t == some r
  have hstop (t : ℕ) (ht : s.next t=some r) : stop t=true:=by simp [stop,ht]
  obtain ⟨t,ht,hw⟩ : ∃t∈r::rest,walk s.next stop s.fuel (s.next r)=some (some t):=by
    cases rest with
    | nil=>
      have hself : Path s.next (s.next r) [r] (some r):=⟨hcycle,hcycle⟩
      obtain ⟨t,ht,hf⟩:=hself.exists_find?_of_last (by simp) hstop
      exact ⟨t,ht,walk_eq_of_find? hself hf hfuel⟩
    | cons y ys=>
      obtain ⟨t,ht,hf⟩:=hcycle.exists_find?_of_last (by simp) hstop
      exact ⟨t,mem_cons_of_mem _ ht,walk_eq_of_find? hcycle hf (by simp at hfuel ⊢; omega)⟩
  exact ⟨t,ht,by simp [pickNext,hr,stop,hw]⟩

/-- The search takes the first runnable task behind the run queue pointer. When there is none, the task at the
pointer is the idle task. -/
theorem pickNext_spec (h : Shape s (r::l) zombies) : ∃u,pickNext s=some u ∧ s.runnable u=true ∧
    (u=r ∧ (∀p∈l,s.runnable p=false) ∨ ∃m n,l=m++u::n ∧ ∀p∈m,s.runnable p=false):=by
  have hr : s.runQueue=some r:=h.cycle.1
  have hfuel : (r::l).length ≤ s.fuel:=Nat.le_trans h.length_ring (by simp [Sched.fuel])
  have hcycle : Path s.next (s.next r) l (some r):=(hr▸h.cycle : Path s.next (some r) (r::l) (some r)).2
  have hidle (hl : ∀p∈l,s.runnable p=false) : idleTask=r:=by
    refine (mem_cons.mp h.idle_mem).resolve_right fun hm=>?_
    simpa [h.idle_runnable] using hl _ hm
  let stop:=fun t=>s.runnable t || s.next t == some r
  have hstop (t : ℕ) (ht : s.next t=some r) : stop t=true:=by simp [stop,ht]
  by_cases hnil : l=[]
  · subst hnil
    obtain rfl:=hidle (by simp)
    have hw:=walk_eq_of_find? (show Path s.next (s.next idleTask) [idleTask] (some idleTask) from ⟨hcycle,hcycle⟩)
      (find?_cons_of_pos (hstop _ hcycle)) hfuel
    exact ⟨idleTask,by simp [pickNext,hr,stop,hw],h.idle_runnable,.inl ⟨rfl,by simp⟩⟩
  obtain ⟨t,-,hfind⟩:=hcycle.exists_find?_of_last hnil hstop
  have hw:=walk_eq_of_find? hcycle hfind (Nat.le_of_succ_le hfuel)
  have hpick : pickNext s=some (if s.runnable t then t else idleTask):=by simp [pickNext,hr,stop,hw]
  obtain ⟨ht,m,n,rfl,hm⟩:=find?_eq_some_iff_append.mp hfind
  have hm (p : ℕ) (hp : p∈m) : s.runnable p=false:=by
    simp_all [stop]
  by_cases hrun : s.runnable t=true
  · exact ⟨t,by simp [hpick,hrun],hrun,.inr ⟨m,n,rfl,hm⟩⟩
  -- the search went around: behind `t` there is only the pointer itself
  have hnext : s.next t=some r:=by simpa [stop,hrun] using ht
  obtain rfl : n=[]:=by
    cases n with
    | nil=>rfl
    | cons y n=>
      obtain rfl:=Option.some.inj (hcycle.split.2.1.symm.trans hnext)
      have:=h.nodup
      simp at this
  have hall : ∀p∈m++[t],s.runnable p=false:=by
    intro p hp
    rcases mem_append.mp hp with hp | hp
    · exact hm p hp
    · simpa [mem_singleton.mp hp] using hrun
  obtain rfl:=hidle hall
  exact ⟨idleTask,by simp [hpick,hrun],h.idle_runnable,.inl ⟨rfl,hall⟩⟩

theorem runnable_of_ready (h : (s.task p).state = .ready) : s.runnable p=true:=by
  simp [Sched.runnable,h]

theorem runnable_of_running (h : (s.task p).state = .running) : s.runnable p=true:=by
  simp [Sched.runnable,h]

/-- A switch makes its target the only running task and the head of the ring. -/
theorem doSwitch_spec {nxt : ℕ} (h : Shape s (l++nxt::m) zombies) (hc : s.currentTask=some cur)
    (hrun : ∀p,s.IsTask p→(s.task p).state = .running→p=cur)
    (hstay : nxt=cur→l=[] ∧ (s.task cur).state = .running) :
    ∃s',doSwitch nxt s=some (s',if nxt=cur then [] else [.switchContext cur nxt]) ∧
    Invariant s' (nxt::m++l) zombies nxt ∧ s'.heap=s.heap:=by
  by_cases he : nxt=cur
  · obtain ⟨rfl,hcur⟩:=hstay he
    subst he
    rw [append_nil]
    refine ⟨s,by simp [doSwitch,hc],⟨h,hc,h.cycle.1,fun p hp=>⟨hrun p hp,?_⟩⟩,rfl⟩
    rintro rfl
    exact hcur
  let s1:=if (s.task cur).state = .running then s.modify cur ({· with state:=.ready}) else s
  let s2:=s1.modify nxt (fun t=>{t with state:=.running,timeslice:=t.quantum})
  have hnd : (s.task nxt).state≠.dead:=((h.mem_ring nxt).mp (by simp)).2
  have h1 : SameLinks s s1:=by
    dsimp only [s1]
    split
    · rename_i hr
      exact sameLinks_modify s cur (fun _=>rfl) (by simp [hr])
    · exact ⟨rfl,rfl,rfl,rfl,fun _=>Iff.rfl⟩
  have hn1 : (s1.task nxt).state≠.dead:=fun hd=>hnd ((h1.dead nxt).mp hd)
  have h2 : SameLinks s s2:=h1.trans (sameLinks_modify s1 nxt (fun _=>rfl) (by simp [hn1]))
  have hstate (p : ℕ) (hp : p≠nxt) (hpc : p≠cur) : (s2.task p).state=(s.task p).state:=by
    dsimp only [s2,s1]
    rw [Sched.task_modify_of_ne _ _ hp]
    split
    · rw [Sched.task_modify_of_ne _ _ hpc]
    · rfl
  have hcur : (s2.task cur).state≠.running:=by
    dsimp only [s2,s1]
    rw [Sched.task_modify_of_ne _ _ (Ne.symm he)]
    split
    · simp
    · assumption
  have hcur' : (s.task cur).state = .ready ∨ (s.task cur).state = .running →
      (s2.task cur).state = .ready:=by
    intro hor
    dsimp only [s2,s1]
    rw [Sched.task_modify_of_ne _ _ (Ne.symm he)]
    split
    · simp
    · exact hor.resolve_right ‹_›
  have hidle : s2.runnable idleTask=true:=by
    have hi:=h.idle_runnable
    by_cases hin : idleTask=nxt
    · rw [hin]
      simp [Sched.runnable,s2]
    by_cases hic : idleTask=cur
    · rw [hic] at hi ⊢
      exact runnable_of_ready (hcur' (by simpa [Sched.runnable] using hi))
    · simpa only [Sched.runnable,hstate _ hin hic] using hi
  have hshape:=(h.congr h2 hidle).rotate
  let s3 : Sched:={ s2 with
    runQueue:=some nxt,currentTask:=some nxt,rsp0:=(s2.task nxt).stackTop,
    kernelRsp:=(s2.task nxt).syscallTop,cr3:=(s2.task nxt).pml4 }
  refine ⟨s3,?_,⟨⟨hshape.cycle,hshape.nodup,hshape.idle_mem,hshape.mem_ring,hshape.zombie_path,
      hshape.mem_zombies,hshape.heap_nodup,hshape.idle_static,hshape.idle_runnable⟩,rfl,rfl,?_⟩,h2.heap⟩
  · simp [doSwitch,hc,he,s3,s2,s1]
  intro p hp
  have hp' : s.IsTask p:=by
    rw [Sched.IsTask,←h2.heap]
    exact hp
  by_cases hpn : p=nxt
  · subst hpn
    simp [s3,s2]
  by_cases hpc : p=cur
  · subst hpc
    simp [s3,hcur,hpn]
  simp only [hpn,iff_false]
  rw [hstate p hpn hpc]
  exact fun hr=>hpc (hrun p hp' hr)

theorem doSwitch_total (hc : s.currentTask=some cur) (nxt : ℕ) : ∃r,doSwitch nxt s=some r:=by
  by_cases he : nxt=cur
  · exact ⟨(s,[]),by simp [doSwitch,hc,he]⟩
  · exact ⟨_,by simp only [doSwitch,hc,Option.bind_eq_bind,Option.bind_some,if_neg he]; rfl⟩

/-- The turn goes to the first runnable task behind the pointer, and the ring is read from there on. -/
theorem reschedule (h : Shape s (r::l) zombies) (hc : s.currentTask=some cur)
    (hrun : ∀p,s.IsTask p→(s.task p).state = .running→p=cur)
    (hstay : s.runnable cur=true → r=cur ∧ (s.task cur).state = .running) : ∃nxt m n s',l++[r]=m++nxt::n ∧
    (∀p∈m,p∈l ∧ s.runnable p=false) ∧ pickNext s=some nxt ∧
    doSwitch nxt s=some (s',if nxt=cur then [] else [.switchContext cur nxt]) ∧
    Invariant s' (nxt::n++m) zombies nxt ∧ s'.heap=s.heap:=by
  obtain ⟨u,hp,hu,⟨rfl,hl⟩ | ⟨m,n,rfl,hm⟩⟩:=pickNext_spec h
  · obtain ⟨s',hsw,hinv⟩:=doSwitch_spec (l:=[]) h hc hrun (by
      rintro rfl
      exact ⟨rfl,(hstay hu).2⟩)
    exact ⟨u,l,[],s',rfl,fun p hp=>⟨hp,hl p hp⟩,hp,hsw,by rwa [append_nil] at hinv⟩
  · obtain ⟨s',hsw,hinv⟩:=doSwitch_spec (l:=r::m) h hc hrun (by
      rintro rfl
      have hn:=h.nodup
      simp [(hstay hu).1] at hn)
    exact ⟨u,m,n++[r],s',by simp,fun p hp=>⟨by simp [hp],hm p hp⟩,hp,hsw,by simpa using hinv⟩

theorem reapZombies_eq (h : Path s.next s.zombieList zs none) (hn : zs.length<n) :
    reapZombies n s=some ({s with zombieList:=none,heap:=s.heap.diff zs},
      zs.flatMap fun z=>releaseEvents z (s.task z)):=by
  induction zs generalizing n s with
  | nil=>
    obtain ⟨n,rfl⟩:=Nat.exists_eq_add_one_of_ne_zero (Nat.ne_zero_of_lt hn)
    have hz : s.zombieList=none:=h
    simp only [reapZombies,hz,diff_nil,flatMap_nil]
    rw [←hz]
  | cons z zs ih=>
    obtain ⟨n,rfl⟩:=Nat.exists_eq_add_one_of_ne_zero (Nat.ne_zero_of_lt hn)
    have hr:=ih (s:={s with zombieList:=s.next z,heap:=s.heap.erase z}) h.2 (by simpa using hn)
    simp only [reapZombies,h.1,hr,Option.bind_eq_bind,Option.bind_some,Option.pure_def,flatMap_cons,diff_cons]

theorem freedTasks_flatMap_releaseEvents (f : ℕ→Task) (zs : List ℕ) :
    freedTasks (zs.flatMap fun z=>releaseEvents z (f z))=zs:=by
  induction zs with
  | nil=>rfl
  | cons z zs ih=>rw [flatMap_cons,freedTasks_append,ih,freedTasks_releaseEvents]; rfl

theorem reapZombies_spec (h : Shape s ring zombies) :
    reapZombies s.fuel s=some ({s with zombieList:=none,heap:=s.heap.diff zombies},
      zombies.flatMap fun z=>releaseEvents z (s.task z)):=
  reapZombies_eq h.zombie_path (by have:=h.length_zombies; simp only [Sched.fuel]; omega)

theorem Shape.reap (h : Shape s ring zombies) :
    Shape {s with zombieList:=none,heap:=s.heap.diff zombies} ring [] where
  cycle:=h.cycle
  nodup:=h.nodup
  idle_mem:=h.idle_mem
  mem_ring:=by
    intro p
    rw [h.mem_ring,Sched.IsTask,Sched.IsTask,h.heap_nodup.mem_sdiff_iff,h.mem_zombies]
    constructor
    · rintro ⟨hp,hd⟩
      exact ⟨hp.imp_right fun hp=>⟨hp,fun hz=>hd hz.2⟩,hd⟩
    · rintro ⟨hp,hd⟩
      exact ⟨hp.imp_right And.left,hd⟩
  zombie_path:=rfl
  mem_zombies:=by
    simp only [not_mem_nil,false_iff,h.heap_nodup.mem_sdiff_iff,h.mem_zombies]
    tauto
  heap_nodup:=h.heap_nodup.diff
  idle_static:=fun hi=>h.idle_static (h.heap_nodup.mem_sdiff_iff.mp hi).1
  idle_runnable:=h.idle_runnable

/-- A new task is linked in right after the run queue pointer. -/
theorem Invariant.enqueue {t : ℕ} {new : Task} {rest : List ℕ} (h : Invariant s (r::rest) zombies cur)
    (ht : ¬s.IsTask t) (hnew : new.state = .ready) :
    Invariant (enqueue t ({s with heap:=t::s.heap,nextTid:=n}.modify t fun _=>new)) (r::t::rest) zombies cur:=by
  have hr : s.runQueue=some r:=h.cycle.1
  set s1 : Sched:=({s with heap:=t::s.heap,nextTid:=n} : Sched).modify t fun _=>new with hs1
  have hti : t≠idleTask:=fun e=>ht (.inl e)
  have hth : t∉s.heap:=fun hm=>ht (.inr hm)
  have htr : t∉r::rest:=fun hm=>ht ((h.mem_ring t).mp hm).1
  have hrt : r≠t:=fun e=>htr (e▸mem_cons_self)
  have htask (p : ℕ) (hp : p≠t) : s1.task p=s.task p:=Sched.task_modify_of_ne _ _ hp
  have hnext1 : s1.next=update s.next t new.next:=by
    funext p
    by_cases hp : p=t
    · subst hp
      simp [Sched.next,hs1]
    · simp [Sched.next,htask p hp,update_of_ne hp]
  set s2:=Scheduler.enqueue t s1 with hs2
  have he : s2=(s1.modify t ({· with next:=s.next r})).modify r ({· with next:=some t}):=by
    have hq : s1.runQueue=some r:=hr
    have hnr : s1.next r=s.next r:=by rw [hnext1,update_of_ne hrt]
    simp only [hs2,Scheduler.enqueue,hq,hnr]
  have hnext : s2.next=update (update s.next t (s.next r)) r (some t):=by
    rw [he,Sched.next_modify_next,Sched.next_modify_next,hnext1,update_idem]
  have hstate (p : ℕ) : (s2.task p).state=if p=t then .ready else (s.task p).state:=by
    simp only [he,Sched.task_modify]
    by_cases hp : p=t
    · subst hp
      simp [hs1,Ne.symm hrt,hnew]
    · by_cases hpr : p=r <;> simp [hp,hpr,hrt,htask]
  have hzr : r∉zombies:=h.notMem_zombies mem_cons_self
  have hzt : t∉zombies:=fun hz=>hth ((h.mem_zombies t).mp hz).1
  have hheap : s2.heap=t::s.heap:=by rw [he]; rfl
  have hq : s2.runQueue=some r:=by rw [he]; exact hr
  refine ⟨⟨?_,?_,?_,?_,?_,?_,?_,?_,?_⟩,?_,?_,?_⟩
  · have hcycle:=h.cycle
    rw [hr] at hcycle
    have hn:=h.nodup
    rw [nodup_cons] at hn
    rw [hq,hnext]
    refine ⟨rfl,?_⟩
    rw [update_self]
    refine ⟨rfl,?_⟩
    rw [update_of_ne (Ne.symm hrt),update_self]
    exact (hcycle.2.update_of_notMem (fun hm=>htr (mem_cons_of_mem _ hm)) _).update_of_notMem hn.1 _
  · have hn:=h.nodup
    simp only [nodup_cons,mem_cons,not_or] at hn htr ⊢
    exact ⟨⟨hrt,hn.1⟩,htr.2,hn.2⟩
  · have hi:=h.idle_mem
    simp only [mem_cons] at hi ⊢
    tauto
  · intro p
    have hm:=h.mem_ring p
    rw [Sched.IsTask,hheap,hstate,(List.Perm.swap t r rest).mem_iff,mem_cons,hm,Sched.IsTask,mem_cons]
    by_cases hp : p=t <;> simp [hp]
  · rw [show s2.zombieList=s.zombieList by rw [he]; rfl,hnext]
    exact (h.zombie_path.update_of_notMem hzt _).update_of_notMem hzr _
  · intro p
    rw [h.mem_zombies,hheap,hstate,mem_cons]
    by_cases hp : p=t <;> simp [hp,hth]
  · rw [hheap]
    exact nodup_cons.mpr ⟨hth,h.heap_nodup⟩
  · rw [hheap,mem_cons]
    exact not_or.mpr ⟨Ne.symm hti,h.idle_static⟩
  · have hi:=h.idle_runnable
    simp only [Sched.runnable,hstate,Ne.symm hti,if_false] at hi ⊢
    exact hi
  · rw [he]
    exact h.current
  · rw [hq,←hr]
    exact h.head
  · intro p hp
    rw [Sched.IsTask,hheap,mem_cons] at hp
    rw [hstate]
    by_cases hpt : p=t
    · subst hpt
      have hpc : p≠cur:=fun e=>hrt (e▸Option.some.inj (hr.symm.trans h.head))
      simp [hpc]
    · rw [if_neg hpt]
      exact h.running p (hp.imp_right fun hm=>hm.resolve_left hpt)

/-- Unlinking the head of a ring with another member: the last node takes over its
successor and becomes the run queue pointer. -/
theorem unlinkTask_head {x : ℕ} (h : Path s.next (some r) (r::l++[x]) (some r))
    (hn : (r::l++[x]).Nodup) (hq : s.runQueue=some r) (hf : (r::l++[x]).length ≤ s.fuel) :
    unlinkTask r s=some { (s.modify x ({· with next:=s.next r})).modify r ({· with next:=none})
      with runQueue:=some x }:=by
  have hr : s.next r≠some r:=by
    intro e
    have h':=h.2
    rw [e] at h'
    cases l with
    | nil=>
      have : r=x:=Option.some.inj h'.1
      simp [this] at hn
    | cons y l=>
      have : r=y:=Option.some.inj h'.1
      simp [this] at hn
  -- the loop stops at the first node that points at the victim, which is the last one
  let stop:=fun p=>s.next p == some r || s.next p == some r
  have hstop (p : ℕ) (hp : s.next p=some r) : stop p=true:=by simp [stop,hp]
  obtain ⟨y,hy,hfind⟩:=h.exists_find?_of_last (by simp) hstop
  have hyr : s.next y=some r:=by simpa [stop] using find?_some hfind
  obtain rfl : y=x:=by
    obtain ⟨l1,l2,he⟩:=append_of_mem hy
    rw [he] at h hn
    cases l2 with
    | nil=>
      exact (singleton_inj.mp (append_inj_right' he rfl)).symm
    | cons z l2=>
      have hz : s.next y=some z:=h.split.2.1
      obtain rfl:=Option.some.inj (hz.symm.trans hyr)
      cases l1 with
      | nil=>
        have:=(List.cons.inj he).1
        simp [this] at hn
      | cons w l1=>
        have:=(List.cons.inj he).1
        simp [←this] at hn
  have hw:=walk_eq_of_find? h hfind hf
  simp only [unlinkTask,hq,Option.bind_eq_bind]
  rw [hw]
  simp [hyr,hr]

/-- What `exit` leaves behind: the dead head of the ring is moved to the zombie list. -/
theorem Shape.retire {dead : ℕ} {rest : List ℕ} {s1 : Sched} (h : Shape s (dead::rest) zombies)
    (hdead : dead≠idleTask) (hheap : s1.heap=s.heap) (hq : s1.runQueue=s.runQueue)
    (hz : s1.zombieList=s.zombieList) (hnext : s1.next=s.next) (hd : (s1.task dead).state = .dead)
    (ho : ∀p,p≠dead→((s1.task p).state = .dead↔(s.task p).state = .dead)) (hi : s1.runnable idleTask=true) :
    ∃s2 x l,rest=l++[x] ∧ unlinkTask dead s1=some s2 ∧
    s2.currentTask=s1.currentTask ∧ s2.heap=s.heap ∧ (∀p,(s2.task p).state=(s1.task p).state) ∧
    Shape { s2.modify dead ({· with next:=s2.zombieList}) with zombieList:=some dead }
        (x::l) (dead::zombies):=by
  have hrest : rest≠[]:=by
    rintro rfl
    exact hdead (mem_singleton.mp h.idle_mem).symm
  obtain ⟨l,x,rfl⟩ : ∃l x,rest=l++[x]:=
    ⟨rest.dropLast,rest.getLast hrest,(dropLast_append_getLast hrest).symm⟩
  have hqd:=h.cycle.1
  have hcycle : Path s.next (some dead) (dead::l++[x]) (some dead):=hqd▸h.cycle
  have hfuel : (dead::l++[x]).length ≤ s1.fuel:=by
    have:=h.length_ring
    simp only [Sched.fuel,hheap,cons_append]
    omega
  have hun:=unlinkTask_head (by rwa [hnext]) h.nodup (hq.trans hqd) hfuel
  rw [hnext] at hun
  set s2 : Sched:={ (s1.modify x ({· with next:=s.next dead})).modify dead ({· with next:=none})
      with runQueue:=some x } with hs2
  have hn:=h.nodup
  have hxd : x≠dead:=by
    rintro rfl
    simp at hn
  have hxl : x∉l:=by
    intro hm
    rw [nodup_cons,nodup_append] at hn
    exact hn.2.2.2 x hm x (by simp) rfl
  have hdl : dead∉l:=by
    intro hm
    rw [nodup_cons] at hn
    exact hn.1 (mem_append_left _ hm)
  have hstate (p : ℕ) : (s2.task p).state=(s1.task p).state:=by
    simp only [hs2,Sched.task_modify]
    by_cases hp : p=dead
    · simp [hp,Ne.symm hxd]
    · by_cases hpx : p=x <;> simp [hp,hpx,hxd]
  have hnext2 : s2.next=update (update s.next x (s.next dead)) dead none:=by
    change ((s1.modify x ({· with next:=s.next dead})).modify dead ({· with next:=none})).next=_
    rw [Sched.next_modify_next,Sched.next_modify_next,hnext]
  have hz2 : s2.zombieList=s.zombieList:=hz
  have hheap2 : s2.heap=s.heap:=hheap
  set s3 : Sched:={ s2.modify dead ({· with next:=s2.zombieList}) with zombieList:=some dead } with hs3
  have hnext3 : s3.next=update (update s.next x (s.next dead)) dead s.zombieList:=by
    change (s2.modify dead ({· with next:=s2.zombieList})).next=_
    rw [Sched.next_modify_next,hnext2,update_idem,hz2]
  have hstate3 (p : ℕ) : (s3.task p).state=(s1.task p).state:=by
    rw [←hstate,Sched.task_modify]
    by_cases hp : p=dead <;> simp [hp]
  have hxz : x∉zombies:=h.notMem_zombies (by simp)
  have hdz : dead∉zombies:=h.notMem_zombies (by simp)
  have hperm:=(perm_append_singleton x l).symm
  refine ⟨s2,x,l,rfl,hun,rfl,hheap2,hstate,⟨?_,?_,?_,?_,?_,?_,?_,?_,?_⟩⟩
  · rw [hnext3]
    refine ⟨rfl,?_⟩
    rw [update_of_ne hxd,update_self]
    exact (((Path.snoc_iff.mp hcycle).1.2).update_of_notMem hxl _).update_of_notMem hdl _
  · exact hperm.nodup_iff.mpr (nodup_cons.mp hn).2
  · exact hperm.mem_iff.mpr ((mem_cons.mp h.idle_mem).resolve_left (Ne.symm hdead))
  · intro p
    have hm:=h.mem_ring p
    change p∈x::l↔(p=idleTask ∨ p∈s2.heap) ∧ _
    rw [hheap2,hperm.mem_iff,hstate3]
    by_cases hp : p=dead
    · subst hp
      simp [hd,hdl,Ne.symm hxd]
    · rw [mem_cons,or_iff_right hp] at hm
      rw [hm,ne_eq,ne_eq,ho p hp,Sched.IsTask]
  · refine ⟨rfl,?_⟩
    rw [hnext3,update_self]
    exact (h.zombie_path.update_of_notMem hxz _).update_of_notMem hdz _
  · intro p
    have hm:=h.mem_zombies p
    change p∈dead::zombies↔p∈s2.heap ∧ _
    rw [hheap2,mem_cons,hstate3]
    by_cases hp : p=dead
    · subst hp
      have:=(h.mem_ring p).mp (by simp)
      simpa [hd,hdead,Sched.IsTask] using this.1
    · rw [or_iff_right hp,hm,ho p hp]
  · change s2.heap.Nodup
    rw [hheap2]
    exact h.heap_nodup
  · change idleTask∉s2.heap
    rw [hheap2]
    exact h.idle_static
  · rw [Sched.runnable,hstate3]
    exact hi

def Reparented (s s' : Sched) : Prop:=
  ∃f : ℕ→ℕ,s'={ s with task:=fun p=>{s.task p with parentTid:=f p} }

theorem Reparented.refl (s : Sched) : Reparented s s:=⟨fun p=>(s.task p).parentTid,rfl⟩

theorem Reparented.trans (h : Reparented s s') (h' : Reparented s' t) : Reparented s t:=by
  obtain ⟨f,rfl⟩:=h
  obtain ⟨g,rfl⟩:=h'
  exact ⟨g,rfl⟩

theorem reparented_modify (s : Sched) (p v : ℕ) : Reparented s (s.modify p ({· with parentTid:=v})):=by
  refine ⟨fun q=>if q=p then v else (s.task q).parentTid,?_⟩
  have : (s.modify p ({· with parentTid:=v})).task =
      fun q=>{s.task q with parentTid:=if q=p then v else (s.task q).parentTid}:=by
    funext q
    rw [Sched.task_modify]
    by_cases hq : q=p <;> simp [hq]
  rw [←this]
  rfl

theorem Reparented.next_eq (h : Reparented s s') : s'.next=s.next:=by
  obtain ⟨f,rfl⟩:=h
  rfl

theorem reparented_visit (s : Sched) (tid t : ℕ) :
    Reparented s (if (s.task t).parentTid=tid then s.modify t ({· with parentTid:=1}) else s):=by
  split
  · exact reparented_modify s t 1
  · exact .refl s

/-- The reparenting loop visits the ring once and ends. -/
theorem reparent_spec {start t : ℕ} (h : Path s.next (some t) (t::l) (some start))
    (hs : start∉l) (hn : l.length<n) (tid : ℕ) : ∃s',reparent tid start n t s=some s' ∧ Reparented s s' ∧
    ∀p,s'.task p=s.task p ∨ (s.task p).parentTid=tid ∧ p∈t::l:=by
  have hvisit (s : Sched) (t p : ℕ) :
      (if (s.task t).parentTid=tid then s.modify t ({· with parentTid:=1}) else s).task p=s.task p ∨
        (s.task p).parentTid=tid ∧ p=t:=by
    by_cases hpt : p=t
    · subst hpt
      split
      · rename_i hp
        exact .inr ⟨hp,rfl⟩
      · exact .inl rfl
    · split
      · exact .inl (Sched.task_modify_of_ne _ _ hpt)
      · exact .inl rfl
  induction l generalizing s n t with
  | nil=>
    obtain ⟨n,rfl⟩:=Nat.exists_eq_add_one_of_ne_zero (Nat.ne_zero_of_lt hn)
    have h1:=reparented_visit s tid t
    refine ⟨_,?_,h1,fun p=>(hvisit s t p).imp_right fun ⟨hp,he⟩=>⟨hp,he▸mem_cons_self⟩⟩
    have ht:=congrFun h1.next_eq t
    rw [show s.next t=some start from h.2] at ht
    simp [reparent,ht]
  | cons y l ih=>
    obtain ⟨n,rfl⟩:=Nat.exists_eq_add_one_of_ne_zero (Nat.ne_zero_of_lt hn)
    have h1:=reparented_visit s tid t
    have ht:=congrFun h1.next_eq t
    rw [show s.next t=some y from h.2.1] at ht
    have hy : y≠start:=fun e=>hs (e▸mem_cons_self)
    obtain ⟨s',hr,hp,hframe⟩:=ih (by rw [h1.next_eq]; exact ⟨rfl,h.2.2⟩)
      (fun hm=>hs (mem_cons_of_mem _ hm)) (by simpa using hn)
    refine ⟨s',by simpa [reparent,ht,hy] using hr,h1.trans hp,fun p=>?_⟩
    rcases hvisit s t p with he | ⟨hpt,rfl⟩
    · rcases hframe p with hf | ⟨hf,hm⟩
      · exact .inl (hf.trans he)
      · exact .inr ⟨he▸hf,mem_cons_of_mem _ hm⟩
    · exact .inr ⟨hpt,mem_cons_self⟩

section

variable (h : Path s.next (some r) ring (some r))
include h

theorem walk_ring (hne : ring≠[]) (hf : ring.length ≤ s.fuel) (hit : ℕ→Bool) :
    ∃t,ring.find? (fun t=>hit t || s.next t == some r)=some t ∧
    walk s.next (fun t=>hit t || s.next t == some r) s.fuel (some r)=some (some t):=by
  let stop:=fun t=>hit t || s.next t == some r
  have hstop (t : ℕ) (ht : s.next t=some r) : stop t=true:=by simp [stop,ht]
  obtain ⟨t,-,hfind⟩:=h.exists_find?_of_last hne hstop
  exact ⟨t,hfind,walk_eq_of_find? h hfind hf⟩

theorem find?_ring_iff (hn : ring.Nodup) {hit : ℕ→Bool} {t : ℕ}
    (ht : ring.find? (fun t=>hit t || s.next t == some r)=some t) : hit t=true↔∃p∈ring,hit p=true:=by
  refine ⟨fun hit=>⟨t,mem_of_find?_eq_some ht,hit⟩,?_⟩
  rintro ⟨p,hp,hit⟩
  obtain ⟨hstop,pre,post,rfl,hpre⟩:=find?_eq_some_iff_append.mp ht
  by_contra hmiss
  have hnext : s.next t=some r:=by simpa [hmiss] using hstop
  rcases mem_append.mp hp with hp | hp
  · simpa [hit] using hpre p hp
  rcases mem_cons.mp hp with rfl | hp
  · exact hmiss hit
  obtain ⟨y,ys,rfl⟩:=exists_cons_of_ne_nil (ne_nil_of_mem hp)
  -- the node after `t` is the first one again
  obtain rfl:=Option.some.inj (hnext.symm.trans h.split.2.1)
  cases pre with
  | nil=>simp [Option.some.inj h.1] at hn
  | cons x pre=>simp [Option.some.inj h.1] at hn

theorem wakeParent_spec (hne : ring≠[]) (hf : ring.length ≤ s.fuel) (tid : ℕ) : ∃s',wakeParent tid r s=some s' ∧
    (s'=s ∨ ∃t,(s.task t).state = .blocked ∧ s'=s.modify t ({· with state:=.ready})):=by
  obtain ⟨t,-,hw⟩:=walk_ring h hne hf fun t=>(s.task t).tid == tid && (s.task t).state == .blocked
  simp only [wakeParent,Option.bind_eq_bind,hw,Option.bind_some,Option.pure_def]
  split
  · rename_i hit
    have hb : (s.task t).state = .blocked:=by simp at hit; exact hit.2
    exact ⟨_,rfl,.inr ⟨t,hb,rfl⟩⟩
  · exact ⟨_,rfl,.inl rfl⟩

end

theorem findZombie_spec {a : Option ℕ} (h : Path s.next a zs none) (hn : zs.length<n) (tid : ℕ) (prev : Option ℕ) :
    (∃pr,findZombie s tid n prev a=some (pr,none) ∧ ∀z∈zs,(s.task z).parentTid≠tid) ∨
    ∃l z r,zs=l++z::r ∧ (s.task z).parentTid=tid ∧ findZombie s tid n prev a=some (l.getLast?.or prev,some z):=by
  induction zs generalizing prev a n with
  | nil=>
    obtain ⟨n,rfl⟩:=Nat.exists_eq_add_one_of_ne_zero (Nat.ne_zero_of_lt hn)
    obtain rfl:=h
    exact .inl ⟨prev,rfl,by simp⟩
  | cons z zs ih=>
    obtain ⟨n,rfl⟩:=Nat.exists_eq_add_one_of_ne_zero (Nat.ne_zero_of_lt hn)
    rw [h.1,findZombie]
    split
    · rename_i hz
      exact .inr ⟨[],z,zs,rfl,hz,rfl⟩
    rename_i hz
    rcases ih h.2 (by simpa using hn) (some z) with ⟨pr,hf,hnone⟩ | ⟨l,z',r,rfl,hz',hf⟩
    · exact .inl ⟨pr,hf,forall_mem_cons.mpr ⟨hz,hnone⟩⟩
    refine .inr ⟨z::l,z',r,rfl,hz',?_⟩
    rw [hf]
    cases l <;> simp [getLast?_cons]

theorem livingChild_spec (tid : ℕ) (h : Shape s ring zombies) :
    ∃b,livingChild tid s=some b ∧ (b=true↔∃t∈ring,(s.task t).parentTid=tid):=by
  obtain ⟨r,rest,rfl⟩:=exists_cons_of_ne_nil h.ring_ne_nil
  have hr : s.runQueue=some r:=h.cycle.1
  have hcycle : Path s.next (some r) (r::rest) (some r):=hr▸h.cycle
  have hf : (r::rest).length ≤ s.fuel:=Nat.le_trans h.length_ring (by simp [Sched.fuel])
  obtain ⟨t,ht,hw⟩:=walk_ring hcycle (by simp) hf fun t=>(s.task t).parentTid == tid
  refine ⟨(s.task t).parentTid == tid,by simp [livingChild,hr,hw],?_⟩
  simpa using find?_ring_iff hcycle h.nodup ht

/-- What `wait` relinks when its search stops at `z` with `prev` the zombie before it. -/
def Sched.unlinkZombie (s : Sched) (z : ℕ) : (prev : Option ℕ)→Sched
  | some p=>s.modify p ({· with next:=(s.task z).next})
  | none=>{s with zombieList:=(s.task z).next}

/-- A zombie may be taken out of the middle of the list. -/
theorem Shape.takeZombie {z : ℕ} {r : List ℕ} (h : Shape s ring (l++z::r))
    (hs' : s'={s.unlinkZombie z l.getLast? with heap:=s.heap.erase z}) :
    Shape s' ring (l++r) ∧ ∀p,(s'.task p).state=(s.task p).state:=by
  have hz : z∈s.heap ∧ (s.task z).state = .dead:=(h.mem_zombies z).mp (by simp)
  have hnd:=h.zombie_path.nodup_of_none
  obtain ⟨hl,hr⟩:=h.zombie_path.split
  have hzlr : z∉l++r:=by
    rw [nodup_append] at hnd
    intro hm
    rcases mem_append.mp hm with hm | hm
    · exact hnd.2.2 z hm z (by simp) rfl
    · exact (nodup_cons.mp hnd.2.1).1 hm
  have hmem (p : ℕ) : p∈s.heap.erase z↔p≠z ∧ p∈s.heap:=h.heap_nodup.mem_erase_iff
  have hstate (p : ℕ) : (s'.task p).state=(s.task p).state:=by
    cases hlast : l.getLast? with
    | none=>simp [hs',Sched.unlinkZombie,hlast]
    | some q=>
      simp only [hs',hlast,Sched.unlinkZombie,Sched.task_modify]
      by_cases hp : p=q <;> simp [hp]
  have hnext (p : ℕ) (hp : p∉l) : s'.next p=s.next p:=by
    cases hlast : l.getLast? with
    | none=>simp [hs',Sched.unlinkZombie,hlast,Sched.next]
    | some q=>
      have hq : p≠q:=fun e=>hp (e▸mem_of_getLast? hlast)
      simp [hs',Sched.unlinkZombie,hlast,Sched.next,Sched.task_modify_of_ne _ _ hq]
  have hring (p : ℕ) (hp : p∈ring) : p∉l:=fun hm=>h.notMem_zombies hp (by simp [hm])
  have hheap : s'.heap=s.heap.erase z:=by rw [hs']
  have hq : s'.runQueue=s.runQueue:=by
    cases hlast : l.getLast? <;> simp [hs',Sched.unlinkZombie,hlast]
  refine ⟨⟨?_,h.nodup,h.idle_mem,?_,?_,?_,?_,?_,?_⟩,hstate⟩
  · rw [hq]
    exact h.cycle.congr fun p hp=>hnext p (hring p hp)
  · intro p
    rw [h.mem_ring,Sched.IsTask,Sched.IsTask,hheap,hmem,hstate]
    constructor
    · rintro ⟨hp,hd⟩
      exact ⟨hp.imp_right fun hp=>⟨fun e=>hd (e▸hz.2),hp⟩,hd⟩
    · rintro ⟨hp,hd⟩
      exact ⟨hp.imp_right And.right,hd⟩
  · cases hlast : l.getLast? with
    | none=>
      have hnil : l=[]:=getLast?_eq_none_iff.mp hlast
      subst hnil
      have : s'.zombieList=s.next z:=by simp [hs',Sched.unlinkZombie,Sched.next]
      rw [this]
      exact hr.congr fun p _=>hnext p (by simp)
    | some q=>
      obtain ⟨l',rfl⟩ : ∃l',l=l'++[q]:=⟨l.dropLast,(dropLast_append_getLast? q hlast).symm⟩
      have hql' : q∉l':=by
        rw [append_assoc,nodup_append] at hnd
        intro hm
        exact hnd.2.2 q hm q (by simp) rfl
      have hqr : q∉r:=by
        intro hm
        rw [nodup_append] at hnd
        exact hnd.2.2 q (by simp) q (by simp [hm]) rfl
      have hnext' : s'.next=update s.next q (s.next z):=by
        rw [←Sched.next_modify_next]
        simp [hs',Sched.unlinkZombie,Sched.next]
        rfl
      have hzl : s'.zombieList=s.zombieList:=by simp [hs',Sched.unlinkZombie]
      rw [hnext',hzl]
      exact (hl.update_last hql' _).append (hr.update_of_notMem hqr _)
  · intro p
    have hm:=h.mem_zombies p
    rw [hheap,hmem,hstate]
    by_cases hp : p=z
    · subst hp
      simp [hzlr]
    have : p∈l++z::r↔p∈l++r:=by simp [hp]
    rw [←this,hm]
    simp [hp]
  · exact hheap▸h.heap_nodup.erase z
  · exact fun hi=>h.idle_static ((hmem _).mp (hheap▸hi)).2
  · rw [Sched.runnable,hstate]
    exact h.idle_runnable

end Knail.Scheduler
