import Knail.SchedulerRing

/-!
# What scheduler operations leave alone

Switching, blocking and waking move tasks around but keep their identities. `exit` kills the
caller and may hand its children to init, `reap_zombies` and `wait` release dead tasks, and a
new task enters the ring.
-/
namespace Knail.Scheduler

open List Option

variable {s s' s'' : Sched} {ev : List Event} {ring zombies : List ℕ} {cur : ℕ}
  {nxt tid : ℕ} {t : Option ℕ} {res : WaitResult} {code : ℤ}

/-- The identities of the tasks, their codes, who is dead and the preemption count stay the
same. -/
structure Steady (s s' : Sched) : Prop where
  tid : ∀p,(s'.task p).tid=(s.task p).tid
  parentTid : ∀p,(s'.task p).parentTid=(s.task p).parentTid
  exitCode : ∀p,(s'.task p).exitCode=(s.task p).exitCode
  dead : ∀p,(s'.task p).state = .dead↔(s.task p).state = .dead
  heap : s'.heap=s.heap
  nextTid : s'.nextTid=s.nextTid
  preemptCount : s'.preemptCount=s.preemptCount

theorem steady_of_task (ht : s'.task=s.task) (hh : s'.heap=s.heap) (hn : s'.nextTid=s.nextTid)
    (hc : s'.preemptCount=s.preemptCount) : Steady s s':=
  ⟨fun _=>by rw [ht],fun _=>by rw [ht],fun _=>by rw [ht],fun _=>by rw [ht],hh,hn,hc⟩

theorem Steady.refl (s : Sched) : Steady s s:=steady_of_task rfl rfl rfl rfl

theorem Steady.trans (h : Steady s s') (h' : Steady s' s'') : Steady s s'' where
  tid:=fun p=>(h'.tid p).trans (h.tid p)
  parentTid:=fun p=>(h'.parentTid p).trans (h.parentTid p)
  exitCode:=fun p=>(h'.exitCode p).trans (h.exitCode p)
  dead:=fun p=>(h'.dead p).trans (h.dead p)
  heap:=h'.heap.trans h.heap
  nextTid:=h'.nextTid.trans h.nextTid
  preemptCount:=h'.preemptCount.trans h.preemptCount

theorem steady_modify (s : Sched) (p : ℕ) {f : Task→Task}
    (hf : ∀t,(f t).tid=t.tid ∧ (f t).parentTid=t.parentTid ∧ (f t).exitCode=t.exitCode)
    (hd : (f (s.task p)).state = .dead↔(s.task p).state = .dead) : Steady s (s.modify p f):=by
  have hcases (q : ℕ) : (s.modify p f).task q=s.task q ∨ q=p ∧ (s.modify p f).task q=f (s.task p):=by
    rw [Sched.task_modify]
    split
    · rename_i hq
      exact .inr ⟨hq,rfl⟩
    · exact .inl rfl
  refine ⟨fun q=>?_,fun q=>?_,fun q=>?_,fun q=>?_,rfl,rfl,rfl⟩
  all_goals rcases hcases q with he | ⟨rfl,he⟩ <;> rw [he]
  · exact (hf _).1
  · exact (hf _).2.1
  · exact (hf _).2.2
  · exact hd

theorem doSwitch_steady (h : doSwitch nxt s=some (s',ev)) (hn : (s.task nxt).state≠.dead) : Steady s s':=by
  obtain ⟨prev,-,h⟩:=bind_eq_some_iff.mp h
  split at h
  · cases h
    exact .refl s
  cases h
  have h1 : Steady s (if (s.task prev).state = .running then s.modify prev ({· with state:=.ready}) else s):=by
    split
    · rename_i hp
      exact steady_modify _ _ (fun _=>⟨rfl,rfl,rfl⟩) (by simp [hp])
    · exact .refl s
  generalize (if (s.task prev).state = .running then s.modify prev ({· with state:=.ready}) else s)=s1 at h1 ⊢
  have hn1:=mt (h1.dead nxt).mp hn
  have h2 : Steady s1 (s1.modify nxt fun t=>{t with state:=.running,timeslice:=t.quantum}):=
    steady_modify _ _ (fun _=>⟨rfl,rfl,rfl⟩) (by simp [hn1])
  exact (h1.trans h2).trans (steady_of_task rfl rfl rfl rfl)

theorem pickNext_alive {t : ℕ} (hi : (s.task idleTask).state≠.dead) (h : pickNext s=some t) :
    (s.task t).state≠.dead:=by
  obtain ⟨r,-,h⟩:=bind_eq_some_iff.mp h
  obtain ⟨w,-,h⟩:=bind_eq_some_iff.mp h
  obtain ⟨u,-,h⟩:=bind_eq_some_iff.mp h
  cases h
  split
  · rename_i hr
    intro hd
    simp [Sched.runnable,hd] at hr
  · exact hi

theorem switch_steady (hi : (s.task idleTask).state≠.dead) (hp : pickNext s=some nxt)
    (h : doSwitch nxt s=some (s',ev)) : Steady s s':=doSwitch_steady h (pickNext_alive hi hp)

theorem doSwitch_freed (h : doSwitch nxt s=some (s',ev)) :
    freedTasks ev=[] ∧ freedTasks (restoreUnlessSwitched ev)=[]:=by
  obtain ⟨prev,-,h⟩:=bind_eq_some_iff.mp h
  split at h <;> cases h <;> exact ⟨rfl,rfl⟩

theorem Invariant.idle_alive (h : Invariant s ring zombies cur) : (s.task idleTask).state≠.dead:=by
  have hr:=h.idle_runnable
  intro hd
  simp [Sched.runnable,hd] at hr

theorem Invariant.cur_alive (h : Invariant s ring zombies cur) : s.IsTask cur ∧ (s.task cur).state≠.dead:=by
  have hm : cur∈ring:=mem_of_mem_head? (h.cycle.head?_eq h.ring_ne_nil▸h.head)
  exact (h.mem_ring cur).mp hm

/-- The state after `reap_zombies`. -/
def Sched.reaped (s : Sched) (zombies : List ℕ) : Sched:={s with zombieList:=none,heap:=s.heap.diff zombies}

section

variable (hinv : Invariant s ring zombies cur)
include hinv

theorem Invariant.reapZombies_reaped
    (h : reapZombies s.fuel s=some (s',ev)) : s'=s.reaped zombies ∧ freedTasks ev=zombies:=by
  obtain ⟨rfl,rfl⟩:=Prod.mk.inj (some.inj (h.symm.trans (reapZombies_spec hinv.toShape)))
  exact ⟨rfl,freedTasks_flatMap_releaseEvents _ _⟩

theorem Invariant.tick_steady (h : tick s=some (s',ev)) : Steady (s.reaped zombies) s' ∧ freedTasks ev=zombies:=by
  simp only [tick,bind_eq_bind] at h
  obtain ⟨⟨s1,ev1⟩,h1,h⟩:=bind_eq_some_iff.mp h
  obtain ⟨hs1,hz⟩:=hinv.reapZombies_reaped h1
  have hi : (s1.task idleTask).state≠.dead:=hs1▸hinv.idle_alive
  rw [←hs1]
  split at h
  · cases h
    exact ⟨.refl _,hz⟩
  rename_i cur hcur
  have h2 : Steady s1 (if 0<(s1.task cur).timeslice then
      s1.modify cur (fun t=>{t with timeslice:=t.timeslice-1}) else s1):=by
    split
    · exact steady_modify _ _ (fun _=>⟨rfl,rfl,rfl⟩) .rfl
    · exact .refl _
  generalize (if 0<(s1.task cur).timeslice then
    s1.modify cur (fun t=>{t with timeslice:=t.timeslice-1}) else s1)=s2 at h h2
  split at h
  · obtain ⟨nxt,hp,h⟩:=bind_eq_some_iff.mp h
    obtain ⟨⟨s3,ev3⟩,h3,h⟩:=bind_eq_some_iff.mp h
    cases h
    refine ⟨h2.trans (switch_steady (mt (h2.dead _).mp hi) hp h3),?_⟩
    rw [freedTasks_append,hz,(doSwitch_freed h3).1,append_nil]
  · cases h
    exact ⟨h2,hz⟩

theorem Invariant.yield_steady (h : yield s=some (s',ev)) : Steady (s.reaped zombies) s' ∧ freedTasks ev=zombies:=by
  obtain ⟨⟨s1,ev1⟩,h1,h⟩:=bind_eq_some_iff.mp h
  obtain ⟨hs1,hz⟩:=hinv.reapZombies_reaped h1
  have hi : (s1.task idleTask).state≠.dead:=hs1▸hinv.idle_alive
  rw [←hs1]
  obtain ⟨cur,-,h⟩:=bind_eq_some_iff.mp h
  obtain ⟨nxt,hp,h⟩:=bind_eq_some_iff.mp h
  obtain ⟨⟨s3,ev3⟩,h3,h⟩:=bind_eq_some_iff.mp h
  cases h
  have h2 : Steady s1 (s1.modify cur ({· with timeslice:=0})):=steady_modify _ _ (fun _=>⟨rfl,rfl,rfl⟩) .rfl
  refine ⟨h2.trans (switch_steady (mt (h2.dead _).mp hi) hp h3),?_⟩
  rw [freedTasks_append,freedTasks_append,hz,(doSwitch_freed h3).2,append_nil]
  rfl

theorem Invariant.blockCurrent_steady (h : blockCurrent s=some (s',ev)) : Steady s s' ∧ freedTasks ev=[]:=by
  simp only [blockCurrent,bind_eq_bind,hinv.current,bind_some] at h
  obtain ⟨nxt,hp,h⟩:=bind_eq_some_iff.mp h
  obtain ⟨⟨s3,ev3⟩,h3,h⟩:=bind_eq_some_iff.mp h
  cases h
  have h2 : Steady s (s.modify cur ({· with state:=.blocked})):=
    steady_modify _ _ (fun _=>⟨rfl,rfl,rfl⟩) (by simp [hinv.cur_alive.2])
  exact ⟨h2.trans (switch_steady (mt (h2.dead _).mp hinv.idle_alive) hp h3),(doSwitch_freed h3).2⟩

end

theorem wake_steady (h : wake t s=some (s',ev)) : Steady s s' ∧ freedTasks ev=[]:=by
  cases t with
  | none=>
    cases h
    exact ⟨.refl _,rfl⟩
  | some t=>
    simp only [wake] at h
    split at h
    · cases h
      exact ⟨.refl _,rfl⟩
    rename_i hb
    have hb:=not_not.mp hb
    have h1 : Steady s (s.modify t ({· with state:=.ready})):=
      steady_modify _ _ (fun _=>⟨rfl,rfl,rfl⟩) (by simp [hb])
    split at h
    · exact ⟨h1.trans (doSwitch_steady h (by simp)),(doSwitch_freed h).1⟩
    · cases h
      exact ⟨h1,rfl⟩

theorem findZombie_parent {n z : ℕ} {prev a pr : Option ℕ} (h : findZombie s tid n prev a=some (pr,some z)) :
    (s.task z).parentTid=tid:=by
  induction n generalizing prev a with
  | zero=>cases h
  | succ n ih=>
    cases a with
    | none=>simp [findZombie] at h
    | some y=>
      simp only [findZombie] at h
      split at h
      · rename_i hy
        cases h
        exact hy
      · exact ih h

theorem Invariant.wait_cases {res : WaitResult} (hinv : Invariant s ring zombies cur) (h : wait s=some (s',res,ev)) :
    (∃z,z∈s.heap ∧ (s.task z).state = .dead ∧ (s.task z).parentTid=(s.task cur).tid ∧
    res = .reaped (s.task z).tid (s.task z).exitCode ∧ freedTasks ev=[z] ∧ s'.heap=s.heap.erase z ∧
    Steady s {s' with heap:=s.heap}) ∨
    (∀t c,res≠.reaped t c) ∧ Steady s s' ∧ freedTasks ev=[]:=by
  rcases wait_eq hinv with ⟨l,z,r,rfl,hpar,hw⟩ | ⟨-,⟨-,-,hw⟩ | ⟨-,hw⟩⟩
  · obtain ⟨hz,hdead⟩:=(hinv.mem_zombies z).mp (by simp)
    cases h.symm.trans hw
    refine .inl ⟨z,hz,hdead,hpar,rfl,?_,rfl,?_⟩
    · rw [freedTasks_append,freedTasks_append,freedTasks_releaseEvents]
      rfl
    cases l.getLast? with
    | none=>exact steady_of_task rfl rfl rfl rfl
    | some p=>
      have h1 : Steady s (s.modify p ({· with next:=(s.task z).next})):=
        steady_modify _ _ (fun _=>⟨rfl,rfl,rfl⟩) .rfl
      exact h1.trans (steady_of_task rfl rfl rfl rfl)
  · cases h.symm.trans hw
    exact .inr ⟨by simp,.refl _,rfl⟩
  · obtain ⟨⟨s1,ev1⟩,hblock,he⟩:=map_eq_some_iff.mp (hw.symm.trans h)
    cases he
    exact .inr ⟨by simp,hinv.blockCurrent_steady hblock⟩

theorem walk_steady {r : ℕ} (h : wakeParent tid r s=some s') : Steady s s':=by
  obtain ⟨w,-,h⟩:=bind_eq_some_iff.mp h
  obtain ⟨t,-,h⟩:=bind_eq_some_iff.mp h
  cases h
  split
  · rename_i hit
    have hb : (s.task t).state = .blocked:=by simp at hit; exact hit.2
    exact steady_modify _ _ (fun _=>⟨rfl,rfl,rfl⟩) (by simp [hb])
  · exact .refl _

theorem notifyParent_steady (h : notifyParent tid s=some s') : Steady s s':=by
  unfold notifyParent at h
  split at h
  · cases h
    exact .refl _
  split at h
  · cases h
    exact .refl _
  · exact walk_steady h

theorem unlinkTask_steady {victim : ℕ} (h : unlinkTask victim s=some s') : Steady s s':=by
  have hnext (s : Sched) (p : ℕ) (v : Option ℕ) : Steady s (s.modify p ({· with next:=v})):=
    steady_modify _ _ (fun _=>⟨rfl,rfl,rfl⟩) .rfl
  unfold unlinkTask at h
  split at h
  · cases h
    exact .refl _
  obtain ⟨w,-,h⟩:=bind_eq_some_iff.mp h
  obtain ⟨prev,-,h⟩:=bind_eq_some_iff.mp h
  split at h
  · cases h
    exact .refl _
  split at h
  · cases h
    exact (hnext s victim none).trans (steady_of_task rfl rfl rfl rfl)
  · cases h
    exact ((hnext s prev _).trans (hnext _ victim none)).trans (steady_of_task rfl rfl rfl rfl)

/-- What `exit` does to identities: the caller is dead with its code, and a task that names
it as its parent and is not dead may be handed to init. -/
structure Exited (s s' : Sched) (dead : ℕ) (code : ℤ) : Prop where
  tid : ∀p,(s'.task p).tid=(s.task p).tid
  parentTid : ∀p,(s'.task p).parentTid=(s.task p).parentTid ∨
    (s.task p).parentTid=(s.task dead).tid ∧ (s.task p).state≠.dead
  exitCode : ∀p,p≠dead→(s'.task p).exitCode=(s.task p).exitCode
  code : (s'.task dead).exitCode=code
  dead : ∀p,(s'.task p).state = .dead↔(s.task p).state = .dead ∨ p=dead
  heap : s'.heap=s.heap
  nextTid : s'.nextTid=s.nextTid
  preemptCount : s'.preemptCount=s.preemptCount

theorem Exited.steady (h : Exited s s' cur code) (h' : Steady s' s'') : Exited s s'' cur code where
  tid:=fun p=>(h'.tid p).trans (h.tid p)
  parentTid:=fun p=>by rw [h'.parentTid]; exact h.parentTid p
  exitCode:=fun p hp=>(h'.exitCode p).trans (h.exitCode p hp)
  code:=(h'.exitCode cur).trans h.code
  dead:=fun p=>(h'.dead p).trans (h.dead p)
  heap:=h'.heap.trans h.heap
  nextTid:=h'.nextTid.trans h.nextTid
  preemptCount:=h'.preemptCount.trans h.preemptCount

theorem Invariant.exited (hinv : Invariant s ring zombies cur)
    (hidle : s.currentTask≠some idleTask) (h : exit code s=some (s',ev)) : Exited s s' cur code ∧ freedTasks ev=[]:=by
  obtain ⟨x,rest,rfl⟩:=exists_cons_of_ne_nil hinv.ring_ne_nil
  obtain rfl:=some.inj (hinv.head.symm.trans hinv.cycle.1)
  have hci : idleTask≠cur:=fun e=>hidle (e▸hinv.current)
  let s2:=(s.modify cur ({· with exitCode:=code,state:=.dead})).modify cur ({· with fdTable:=none})
  have htask (p : ℕ) (hp : p≠cur) : s2.task p=s.task p:=by
    rw [Sched.task_modify_of_ne _ _ hp,Sched.task_modify_of_ne _ _ hp]
  have hcur : (s2.task cur).tid=(s.task cur).tid ∧ (s2.task cur).parentTid=(s.task cur).parentTid ∧
      (s2.task cur).exitCode=code ∧ (s2.task cur).state = .dead:=by simp [s2]
  have hnext : s2.next=s.next:=by
    rw [Sched.next_modify _ cur (by exact fun _=>rfl),s.next_modify cur (by exact fun _=>rfl)]
  simp only [exit,bind_eq_bind,hinv.current,bind_some] at h
  -- the turn around the ring that hands the children to init
  obtain ⟨s3,h3,h⟩:=bind_eq_some_iff.mp h
  change reparentChildren (s2.task cur).tid s2=some s3 at h3
  have hcycle : Path s2.next (some cur) (cur::rest) (some cur):=by
    rw [hnext]
    exact hinv.head▸hinv.cycle
  obtain ⟨t3,hrep,⟨f,hf⟩,hframe⟩:=reparent_spec (n:=s2.fuel) hcycle (nodup_cons.mp hinv.nodup).1
    (by have:=hinv.length_ring; simp only [Sched.fuel,s2,Sched.heap_modify]; simp at this; omega) (s2.task cur).tid
  have hq : s2.runQueue=some cur:=hinv.head
  simp only [reparentChildren,hq] at h3
  obtain rfl:=some.inj (hrep.symm.trans h3)
  have he3 : Exited s t3 cur code:=by
    have hfield (p : ℕ) : t3.task p={s2.task p with parentTid:=f p}:=by rw [hf]
    refine ⟨fun p=>?_,fun p=>?_,fun p hp=>?_,?_,fun p=>?_,?_,?_,?_⟩
    · rw [hfield]
      by_cases hp : p=cur
      · rw [hp]
        exact hcur.1
      · rw [←htask p hp]
    · by_cases hp : p=cur
      · subst hp
        rcases hframe p with he | ⟨he,-⟩
        · exact .inl ((congrArg Task.parentTid he).trans hcur.2.1)
        · rw [hcur.1,hcur.2.1] at he
          exact .inr ⟨he,hinv.cur_alive.2⟩
      · rcases hframe p with he | ⟨he,hm⟩
        · exact .inl ((congrArg Task.parentTid he).trans (congrArg Task.parentTid (htask p hp)))
        · rw [htask p hp,hcur.1] at he
          exact .inr ⟨he,((hinv.mem_ring p).mp hm).2⟩
    · rw [hfield,←htask p hp]
    · rw [hfield]
      exact hcur.2.2.1
    · rw [hfield]
      by_cases hp : p=cur
      · subst hp
        exact iff_of_true hcur.2.2.2 (.inr rfl)
      · simp [htask p hp,hp]
    · rw [hf]
      rfl
    · rw [hf]
      rfl
    · rw [hf]
      rfl
  obtain ⟨s4,h4,h⟩:=bind_eq_some_iff.mp h
  obtain ⟨s5,h5,h⟩:=bind_eq_some_iff.mp h
  have he5:=(he3.steady (notifyParent_steady h4)).steady (unlinkTask_steady h5)
  have h6 : Steady s5 { s5.modify cur ({· with next:=s5.zombieList}) with zombieList:=some cur }:=
    (steady_modify s5 cur (f:=({· with next:=s5.zombieList})) (fun _=>⟨rfl,rfl,rfl⟩) .rfl).trans
      (steady_of_task rfl rfl rfl rfl)
  have he6:=he5.steady h6
  have hfd (t : FDTable) : freedTasks t.freeEvents=[]:=freedTasks_kfree fun e he=>FDTable.mem_freeEvents he
  split at h
  · cases h
    refine ⟨he6,?_⟩
    rw [freedTasks_append,freedTasks_append]
    split
    · rfl
    · rw [hfd]
      rfl
  · obtain ⟨nxt,hp,h⟩:=bind_eq_some_iff.mp h
    obtain ⟨⟨s7,ev7⟩,h7,h⟩:=bind_eq_some_iff.mp h
    cases h
    have hi6:=mt (he6.dead idleTask).mp fun hd=>hd.elim hinv.idle_alive hci
    refine ⟨he6.steady (switch_steady hi6 hp h7),?_⟩
    rw [freedTasks_append,freedTasks_append,(doSwitch_freed h7).2]
    split
    · rfl
    · rw [hfd]
      rfl

theorem enqueueNew_steady (t : ℕ) (new : Task) (s : Sched) :
    Steady ({s with heap:=t::s.heap,nextTid:=u32 (s.nextTid+1)}.modify t fun _=>new) (enqueueNew t new s).1:=by
  have hnext (s : Sched) (p : ℕ) (v : Option ℕ) : Steady s (s.modify p ({· with next:=v})):=
    steady_modify _ _ (fun _=>⟨rfl,rfl,rfl⟩) .rfl
  unfold enqueueNew enqueue
  split
  · exact (hnext _ t _).trans (steady_of_task rfl rfl rfl rfl)
  · exact (hnext _ t _).trans (hnext _ _ _)

theorem forkCurrent_cases (space task kstack scstack : Option ℕ) (fdt : Option FDTable) (s : Sched) :
    (∃e ev,forkCurrent space task kstack scstack fdt s=(s,.error e,ev) ∧ ∀p∈freedTasks ev,task=some p) ∨
    ∃p t new ev,s.currentTask=some p ∧ task=some t ∧
    forkCurrent space task kstack scstack fdt s=((enqueueNew t new s).1,.ok s.nextTid,ev) ∧
    freedTasks ev=[] ∧ new.state = .ready ∧ new.tid=s.nextTid ∧ new.parentTid=(s.task t).parentTid:=by
  cases hc : s.currentTask with
  | none=>exact .inl ⟨.invalidArgument,[],by simp [forkCurrent,hc],by simp [freedTasks]⟩
  | some p=>
    by_cases hp : (s.task p).pml4=none
    · exact .inl ⟨.invalidArgument,[],by simp [forkCurrent,hc,hp],by simp [freedTasks]⟩
    by_cases hsp : space=none
    · exact .inl ⟨.outOfMemory,[],by simp [forkCurrent,hc,hp,hsp],by simp [freedTasks]⟩
    cases task with
    | none=>exact .inl ⟨.outOfMemory,[.kmalloc],by simp [forkCurrent,hc,hp,hsp],by simp [freedTasks]⟩
    | some t=>
      have hfreed (l : List Event) (hl : freedTasks l=[]) : ∀q∈freedTasks (l++[.kfreeTask t]),some t=some q:=by
        intro q hq
        rw [freedTasks_append,hl] at hq
        simpa [freedTasks,eq_comm] using hq
      cases kstack <;> cases scstack
      case some.some k sc =>
        cases fdt with
        | none=>
          exact .inl ⟨.outOfMemory,_,by simp only [forkCurrent,hc,hp,hsp,if_false]; rfl,
            hfreed [.kmallocTask t,.kmalloc,.kmalloc,.kfree sc,.kfree k] rfl⟩
        | some f=>
          exact .inr ⟨p,t,forkedTask space k sc f p t s,_,rfl,rfl,
            by simp only [forkCurrent,hc,hp,hsp,if_false]; rfl,rfl,rfl,rfl,rfl⟩
      all_goals exact .inl ⟨.outOfMemory,_,by simp only [forkCurrent,hc,hp,hsp,if_false]; rfl,hfreed _ rfl⟩

def Sched.Live (s : Sched) (p : ℕ) : Prop:=s.IsTask p ∧ (s.task p).state≠.dead

instance (s : Sched) (p : ℕ) : Decidable (s.Live p):=inferInstanceAs (Decidable (_ ∧ _))

/-- Control may have gone to another task, but none has come or gone. -/
structure Rescheduled (s s' : Sched) : Prop where
  live : ∀p,s'.Live p↔s.Live p
  preemptCount : s'.preemptCount=s.preemptCount
  invariant : ∃ring zombies cur,Invariant s' ring zombies cur

theorem Steady.live (h : Steady s s') (p : ℕ) : s'.Live p↔s.Live p:=by
  rw [Sched.Live,Sched.Live,Sched.IsTask,Sched.IsTask,h.heap,ne_eq,h.dead p]

theorem Steady.rescheduled (h : Steady s s') (hinv : ∃ring zombies cur,Invariant s' ring zombies cur) :
    Rescheduled s s':=⟨h.live,h.preemptCount,hinv⟩

section

variable (hinv : Invariant s ring zombies cur)
include hinv

theorem Invariant.reaped_live (p : ℕ) : (s.reaped zombies).Live p↔s.Live p:=by
  have hm : p∈s.heap \ zombies↔p∈s.heap ∧ p∉zombies:=hinv.heap_nodup.mem_sdiff_iff
  have hz:=hinv.mem_zombies p
  simp only [Sched.Live,Sched.IsTask,Sched.reaped]
  tauto

theorem Invariant.tick_rescheduled (h : tick s=some (s',ev)) : Rescheduled s s':=by
  have hs:=(hinv.tick_steady h).1
  obtain ⟨s2,ev2,h2,hspec⟩:=tick_spec hinv
  obtain ⟨rfl,rfl⟩:=Prod.mk.inj (some.inj (h.symm.trans h2))
  exact ⟨fun p=>(hs.live p).trans (hinv.reaped_live p),hs.preemptCount,hspec.invariant⟩

theorem Invariant.yield_rescheduled (h : yield s=some (s',ev)) : Rescheduled s s':=by
  have hs:=(hinv.yield_steady h).1
  obtain ⟨s2,ev2,h2,hspec⟩:=yield_spec hinv
  obtain ⟨rfl,rfl⟩:=Prod.mk.inj (some.inj (h.symm.trans h2))
  exact ⟨fun p=>(hs.live p).trans (hinv.reaped_live p),hs.preemptCount,hspec.invariant⟩

theorem Invariant.blockCurrent_rescheduled
    (hidle : s.currentTask≠some idleTask) (h : blockCurrent s=some (s',ev)) : Rescheduled s s':=by
  obtain ⟨s2,ev2,h2,hspec⟩:=blockCurrent_spec hinv hidle
  obtain ⟨rfl,rfl⟩:=Prod.mk.inj (some.inj (h.symm.trans h2))
  exact (hinv.blockCurrent_steady h).1.rescheduled hspec.invariant

theorem Invariant.wake_rescheduled
    (ht : ∀p,t=some p→s.IsTask p ∧ (s.task p).state≠.dead) (h : wake t s=some (s',ev)) : Rescheduled s s':=by
  obtain ⟨s2,ev2,h2,hspec⟩:=wake_spec hinv ht
  obtain ⟨rfl,rfl⟩:=Prod.mk.inj (some.inj (h.symm.trans h2))
  exact (wake_steady h).1.rescheduled hspec.invariant

theorem Invariant.wait_rescheduled (hidle : s.currentTask=some idleTask→∀r,wait s=some r → r.2.1≠.blocked)
    (h : wait s=some (s',res,ev)) : Rescheduled s s':=by
  obtain ⟨s2,res2,ev2,h2,hspec⟩:=wait_spec hinv hidle
  obtain ⟨rfl,-,-⟩ : s'=s2 ∧ res=res2 ∧ ev=ev2:=by simpa using h.symm.trans h2
  rcases hinv.wait_cases h with ⟨z,hz,hd,-,-,-,hheap,hsteady⟩ | ⟨-,hsteady,-⟩
  · refine ⟨fun p=>?_,hsteady.preemptCount,hspec.invariant⟩
    have hm:=hinv.heap_nodup.mem_erase_iff (a:=p) (b:=z)
    have hp:=hsteady.dead p
    rw [Sched.Live,Sched.Live,Sched.IsTask,Sched.IsTask,hheap,hm,ne_eq (s'.task p).state,hp]
    by_cases he : p=z
    · subst he
      simp [hd]
    · simp [he]
  · exact hsteady.rescheduled hspec.invariant

theorem Invariant.tick_current (h : tick s=some (s',ev)) (hc : s.preemptCount≠0) : s'.currentTask=s.currentTask:=by
  simp only [tick,bind_eq_bind] at h
  obtain ⟨⟨s1,ev1⟩,h1,h⟩:=bind_eq_some_iff.mp h
  obtain ⟨rfl,-⟩:=hinv.reapZombies_reaped h1
  split at h
  · cases h
    rfl
  rw [if_neg (fun hsw=>hc (by have:=hsw.2; split at this <;> exact this))] at h
  cases h
  split <;> rfl

end

theorem wake_current (h : wake t s=some (s',ev)) (hc : s.currentTask≠some idleTask) : s'.currentTask=s.currentTask:=by
  unfold wake at h
  split at h
  · cases h
    rfl
  split at h
  · cases h
    rfl
  rw [if_neg (show ¬(Sched.modify _ _ _).currentTask=_ from hc)] at h
  cases h
  rfl

theorem Invariant.exit_live (hinv : Invariant s ring zombies cur) (hidle : s.currentTask≠some idleTask)
    (h : exit code s=some (s',ev)) : (∀p,s'.Live p↔s.Live p ∧ p≠cur) ∧ s'.preemptCount=s.preemptCount ∧
    ∃ring zombies cur,Invariant s' ring zombies cur:=by
  obtain ⟨hex,-⟩:=hinv.exited hidle h
  obtain ⟨s2,ev2,h2,hspec⟩:=@exit_spec _ _ _ _ code hinv hidle
  obtain ⟨rfl,rfl⟩:=Prod.mk.inj (some.inj (h.symm.trans h2))
  refine ⟨fun p=>?_,hex.preemptCount,hspec.invariant⟩
  have hd:=hex.dead p
  rw [Sched.Live,Sched.Live,Sched.IsTask,Sched.IsTask,hex.heap,ne_eq,hd]
  tauto

theorem Invariant.enqueueNew_live {t : ℕ} {new : Task} (hinv : Invariant s ring zombies cur) (ht : ¬s.IsTask t)
    (hnew : new.state = .ready) :
    (∀p,(enqueueNew t new s).1.Live p↔s.Live p ∨ p=t) ∧ (enqueueNew t new s).1.preemptCount=s.preemptCount ∧
    (enqueueNew t new s).1.currentTask=s.currentTask ∧
    ∃ring zombies cur,Invariant (enqueueNew t new s).1 ring zombies cur:=by
  have hs:=enqueueNew_steady t new s
  refine ⟨fun p=>?_,hs.preemptCount,?_,(enqueueNew_spec hinv ht hnew).invariant⟩
  · rw [hs.live p]
    by_cases hp : p=t
    · subst hp
      simp [Sched.Live,Sched.IsTask,hnew]
    · simp [Sched.Live,Sched.IsTask,hp,Sched.task_modify_of_ne _ _ hp]
  · unfold enqueueNew Scheduler.enqueue
    split <;> rfl

end Knail.Scheduler
