import Knail.KernelEntry

/-!
# The preemption count in user mode

`syscall_entry` raises the count and the way out lowers it, but a system call that blocks
keeps it raised while other tasks run. In runs where tasks block in a system call only when
no other user task is around, the count is zero whenever user code runs.
-/
namespace Knail.KernelEntry

open Scheduler Option

variable {m m' : Machine} {op : Op} {s' : Sched} {ev : List Event} {cur : ℕ} {th : Thread}

/-- A task blocks or waits inside a system call only if all other tasks are kernel threads,
and no user task is created while another task is away inside a system call. -/
def Op.Courteous (m : Machine) : Op→Prop
  | .block | .wait=>∀cur∈m.sched.currentTask,(m.thread cur).place.inHandler →
      ∀q,m.sched.Live q→q≠cur→(m.thread q).place = .kernelThread
  | .spawnUser _ _ _ | .fork _ _ _ _ _=>∀p,m.sched.Live p→m.sched.currentTask≠some p →
      (m.thread p).place.inHandler=false
  | _=>True

/-- The count is one or zero as some task is or is not in a handler, and a task that is away
inside a handler is alone with kernel threads. -/
structure Bracketed (m : Machine) : Prop where
  invariant : ∃ring zombies cur,Invariant m.sched ring zombies cur
  idle : (m.thread idleTask).place = .kernelThread
  away : ∀p,m.sched.Live p→(m.thread p).place.inHandler→m.sched.currentTask≠some p →
    ∀q,m.sched.Live q→q≠p→(m.thread q).place = .kernelThread
  held : ∀p,m.sched.Live p→(m.thread p).place.inHandler→m.sched.preemptCount=1
  free : (∀p,m.sched.Live p→(m.thread p).place.inHandler=false)→m.sched.preemptCount=0

section

variable (h : Bracketed m)
include h

theorem Bracketed.current_live (hc : m.sched.currentTask=some cur) : m.sched.Live cur:=by
  obtain ⟨ring,zombies,c,hinv⟩:=h.invariant
  obtain rfl:=some.inj (hinv.current.symm.trans hc)
  exact hinv.cur_alive

theorem Bracketed.free_of_user (hc : m.sched.currentTask=some cur)
    (hu : (m.thread cur).place≠.kernelThread) (hh : (m.thread cur).place.inHandler=false) :
    ∀p,m.sched.Live p→(m.thread p).place.inHandler=false:=by
  intro p hp
  by_contra hin
  rw [Bool.not_eq_false] at hin
  have hpc : cur≠p:=by
    rintro rfl
    rw [hh] at hin
    cases hin
  have haway:=h.away p hp hin (fun he=>hpc (some.inj (hc.symm.trans he)))
  exact hu (haway cur (h.current_live hc) hpc)

theorem Bracketed.congr (hs : m'.sched=m.sched) (hh : ∀p,(m'.thread p).place.inHandler=(m.thread p).place.inHandler)
    (hk : ∀p,(m'.thread p).place = .kernelThread↔(m.thread p).place = .kernelThread) : Bracketed m' where
  invariant:=hs▸h.invariant
  idle:=(hk _).mpr h.idle
  away:=by
    intro p hp hin hc q hq hqp
    rw [hs] at hp hc hq
    exact (hk q).mpr (h.away p hp (hh p▸hin) hc q hq hqp)
  held:=by
    intro p hp hin
    rw [hs] at hp ⊢
    exact h.held p hp (hh p▸hin)
  free:=by
    intro hf
    rw [hs] at hf ⊢
    exact h.free fun p hp=>(hh p).symm.trans (hf p hp)

theorem Bracketed.move (hs : m'.sched=m.sched) (ht : ∀p,m'.thread p=if p=cur then th else m.thread p)
    (hh : th.place.inHandler=(m.thread cur).place.inHandler)
    (hk : th.place = .kernelThread↔(m.thread cur).place = .kernelThread) : Bracketed m':=by
  refine h.congr hs (fun p=>?_) (fun p=>?_)
  all_goals
    rw [ht p]
    split
    · rename_i hp
      subst hp
      assumption
    · rfl

theorem Bracketed.reschedule (hr : Rescheduled m.sched s')
    (hc : s'.currentTask=m.sched.currentTask ∨ ∀cur∈m.sched.currentTask,(m.thread cur).place.inHandler →
    ∀q,m.sched.Live q→q≠cur→(m.thread q).place = .kernelThread) : Bracketed {m with sched:=s'} where
  invariant:=hr.invariant
  idle:=h.idle
  away:=by
    intro p hp hin hcp q hq hqp
    rw [hr.live] at hp hq
    by_cases hcur : m.sched.currentTask=some p
    · rcases hc with he | hall
      · exact absurd (he.trans hcur) hcp
      · exact hall p hcur hin q hq hqp
    · exact h.away p hp hin hcur q hq hqp
  held:=by
    intro p hp hin
    rw [hr.live] at hp
    exact hr.preemptCount.trans (h.held p hp hin)
  free:=fun hf=>hr.preemptCount.trans (h.free fun p hp=>hf p ((hr.live p).mpr hp))

theorem Bracketed.enter (hc : m.sched.currentTask=some cur)
    (hu : (m.thread cur).place = .user) (hs : m'.sched=preemptDisable m.sched)
    (ht : ∀p,m'.thread p=if p=cur then th else m.thread p) (hth : th.place.inHandler) : Bracketed m':=by
  have hfree:=h.free_of_user hc (by simp [hu]) (by simp [hu,Place.inHandler])
  have hin (p : ℕ) (hp : m.sched.Live p) (hh : (m'.thread p).place.inHandler) : p=cur:=by
    by_contra hne
    rw [ht p,if_neg hne,hfree p hp] at hh
    cases hh
  have hcur : m'.sched.currentTask=some cur:=by rw [hs]; exact hc
  have hlive (p : ℕ) : m'.sched.Live p↔m.sched.Live p:=by rw [hs]; exact .rfl
  have hidle : idleTask≠cur:=by
    rintro rfl
    rw [h.idle] at hu
    cases hu
  refine ⟨hs▸invariant_preempt h.invariant,?_,fun p hp hh hcp=>?_,fun p hp hh=>?_,fun hf=>?_⟩
  · rw [ht,if_neg hidle]
    exact h.idle
  · exact absurd (hcur.trans (congrArg some (hin p ((hlive p).mp hp) hh).symm)) hcp
  · rw [hs]
    exact congrArg (· + 1) (h.free hfree)
  have hf:=hf cur ((hlive cur).mpr (h.current_live hc))
  rw [ht,if_pos rfl,hth] at hf
  cases hf

theorem Bracketed.exitHandler (hc : m.sched.currentTask=some cur)
    (hin : (m.thread cur).place.inHandler) (hs : m'.sched=preemptEnable m.sched)
    (ht : ∀p,m'.thread p=if p=cur then th else m.thread p) (hth : th.place.inHandler=false) : Bracketed m':=by
  have hlive (p : ℕ) : m'.sched.Live p↔m.sched.Live p:=by rw [hs]; exact .rfl
  have hcount : m'.sched.preemptCount=0:=by
    rw [hs]
    exact congrArg (· - 1) (h.held cur (h.current_live hc) hin)
  -- two tasks in handlers would make the current one a kernel thread
  have hnone (p : ℕ) (hp : m.sched.Live p) : (m'.thread p).place.inHandler=false:=by
    rw [ht p]
    split
    · exact hth
    rename_i hne
    by_contra hh
    rw [Bool.not_eq_false] at hh
    have:=h.away p hp hh (fun he=>hne (some.inj (he.symm.trans hc))) cur (h.current_live hc) (Ne.symm hne)
    rw [this] at hin
    cases hin
  have hidle : idleTask≠cur:=by
    rintro rfl
    rw [h.idle] at hin
    cases hin
  refine ⟨hs▸invariant_preempt h.invariant,?_,fun p hp hh=>?_,fun p hp hh=>?_,fun _=>hcount⟩
  · rw [ht,if_neg hidle]
    exact h.idle
  all_goals
    rw [hnone p ((hlive p).mp hp)] at hh
    cases hh

theorem Bracketed.die (hc : m.sched.currentTask=some cur)
    (hin : (m.thread cur).place.inHandler=false) (hlive : ∀p,s'.Live p↔m.sched.Live p ∧ p≠cur)
    (hcount : s'.preemptCount=m.sched.preemptCount) (hinv : ∃ring zombies cur,Invariant s' ring zombies cur) :
    Bracketed {m with sched:=s'} where
  invariant:=hinv
  idle:=h.idle
  away:=by
    intro p hp hh _ q hq hqp
    rw [hlive] at hp hq
    exact h.away p hp.1 hh (fun he=>hp.2 (some.inj (he.symm.trans hc))) q hq.1 hqp
  held:=fun p hp hh=>hcount.trans (h.held p ((hlive p).mp hp).1 hh)
  free:=by
    intro hf
    refine hcount.trans (h.free fun p hp=>?_)
    by_cases hpc : p=cur
    · rw [hpc]
      exact hin
    · exact hf p ((hlive p).mpr ⟨hp,hpc⟩)

/-- A task joins, as a kernel thread or while nobody is away in a handler. -/
theorem Bracketed.join {t : ℕ} (hj : Joined m.sched m'.sched t)
    (hn : ¬m.sched.IsTask t) (ht : ∀p,m'.thread p=if p=t then th else m.thread p) (hth : th.place.inHandler=false)
    (hok : th.place = .kernelThread ∨ ∀p,m.sched.Live p→m.sched.currentTask≠some p →
    (m.thread p).place.inHandler=false) : Bracketed m':=by
  have hold (p : ℕ) (hp : m'.sched.Live p) (hh : (m'.thread p).place.inHandler) :
      m.sched.Live p ∧ (m.thread p).place.inHandler:=by
    by_cases hpt : p=t
    · rw [ht,if_pos hpt,hth] at hh
      cases hh
    · rw [ht,if_neg hpt] at hh
      exact ⟨((hj.live p).mp hp).resolve_right hpt,hh⟩
  have hthread (p : ℕ) (hp : m.sched.Live p) : m'.thread p=m.thread p:=by
    rw [ht,if_neg]
    rintro rfl
    exact hn hp.1
  refine ⟨hj.invariant,?_,fun p hp hh hc q hq hqp=>?_,fun p hp hh=>?_,fun hf=>?_⟩
  · rw [ht,if_neg fun he=>hn (.inl he.symm)]
    exact h.idle
  · obtain ⟨hp,hh⟩:=hold p hp hh
    rw [hj.currentTask] at hc
    rcases (hj.live q).mp hq with hq | rfl
    · rw [hthread q hq]
      exact h.away p hp hh hc q hq hqp
    rw [ht,if_pos rfl]
    refine hok.resolve_right fun hall=>?_
    rw [hall p hp hc] at hh
    cases hh
  · obtain ⟨hp,hh⟩:=hold p hp hh
    exact hj.preemptCount.trans (h.held p hp hh)
  · refine hj.preemptCount.trans (h.free fun p hp=>?_)
    rw [←hthread p hp]
    exact hf p ((hj.live p).mpr (.inl hp))

theorem Bracketed.irqEntry : Bracketed (m.irqEntry cur):=by
  unfold Machine.irqEntry
  split
  · rename_i hu
    exact h.move rfl (m.swapgs.thread_setThread cur _) (by simp [hu,Place.inHandler]) (by simp [hu])
  · exact h.move rfl (m.thread_setThread cur _) rfl .rfl

theorem Bracketed.irq {hd : Handler} (hc : m.sched.currentTask=some cur)
    (hv : (Op.irq hd).Valid m) (hs : stepAs m cur (.irq hd)=some m') : Bracketed m':=by
  obtain ⟨s',ev,hd',rfl⟩:=Machine.call_eq_some hs
  have hsched:=m.irqEntry_sched cur
  have he : Bracketed (m.irqEntry cur):=h.irqEntry
  rw [hsched] at hd'
  obtain ⟨hr,hcur⟩:=irqDispatch_rescheduled h.invariant hv hd'
  refine he.reschedule (hsched▸hr) ?_
  rw [hsched]
  by_cases hin : ((m.irqEntry cur).thread cur).place.inHandler
  · have hone:=he.held cur (hsched▸h.current_live hc) hin
    rw [hsched] at hone
    refine .inl (hcur (by omega) ?_)
    rw [hc]
    rintro ⟨⟩
    rw [he.idle] at hin
    cases hin
  · refine .inr fun c hm hin'=>absurd hin' ?_
    obtain rfl:=some.inj (hc.symm.trans hm)
    exact hin

theorem Bracketed.ret (hs : stepAs m cur .ret=some m') : Bracketed m':=by
  simp only [stepAs] at hs
  split at hs
  · cases hs
    exact h.move rfl (m.thread_setThread cur _) rfl .rfl
  split at hs
  all_goals try cases hs
  · rename_i hp
    exact h.move rfl (m.thread_setThread cur _) (by simp [hp,Place.inHandler]) (by simp [hp])
  · rename_i hp
    exact h.move rfl (m.thread_setThread cur _) (by simp [hp,Place.inHandler]) (by simp [hp])
  · rename_i hp
    exact h.move rfl (m.thread_setThread cur _) (by simp [hp,Place.inHandler]) (by simp [hp])

theorem Bracketed.exit {code : ℤ} (hc : m.sched.currentTask=some cur)
    (hv : (Op.exit code).Valid m) (hs : stepAs m cur (.exit code)=some m') : Bracketed m':=by
  simp only [stepAs] at hs
  split at hs
  · rename_i hh
    obtain ⟨s',ev,he,rfl⟩:=Machine.call_eq_some hs
    have hu : Bracketed (m.exitUnwind cur):=
      h.exitHandler hc (Thread.inHandler_of_handles hh) rfl (m.thread_setThread cur _) rfl
    obtain ⟨ring,zombies,c,hinv⟩:=hu.invariant
    obtain rfl:=some.inj (hc.symm.trans hinv.current)
    obtain ⟨hlive,hcount,hinv'⟩:=hinv.exit_live hv he
    exact hu.die hc (by simp [Machine.exitUnwind,Place.inHandler]) hlive hcount hinv'
  · split at hs
    · rename_i hh hcalls
      obtain ⟨s',ev,he,rfl⟩:=Machine.call_eq_some hs
      obtain ⟨ring,zombies,c,hinv⟩:=h.invariant
      obtain rfl:=some.inj (hc.symm.trans hinv.current)
      obtain ⟨hlive,hcount,hinv'⟩:=hinv.exit_live hv he
      exact h.die hc (by simp [Thread.kernelThread_of_calls hcalls hh,Place.inHandler]) hlive hcount hinv'
    · cases hs

theorem Bracketed.checkYield (hc : m.sched.currentTask=some cur)
    (hs : stepAs m cur .checkYield=some m') : Bracketed m':=by
  simp only [stepAs] at hs
  split at hs
  · rename_i hp
    have hm : Bracketed (m.setThread cur {m.thread cur with place:=.returning}):=
      h.move rfl (m.thread_setThread cur _) (by simp [hp.2,Place.inHandler]) (by simp [hp.2])
    split at hs
    · obtain ⟨s',ev,hy,rfl⟩:=Machine.call_eq_some hs
      obtain ⟨ring,zombies,c,hinv⟩:=h.invariant
      have hm' : Bracketed { m.setThread cur {m.thread cur with place:=.returning} with yieldPending:=false }:=
        hm.congr rfl (fun _=>rfl) fun _=>.rfl
      refine hm'.reschedule (hinv.yield_rescheduled hy) (.inr fun c hcc hin=>?_)
      obtain rfl:=some.inj (hc.symm.trans hcc)
      simp [Place.inHandler] at hin
    · cases hs
      exact hm
  · cases hs

theorem Bracketed.step (hv : op.Valid m) (hp : op.Courteous m) (hs : step m op=some m') : Bracketed m':=by
  obtain ⟨cur,hc,hs⟩:=step_eq_some hs
  obtain ⟨ring,zombies,c,hinv⟩:=h.invariant
  cases op with
  | run rsp=>
    simp only [stepAs] at hs
    split at hs
    · cases hs
      exact h.move rfl (m.thread_setThread cur _) rfl .rfl
    · cases hs
  | syscall=>
    simp only [stepAs] at hs
    split at hs
    · rename_i hu
      cases hs
      obtain ⟨th,hth,-,ht⟩:=m.syscallEntry_thread cur
      exact h.enter hc hu (m.syscallEntry_sched cur) ht hth
    · cases hs
  | irq hd=>exact h.irq hc hv hs
  | ret=>exact h.ret hs
  | block=>
    simp only [stepAs] at hs
    split at hs
    · obtain ⟨s',ev,hb,rfl⟩:=Machine.call_eq_some hs
      exact h.reschedule (hinv.blockCurrent_rescheduled hv hb) (.inr hp)
    · cases hs
  | wait=>
    simp only [stepAs] at hs
    split at hs
    · obtain ⟨s',ev,hw,rfl⟩:=Machine.call_eq_some hs
      obtain ⟨⟨s1,res,ev1⟩,hw1,he⟩:=map_eq_some_iff.mp hw
      cases he
      exact h.reschedule (hinv.wait_rescheduled hv hw1) (.inr hp)
    · cases hs
  | yield=>
    simp only [stepAs] at hs
    split at hs
    · cases hs
      exact h.congr rfl (fun _=>rfl) fun _=>.rfl
    split at hs
    · rename_i hh hcalls
      obtain ⟨s',ev,hy,rfl⟩:=Machine.call_eq_some hs
      refine h.reschedule (hinv.yield_rescheduled hy) (.inr fun c hcc hin=>?_)
      obtain rfl:=some.inj (hc.symm.trans hcc)
      rw [Thread.kernelThread_of_calls hcalls hh] at hin
      cases hin
    · cases hs
  | exit code=>exact h.exit hc hv hs
  | leave=>
    simp only [stepAs] at hs
    split at hs
    · rename_i hh
      cases hs
      exact h.exitHandler hc (Thread.inHandler_of_handles hh) rfl (m.thread_setThread cur _) rfl
    · cases hs
  | checkYield=>exact h.checkYield hc hs
  | spawn task stack stackSize quantum=>
    simp only [stepAs] at hs
    split at hs
    · split at hs
      · cases hs
        exact h.join (joined_spawn h.invariant (hv _ rfl)) (hv _ rfl) (m.thread_setThread _ _) rfl (.inl rfl)
      rename_i hnone
      cases hs
      refine h.congr ?_ (fun _=>rfl) fun _=>.rfl
      cases task <;> cases stack <;> first | rfl | exact absurd rfl (hnone _ _ rfl)
    · cases hs
  | spawnUser t new rsp=>
    simp only [stepAs] at hs
    split at hs
    · cases hs
      exact h.join (joined_enqueueNew _ h.invariant hv rfl) hv (m.thread_setThread t _) rfl (.inr hp)
    · cases hs
  | fork space task kstack scstack fdt=>
    obtain ⟨-,rfl | ⟨t,rfl,hj,s',rfl⟩⟩:=stepAs_fork h.invariant hv hs
    · exact h
    · exact h.join hj (hv t rfl) (m.thread_setThread t _) rfl (.inr hp)

end

theorem Booted.bracketed (h : Booted m) : Bracketed m:=by
  obtain ⟨⟨garbage,idleStack,hs⟩,hi,-⟩:=h
  have hlive (p : ℕ) (hp : m.sched.Live p) : p=idleTask:=by
    rw [hs] at hp
    simpa [init,Sched.IsTask] using hp.1
  have hin (p : ℕ) (hp : m.sched.Live p) : (m.thread p).place.inHandler=false:=by
    rw [hlive p hp,hi]
    rfl
  refine ⟨⟨_,_,_,hs▸invariant_init garbage idleStack⟩,by rw [hi],fun p hp hh=>?_,fun p hp hh=>?_,fun _=>?_⟩
  · rw [hin p hp] at hh
    cases hh
  · rw [hin p hp] at hh
    cases hh
  · rw [hs]
    rfl

/-- User code runs with a preemption count of zero. -/
theorem preempt_count_zero_in_user (h : Reach Booted step (fun op m=>op.Valid m ∧ op.Courteous m) m)
    (hu : InUser m) : m.sched.preemptCount=0:=by
  have hb : Bracketed m:=h.invariant (fun _ hb=>hb.bracketed) fun _ _ _ hb hok hs=>hb.step hok.1 hok.2 hs
  obtain ⟨cur,hc,hu⟩:=hu
  exact hb.free (hb.free_of_user hc (by simp [hu]) (by simp [hu,Place.inHandler]))

/-- A task runs, makes a system call and is back in user mode. -/
theorem preempt_count_zero_in_user_called : ∃m,
    Reach Booted step (fun op m=>op.Valid m ∧ op.Courteous m) m ∧ InUser m ∧ m.sched.preemptCount=0:=by
  have hrun : Reach Booted step (fun op m=>op.Valid m ∧ op.Courteous m) bootedMachine:=.start bootedMachine_booted
  have hrun:=hrun.step (.spawnUser 8 (userTask 65536) 1000) (by exact ⟨by decide,fun _ _ _=>rfl⟩) rfl
    |>.step (.irq .timer) (by exact ⟨nofun,trivial⟩) rfl
    |>.step .ret (by exact ⟨trivial,trivial⟩) rfl
    |>.step .syscall (by exact ⟨trivial,trivial⟩) rfl
    |>.step .leave (by exact ⟨trivial,trivial⟩) rfl
    |>.step .checkYield (by exact ⟨trivial,trivial⟩) rfl
    |>.step .ret (by exact ⟨trivial,trivial⟩) rfl
  exact ⟨_,hrun,⟨8,rfl,rfl⟩,preempt_count_zero_in_user hrun ⟨8,rfl,rfl⟩⟩

/-- A task blocks in a system call, the other one starts, and its user code runs with the
count of the first. -/
theorem preempt_count_one_in_user : ∃m,Reach Booted step (fun op m=>op.Valid m) m ∧
    InUser m ∧ m.sched.preemptCount=1:=by
  have hrun : Reach Booted step (fun op m=>op.Valid m) bootedMachine:=.start bootedMachine_booted
  obtain ⟨m,hm,hp⟩:=hrun.exists_replay
    [.spawnUser 8 (userTask 65536) 1000,.spawnUser 9 (userTask 131072) 2000,.irq .timer,.ret,.syscall,.block,.ret]
    (fun m=>m.sched.currentTask=some 8 ∧ (m.thread 8).place = .user ∧ m.sched.preemptCount=1) (by decide)
  exact ⟨m,hm,⟨8,hp.1,hp.2.1⟩,hp.2.2⟩

end Knail.KernelEntry
