import Knail.KernelEntry

/-!
# The GS registers and the user's stack pointer

Every entry from user mode toggles the registers once and every exit once, except that a task which has never run
leaves the kernel without `swapgs` and that `syscall_exit_unwind` uses it on the way to `sched::exit`. So they are
right as long as there is one user task at a time.
-/
namespace Knail.KernelEntry

open Scheduler Option

variable {m m' : Machine} {op : Op} {s' : Sched} {ev : List Event} {cur : ℕ} {th : Thread}

/-- User tasks exist one at a time: one is created only among kernel threads. -/
def Op.Solitary (m : Machine) : Op→Prop
  | .spawnUser _ _ _ | .fork _ _ _ _ _=>∀p,m.sched.Live p→(m.thread p).place = .kernelThread
  | _=>True

/-- The places of a task in the kernel that came from its user code and will go back. -/
def Place.swapped : Place→Bool
  | .handler _ | .leaving | .returning | .interrupted=>true
  | _=>false

def Place.inSyscall : Place→Bool
  | .handler _ | .leaving | .returning=>true
  | _=>false

theorem Place.swapped_of_inHandler {p : Place} (h : p.inHandler) : p≠.kernelThread ∧ p.swapped=true:=by
  cases p with
  | handler=>exact ⟨nofun,rfl⟩
  | _=>cases h

theorem Place.inSyscall_of_inHandler {p : Place} (h : p.inHandler) : p.inSyscall:=by
  cases p with
  | handler=>rfl
  | _=>cases h

/-- The two registers while the only user task is at a place. -/
def Place.bases (p : Place) : GsBase×GsBase:=if p.swapped then (.gsBlock,.zero) else (.zero,.gsBlock)

def Machine.bases (m : Machine) : GsBase×GsBase:=(m.gsBase,m.kernelGsBase)

structure Paired (m : Machine) : Prop where
  invariant : ∃ring zombies cur,Invariant m.sched ring zombies cur
  idle : (m.thread idleTask).place = .kernelThread
  single : ∀p q,m.sched.Live p→m.sched.Live q→(m.thread p).place≠.kernelThread →
    (m.thread q).place≠.kernelThread→p=q
  user : ∀p,m.sched.Live p→(m.thread p).place≠.kernelThread→m.bases=(m.thread p).place.bases
  none : (∀p,m.sched.Live p→(m.thread p).place = .kernelThread)→m.bases=(.zero,.gsBlock)
  saved : ∀p,m.sched.Live p→(m.thread p).place.inSyscall→m.userRsp=(m.thread p).entryRsp

section

variable (h : Paired m)
include h

theorem Paired.current_live (hc : m.sched.currentTask=some cur) : m.sched.Live cur:=by
  obtain ⟨ring,zombies,c,hinv⟩:=h.invariant
  obtain rfl:=some.inj (hinv.current.symm.trans hc)
  exact hinv.cur_alive

theorem Paired.move (hc : m.sched.currentTask=some cur) (hk : (m.thread cur).place≠.kernelThread)
    (hlive : ∀p,m'.sched.Live p↔m.sched.Live p) (hinv : ∃ring zombies cur,Invariant m'.sched ring zombies cur)
    (ht : ∀p,m'.thread p=if p=cur then th else m.thread p) (hth : th.place≠.kernelThread)
    (hb : m'.bases=th.place.bases) (hsaved : th.place.inSyscall→m'.userRsp=th.entryRsp) : Paired m':=by
  have hcur:=h.current_live hc
  have honly (p : ℕ) (hp : m'.sched.Live p) (hpk : (m'.thread p).place≠.kernelThread) : p=cur:=by
    by_contra hne
    rw [ht p,if_neg hne] at hpk
    exact hne (h.single p cur ((hlive p).mp hp) hcur hpk hk)
  have hthread : m'.thread cur=th:=by rw [ht,if_pos rfl]
  refine ⟨hinv,?_,fun p q hp hq hpk hqk=>?_,fun p hp hpk=>?_,fun hall=>?_,fun p hp hin=>?_⟩
  · rw [ht,if_neg (by rintro rfl; exact hk h.idle)]
    exact h.idle
  · rw [honly p hp hpk,honly q hq hqk]
  · rw [honly p hp hpk,hthread]
    exact hb
  · exact absurd (hthread▸hall cur ((hlive cur).mpr hcur)) hth
  have hpk : (m'.thread p).place≠.kernelThread:=by
    intro he
    rw [he] at hin
    cases hin
  obtain rfl:=honly p hp hpk
  rw [hthread] at hin ⊢
  exact hsaved hin

theorem Paired.congr (hs : m'.sched=m.sched) (hp : ∀p,(m'.thread p).place=(m.thread p).place)
    (he : ∀p,(m'.thread p).entryRsp=(m.thread p).entryRsp) (hb : m'.bases=m.bases)
    (hu : m'.userRsp=m.userRsp) : Paired m' where
  invariant:=hs▸h.invariant
  idle:=(hp _).trans h.idle
  single:=by
    intro p q
    rw [hs,hp,hp]
    exact h.single p q
  user:=by
    intro p
    rw [hs,hp,hb]
    exact h.user p
  none:=by
    intro hall
    rw [hb]
    exact h.none fun p hl=>(hp p).symm.trans (hall p (hs▸hl))
  saved:=by
    intro p
    rw [hs,hp,he,hu]
    exact h.saved p

theorem Paired.reschedule (hr : Rescheduled m.sched s') : Paired {m with sched:=s'} where
  invariant:=hr.invariant
  idle:=h.idle
  single:=fun p q hp hq=>h.single p q ((hr.live p).mp hp) ((hr.live q).mp hq)
  user:=fun p hp=>h.user p ((hr.live p).mp hp)
  none:=fun hall=>h.none fun p hp=>hall p ((hr.live p).mpr hp)
  saved:=fun p hp=>h.saved p ((hr.live p).mp hp)

theorem Paired.die (hn : (m.thread cur).place.swapped=false)
    (hlive : ∀p,s'.Live p↔m.sched.Live p ∧ p≠cur) (hinv : ∃ring zombies cur,Invariant s' ring zombies cur) :
    Paired {m with sched:=s'} where
  invariant:=hinv
  idle:=h.idle
  single:=fun p q hp hq=>h.single p q ((hlive p).mp hp).1 ((hlive q).mp hq).1
  user:=fun p hp=>h.user p ((hlive p).mp hp).1
  none:=by
    intro hall
    -- the dead task was the last user task, if it was one
    by_cases hc : m.sched.Live cur ∧ (m.thread cur).place≠.kernelThread
    · refine (h.user cur hc.1 hc.2).trans ?_
      rw [Place.bases,hn]
      rfl
    refine h.none fun p hp=>?_
    by_cases hpc : p=cur
    · subst hpc
      exact not_not.mp fun hk=>hc ⟨hp,hk⟩
    · exact hall p ((hlive p).mpr ⟨hp,hpc⟩)
  saved:=fun p hp=>h.saved p ((hlive p).mp hp).1

/-- A task joins, as a kernel thread or as the only user task. -/
theorem Paired.join {t : ℕ} (hj : Joined m.sched m'.sched t) (hn : ¬m.sched.IsTask t)
    (ht : ∀p,m'.thread p=if p=t then th else m.thread p) (hb : m'.bases=m.bases) (hu : m'.userRsp=m.userRsp)
    (hth : th.place = .kernelThread ∨ th.place = .fresh ∧ ∀p,m.sched.Live p→(m.thread p).place = .kernelThread) :
    Paired m':=by
  have hold (p : ℕ) (hp : m.sched.Live p) : m'.thread p=m.thread p:=by
    rw [ht,if_neg]
    rintro rfl
    exact hn hp.1
  have hnew : m'.thread t=th:=by rw [ht,if_pos rfl]
  -- a user task is an old one, or the new one among kernel threads
  have hcases (p : ℕ) (hp : m'.sched.Live p) (hpk : (m'.thread p).place≠.kernelThread) :
      m.sched.Live p ∧ th.place = .kernelThread ∨ p=t ∧ th.place = .fresh ∧
        ∀p,m.sched.Live p→(m.thread p).place = .kernelThread:=by
    rcases (hj.live p).mp hp with hp | rfl
    · refine .inl ⟨hp,hth.resolve_right fun hf=>?_⟩
      rw [hold p hp] at hpk
      exact hpk (hf.2 p hp)
    · rw [hnew] at hpk
      exact .inr ⟨rfl,hth.resolve_left hpk⟩
  refine ⟨hj.invariant,?_,fun p q hp hq hpk hqk=>?_,fun p hp hpk=>?_,fun hall=>?_,fun p hp hin=>?_⟩
  · rw [ht,if_neg fun he=>hn (.inl he.symm)]
    exact h.idle
  · rcases hcases p hp hpk with ⟨hp,hk⟩ | ⟨rfl,hf,-⟩ <;> rcases hcases q hq hqk with ⟨hq,hk'⟩ | ⟨rfl,hf',-⟩
    · rw [hold p hp] at hpk
      rw [hold q hq] at hqk
      exact h.single p q hp hq hpk hqk
    · rw [hk] at hf'
      cases hf'
    · rw [hk'] at hf
      cases hf
    · rfl
  · rcases hcases p hp hpk with ⟨hp,-⟩ | ⟨rfl,hf,hall⟩
    · rw [hold p hp] at hpk ⊢
      rw [hb]
      exact h.user p hp hpk
    · rw [hb,hnew,hf]
      exact h.none hall
  · rw [hb]
    exact h.none fun p hp=>by rw [←hold p hp]; exact hall p ((hj.live p).mpr (.inl hp))
  · rcases (hj.live p).mp hp with hp | rfl
    · rw [hold p hp] at hin ⊢
      rw [hu]
      exact h.saved p hp hin
    rw [hnew] at hin
    rcases hth with hk | ⟨hf,-⟩
    · rw [hk] at hin
      cases hin
    · rw [hf] at hin
      cases hin

theorem Paired.swap (hc : m.sched.currentTask=some cur) (hk : (m.thread cur).place≠.kernelThread)
    (hlive : ∀p,m'.sched.Live p↔m.sched.Live p) (hinv : ∃ring zombies cur,Invariant m'.sched ring zombies cur)
    (ht : ∀p,m'.thread p=if p=cur then th else m.thread p) (hth : th.place≠.kernelThread)
    (hsw : th.place.swapped = !(m.thread cur).place.swapped) (hb : m'.bases=m.bases.swap)
    (hsaved : th.place.inSyscall→m'.userRsp=th.entryRsp) : Paired m':=by
  refine h.move hc hk hlive hinv ht hth ?_ hsaved
  rw [hb,h.user cur (h.current_live hc) hk,Place.bases,Place.bases,hsw]
  cases (m.thread cur).place.swapped <;> rfl

theorem Paired.syscallEntry (hc : m.sched.currentTask=some cur) (hu : (m.thread cur).place = .user) :
    Paired (m.syscallEntry cur):=by
  obtain ⟨th,hin,hentry,ht⟩:=m.syscallEntry_thread cur
  have hb:=h.user cur (h.current_live hc) (by simp [hu])
  rw [hu] at hb
  obtain ⟨hgs,hkgs⟩:=Prod.mk.inj hb
  -- with the registers right the stack pointer goes to `gs_block.user_rsp`
  have hstore : m.swapgs.storeUserRsp (m.thread cur).rsp={m.swapgs with userRsp:=(m.thread cur).rsp}:=by
    simp only [Machine.storeUserRsp,Machine.swapgs,hkgs]
  have hth:=Place.swapped_of_inHandler hin
  refine h.swap hc (by simp [hu]) (fun p=>?_) ?_ ht hth.1 (by rw [hth.2,hu]; rfl) ?_ fun _=>?_
  · rw [m.syscallEntry_sched]
    exact .rfl
  · rw [m.syscallEntry_sched]
    exact invariant_preempt h.invariant
  · simp only [Machine.syscallEntry,hstore]
    rfl
  rw [hentry]
  simp only [Machine.syscallEntry,hstore]
  rfl

theorem Paired.irqEntry (hc : m.sched.currentTask=some cur) : Paired (m.irqEntry cur):=by
  unfold Machine.irqEntry
  split
  · rename_i hu
    exact h.swap hc (by simp [hu]) (fun _=>.rfl) h.invariant (m.swapgs.thread_setThread cur _) (by simp)
      (by rw [hu]; rfl) rfl (by simp [Place.inSyscall])
  refine h.congr rfl (fun p=>?_) (fun p=>?_) rfl rfl
  all_goals
    rw [Machine.thread_setThread]
    split
    · rename_i hp
      rw [hp]
    · rfl

theorem Paired.ret (hc : m.sched.currentTask=some cur) (hs : stepAs m cur .ret=some m') : Paired m':=by
  simp only [stepAs] at hs
  split at hs
  · cases hs
    refine h.congr rfl (fun p=>?_) (fun p=>?_) rfl rfl
    all_goals
      rw [Machine.thread_setThread]
      split
      · rename_i hp
        rw [hp]
      · rfl
  · split at hs
    all_goals try cases hs
    · rename_i hp
      refine h.move hc (by simp [hp]) (fun _=>.rfl) h.invariant (m.thread_setThread cur _) (by simp) ?_
        (by simp [Place.inSyscall])
      refine (h.user cur (h.current_live hc) (by simp [hp])).trans ?_
      rw [hp]
      rfl
    · rename_i hp
      exact h.swap hc (by simp [hp]) (fun _=>.rfl) h.invariant (m.thread_setThread cur _) (by simp) (by rw [hp]; rfl) rfl
        (by simp [Place.inSyscall])
    · rename_i hp
      exact h.swap hc (by simp [hp]) (fun _=>.rfl) h.invariant (m.thread_setThread cur _) (by simp) (by rw [hp]; rfl) rfl
        (by simp [Place.inSyscall])

theorem Paired.exit {code : ℤ} (hc : m.sched.currentTask=some cur)
    (hv : (Op.exit code).Valid m) (hs : stepAs m cur (.exit code)=some m') : Paired m':=by
  simp only [stepAs] at hs
  split at hs
  · rename_i hh
    obtain ⟨hk,hsw⟩:=Place.swapped_of_inHandler (Thread.inHandler_of_handles hh)
    obtain ⟨s',ev,he,rfl⟩:=Machine.call_eq_some hs
    have hu : Paired (m.exitUnwind cur):=
      h.swap hc hk (fun _=>.rfl) (invariant_preempt h.invariant) (m.thread_setThread cur _) (by simp) (by rw [hsw]; rfl) rfl
        (by simp [Place.inSyscall])
    obtain ⟨ring,zombies,c,hinv⟩:=hu.invariant
    obtain rfl:=some.inj (hc.symm.trans hinv.current)
    obtain ⟨hlive,-,hinv'⟩:=hinv.exit_live hv he
    exact hu.die (by simp [Machine.exitUnwind,Place.swapped]) hlive hinv'
  · split at hs
    · rename_i hh hcalls
      obtain ⟨s',ev,he,rfl⟩:=Machine.call_eq_some hs
      obtain ⟨ring,zombies,c,hinv⟩:=h.invariant
      obtain rfl:=some.inj (hc.symm.trans hinv.current)
      obtain ⟨hlive,-,hinv'⟩:=hinv.exit_live hv he
      exact h.die (by simp [Thread.kernelThread_of_calls hcalls hh,Place.swapped]) hlive hinv'
    · cases hs

theorem Paired.inside (hc : m.sched.currentTask=some cur) {place : Place}
    (hin : (m.thread cur).place.inSyscall) (hp : place.inSyscall) (hlive : ∀p,s'.Live p↔m.sched.Live p)
    (hinv : ∃ring zombies cur,Invariant s' ring zombies cur) :
    Paired { m.setThread cur {m.thread cur with place:=place} with sched:=s' }:=by
  have hsw {p : Place} (h : p.inSyscall) : p≠.kernelThread ∧ p.swapped=true:=by
    cases p <;> first | exact ⟨nofun,rfl⟩ | cases h
  have hcur:=h.current_live hc
  refine h.move hc (hsw hin).1 hlive hinv (m.thread_setThread cur _) (hsw hp).1 ?_ fun _=>h.saved cur hcur hin
  refine (h.user cur hcur (hsw hin).1).trans ?_
  rw [Place.bases,Place.bases,(hsw hin).2,(hsw hp).2]

theorem Paired.checkYield (hc : m.sched.currentTask=some cur) (hs : stepAs m cur .checkYield=some m') : Paired m':=by
  simp only [stepAs] at hs
  split at hs
  · rename_i hp
    have hm : Paired (m.setThread cur {m.thread cur with place:=.returning}):=
      h.inside hc (by rw [hp.2]; rfl) rfl (fun _=>.rfl) h.invariant
    split at hs
    · obtain ⟨s',ev,hy,rfl⟩:=Machine.call_eq_some hs
      obtain ⟨ring,zombies,c,hinv⟩:=h.invariant
      have hm' : Paired { m.setThread cur {m.thread cur with place:=.returning} with yieldPending:=false }:=
        hm.congr rfl (fun _=>rfl) (fun _=>rfl) rfl rfl
      exact hm'.reschedule (hinv.yield_rescheduled hy)
    · cases hs
      exact hm
  · cases hs

theorem Paired.step (hv : op.Valid m) (hp : op.Solitary m) (hs : step m op=some m') : Paired m':=by
  obtain ⟨cur,hc,hs⟩:=step_eq_some hs
  obtain ⟨ring,zombies,c,hinv⟩:=h.invariant
  cases op with
  | run rsp=>
    simp only [stepAs] at hs
    split at hs
    · rename_i hu
      cases hs
      refine h.move hc (by simp [hu]) (fun _=>.rfl) h.invariant (m.thread_setThread cur _) (by simp [hu]) ?_ ?_
      · exact h.user cur (h.current_live hc) (by simp [hu])
      · simp [hu,Place.inSyscall]
    · cases hs
  | syscall=>
    simp only [stepAs] at hs
    split at hs
    · rename_i hu
      cases hs
      exact h.syscallEntry hc hu
    · cases hs
  | irq hd=>
    obtain ⟨s',ev,hd',rfl⟩:=Machine.call_eq_some hs
    have hsched:=m.irqEntry_sched cur
    rw [hsched] at hd'
    exact (h.irqEntry hc).reschedule (hsched▸(irqDispatch_rescheduled h.invariant hv hd').1)
  | ret=>exact h.ret hc hs
  | block=>
    simp only [stepAs] at hs
    split at hs
    · obtain ⟨s',ev,hb,rfl⟩:=Machine.call_eq_some hs
      exact h.reschedule (hinv.blockCurrent_rescheduled hv hb)
    · cases hs
  | wait=>
    simp only [stepAs] at hs
    split at hs
    · obtain ⟨s',ev,hw,rfl⟩:=Machine.call_eq_some hs
      obtain ⟨⟨s1,res,ev1⟩,hw1,he⟩:=map_eq_some_iff.mp hw
      cases he
      exact h.reschedule (hinv.wait_rescheduled hv hw1)
    · cases hs
  | yield=>
    simp only [stepAs] at hs
    split at hs
    · cases hs
      exact h.congr rfl (fun _=>rfl) (fun _=>rfl) rfl rfl
    split at hs
    · obtain ⟨s',ev,hy,rfl⟩:=Machine.call_eq_some hs
      exact h.reschedule (hinv.yield_rescheduled hy)
    · cases hs
  | exit code=>exact h.exit hc hv hs
  | leave=>
    simp only [stepAs] at hs
    split at hs
    · rename_i hh
      cases hs
      have hin:=Place.inSyscall_of_inHandler (Thread.inHandler_of_handles hh)
      exact h.inside hc hin rfl (fun _=>.rfl) (invariant_preempt h.invariant)
    · cases hs
  | checkYield=>exact h.checkYield hc hs
  | spawn task stack stackSize quantum=>
    simp only [stepAs] at hs
    split at hs
    · split at hs
      · cases hs
        exact h.join (joined_spawn h.invariant (hv _ rfl)) (hv _ rfl) (m.thread_setThread _ _) rfl rfl (.inl rfl)
      rename_i hnone
      cases hs
      refine h.congr ?_ (fun _=>rfl) (fun _=>rfl) rfl rfl
      cases task <;> cases stack <;> first | rfl | exact absurd rfl (hnone _ _ rfl)
    · cases hs
  | spawnUser t new rsp=>
    simp only [stepAs] at hs
    split at hs
    · cases hs
      exact h.join (joined_enqueueNew _ h.invariant hv rfl) hv (m.thread_setThread t _) rfl rfl (.inr ⟨rfl,hp⟩)
    · cases hs
  | fork space task kstack scstack fdt=>
    obtain ⟨-,rfl | ⟨t,rfl,hj,s',rfl⟩⟩:=stepAs_fork h.invariant hv hs
    · exact h
    · exact h.join hj (hv t rfl) (m.thread_setThread t _) rfl rfl (.inr ⟨rfl,hp⟩)

end

theorem Booted.paired (h : Booted m) : Paired m:=by
  obtain ⟨⟨garbage,idleStack,hs⟩,hi,hgs,hkgs,-⟩:=h
  have hk (p : ℕ) (hp : m.sched.Live p) : (m.thread p).place = .kernelThread:=by
    rw [hs] at hp
    have : p=idleTask:=by simpa [init,Sched.IsTask] using hp.1
    rw [this,hi]
  refine ⟨⟨_,_,_,hs▸invariant_init garbage idleStack⟩,by rw [hi],fun p q hp _ hpk=>absurd (hk p hp) hpk,
    fun p hp hpk=>absurd (hk p hp) hpk,fun _=>Prod.ext hgs hkgs,fun p hp hin=>?_⟩
  rw [hk p hp] at hin
  cases hin

theorem reach_paired (h : Reach Booted step (fun op m=>op.Valid m ∧ op.Solitary m) m) : Paired m:=
  h.invariant (fun _ hb=>hb.paired) fun _ _ _ hb hok hs=>hb.step hok.1 hok.2 hs

/-- User code runs with `&gs_block` in the register that the next `swapgs` brings in. -/
theorem kernel_gs_in_user (h : Reach Booted step (fun op m=>op.Valid m ∧ op.Solitary m) m) (hu : InUser m) :
    m.kernelGsBase = .gsBlock:=by
  obtain ⟨cur,hc,hu⟩:=hu
  have hp:=reach_paired h
  have hb:=hp.user cur (hp.current_live hc) (by simp [hu])
  rw [hu] at hb
  exact congrArg Prod.snd hb

/-- A task is started from the idle task and makes a system call. -/
theorem kernel_gs_in_user_called : ∃m,Reach Booted step (fun op m=>op.Valid m ∧ op.Solitary m) m ∧
    InUser m ∧ m.kernelGsBase = .gsBlock:=by
  have hrun : Reach Booted step (fun op m=>op.Valid m ∧ op.Solitary m) bootedMachine:=.start bootedMachine_booted
  have hrun:=hrun.step (.spawnUser 8 (userTask 65536) 1000) (by exact ⟨by decide,fun _ _=>rfl⟩) rfl
    |>.step (.irq .timer) (by exact ⟨nofun,trivial⟩) rfl
    |>.step .ret (by exact ⟨trivial,trivial⟩) rfl
    |>.step .syscall (by exact ⟨trivial,trivial⟩) rfl
    |>.step .leave (by exact ⟨trivial,trivial⟩) rfl
    |>.step .checkYield (by exact ⟨trivial,trivial⟩) rfl
    |>.step .ret (by exact ⟨trivial,trivial⟩) rfl
  exact ⟨_,hrun,⟨8,rfl,rfl⟩,kernel_gs_in_user hrun ⟨8,rfl,rfl⟩⟩

/-- A tick in the user code of one task starts another one, whose user code then runs with a
zero that the next `swapgs` brings in. -/
theorem kernel_gs_zero_in_user : ∃m,Reach Booted step (fun op m=>op.Valid m) m ∧
    InUser m ∧ m.kernelGsBase = .zero:=by
  have hrun : Reach Booted step (fun op m=>op.Valid m) bootedMachine:=.start bootedMachine_booted
  obtain ⟨m,hm,hp⟩:=hrun.exists_replay
    [.spawnUser 8 (userTask 65536) 1000,.spawnUser 9 (userTask 131072) 2000,.irq .timer,.ret,.irq .timer,.ret]
    (fun m=>m.sched.currentTask=some 8 ∧ (m.thread 8).place = .user ∧ m.kernelGsBase = .zero) (by decide)
  exact ⟨m,hm,⟨8,hp.1,hp.2.1⟩,hp.2.2⟩

/-- A system call of the current task is about to return. -/
def AtSysret (m : Machine) (cur : ℕ) : Prop:=
  m.sched.currentTask=some cur ∧ (m.thread cur).nested=0 ∧ (m.thread cur).place = .returning

/-- A system call returns with the stack pointer of its `syscall` instruction. -/
theorem sysret_restores_rsp (h : Reach Booted step (fun op m=>op.Valid m ∧ op.Solitary m) m) (hr : AtSysret m cur) :
    ∃m',step m .ret=some m' ∧ m'.sched.currentTask=some cur ∧ (m'.thread cur).place = .user ∧
    (m'.thread cur).rsp=(m.thread cur).entryRsp:=by
  obtain ⟨hc,hn,hplace⟩:=hr
  have hp:=reach_paired h
  have hb:=hp.user cur (hp.current_live hc) (by simp [hplace])
  rw [hplace] at hb
  have hgs : m.gsBase = .gsBlock:=congrArg Prod.fst hb
  refine ⟨m.sysret cur,?_,hc,by simp [Machine.sysret],?_⟩
  · simp [step,hc,stepAs,hn,hplace]
  · rw [←hp.saved cur (hp.current_live hc) (by rw [hplace]; rfl)]
    simp [Machine.sysret,Machine.loadUserRsp,hgs]

/-- A task yields to the idle task and is resumed by a tick. -/
theorem sysret_restores_rsp_yielded : ∃m,Reach Booted step (fun op m=>op.Valid m ∧ op.Solitary m) m ∧
    AtSysret m 8 ∧ (m.thread 8).entryRsp=1000 ∧ ∃m',step m .ret=some m' ∧
    m'.sched.currentTask=some 8 ∧ (m'.thread 8).place = .user ∧ (m'.thread 8).rsp=(m.thread 8).entryRsp:=by
  have hrun : Reach Booted step (fun op m=>op.Valid m ∧ op.Solitary m) bootedMachine:=.start bootedMachine_booted
  have hrun:=hrun.step (.spawnUser 8 (userTask 65536) 1000) (by exact ⟨by decide,fun _ _=>rfl⟩) rfl
    |>.step (.irq .timer) (by exact ⟨nofun,trivial⟩) rfl
    |>.step .ret (by exact ⟨trivial,trivial⟩) rfl
    |>.step .syscall (by exact ⟨trivial,trivial⟩) rfl
    |>.step .yield (by exact ⟨trivial,trivial⟩) rfl
    |>.step .leave (by exact ⟨trivial,trivial⟩) rfl
    |>.step .checkYield (by exact ⟨trivial,trivial⟩) rfl
    |>.step .ret (by exact ⟨trivial,trivial⟩) rfl
    |>.step (.irq .timer) (by exact ⟨nofun,trivial⟩) rfl
  exact ⟨_,hrun,⟨rfl,rfl,rfl⟩,rfl,sysret_restores_rsp hrun ⟨rfl,rfl,rfl⟩⟩

/-- Three tasks started by ticks: the first yields, the third yields, and a tick takes the
processor back to the first, which returns with the stack pointer of the third. -/
def mixedRun : List Op:=
  [.spawnUser 8 (userTask 65536) 1000,.spawnUser 9 (userTask 131072) 2000,.spawnUser 10 (userTask 196608) 3000,
    .irq .timer,.ret,.irq .timer,.ret,.irq .timer,.ret,.syscall,.yield,.leave,.checkYield,.ret,.irq .timer,.ret,
    .syscall,.yield,.leave,.checkYield,.ret,.irq .timer]

theorem sysret_rsp_of_other : ∃m m',Reach Booted step (fun op m=>op.Valid m) m ∧ AtSysret m 8 ∧
    step m .ret=some m' ∧ (m.thread 8).entryRsp=1000 ∧ (m'.thread 8).place = .user ∧ (m'.thread 8).rsp=3000:=by
  have hrun : Reach Booted step (fun op m=>op.Valid m) bootedMachine:=.start bootedMachine_booted
  obtain ⟨m,hm,hc,hn,hp,he,hs⟩:=hrun.exists_replay mixedRun
    (fun m=>m.sched.currentTask=some 8 ∧ (m.thread 8).nested=0 ∧ (m.thread 8).place = .returning ∧
      (m.thread 8).entryRsp=1000 ∧ ((step m .ret).any fun m'=>(m'.thread 8).rsp=3000)=true)
    (by decide +kernel)
  have hstep : step m .ret=some (m.sysret 8):=by simp [step,hc,stepAs,hn,hp]
  refine ⟨m,m.sysret 8,hm,⟨hc,hn,hp⟩,hstep,he,by simp [Machine.sysret],?_⟩
  rw [hstep] at hs
  simpa using hs

end Knail.KernelEntry
