import Knail.SchedulerFrames
import Knail.Transitions

/-!
# Who learns how a child ended

`wait` is meant to hand the code of a child's `exit` to the parent. Beside the scheduler a ledger is kept of the
forked children and the codes they left while their parent was alive, and a list of the children reported.
-/
namespace Knail.Scheduler

open List Option

/-- A forked child: the objects and thread ids at the time of the fork and, once it has
exited before its parent, its code. -/
structure Child where
  child : ℕ
  parent : ℕ
  tid : ℕ
  parentTid : ℕ
  code : Option ℤ
  deriving DecidableEq, Repr

structure Family where
  sched : Sched
  ledger : List Child
  reported : List ℕ

inductive FamilyOp
  | spawnUser (t : ℕ) (new : Task)
  | fork (space task kstack scstack : Option ℕ) (fdt : Option FDTable)
  | exit (code : ℤ)
  | tick
  | yield
  | block
  | wake (t : Option ℕ)
  | wait
  deriving DecidableEq

/-- An exit settles the entry of the caller and drops those of its running children. -/
def Child.afterExit (dead : ℕ) (code : ℤ) (r : Child) : Option Child:=
  if r.code≠none then some r
  else if r.child=dead then some {r with code:=some code}
  else if r.parent=dead then none
  else some r

/-- The entries whose Task objects are still there. -/
def remaining (ledger : List Child) (ev : List Event) : List Child:=
  ledger.filter fun r=>r.child∉freedTasks ev

/-- What an operation does, with its heap calls and the child that it reports. -/
def perform (S : Family) : FamilyOp→Option (Family×List Event×Option (ℕ × ℤ))
  | .spawnUser t new=>
    let (s,ev):=enqueueNew t {new with tid:=S.sched.nextTid,state:=.ready} S.sched
    some ({S with sched:=s},ev,none)
  | .fork space task kstack scstack fdt=>
    match S.sched.currentTask, forkCurrent space task kstack scstack fdt S.sched with
    | some p, (s,.ok tid,ev)=>
      some ({S with sched:=s,ledger:=⟨task.getD 0,p,tid,(S.sched.task p).tid,none⟩::S.ledger},ev,none)
    | _, (s,_,ev)=>some ({S with sched:=s},ev,none)
  | .exit code=>do
    let dead ← S.sched.currentTask
    let (s,ev) ← exit code S.sched
    return ({S with sched:=s,ledger:=S.ledger.filterMap (Child.afterExit dead code)},ev,none)
  | .tick=>(tick S.sched).map fun (s,ev)=>({S with sched:=s,ledger:=remaining S.ledger ev},ev,none)
  | .yield=>(yield S.sched).map fun (s,ev)=>({S with sched:=s,ledger:=remaining S.ledger ev},ev,none)
  | .block=>(blockCurrent S.sched).map fun (s,ev)=>({S with sched:=s},ev,none)
  | .wake t=>(wake t S.sched).map fun (s,ev)=>({S with sched:=s},ev,none)
  | .wait=>(wait S.sched).map fun (s,res,ev)=>
    match res with
    | .reaped tid code=>(⟨s,remaining S.ledger ev,tid::S.reported⟩,ev,some (tid,code))
    | _=>({S with sched:=s},ev,none)

def familyStep (S : Family) (op : FamilyOp) : Option Family:=(perform S op).map (·.1)

/-- The heap returns objects that are not in use, the idle task neither blocks nor exits,
and only tasks that are not dead are woken. -/
def FamilyOp.Valid (S : Family) : FamilyOp→Prop
  | .spawnUser t _=>¬S.sched.IsTask t
  | .fork _ task _ _ _=>∀t,task=some t→¬S.sched.IsTask t
  | .exit _ | .block=>S.sched.currentTask≠some idleTask
  | .wait=>S.sched.currentTask=some idleTask→∀r,Scheduler.wait S.sched=some r → r.2.1≠.blocked
  | .wake t=>∀p,t=some p→S.sched.IsTask p ∧ (S.sched.task p).state≠.dead
  | .tick | .yield=>True

/-- No tick and no yield comes between the exit of a forked child and its report, the memory
of a forked child holds the parent's thread id where `parent_tid` lies, and the thread ids do
not wrap. -/
def FamilyOp.Patient (S : Family) : FamilyOp→Prop
  | .tick | .yield=>∀r∈S.ledger,r.code=none
  | .fork _ task _ _ _=>S.sched.nextTid+1<4294967296 ∧ ∀t∈task,∀p∈S.sched.currentTask,
    (S.sched.task t).parentTid=(S.sched.task p).tid
  | .spawnUser _ _=>S.sched.nextTid+1<4294967296
  | _=>True

/-- A child that exited before its parent is released by a `wait` of the parent that reports
its thread id and code, and by nothing else. -/
def Delivers (S : Family) (op : FamilyOp) (ev : List Event) (report : Option (ℕ × ℤ)) : Prop:=
  ∀r∈S.ledger,∀k,r.code=some k → r.child∈freedTasks ev →
    op = .wait ∧ S.sched.currentTask=some r.parent ∧ (S.sched.task r.parent).tid=r.parentTid ∧
      report=some (r.tid,k)

/-- The scheduler as `init` leaves it, and nothing forked or reported. -/
def Booted (S : Family) : Prop:=
  ∃garbage idleStack,S.sched=init garbage idleStack ∧ S.ledger=[] ∧ S.reported=[]

variable {s s' s'' : Sched} {ev : List Event} {ring zombies : List ℕ} {cur : ℕ}
  {r : Child} {ledger : List Child} {t : ℕ} {new : Task}

/-- What the Task objects say about an entry of the ledger. -/
structure Entry (s : Sched) (r : Child) : Prop where
  live : r.child∈s.heap
  tid : (s.task r.child).tid=r.tid
  parentTid : (s.task r.child).parentTid=r.parentTid
  apart : r.child≠r.parent
  old : r.parentTid<s.nextTid
  parent : ∀p,s.IsTask p→(s.task p).tid=r.parentTid→p=r.parent
  code : ∀k,r.code=some k→(s.task r.child).state = .dead ∧ (s.task r.child).exitCode=k

/-- Thread ids are never used twice, and the ledger and the list of reports agree with the
Task objects. -/
structure Accounts (S : Family) : Prop where
  fresh : ∀p,S.sched.IsTask p→(S.sched.task p).tid<S.sched.nextTid
  unique : ∀p q,S.sched.IsTask p→S.sched.IsTask q→(S.sched.task p).tid=(S.sched.task q).tid→p=q
  entries : ∀r∈S.ledger,Entry S.sched r
  nodup : S.reported.Nodup
  reported : ∀t∈S.reported,t<S.sched.nextTid ∧ ∀p,S.sched.IsTask p→(S.sched.task p).tid≠t

variable {S S' : Family} {op : FamilyOp} {report : Option (ℕ × ℤ)}

theorem Steady.isTask (h : Steady s s') (p : ℕ) : s'.IsTask p↔s.IsTask p:=by
  rw [Sched.IsTask,Sched.IsTask,h.heap]

theorem Entry.steady (h : Entry s r) (hs : Steady s s') : Entry s' r where
  live:=hs.heap▸h.live
  tid:=(hs.tid _).trans h.tid
  parentTid:=(hs.parentTid _).trans h.parentTid
  apart:=h.apart
  old:=hs.nextTid▸h.old
  parent:=fun p hp ht=>h.parent p ((hs.isTask p).mp hp) (hs.tid p▸ht)
  code:=fun k hk=>⟨(hs.dead _).mpr (h.code k hk).1,(hs.exitCode _).trans (h.code k hk).2⟩

section

variable (h : Accounts S)
include h

theorem Accounts.steady (hs : Steady S.sched s') (hl : ∀r∈ledger,r∈S.ledger) : Accounts ⟨s',ledger,S.reported⟩ where
  fresh:=by
    intro p hp
    rw [hs.tid,hs.nextTid]
    exact h.fresh p ((hs.isTask p).mp hp)
  unique:=by
    intro p q hp hq
    rw [hs.tid,hs.tid]
    exact h.unique p q ((hs.isTask p).mp hp) ((hs.isTask q).mp hq)
  entries:=fun r hr=>(h.entries r (hl r hr)).steady hs
  nodup:=h.nodup
  reported:=by
    intro t ht
    rw [hs.nextTid]
    refine ⟨(h.reported t ht).1,fun p hp=>?_⟩
    rw [hs.tid]
    exact (h.reported t ht).2 p ((hs.isTask p).mp hp)

theorem Accounts.released {heap : List ℕ} (hheap : ∀p∈heap,p∈S.sched.heap)
    {zombieList : Option ℕ} (hl : ∀r∈ledger,r∈S.ledger ∧ r.child∈heap) :
    Accounts ⟨{S.sched with zombieList:=zombieList,heap:=heap},ledger,S.reported⟩:=by
  have htask (p : ℕ) (hp : {S.sched with zombieList:=zombieList,heap:=heap}.IsTask p) : S.sched.IsTask p:=
    hp.imp_right (hheap p)
  refine ⟨fun p hp=>h.fresh p (htask p hp),fun p q hp hq=>h.unique p q (htask p hp) (htask q hq),fun r hr=>?_,
    h.nodup,fun t ht=>⟨(h.reported t ht).1,fun p hp=>(h.reported t ht).2 p (htask p hp)⟩⟩
  have he:=h.entries r (hl r hr).1
  exact ⟨(hl r hr).2,he.tid,he.parentTid,he.apart,he.old,fun p hp=>he.parent p (htask p hp),he.code⟩

theorem Accounts.reaped (hinv : Invariant S.sched ring zombies cur)
    (hl : ∀r∈ledger,r∈S.ledger ∧ r.child∉zombies) : Accounts ⟨S.sched.reaped zombies,ledger,S.reported⟩:=
  h.released (fun _ hp=>(hinv.heap_nodup.mem_sdiff_iff.mp hp).1) fun r hr=>
    ⟨(hl r hr).1,hinv.heap_nodup.mem_sdiff_iff.mpr ⟨(h.entries r (hl r hr).1).live,(hl r hr).2⟩⟩

/-- A new task gets the next thread id. -/
theorem Accounts.enqueueNew (ht : ¬S.sched.IsTask t)
    (htid : new.tid=S.sched.nextTid) (hn : S.sched.nextTid+1<4294967296) :
    Accounts {S with sched:=(enqueueNew t new S.sched).1}:=by
  set s1:={S.sched with heap:=t::S.sched.heap,nextTid:=u32 (S.sched.nextTid+1)}.modify t fun _=>new
  have hself : s1.task t=new:=Sched.task_modify_self _ _ _
  have hother (p : ℕ) (hp : p≠t) : s1.task p=S.sched.task p:=Sched.task_modify_of_ne _ _ hp
  have hnext : s1.nextTid=S.sched.nextTid+1:=Nat.mod_eq_of_lt hn
  have htask (p : ℕ) (hp : s1.IsTask p) : p=t ∨ p≠t ∧ S.sched.IsTask p:=by
    by_cases hpt : p=t
    · exact .inl hpt
    · exact .inr ⟨hpt,hp.imp_right fun hm=>(mem_cons.mp hm).resolve_left hpt⟩
  -- every thread id in use is below the new one
  have htids (p : ℕ) (hp : s1.IsTask p) : p=t ∧ (s1.task p).tid=S.sched.nextTid ∨
      S.sched.IsTask p ∧ (s1.task p).tid=(S.sched.task p).tid ∧ (s1.task p).tid<S.sched.nextTid:=by
    rcases htask p hp with rfl | ⟨hpt,hp⟩
    · exact .inl ⟨rfl,by rw [hself,htid]⟩
    · rw [hother p hpt]
      exact .inr ⟨hp,rfl,h.fresh p hp⟩
  have hacc : Accounts {S with sched:=s1}:=by
    refine ⟨fun p hp=>?_,fun p q hp hq he=>?_,fun r hr=>?_,h.nodup,fun u hu=>⟨?_,fun p hp=>?_⟩⟩
    · dsimp only at hp ⊢
      rcases htids p hp with ⟨-,he⟩ | ⟨-,-,hlt⟩ <;> omega
    · dsimp only at hp hq he
      rcases htids p hp with ⟨rfl,hep⟩ | ⟨hp,hep,hlp⟩ <;> rcases htids q hq with ⟨rfl,heq⟩ | ⟨hq,heq,hlq⟩
      · rfl
      · omega
      · omega
      · exact h.unique p q hp hq (by rw [←hep,←heq,he])
    · have he:=h.entries r hr
      have hct : r.child≠t:=fun e=>ht (.inr (e▸he.live))
      refine ⟨mem_cons_of_mem _ he.live,?_,?_,he.apart,?_,fun p hp hpt=>?_,?_⟩
      · rw [hother _ hct]
        exact he.tid
      · rw [hother _ hct]
        exact he.parentTid
      · have:=he.old
        dsimp only
        omega
      · have:=he.old
        dsimp only at hp hpt
        rcases htids p hp with ⟨-,hep⟩ | ⟨hp,hep,-⟩
        · omega
        · exact he.parent p hp (hep▸hpt)
      · rw [hother _ hct]
        exact he.code
    · have:=(h.reported u hu).1
      dsimp only
      omega
    · have hlt:=(h.reported u hu).1
      dsimp only at hp ⊢
      rcases htids p hp with ⟨-,hep⟩ | ⟨hp,hep,-⟩
      · omega
      · rw [hep]
        exact (h.reported u hu).2 p hp
  exact hacc.steady (enqueueNew_steady t new S.sched) fun _=>id

theorem Accounts.addChild (ht : ¬S.sched.IsTask t)
    (htid : new.tid=S.sched.nextTid) (hn : S.sched.nextTid+1<4294967296) (hcur : S.sched.IsTask cur)
    (hpar : new.parentTid=(S.sched.task cur).tid) : Accounts ⟨(Scheduler.enqueueNew t new S.sched).1,
    ⟨t,cur,S.sched.nextTid,(S.sched.task cur).tid,none⟩::S.ledger,S.reported⟩:=by
  have h':=h.enqueueNew ht htid hn
  have hs:=enqueueNew_steady t new S.sched
  refine ⟨h'.fresh,h'.unique,fun r hr=>?_,h'.nodup,h'.reported⟩
  rcases mem_cons.mp hr with rfl | hr
  · have hct : cur≠t:=by
      rintro rfl
      exact ht hcur
    have htask : (Scheduler.enqueueNew t new S.sched).1.IsTask cur:=by
      rw [hs.isTask]
      exact hcur.imp_right (mem_cons_of_mem _)
    have hctid : ((Scheduler.enqueueNew t new S.sched).1.task cur).tid=(S.sched.task cur).tid:=by
      rw [hs.tid,Sched.task_modify_of_ne _ _ hct]
    refine ⟨?_,?_,?_,hct.symm,?_,fun p hp hpt=>?_,nofun⟩
    · rw [hs.heap]
      exact mem_cons_self
    · rw [hs.tid,Sched.task_modify_self]
      exact htid
    · rw [hs.parentTid,Sched.task_modify_self]
      exact hpar
    · exact hctid▸h'.fresh cur htask
    · exact h'.unique p cur hp htask (hpt.trans hctid.symm)
  · exact h'.entries r hr

theorem Accounts.exit {code : ℤ} (hcur : S.sched.IsTask cur ∧ (S.sched.task cur).state≠.dead)
    (he : Exited S.sched s' cur code) : Accounts ⟨s',S.ledger.filterMap (Child.afterExit cur code),S.reported⟩:=by
  have htask (p : ℕ) : s'.IsTask p↔S.sched.IsTask p:=by rw [Sched.IsTask,Sched.IsTask,he.heap]
  refine ⟨fun p hp=>?_,fun p q hp hq ht=>?_,fun r hr=>?_,h.nodup,fun t ht=>⟨?_,fun p hp=>?_⟩⟩
  · rw [he.tid,he.nextTid]
    exact h.fresh p ((htask p).mp hp)
  · rw [he.tid,he.tid] at ht
    exact h.unique p q ((htask p).mp hp) ((htask q).mp hq) ht
  · obtain ⟨r0,hr0,hafter⟩:=mem_filterMap.mp hr
    have hent:=h.entries r0 hr0
    -- only the children of the caller that still run lose their parent
    have hkeep (hp : r0.parent=cur→(S.sched.task r0.child).state = .dead) :
        (s'.task r0.child).parentTid=r0.parentTid:=by
      rcases he.parentTid r0.child with hsame | ⟨hpt,hd⟩
      · rw [hsame]
        exact hent.parentTid
      · rw [hent.parentTid] at hpt
        exact absurd (hp (hent.parent cur hcur.1 hpt.symm).symm) hd
    have hparent (p : ℕ) (hp : s'.IsTask p) (hpt : (s'.task p).tid=r0.parentTid) : p=r0.parent:=by
      rw [he.tid] at hpt
      exact hent.parent p ((htask p).mp hp) hpt
    have hlive : r0.child∈s'.heap:=he.heap▸hent.live
    have htid : (s'.task r0.child).tid=r0.tid:=(he.tid _).trans hent.tid
    have hold : r0.parentTid<s'.nextTid:=he.nextTid▸hent.old
    unfold Child.afterExit at hafter
    split at hafter
    · rename_i hc
      cases hafter
      obtain ⟨k,hk⟩:=ne_none_iff_exists'.mp hc
      obtain ⟨hd,hcode⟩:=hent.code k hk
      have hne : r.child≠cur:=by
        intro e
        rw [e] at hd
        exact hcur.2 hd
      refine ⟨hlive,htid,hkeep fun _=>hd,hent.apart,hold,hparent,fun k' hk'=>?_⟩
      rw [he.dead,he.exitCode _ hne]
      exact ⟨.inl (hent.code k' hk').1,(hent.code k' hk').2⟩
    · split at hafter
      · rename_i hc
        cases hafter
        refine ⟨hlive,htid,hkeep fun hp=>absurd (hc.trans hp.symm) hent.apart,hent.apart,hold,hparent,fun k hk=>?_⟩
        obtain rfl:=some.inj hk
        rw [hc,he.dead]
        exact ⟨.inr rfl,he.code⟩
      · split at hafter
        · cases hafter
        rename_i hnone hc hp
        cases hafter
        refine ⟨hlive,htid,hkeep fun hpc=>absurd hpc hp,hent.apart,hold,hparent,fun k hk=>?_⟩
        rw [hk] at hnone
        simp at hnone
  · rw [he.nextTid]
    exact (h.reported t ht).1
  · rw [he.tid]
    exact (h.reported t ht).2 p ((htask p).mp hp)

theorem Accounts.reap {z : ℕ} (hz : z∈S.sched.heap) (hnd : S.sched.heap.Nodup)
    (hidle : idleTask∉S.sched.heap) (hheap : s'.heap=S.sched.heap.erase z)
    (hs : Steady S.sched {s' with heap:=S.sched.heap})
    (hl : ∀r∈ledger,r∈S.ledger ∧ r.child≠z) :
    Accounts ⟨s',ledger,(S.sched.task z).tid::S.reported⟩:=by
  have hgone (p : ℕ) (hp : s'.IsTask p) : p≠z ∧ S.sched.IsTask p:=by
    rcases hp with rfl | hp
    · exact ⟨fun e=>hidle (e▸hz),.inl rfl⟩
    · rw [hheap,hnd.mem_erase_iff] at hp
      exact ⟨hp.1,.inr hp.2⟩
  have hrest : Accounts ⟨s',ledger,S.reported⟩:=by
    refine (h.steady hs fun r hr=>(hl r hr).1).released (fun p hp=>?_) fun r hr=>⟨hr,?_⟩
    · rw [hheap] at hp
      exact mem_of_mem_erase hp
    · rw [hheap,hnd.mem_erase_iff]
      exact ⟨(hl r hr).2,(h.entries r (hl r hr).1).live⟩
  refine ⟨hrest.fresh,hrest.unique,hrest.entries,?_,fun t ht=>?_⟩
  · exact nodup_cons.mpr ⟨fun hm=>(h.reported _ hm).2 z (.inr hz) rfl,h.nodup⟩
  rcases mem_cons.mp ht with rfl | ht
  · have hnext:=hs.nextTid
    refine ⟨hnext▸h.fresh z (.inr hz),fun p hp he=>(hgone p hp).1 ?_⟩
    exact h.unique p z (hgone p hp).2 (.inr hz) ((hs.tid p).symm.trans he)
  · exact hrest.reported t ht

end

theorem mem_remaining (hr : r∈remaining ledger ev) : r∈ledger ∧ r.child∉freedTasks ev:=by
  simpa [remaining] using hr

theorem delivers_of_nil (h : freedTasks ev=[]) : Delivers S op ev report:=by
  intro r _ k _ hf
  rw [h] at hf
  cases hf

theorem delivers_of_open (h : ∀r∈S.ledger,r.code=none) : Delivers S op ev report:=by
  intro r hr k hk
  rw [h r hr] at hk
  cases hk

structure Delivery (S : Family) (op : FamilyOp) (S' : Family) (ev : List Event) (report : Option (ℕ × ℤ)) : Prop where
  delivers : Delivers S op ev report
  accounts : Accounts S'
  inv : ∃ring zombies cur,Invariant S'.sched ring zombies cur

theorem Accounts.fork (h : Accounts S) (hinv : Invariant S.sched ring zombies cur) {space task kstack scstack : Option ℕ}
    {fdt : Option FDTable} (hv : (FamilyOp.fork space task kstack scstack fdt).Valid S)
    (hp : (FamilyOp.fork space task kstack scstack fdt).Patient S)
    (hs : perform S (.fork space task kstack scstack fdt)=some (S',ev,report)) :
    Delivery S (.fork space task kstack scstack fdt) S' ev report:=by
  simp only [perform] at hs
  rcases forkCurrent_cases space task kstack scstack fdt S.sched with
    ⟨e,ev',hf,hfreed⟩ | ⟨p,t,new,ev',hc,rfl,hf,hfreed,hnew,htid,hpar⟩
  · rw [hf] at hs
    have hs : some ({S with sched:=S.sched},ev',none)=some (S',ev,report):=by
      cases hcur : S.sched.currentTask <;> simpa [hcur] using hs
    cases hs
    refine ⟨fun r hr k _ hm=>?_,h,⟨_,_,_,hinv⟩⟩
    exact absurd (.inr (h.entries r hr).live) (hv r.child (hfreed _ hm))
  · rw [hf,hc] at hs
    cases hs
    have ht : ¬S.sched.IsTask t:=hv t rfl
    obtain rfl:=some.inj (hinv.current.symm.trans hc)
    refine ⟨delivers_of_nil hfreed,?_,(enqueueNew_spec hinv ht hnew).invariant⟩
    exact h.addChild ht htid hp.1 hinv.cur_alive.1 (hpar.trans (hp.2 t rfl cur hc))

theorem Accounts.wait (h : Accounts S) (hinv : Invariant S.sched ring zombies cur) (hv : FamilyOp.wait.Valid S)
    (hs : perform S .wait=some (S',ev,report)) : Delivery S .wait S' ev report:=by
  obtain ⟨⟨s1,res,ev1⟩,hw,he⟩:=map_eq_some_iff.mp hs
  obtain ⟨s2,res2,ev2,hw2,hspec⟩:=wait_spec hinv hv
  obtain ⟨rfl,rfl,rfl⟩ : s1=s2 ∧ res=res2 ∧ ev1=ev2:=by simpa using hw.symm.trans hw2
  rcases hinv.wait_cases hw with ⟨z,hz,hd,hpar,rfl,hfreed,hheap,hsteady⟩ | ⟨hres,hsteady,hfreed⟩
  · cases he
    refine ⟨fun r hr k hk hm=>?_,?_,hspec.invariant⟩
    · rw [hfreed,mem_singleton] at hm
      have hent:=h.entries r hr
      have hcur : cur=r.parent:=hent.parent cur hinv.cur_alive.1 (by rw [←hpar,←hm]; exact hent.parentTid)
      refine ⟨rfl,hcur▸hinv.current,?_,?_⟩
      · rw [←hcur,←hpar,←hm]
        exact hent.parentTid
      · rw [←hm,hent.tid,(hent.code k hk).2]
    · refine h.reap hz hinv.heap_nodup hinv.idle_static hheap hsteady fun r hr=>?_
      obtain ⟨hr,hn⟩:=mem_remaining hr
      exact ⟨hr,by simpa [hfreed] using hn⟩
  · cases res with
    | reaped t c=>exact absurd rfl (hres t c)
    | notFound=>
      cases he
      exact ⟨delivers_of_nil hfreed,h.steady hsteady fun _=>id,hspec.invariant⟩
    | blocked=>
      cases he
      exact ⟨delivers_of_nil hfreed,h.steady hsteady fun _=>id,hspec.invariant⟩

theorem Accounts.perform (h : Accounts S) (hinv : Invariant S.sched ring zombies cur) (hv : op.Valid S)
    (hp : op.Patient S) (hs : perform S op=some (S',ev,report)) : Delivery S op S' ev report:=by
  cases op with
  | spawnUser t new=>
    cases hs
    exact ⟨delivers_of_nil rfl,h.enqueueNew hv rfl hp,(enqueueNew_spec hinv hv rfl).invariant⟩
  | fork space task kstack scstack fdt=>exact h.fork hinv hv hp hs
  | exit code=>
    simp only [Scheduler.perform,hinv.current,bind_eq_bind,bind_some] at hs
    obtain ⟨⟨s1,ev1⟩,he,hs⟩:=bind_eq_some_iff.mp hs
    cases hs
    obtain ⟨hex,hfreed⟩:=hinv.exited hv he
    obtain ⟨s2,ev2,he2,hspec⟩:=@exit_spec _ _ _ _ code hinv hv
    obtain ⟨rfl,rfl⟩:=Prod.mk.inj (some.inj (he.symm.trans he2))
    exact ⟨delivers_of_nil hfreed,h.exit hinv.cur_alive hex,hspec.invariant⟩
  | tick=>
    obtain ⟨⟨s1,ev1⟩,he,hs⟩:=map_eq_some_iff.mp hs
    cases hs
    obtain ⟨hsteady,rfl⟩:=hinv.tick_steady he
    obtain ⟨s2,ev2,he2,hspec⟩:=tick_spec hinv
    obtain ⟨rfl,rfl⟩:=Prod.mk.inj (some.inj (he.symm.trans he2))
    exact ⟨delivers_of_open hp,(h.reaped hinv fun r=>mem_remaining).steady hsteady fun _=>id,hspec.invariant⟩
  | yield=>
    obtain ⟨⟨s1,ev1⟩,he,hs⟩:=map_eq_some_iff.mp hs
    cases hs
    obtain ⟨hsteady,rfl⟩:=hinv.yield_steady he
    obtain ⟨s2,ev2,he2,hspec⟩:=yield_spec hinv
    obtain ⟨rfl,rfl⟩:=Prod.mk.inj (some.inj (he.symm.trans he2))
    exact ⟨delivers_of_open hp,(h.reaped hinv fun r=>mem_remaining).steady hsteady fun _=>id,hspec.invariant⟩
  | block=>
    obtain ⟨⟨s1,ev1⟩,he,hs⟩:=map_eq_some_iff.mp hs
    cases hs
    obtain ⟨hsteady,hfreed⟩:=hinv.blockCurrent_steady he
    obtain ⟨s2,ev2,he2,hspec⟩:=blockCurrent_spec hinv hv
    obtain ⟨rfl,rfl⟩:=Prod.mk.inj (some.inj (he.symm.trans he2))
    exact ⟨delivers_of_nil hfreed,h.steady hsteady fun _=>id,hspec.invariant⟩
  | wake t=>
    obtain ⟨⟨s1,ev1⟩,he,hs⟩:=map_eq_some_iff.mp hs
    cases hs
    obtain ⟨hsteady,hfreed⟩:=wake_steady he
    obtain ⟨s2,ev2,he2,hspec⟩:=wake_spec hinv hv
    obtain ⟨rfl,rfl⟩:=Prod.mk.inj (some.inj (he.symm.trans he2))
    exact ⟨delivers_of_nil hfreed,h.steady hsteady fun _=>id,hspec.invariant⟩
  | wait=>exact h.wait hinv hv hs

theorem Booted.accounts (h : Booted S) : Accounts S ∧ ∃ring zombies cur,Invariant S.sched ring zombies cur:=by
  obtain ⟨garbage,idleStack,hs,hl,hr⟩:=h
  have htask (p : ℕ) (hp : S.sched.IsTask p) : p=idleTask:=by
    rw [hs] at hp
    simpa [init,Sched.IsTask] using hp
  refine ⟨⟨fun p hp=>?_,fun p q hp hq _=>?_,by simp [hl],by simp [hr],by simp [hr]⟩,
    ⟨_,_,_,hs▸invariant_init garbage idleStack⟩⟩
  · rw [htask p hp,hs]
    simp [init]
  · rw [htask p hp,htask q hq]

/-- In runs where no tick or yield comes before the report the code of a child reaches its
parent and nobody else, and no child is reported twice. -/
theorem exit_status_delivered (h : Reach Booted familyStep (fun op S=>op.Valid S ∧ op.Patient S) S)
    (hv : op.Valid S) (hp : op.Patient S) (hs : perform S op=some (S',ev,report)) :
    Delivers S op ev report ∧ S'.reported.Nodup:=by
  have hacc : Accounts S ∧ ∃ring zombies cur,Invariant S.sched ring zombies cur:=by
    refine h.invariant (fun S hb=>hb.accounts) ?_
    rintro S S' op ⟨hacc,ring,zombies,cur,hinv⟩ ⟨hv,hp⟩ hs
    obtain ⟨⟨S₁,ev,report⟩,hs₁,rfl⟩:=map_eq_some_iff.mp hs
    have hd:=hacc.perform hinv hv hp hs₁
    exact ⟨hd.accounts,hd.inv⟩
  obtain ⟨hacc,ring,zombies,cur,hinv⟩:=hacc
  have hd:=hacc.perform hinv hv hp hs
  exact ⟨hd.delivers,hd.accounts.nodup⟩

/-- Task memory in which the word of `parent_tid` happens to hold 1. -/
def usedMemory : ℕ→Task:=fun _=>{blankTask with parentTid:=1}

def bootedFamily : Family:=⟨init usedMemory 100,[],[]⟩

def someProcess : Task:={blankTask with pml4:=some 4096,quantum:=2}

theorem bootedFamily_booted : Booted bootedFamily:=⟨usedMemory,100,rfl,rfl,rfl⟩

def forkTen : FamilyOp:=.fork (some 8192) (some 10) (some 11) (some 12) (some ⟨13,[]⟩)

/-- The child exits while its parent waits, and a third task, woken while the idle task runs,
hands the processor to the parent before any tick. -/
theorem exit_status_delivered_forked : ∃S S' ev,Reach Booted familyStep (fun op S=>op.Valid S ∧ op.Patient S) S ∧
    perform S .wait=some (S',ev,some (3,42)) ∧ freedTasks ev=[10] ∧
    Delivers S .wait ev (some (3,42)) ∧ S'.reported.Nodup:=by
  have hrun : Reach Booted familyStep (fun op S=>op.Valid S ∧ op.Patient S) bootedFamily:=
    .start bootedFamily_booted
  have hrun:=hrun.step (.spawnUser 8 someProcess)
      (by exact ⟨show ¬Sched.IsTask _ _ by decide,show _<_ by decide⟩) rfl
    |>.step (.spawnUser 9 someProcess) (by exact ⟨show ¬Sched.IsTask _ _ by decide,show _<_ by decide⟩) rfl
    |>.step .yield (by exact ⟨trivial,fun _ hr=>nomatch hr⟩) rfl
    |>.step .block (by exact ⟨show (_ : Option ℕ)≠some idleTask by decide,trivial⟩) rfl
    |>.step forkTen ⟨by rintro _ ⟨⟩; decide,by decide,by decide⟩ rfl
    |>.step .wait (by exact ⟨fun hc=>absurd hc (by decide),trivial⟩) rfl
    |>.step (.exit 42) (by exact ⟨show (_ : Option ℕ)≠some idleTask by decide,trivial⟩) rfl
    |>.step (.wake (some 9)) (by exact ⟨by rintro _ ⟨⟩; decide,trivial⟩) rfl
    |>.step .block (by exact ⟨show (_ : Option ℕ)≠some idleTask by decide,trivial⟩) rfl
  have hd:=exit_status_delivered hrun (show FamilyOp.Valid _ .wait from fun hc=>absurd hc (by decide)) trivial rfl
  exact ⟨_,_,_,hrun,rfl,by decide,hd⟩

/-- The parent waits, the child exits with 42, the idle task runs, and its tick discards the
child: no `wait` can report it any more. -/
theorem exit_status_lost : ∃S S' ev,Reach Booted familyStep (fun op S=>op.Valid S) S ∧
    perform S .tick=some (S',ev,none) ∧ S.ledger=[⟨10,8,2,1,some 42⟩] ∧ (S.sched.task 8).tid=1 ∧
    (S.sched.task 10).parentTid=1 ∧ freedTasks ev=[10] ∧ ¬Delivers S .tick ev none:=by
  have hrun : Reach Booted familyStep (fun op S=>op.Valid S) bootedFamily:=.start bootedFamily_booted
  have hrun:=hrun.step (.spawnUser 8 someProcess) (by exact show ¬Sched.IsTask _ _ by decide) rfl
    |>.step .yield (by exact trivial) rfl
    |>.step forkTen (by rintro _ ⟨⟩; decide) rfl
    |>.step .wait (by exact fun hc=>absurd hc (by decide)) rfl
    |>.step (.exit 42) (by exact show (_ : Option ℕ)≠some idleTask by decide) rfl
  refine ⟨_,_,_,hrun,rfl,rfl,rfl,rfl,by decide,fun hd=>?_⟩
  have:=(hd _ mem_cons_self 42 rfl (by decide)).1
  cases this

/-- `wait` ends; it reports that there is no child if and only if there is none in the run queue and none among the
zombies, and what it reaps is a zombie child. -/
def WaitsRight (s : Sched) (ring zombies : List ℕ) (cur : ℕ) : Prop:=
  ∃s' res ev,wait s=some (s',res,ev) ∧
    (res = .notFound↔∀p∈ring++zombies,¬IsChild s cur p) ∧
    ∀t c,res = .reaped t c→∃z∈zombies,IsChild s cur z ∧ t=(s.task z).tid ∧ c=(s.task z).exitCode

/-- `wait` is right about the children of its caller unless the caller has none and there are zombies of others. -/
theorem waits_right_iff (h : Invariant s ring zombies cur) :
    WaitsRight s ring zombies cur↔zombies=[] ∨ ∃p∈ring++zombies,IsChild s cur p:=by
  rcases wait_eq h with ⟨l,z,r,rfl,hz,hw⟩ | ⟨hzombies,⟨rfl,hring,hw⟩ | ⟨hsome,hw⟩⟩
  · have hmem : z∈ring++(l++z::r):=by simp
    refine iff_of_true ⟨_,_,_,hw,?_,?_⟩ (.inr ⟨z,hmem,hz⟩)
    · exact iff_of_false (by simp) fun hnone=>hnone z hmem hz
    · rintro _ _ ⟨⟩
      exact ⟨z,by simp,hz,rfl,rfl⟩
  · exact iff_of_true ⟨_,_,_,hw,iff_of_true rfl (by simpa using hring),by simp⟩ (.inl rfl)
  · obtain ⟨r,hr⟩:=blockCurrent_total h
    rw [hr] at hw
    constructor
    · rintro ⟨s',res,ev,hw',hright,-⟩
      cases hw.symm.trans hw'
      refine .inr ?_
      simpa using hright
    · intro hchild
      obtain ⟨p,hp,hc⟩ : ∃p∈ring++zombies,IsChild s cur p:=hchild.elim (fun he=>by simpa [he] using hsome he) id
      exact ⟨_,_,_,hw,iff_of_false (by simp) fun hnone=>hnone p hp hc,by simp⟩

/-- After boot there are no zombies. -/
theorem waits_right_booted : ∃s ring cur,Invariant s ring [] cur ∧ WaitsRight s ring [] cur:=
  have h:=invariant_init (fun _=>blankTask) 100
  ⟨_,_,_,h,(waits_right_iff h).mpr (.inl rfl)⟩

/-- Of two tasks without children one exits. The other one calls `wait` and is blocked. -/
theorem childless_wait_blocks : ∃s ring zombies cur s' ev,Invariant s ring zombies cur ∧
    (∀p∈ring++zombies,¬IsChild s cur p) ∧ wait s=some (s',.blocked,ev) ∧ ¬WaitsRight s ring zombies cur:=by
  have hrun:=(Run.start : Run (init (fun _=>blankTask) 100) [] _)
    |>.step (.spawn (some 8) (some 9) 16384 2) (by simp [Op.Valid,Sched.IsTask,init,idleTask]) rfl
    |>.step (.spawn (some 10) (some 11) 16384 2) (by rintro _ ⟨⟩; decide) rfl
    |>.step .yield trivial rfl
    |>.step (.exit 0) (show (_ : Option ℕ)≠some idleTask by decide) rfl
  obtain ⟨ring,zombies,cur,h⟩:=hrun.invariant.1
  obtain rfl:=some.inj h.current
  have htask (p : ℕ) (hp : p∈ring++zombies) : p∈[idleTask,10,8]:=by
    rcases mem_append.mp hp with hp | hp
    · exact mem_cons.mpr ((h.mem_ring p).mp hp).1
    · exact mem_cons_of_mem _ ((h.mem_zombies p).mp hp).1
  have hand {A B C : Prop} (a : A) (b : B) (c : A→C) : A ∧ B ∧ C:=⟨a,b,c a⟩
  refine ⟨_,ring,zombies,8,_,_,h,hand (fun p hp=>?_) rfl fun hnone=>?_⟩
  · replace hp:=htask p hp
    unfold IsChild
    revert p
    decide
  · rintro ⟨s',res,ev,hw,hright,-⟩
    cases hw
    cases hright.mpr hnone

end Knail.Scheduler
