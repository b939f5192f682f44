import Knail.SchedulerFrames
import Knail.Transitions

/-!
# The interrupt flag inside critical sections

Between `irq_save_disable` and `irq_restore` the scheduler calls the heap, whose spinlock clears the interrupt flag
and sets it on release, whatever it was before. The calls of an operation are replayed on the flag.
-/
namespace Knail.CriticalSections

open Scheduler List Option

/-- The interrupt flag, the flag of `heap_lock`, the task that runs, and for every task that is
between `irq_save_disable` and `irq_restore` the interrupt flag it has saved. -/
structure Cpu where
  interrupts : Bool
  heapLock : Bool
  current : ℕ
  saved : ℕ→Option Bool

namespace Cpu

/-- The flag, if the running task is inside a section. -/
def point (c : Cpu) : List Bool:=
  match c.saved c.current with
  | some _=>[c.interrupts]
  | none=>[]

/-- `Spinlock::acquire`. A held lock is never released on the one processor. -/
def acquire (c : Cpu) : Option Cpu:=
  if c.heapLock then none else some {c with interrupts:=false,heapLock:=true}

def release (c : Cpu) : Cpu:={c with heapLock:=false,interrupts:=true}

/-- A heap call, with the points inside and after the lock. -/
def heapCall (c : Cpu) : Option (Cpu×List Bool):=do
  let c₁ ← c.acquire
  return (c₁.release,c₁.point++c₁.release.point)

def setSaved (c : Cpu) (p : ℕ) (v : Option Bool) : Cpu:={c with saved:=Function.update c.saved p v}

def step (c : Cpu) : Event→Option (Cpu×List Bool)
  | .irqSaveDisable=>
    let c:={c.setSaved c.current (some c.interrupts) with interrupts:=false}
    some (c,c.point)
  | .irqRestore=>some ({c.setSaved c.current none with interrupts:=(c.saved c.current).getD c.interrupts},[])
  | .kmalloc | .kfree _ | .kfreeTask _=>c.heapCall
  | .kmallocTask t=>c.heapCall.map fun r=>(r.1.setSaved t none,r.2)
  | .switchContext _ nxt=>
    let c:={c with current:=nxt}
    some (c,c.point)

def run (c : Cpu) : List Event→Option (Cpu×List Bool)
  | []=>some (c,[])
  | e::es=>do
    let (c₁,p₁) ← c.step e
    let (c₂,p₂) ← c₁.run es
    return (c₂,p₁++p₂)

end Cpu

structure Machine where
  sched : Sched
  cpu : Cpu

inductive Op
  | exit (code : ℤ)
  | yield
  | wait
  | block
  | spawn (task stack : Option ℕ) (stackSize quantum : ℕ)
  | spawnUser (t : ℕ) (new : Task)
  | fork (space task kstack scstack : Option ℕ) (fdt : Option FDTable)
  /-- The timer interrupt. -/
  | tick
  /-- The keyboard interrupt, with the task that waits for a key. -/
  | wake (t : Option ℕ)
  /-- A task that was switched away inside a section goes on to `irq_restore`. -/
  | restore
  /-- Code outside the sections sets or clears the flag. -/
  | other (flag : Bool)
  deriving DecidableEq

def Op.perform : Op→Sched→Option (Sched×List Event)
  | .exit code, s=>Scheduler.exit code s
  | .yield, s=>Scheduler.yield s
  | .wait, s=>(Scheduler.wait s).map fun r=>(r.1,r.2.2)
  | .block, s=>blockCurrent s
  | .spawn task stack stackSize quantum, s=>
    let r:=Scheduler.spawn task stack stackSize quantum s
    some (r.1,r.2.2)
  | .spawnUser t new, s=>some (enqueueNew t {new with tid:=s.nextTid,state:=.ready} s)
  | .fork space task kstack scstack fdt, s=>
    let r:=forkCurrent space task kstack scstack fdt s
    some (r.1,r.2.2)
  | .tick, s=>Scheduler.tick s
  | .wake t, s=>Scheduler.wake t s
  | .restore, s=>some (s,[.irqRestore])
  | .other _, s=>some (s,[])

/-- Interrupts need the flag set and enter with the flag clear. A task inside a section does
nothing but leave it. -/
def Op.enter (op : Op) (c : Cpu) : Option Cpu:=
  match op with
  | .tick | .wake _=>if c.interrupts then some {c with interrupts:=false} else none
  | .restore=>if (c.saved c.current).isSome then some c else none
  | .other flag=>if (c.saved c.current).isSome then none else some {c with interrupts:=flag}
  | _=>if (c.saved c.current).isSome then none else some c

/-- An operation, with the flag at the points inside sections. -/
def step (m : Machine) (op : Op) : Option (Machine×List Bool):=do
  let c ← op.enter m.cpu
  let (s,ev) ← op.perform m.sched
  let (c,points) ← c.run ev
  return (⟨s,c⟩,points)

def Booted (m : Machine) : Prop:=
  (∃garbage idleStack,m.sched=init garbage idleStack) ∧ m.cpu.heapLock=false ∧ m.cpu.current=idleTask ∧
    m.cpu.saved idleTask=none

def OnZombieList (s : Sched) (z : ℕ) : Prop:=∃xs,Path s.next s.zombieList (xs++[z]) (s.next z)

/-- The caller of `exit` has no descriptor table, no tick and no `yield` finds a zombie, and no
`wait` finds a zombie child. -/
def Op.Quiet (m : Machine) : Op→Prop
  | .exit _=>∀cur∈m.sched.currentTask,(m.sched.task cur).fdTable=none
  | .yield | .tick=>m.sched.zombieList=none
  | .wait=>∀cur∈m.sched.currentTask,∀z,OnZombieList m.sched z →
      (m.sched.task z).parentTid≠(m.sched.task cur).tid
  | _=>True

variable {c c' : Cpu} {m m' : Machine} {op : Op} {s s' : Sched} {ev : List Event} {points : List Bool}
  {e : Event} {nxt n : ℕ} {l : List Event} {task : Option ℕ}

/-- The lock is free, and inside a section the flag is clear. -/
structure Cpu.Closed (c : Cpu) : Prop where
  lock : c.heapLock=false
  flag : c.saved c.current≠none→c.interrupts=false

def Cpu.Safe (c : Cpu) (ev : List Event) : Prop:=
  ∀c' points,c.run ev=some (c',points)→c'.Closed ∧ ∀b∈points,b=false

theorem Cpu.Closed.point (h : c.Closed) : ∀b∈c.point,b=false:=by
  unfold Cpu.point
  split
  · rename_i v hv
    simpa using h.flag (by rw [hv]; exact nofun)
  · exact nofun

theorem Cpu.safe_nil (h : c.Closed) : c.Safe []:=by
  rintro c' points ⟨⟩
  exact ⟨h,nofun⟩

theorem Cpu.safe_cons (h : ∀c1 p1,c.step e=some (c1,p1)→(∀b∈p1,b=false) ∧ c1.Safe ev) : c.Safe (e::ev):=by
  intro c' points hr
  simp only [Cpu.run,bind_eq_bind] at hr
  obtain ⟨⟨c1,p1⟩,h1,hr⟩:=bind_eq_some_iff.mp hr
  obtain ⟨⟨c2,p2⟩,h2,hr⟩:=bind_eq_some_iff.mp hr
  cases hr
  obtain ⟨hp1,hsafe⟩:=h c1 p1 h1
  obtain ⟨hc,hp2⟩:=hsafe c2 p2 h2
  refine ⟨hc,fun b hb=>?_⟩
  rcases mem_append.mp hb with hb | hb
  · exact hp1 b hb
  · exact hp2 b hb

theorem Cpu.safe_switch {prev : ℕ} (hl : c.heapLock=false) (hi : c.interrupts=false) :
    c.Safe [.switchContext prev nxt]:=by
  refine Cpu.safe_cons fun c1 p1 h=>?_
  cases h
  have hc : Cpu.Closed {c with current:=nxt}:=⟨hl,fun _=>hi⟩
  exact ⟨hc.point,Cpu.safe_nil hc⟩

theorem Cpu.safe_restore (hl : c.heapLock=false) : c.Safe [.irqRestore]:=by
  refine Cpu.safe_cons fun c1 p1 h=>?_
  cases h
  refine ⟨nofun,Cpu.safe_nil ⟨hl,fun hs=>absurd ?_ hs⟩⟩
  simp [Cpu.setSaved]

theorem Cpu.safe_section (hl : c.heapLock=false) (h : ∀c1 : Cpu,c1.heapLock=false→c1.interrupts=false →
    c1.Safe ev) : c.Safe (.irqSaveDisable::ev):=by
  refine Cpu.safe_cons fun c1 p1 hs=>?_
  cases hs
  exact ⟨Cpu.Closed.point ⟨hl,fun _=>rfl⟩,h _ hl rfl⟩

theorem doSwitch_events (h : doSwitch nxt s=some (s',ev)) : ev=[] ∨ ∃prev,ev=[.switchContext prev nxt]:=by
  obtain ⟨prev,-,h⟩:=bind_eq_some_iff.mp h
  split at h <;> cases h
  · exact .inl rfl
  · exact .inr ⟨prev,rfl⟩

theorem Cpu.safe_doSwitch (hl : c.heapLock=false) (h : doSwitch nxt s=some (s',ev)) :
    c.Safe (.irqSaveDisable::restoreUnlessSwitched ev):=by
  refine Cpu.safe_section hl fun c1 hl1 hi1=>?_
  rcases doSwitch_events h with rfl | ⟨prev,rfl⟩
  · exact Cpu.safe_restore hl1
  · exact Cpu.safe_switch hl1 hi1

def IsHeapCall : Event→Bool
  | .kmalloc | .kmallocTask _ | .kfree _ | .kfreeTask _=>true
  | _=>false

theorem Cpu.step_heapCall (he : IsHeapCall e) (hl : c.heapLock=false) (hn : c.saved c.current=none)
    (h : c.step e=some (c',points)) : points=[] ∧ c'.heapLock=false ∧ c'.saved c'.current=none:=by
  have hcall : c.heapCall=some (c.release,[]):=by
    simp [Cpu.heapCall,Cpu.acquire,hl,Cpu.point,Cpu.release,hn]
  cases e with
  | kmalloc | kfree | kfreeTask=>
    cases hcall.symm.trans h
    exact ⟨rfl,rfl,hn⟩
  | kmallocTask t=>
    simp only [Cpu.step,hcall,map_some] at h
    cases h
    by_cases ht : c.current=t
    · simp [Cpu.setSaved,Cpu.release,ht]
    · simpa [Cpu.setSaved,Cpu.release,Function.update_of_ne ht] using hn
  | _=>cases he

theorem Cpu.safe_heapCalls (hh : ∀e∈l,IsHeapCall e) (hl : c.heapLock=false)
    (hn : c.saved c.current=none) (h : ∀c1 : Cpu,c1.heapLock=false→c1.saved c1.current=none→c1.Safe ev) :
    c.Safe (l++ev):=by
  induction l generalizing c with
  | nil=>exact h c hl hn
  | cons e l ih=>
    refine Cpu.safe_cons fun c1 p1 hs=>?_
    obtain ⟨rfl,hl1,hn1⟩:=Cpu.step_heapCall (hh e mem_cons_self) hl hn hs
    exact ⟨nofun,ih (fun e he=>hh e (mem_cons_of_mem _ he)) hl1 hn1⟩

theorem reapZombies_none (hz : s.zombieList=none) (h : reapZombies n s=some (s',ev)) : s'=s ∧ ev=[]:=by
  cases n with
  | zero=>cases h
  | succ n=>
    simp only [reapZombies,hz] at h
    cases h
    exact ⟨rfl,rfl⟩

theorem safe_exit {code : ℤ} (hl : c.heapLock=false) (hq : (Op.exit code).Quiet m)
    (h : exit code m.sched=some (s',ev)) : c.Safe ev:=by
  obtain ⟨dead,hd,h⟩:=bind_eq_some_iff.mp h
  have hfd:=hq dead hd
  obtain ⟨s1,-,h⟩:=bind_eq_some_iff.mp h
  obtain ⟨s2,-,h⟩:=bind_eq_some_iff.mp h
  obtain ⟨s3,-,h⟩:=bind_eq_some_iff.mp h
  simp only [Sched.task_modify,if_pos,hfd] at h
  split at h
  · cases h
    exact Cpu.safe_section hl fun _ hl1 _=>Cpu.safe_restore hl1
  obtain ⟨nxt,-,h⟩:=bind_eq_some_iff.mp h
  obtain ⟨⟨s5,ev5⟩,h5,h⟩:=bind_eq_some_iff.mp h
  cases h
  exact Cpu.safe_doSwitch hl h5

theorem safe_yield (hl : c.heapLock=false) (hq : Op.yield.Quiet m) (h : yield m.sched=some (s',ev)) : c.Safe ev:=by
  obtain ⟨⟨s1,ev1⟩,h1,h⟩:=bind_eq_some_iff.mp h
  obtain ⟨rfl,rfl⟩:=reapZombies_none hq h1
  obtain ⟨cur,-,h⟩:=bind_eq_some_iff.mp h
  obtain ⟨nxt,-,h⟩:=bind_eq_some_iff.mp h
  obtain ⟨⟨s2,ev2⟩,h2,h⟩:=bind_eq_some_iff.mp h
  cases h
  exact Cpu.safe_doSwitch hl h2

theorem safe_block (hl : c.heapLock=false) (h : blockCurrent s=some (s',ev)) : c.Safe ev:=by
  obtain ⟨cur,-,h⟩:=bind_eq_some_iff.mp h
  obtain ⟨nxt,-,h⟩:=bind_eq_some_iff.mp h
  obtain ⟨⟨s2,ev2⟩,h2,h⟩:=bind_eq_some_iff.mp h
  cases h
  exact Cpu.safe_doSwitch hl h2

theorem findZombie_path {tid z : ℕ} {prev a pr : Option ℕ} (h : findZombie s tid n prev a=some (pr,some z)) :
    ∃xs,Path s.next a (xs++[z]) (s.next z):=by
  induction n generalizing prev a with
  | zero=>cases h
  | succ n ih=>
    cases a with
    | none=>cases h
    | some y=>
      simp only [findZombie] at h
      split at h
      · cases h
        exact ⟨[],rfl,rfl⟩
      · obtain ⟨xs,hx⟩:=ih h
        exact ⟨y::xs,rfl,hx⟩

theorem safe_wait {res : WaitResult} (hl : c.heapLock=false) (hq : Op.wait.Quiet m)
    (h : wait m.sched=some (s',res,ev)) : c.Safe ev:=by
  obtain ⟨cur,hc,h⟩:=bind_eq_some_iff.mp h
  obtain ⟨⟨prev,z⟩,hf,h⟩:=bind_eq_some_iff.mp h
  cases z with
  | some z=>exact absurd (findZombie_parent hf) (hq cur hc z (findZombie_path hf))
  | none=>
    obtain ⟨living,-,h⟩:=bind_eq_some_iff.mp h
    split at h
    · cases h
      exact Cpu.safe_section hl fun _ hl1 _=>Cpu.safe_restore hl1
    obtain ⟨nxt,-,h⟩:=bind_eq_some_iff.mp h
    obtain ⟨⟨s2,ev2⟩,h2,h⟩:=bind_eq_some_iff.mp h
    cases h
    exact Cpu.safe_doSwitch hl h2

theorem safe_enqueue (hh : ∀e∈l,IsHeapCall e) (hl : c.heapLock=false)
    (hn : c.saved c.current=none) : c.Safe (l++[.irqSaveDisable,.irqRestore]):=
  Cpu.safe_heapCalls hh hl hn fun _ hl1 _=>Cpu.safe_section hl1 fun _ hl2 _=>Cpu.safe_restore hl2

theorem safe_allocations (hh : ∀e∈l,IsHeapCall e) (hl : c.heapLock=false)
    (hn : c.saved c.current=none) : c.Safe l:=by
  have:=Cpu.safe_heapCalls hh hl hn fun c1 hl1 hn1=>Cpu.safe_nil ⟨hl1,fun h=>absurd hn1 h⟩
  rwa [append_nil] at this

theorem safe_spawn {stack : Option ℕ} {stackSize quantum : ℕ} (hl : c.heapLock=false)
    (hn : c.saved c.current=none) : c.Safe (spawn task stack stackSize quantum s).2.2:=by
  cases task with
  | none=>exact safe_allocations (l:=[.kmalloc]) (by simp [IsHeapCall]) hl hn
  | some t=>
    cases stack with
    | none=>exact safe_allocations (l:=[.kmallocTask t,.kmalloc,.kfreeTask t]) (by simp [IsHeapCall]) hl hn
    | some st=>exact safe_enqueue (l:=[.kmallocTask t,.kmalloc]) (by simp [IsHeapCall]) hl hn

theorem safe_fork {space kstack scstack : Option ℕ} {fdt : Option FDTable} (hl : c.heapLock=false)
    (hn : c.saved c.current=none) : c.Safe (forkCurrent space task kstack scstack fdt s).2.2:=by
  unfold forkCurrent
  split
  · exact safe_allocations nofun hl hn
  split
  · exact safe_allocations nofun hl hn
  split
  · exact safe_allocations nofun hl hn
  split
  · exact safe_allocations (by simp [IsHeapCall]) hl hn
  split
  · split
    · exact safe_allocations (by simp [IsHeapCall]) hl hn
    · exact safe_enqueue (l:=[_,.kmalloc,.kmalloc]) (by simp [IsHeapCall]) hl hn
  refine safe_allocations (fun e he=>?_) hl hn
  simp only [mem_append,mem_cons,mem_toList,map_eq_some_iff,not_mem_nil,or_false] at he
  rcases he with (((rfl | rfl | rfl) | ⟨_,-,rfl⟩) | ⟨_,-,rfl⟩) | rfl <;> rfl

theorem safe_tick (hc : c.heapLock=false) (hi : c.interrupts=false) (hq : Op.tick.Quiet m)
    (h : tick m.sched=some (s',ev)) : c.Safe ev:=by
  simp only [tick,bind_eq_bind] at h
  obtain ⟨⟨s1,ev1⟩,h1,h⟩:=bind_eq_some_iff.mp h
  obtain ⟨rfl,rfl⟩:=reapZombies_none hq h1
  have hsafe : c.Safe []:=Cpu.safe_nil ⟨hc,fun _=>hi⟩
  split at h
  · cases h
    exact hsafe
  rename_i cur hcur
  generalize (if 0<(m.sched.task cur).timeslice then
    m.sched.modify cur (fun t=>{t with timeslice:=t.timeslice-1}) else m.sched)=s1 at h
  split at h
  · obtain ⟨nxt,-,h⟩:=bind_eq_some_iff.mp h
    obtain ⟨⟨s2,ev2⟩,h2,h⟩:=bind_eq_some_iff.mp h
    cases h
    rcases doSwitch_events h2 with rfl | ⟨prev,rfl⟩
    · exact hsafe
    · exact Cpu.safe_switch hc hi
  · cases h
    exact hsafe

theorem safe_wake {t : Option ℕ} (hc : c.heapLock=false) (hi : c.interrupts=false)
    (h : wake t s=some (s',ev)) : c.Safe ev:=by
  have hsafe : c.Safe []:=Cpu.safe_nil ⟨hc,fun _=>hi⟩
  unfold wake at h
  split at h
  · cases h
    exact hsafe
  split at h
  · cases h
    exact hsafe
  dsimp only at h
  split at h
  · rcases doSwitch_events h with rfl | ⟨prev,rfl⟩
    · exact hsafe
    · exact Cpu.safe_switch hc hi
  · cases h
    exact hsafe

theorem Op.safe (hm : m.cpu.Closed) (hq : op.Quiet m) (he : op.enter m.cpu=some c)
    (hp : op.perform m.sched=some (s',ev)) : c.Safe ev:=by
  -- the calls start outside a section
  have hcall (h : (if (m.cpu.saved m.cpu.current).isSome then none else some m.cpu)=some c) :
      c.heapLock=false ∧ c.saved c.current=none:=by
    split at h
    · cases h
    rename_i hn
    cases h
    exact ⟨hm.lock,by simpa using hn⟩
  cases op with
  | exit code=>exact safe_exit (hcall he).1 hq hp
  | yield=>exact safe_yield (hcall he).1 hq hp
  | wait=>
    obtain ⟨⟨s1,res,ev1⟩,hw,hr⟩:=map_eq_some_iff.mp hp
    cases hr
    exact safe_wait (hcall he).1 hq hw
  | block=>exact safe_block (hcall he).1 hp
  | spawn task stack stackSize quantum=>
    cases hp
    exact safe_spawn (hcall he).1 (hcall he).2
  | spawnUser t new=>
    cases hp
    exact safe_enqueue (l:=[.kmallocTask t]) (by simp [IsHeapCall]) (hcall he).1 (hcall he).2
  | fork space task kstack scstack fdt=>
    cases hp
    exact safe_fork (hcall he).1 (hcall he).2
  | tick=>
    simp only [Op.enter] at he
    split at he
    · cases he
      exact safe_tick hm.lock rfl hq hp
    · cases he
  | wake t=>
    simp only [Op.enter] at he
    split at he
    · cases he
      exact safe_wake hm.lock rfl hp
    · cases he
  | restore=>
    simp only [Op.enter] at he
    split at he
    · cases he
      cases hp
      exact Cpu.safe_restore hm.lock
    · cases he
  | other flag=>
    simp only [Op.enter] at he
    split at he
    · cases he
    rename_i hn
    cases he
    cases hp
    exact Cpu.safe_nil ⟨hm.lock,fun h=>absurd (by simpa using hn) h⟩

theorem step_closed (hm : m.cpu.Closed) (hq : op.Quiet m) (hs : step m op=some (m',points)) :
    m'.cpu.Closed ∧ ∀b∈points,b=false:=by
  obtain ⟨c,he,hs⟩:=bind_eq_some_iff.mp hs
  obtain ⟨⟨s',ev⟩,hp,hs⟩:=bind_eq_some_iff.mp hs
  obtain ⟨⟨c',points⟩,hr,hs⟩:=bind_eq_some_iff.mp hs
  cases hs
  exact Op.safe hm hq he hp c' points hr

def advance (m : Machine) (op : Op) : Option Machine:=(step m op).map (·.1)

/-- In runs whose sections make no heap call the flag is clear at every point inside them. -/
theorem sections_stay_closed (h : Reach Booted advance (fun op m=>op.Quiet m) m) (hq : op.Quiet m)
    (hs : step m op=some (m',points)) : ∀b∈points,b=false:=by
  have hm : m.cpu.Closed:=by
    refine h.invariant (I:=fun m=>m.cpu.Closed) ?_ ?_
    · rintro m ⟨-,hl,hc,hn⟩
      exact ⟨hl,fun h=>absurd (hc▸hn) h⟩
    intro m m' op hm hq hs
    obtain ⟨⟨m₁,points⟩,hs₁,rfl⟩:=map_eq_some_iff.mp hs
    exact (step_closed hm hq hs₁).1
  exact (step_closed hm hq hs).2

def bootedMachine : Machine:=⟨init (fun _=>blankTask) 100,⟨true,false,idleTask,fun _=>none⟩⟩

theorem bootedMachine_booted : Booted bootedMachine:=⟨⟨_,_,rfl⟩,rfl,rfl,rfl⟩

def someTask : Task:={blankTask with fdTable:=some ⟨16,[]⟩,quantum:=2}

/-- A new task is entered by a tick and yields. -/
theorem sections_stay_closed_yield : ∃m m',Reach Booted advance (fun op m=>op.Quiet m) m ∧
    step m .yield=some (m',[false]) ∧ ∀b∈[false],b=false:=by
  have hrun : Reach Booted advance (fun op m=>op.Quiet m) bootedMachine:=.start bootedMachine_booted
  exact ⟨_,_,hrun,rfl,sections_stay_closed hrun (show Op.Quiet _ .yield from rfl) rfl⟩

/-- A task with a descriptor table exits: after the first `kfree` the flag is set, and it is
still set when the scheduler switches. -/
theorem exit_opens_section : ∃m m',Reach Booted advance (fun _ _=>True) m ∧
    step m (.exit 0)=some (m',[false,false,true]) ∧ m'.cpu.interrupts=true:=by
  have hrun : Reach Booted advance (fun _ _=>True) bootedMachine:=.start bootedMachine_booted
  have hrun:=hrun.step (.spawnUser 8 someTask) trivial rfl |>.step .tick trivial rfl |>.step (.other true) trivial rfl
  exact ⟨_,_,hrun,rfl,rfl⟩

end Knail.CriticalSections
