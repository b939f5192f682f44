import Knail.KernelTypes
import Knail.LinkedPaths

/-!
# The round-robin scheduler

One `next` field threads the circular run queue and, after a task's death, the list of zombies. Every operation
reports, in program order, the calls that matter outside the scheduler; nothing is reported past a `switch_context`.
The result `none` is a dereferenced null pointer or a loop that does not end.
-/
namespace Knail.Scheduler

inductive State
  | ready | running | blocked | dead
  deriving DecidableEq, Repr

/-- An open slot of a descriptor table. The buffer is freed with the file when closing
it drops the last reference to a pipe. -/
structure OpenFile where
  file : ℕ
  pipeBuffer : Option ℕ
  deriving DecidableEq, Repr

structure FDTable where
  addr : ℕ
  fds : List (Option OpenFile)
  deriving DecidableEq, Repr

structure Task where
  stack : Option ℕ
  stackSize : ℕ
  syscallStack : Option ℕ
  state : State
  tid : ℕ
  parentTid : ℕ
  exitCode : ℤ
  timeslice : ℕ
  quantum : ℕ
  next : Option ℕ
  pml4 : Option ℕ
  fdTable : Option FDTable
  deriving DecidableEq, Repr

inductive Event
  | irqSaveDisable
  | irqRestore
  | kmalloc
  | kmallocTask (task : ℕ)
  | kfree (buffer : ℕ)
  | kfreeTask (task : ℕ)
  | switchContext (prev next : ℕ)
  deriving DecidableEq, Repr

def idleTask : ℕ:=0

def defaultStack : ℕ:=16*1024

/-- Scheduler globals, the Task objects allocated on the heap, and the per-CPU words
that `do_switch` writes: `tss.rsp0`, `gs_block.kernel_rsp` and the page table root
(`none` for the kernel's own space). -/
structure Sched where
  task : ℕ→Task
  heap : List ℕ
  runQueue : Option ℕ
  currentTask : Option ℕ
  zombieList : Option ℕ
  nextTid : ℕ
  preemptCount : ℕ
  rsp0 : ℕ
  kernelRsp : ℕ
  cr3 : Option ℕ

namespace Sched

def next (s : Sched) (p : ℕ) : Option ℕ:=(s.task p).next

def modify (s : Sched) (p : ℕ) (f : Task→Task) : Sched:=
  {s with task:=Function.update s.task p (f (s.task p))}

def fuel (s : Sched) : ℕ:=s.heap.length+2

def runnable (s : Sched) (p : ℕ) : Bool:=
  (s.task p).state == .ready || (s.task p).state == .running

/-- The pointer designates a Task object: the static one or a live heap one. -/
def IsTask (s : Sched) (p : ℕ) : Prop:=p=idleTask ∨ p∈s.heap

instance (s : Sched) (p : ℕ) : Decidable (s.IsTask p):=inferInstanceAs (Decidable (_ ∨ _))

end Sched

def Task.stackTop (t : Task) : ℕ:=t.stack.getD 0+t.stackSize

/-- The stack that `syscall_entry` switches to while this task is current. -/
def Task.syscallTop (t : Task) : ℕ:=
  match t.syscallStack with
  | some p=>p+defaultStack
  | none=>t.stackTop

/-- The heap calls that release a dead task: its stacks, then the object. -/
def releaseEvents (p : ℕ) (t : Task) : List Event:=
  (t.stack.map Event.kfree).toList++(t.syscallStack.map Event.kfree).toList++[.kfreeTask p]

def reapZombies : ℕ→Sched→Option (Sched×List Event)
  | 0, _=>none
  | n+1, s=>match s.zombieList with
    | none=>some (s,[])
    | some dead=>do
      let (s',ev) ← reapZombies n {s with zombieList:=s.next dead,heap:=s.heap.erase dead}
      return (s',releaseEvents dead (s.task dead)++ev)

def enqueue (t : ℕ) (s : Sched) : Sched:=
  match s.runQueue with
  | none=>{ s.modify t ({· with next:=some t}) with runQueue:=some t }
  | some r=>(s.modify t ({· with next:=s.next r})).modify r ({· with next:=some t})

def unlinkTask (victim : ℕ) (s : Sched) : Option Sched:=
  match s.runQueue with
  | none=>some s
  | some r=>do
    let prev ← (←walk s.next (fun p=>s.next p == some victim || s.next p == some r) s.fuel (some r))
    if s.next prev≠some victim then return s
    if s.next victim=some victim then
      return { s.modify victim ({· with next:=none}) with runQueue:=none }
    let s':=s.modify prev ({· with next:=s.next victim})
    return { s'.modify victim ({· with next:=none}) with
      runQueue:=some (if r=victim then prev else r) }

/-- The state after `sched::init`: the idle task alone in the ring. -/
def init (garbage : ℕ→Task) (idleStack : ℕ) : Sched where
  task:=Function.update garbage idleTask
    { stack:=some idleStack,stackSize:=4096,syscallStack:=none,state:=.running,tid:=0,
      parentTid:=0,exitCode:=0,timeslice:=1,quantum:=1,next:=some idleTask,
      pml4:=none,fdTable:=none }
  heap:=[]
  runQueue:=some idleTask
  currentTask:=some idleTask
  zombieList:=none
  nextTid:=1
  preemptCount:=0
  rsp0:=0
  kernelRsp:=0
  cr3:=none

/-- `alloc_task` and the stack allocation return the given pointers; fields that `spawn`
does not set keep what the heap left in the object. -/
def spawn (task stack : Option ℕ) (stackSize quantum : ℕ) (s : Sched) :
    Sched×Except KError ℕ×List Event:=
  match task with
  | none=>(s,.error .outOfMemory,[.kmalloc])
  | some t=>match stack with
    | none=>(s,.error .outOfMemory,[.kmallocTask t,.kmalloc,.kfreeTask t])
    | some st=>
      let s':={s with heap:=t::s.heap,nextTid:=u32 (s.nextTid+1)}
      let s':=s'.modify t fun _=>{ s.task t with
        stack:=some st,stackSize:=stackSize,syscallStack:=none,fdTable:=none,
        state:=.ready,tid:=s.nextTid,quantum:=quantum,timeslice:=quantum,
        next:=none,pml4:=none }
      (enqueue t s',.ok s.nextTid,[.kmallocTask t,.kmalloc,.irqSaveDisable,.irqRestore])

/-- The tail of `spawn_user` and `fork_current`: a filled-in task enters the ring. -/
def enqueueNew (t : ℕ) (new : Task) (s : Sched) : Sched×List Event:=
  (enqueue t ({s with heap:=t::s.heap,nextTid:=u32 (s.nextTid+1)}.modify t fun _=>new),
    [.kmallocTask t,.irqSaveDisable,.irqRestore])

/-- The child as `fork_current` fills it in. The fields `parent_tid` and `exit_code` keep what
the heap left in the object. -/
def forkedTask (space : Option ℕ) (k sc : ℕ) (f : FDTable) (p t : ℕ) (s : Sched) : Task:=
  { s.task t with
    stack:=some k,stackSize:=defaultStack,syscallStack:=some sc,fdTable:=some f,state:=.ready,
    tid:=s.nextTid,quantum:=(s.task p).quantum,timeslice:=(s.task p).quantum,next:=none,pml4:=space }

/-- `fork_current`, given what `clone_user_space`, the three allocations and `fdtable::clone`
return. -/
def forkCurrent (space task kstack scstack : Option ℕ) (fdt : Option FDTable) (s : Sched) :
    Sched×Except KError ℕ×List Event:=
  match s.currentTask with
  | none=>(s,.error .invalidArgument,[])
  | some p=>
    if (s.task p).pml4=none then (s,.error .invalidArgument,[])
    else if space=none then (s,.error .outOfMemory,[])
    else match task with
      | none=>(s,.error .outOfMemory,[.kmalloc])
      | some t=>match kstack, scstack with
        | some k, some sc=>match fdt with
          | none=>(s,.error .outOfMemory,[.kmallocTask t,.kmalloc,.kmalloc,.kfree sc,.kfree k,.kfreeTask t])
          | some f=>
            ((enqueueNew t (forkedTask space k sc f p t s) s).1,.ok s.nextTid,
              [.kmallocTask t,.kmalloc,.kmalloc,.irqSaveDisable,.irqRestore])
        | k, sc=>(s,.error .outOfMemory,[.kmallocTask t,.kmalloc,.kmalloc]++(k.map Event.kfree).toList ++
            (sc.map Event.kfree).toList++[.kfreeTask t])

def preemptDisable (s : Sched) : Sched:={s with preemptCount:=s.preemptCount+1}

def preemptEnable (s : Sched) : Sched:={s with preemptCount:=s.preemptCount-1}

/-- The do-while search of the ring. The start itself is examined only when it is alone. -/
def pickNext (s : Sched) : Option ℕ:=do
  let start ← s.runQueue
  let t ← (←walk s.next (fun t=>s.runnable t || s.next t == some start) s.fuel (s.next start))
  return if s.runnable t then t else idleTask

def doSwitch (next : ℕ) (s : Sched) : Option (Sched×List Event):=do
  let prev ← s.currentTask
  if next=prev then return (s,[])
  let s:=if (s.task prev).state = .running then s.modify prev ({· with state:=.ready}) else s
  let s:=s.modify next (fun t=>{t with state:=.running,timeslice:=t.quantum})
  let t:=s.task next
  return ({ s with runQueue:=some next,currentTask:=some next,rsp0:=t.stackTop,
                   kernelRsp:=t.syscallTop,cr3:=t.pml4 },[.switchContext prev next])

/-- A bracketed section that did not leave through a switch ends with `irq_restore`. -/
def restoreUnlessSwitched (ev : List Event) : List Event:=
  if ev=[] then [.irqRestore] else ev

def tick (s : Sched) : Option (Sched×List Event):=do
  let (s,ev) ← reapZombies s.fuel s
  match s.currentTask with
  | none=>return (s,ev)
  | some cur=>
    let s:=if 0<(s.task cur).timeslice then
      s.modify cur (fun t=>{t with timeslice:=t.timeslice-1}) else s
    if (s.task cur).timeslice=0 ∧ s.preemptCount=0 then
      let (s,ev') ← doSwitch (←pickNext s) s
      return (s,ev++ev')
    else return (s,ev)

def yield (s : Sched) : Option (Sched×List Event):=do
  let (s,ev) ← reapZombies s.fuel s
  let cur ← s.currentTask
  let s:=s.modify cur ({· with timeslice:=0})
  let (s,ev') ← doSwitch (←pickNext s) s
  return (s,[.irqSaveDisable]++ev++restoreUnlessSwitched ev')

def closeEvents : Option OpenFile→List Event
  | none=>[]
  | some f=>(f.pipeBuffer.map Event.kfree).toList++[.kfree f.file]

/-- `fdtable::free`: close every open slot, then release the table. -/
def FDTable.freeEvents (t : FDTable) : List Event:=t.fds.flatMap closeEvents++[.kfree t.addr]

/-- One turn around the ring that hands the children of a dead task to init. -/
def reparent (tid start : ℕ) : ℕ→ℕ→Sched→Option Sched
  | 0, _, _=>none
  | n+1, t, s=>
    let s:=if (s.task t).parentTid=tid then s.modify t ({· with parentTid:=1}) else s
    match s.next t with
    | none=>none
    | some t'=>if t'=start then some s else reparent tid start n t' s

/-- One turn around the ring that makes the first blocked task with this tid ready. -/
def wakeParent (tid start : ℕ) (s : Sched) : Option Sched:=do
  let hit:=fun t=>(s.task t).tid == tid && (s.task t).state == .blocked
  let t ← (←walk s.next (fun t=>hit t || s.next t == some start) s.fuel (some start))
  return if hit t then s.modify t ({· with state:=.ready}) else s

def reparentChildren (tid : ℕ) (s : Sched) : Option Sched:=
  match s.runQueue with
  | none=>some s
  | some r=>reparent tid r s.fuel r s

def notifyParent (tid : ℕ) (s : Sched) : Option Sched:=
  match s.runQueue with
  | none=>some s
  | some r=>if tid=0 then some s else wakeParent tid r s

def exit (code : ℤ) (s : Sched) : Option (Sched×List Event):=do
  let dead ← s.currentTask
  let s:=s.modify dead ({· with exitCode:=code,state:=.dead})
  let ev:=match (s.task dead).fdTable with
    | none=>[]
    | some t=>t.freeEvents
  let s:=s.modify dead ({· with fdTable:=none})
  let s ← reparentChildren (s.task dead).tid s
  let s ← notifyParent (s.task dead).parentTid s
  let s ← unlinkTask dead s
  let s:={ s.modify dead ({· with next:=s.zombieList}) with zombieList:=some dead }
  match s.runQueue with
  | none=>return (s,[.irqSaveDisable]++ev++[.irqRestore])
  | some _=>
    let (s,ev') ← doSwitch (←pickNext s) s
    return (s,[.irqSaveDisable]++ev++restoreUnlessSwitched ev')

def blockCurrent (s : Sched) : Option (Sched×List Event):=do
  let cur ← s.currentTask
  let s:=s.modify cur ({· with state:=.blocked})
  let (s,ev) ← doSwitch (←pickNext s) s
  return (s,[.irqSaveDisable]++restoreUnlessSwitched ev)

def wake (t : Option ℕ) (s : Sched) : Option (Sched×List Event):=
  match t with
  | none=>some (s,[])
  | some t=>
    if (s.task t).state≠.blocked then some (s,[])
    else
      let s:=s.modify t ({· with state:=.ready})
      if s.currentTask=some idleTask then doSwitch t s else some (s,[])

inductive WaitResult
  | reaped (tid : ℕ) (code : ℤ)
  | notFound
  | blocked
  deriving DecidableEq, Repr

/-- The zombie loop of `wait`: the first zombie child, with the node before it. -/
def findZombie (s : Sched) (tid : ℕ) : ℕ→Option ℕ→Option ℕ→Option (Option ℕ×Option ℕ)
  | 0, _, _=>none
  | _+1, prev, none=>some (prev,none)
  | n+1, prev, some z=>
    if (s.task z).parentTid=tid then some (prev,some z)
    else findZombie s tid n (some z) (s.next z)

/-- The ring loop of `wait`: whether some task in the ring has this parent. -/
def livingChild (tid : ℕ) (s : Sched) : Option Bool:=
  match s.runQueue with
  | none=>some false
  | some r=>do
    let child:=fun t=>(s.task t).parentTid == tid
    let t ← (←walk s.next (fun t=>child t || s.next t == some r) s.fuel (some r))
    return child t

/-- One pass of the loop in `wait`. A blocked caller runs the next pass when it is
resumed. Any zombie at all, a child or not, counts as a child. -/
def wait (s : Sched) : Option (Sched×WaitResult×List Event):=do
  let cur ← s.currentTask
  let tid:=(s.task cur).tid
  match ← findZombie s tid s.fuel none s.zombieList with
  | (prev,some z)=>
    let t:=s.task z
    let s:=match prev with
      | some p=>s.modify p ({· with next:=t.next})
      | none=>{s with zombieList:=t.next}
    return ({s with heap:=s.heap.erase z},.reaped t.tid t.exitCode,
      [.irqSaveDisable]++releaseEvents z t++[.irqRestore])
  | (_,none)=>
    let living ← livingChild tid s
    if s.zombieList=none ∧ living=false then
      return (s,.notFound,[.irqSaveDisable,.irqRestore])
    else
      let s:=s.modify cur ({· with state:=.blocked})
      let (s,ev) ← doSwitch (←pickNext s) s
      return (s,.blocked,[.irqSaveDisable]++restoreUnlessSwitched ev)

end Knail.Scheduler
