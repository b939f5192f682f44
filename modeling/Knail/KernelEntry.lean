import Knail.SchedulerFrames
import Knail.Transitions

/-!
# Entering and leaving the kernel

The processor enters the kernel by `syscall_entry` and `irq_common` and leaves it by `sysret`, `iretq` and
`user_task_trampoline`. Between the two `switch_context` may go to another task, while the preemption count, the GS
registers and `[gs:8]` are one per processor. Interrupts may arrive between any two steps; what is pushed on a stack
is taken to be there when it is popped.
-/
namespace Knail.KernelEntry

open Scheduler

/-- The values that `syscall::init` gives to the two GS base registers. -/
inductive GsBase
  | zero
  | gsBlock
  deriving DecidableEq, Repr

/-- Two words in memory, used as `kernel_rsp` and `user_rsp`. -/
structure GsWords where
  kernelRsp : ℕ
  userRsp : ℕ
  deriving DecidableEq, Repr

/-- Where a task is, apart from interrupts taken in kernel mode. -/
inductive Place
  /-- The code of the idle task or of a task of `sched::spawn`. -/
  | kernelThread
  /-- At `user_task_trampoline`, over an `iretq` frame. -/
  | fresh
  | user
  /-- In `syscall_handler`, on the given stack. -/
  | handler (stack : ℕ)
  /-- Past `preempt_enable`. -/
  | leaving
  /-- Past the test of `yield_pending`. -/
  | returning
  /-- Past the `swapgs` of `syscall_exit_unwind`. -/
  | exiting
  /-- In `irq_common`, entered from user mode. -/
  | interrupted
  deriving DecidableEq, Repr

def Place.inHandler : Place→Bool
  | .handler _=>true
  | _=>false

/-- The user's stack pointer is the register in user mode and the saved value in an `iretq`
frame. The one at the last `syscall` instruction is not kept by the kernel. -/
structure Thread where
  place : Place
  nested : ℕ
  rsp : ℕ
  entryRsp : ℕ
  deriving DecidableEq, Repr

/-- `gs_block.kernel_rsp` is the word that the scheduler writes; `low` are the words that
`[gs:0]` and `[gs:8]` address through a GS base of zero. -/
structure Machine where
  sched : Sched
  thread : ℕ→Thread
  gsBase : GsBase
  kernelGsBase : GsBase
  userRsp : ℕ
  low : GsWords
  yieldPending : Bool
  lastUserRsp : ℕ

namespace Machine

def setThread (m : Machine) (p : ℕ) (th : Thread) : Machine:={m with thread:=Function.update m.thread p th}

def swapgs (m : Machine) : Machine:={m with gsBase:=m.kernelGsBase,kernelGsBase:=m.gsBase}

def loadKernelRsp (m : Machine) : ℕ:=
  match m.gsBase with
  | .gsBlock=>m.sched.kernelRsp
  | .zero=>m.low.kernelRsp

def loadUserRsp (m : Machine) : ℕ:=
  match m.gsBase with
  | .gsBlock=>m.userRsp
  | .zero=>m.low.userRsp

def storeUserRsp (m : Machine) (v : ℕ) : Machine:=
  match m.gsBase with
  | .gsBlock=>{m with userRsp:=v}
  | .zero=>{ m with low:={m.low with userRsp:=v} }

def call (m : Machine) (f : Sched→Option (Sched×List Event)) : Option Machine:=
  (f m.sched).map fun r=>{m with sched:=r.1}

/-- `syscall_entry` up to the call of `syscall_handler`. -/
def syscallEntry (m : Machine) (cur : ℕ) : Machine:=
  let m:=m.swapgs.storeUserRsp (m.thread cur).rsp
  { m.setThread cur {m.thread cur with place:=.handler m.loadKernelRsp,entryRsp:=(m.thread cur).rsp} with
    lastUserRsp:=m.loadUserRsp,sched:=preemptDisable m.sched }

/-- `irq_common` up to the call of `irq_dispatch`. -/
def irqEntry (m : Machine) (cur : ℕ) : Machine:=
  if (m.thread cur).place = .user then
    m.swapgs.setThread cur {m.thread cur with place:=.interrupted}
  else
    m.setThread cur {m.thread cur with nested:=(m.thread cur).nested+1}

/-- `handle_exit` and `syscall_exit_unwind`. -/
def exitUnwind (m : Machine) (cur : ℕ) : Machine:=
  { m.setThread cur {m.thread cur with place:=.exiting} with sched:=preemptEnable m.sched }.swapgs

def leave (m : Machine) (cur : ℕ) : Machine:=
  { m.setThread cur {m.thread cur with place:=.leaving} with sched:=preemptEnable m.sched }

/-- The end of `syscall_entry`, from `.no_yield` on. -/
def sysret (m : Machine) (cur : ℕ) : Machine:=
  (m.setThread cur {m.thread cur with place:=.user,rsp:=m.loadUserRsp}).swapgs

end Machine

/-- The interrupt handlers that call the scheduler: the timer, and the keyboard with the task
that waits for a key. -/
inductive Handler
  | timer
  | keyboard (waiting : Option ℕ)
  | other
  deriving DecidableEq, Repr

def Handler.waiting : Handler→Option ℕ
  | .keyboard t=>t
  | _=>none

def irqDispatch : Handler→Sched→Option (Sched×List Event)
  | .timer, s=>tick s
  | .keyboard t, s=>wake t s
  | .other, s=>some (s,[])

inductive Op
  /-- User code moves its stack pointer. -/
  | run (rsp : ℕ)
  | syscall
  | irq (h : Handler)
  /-- The innermost of trampoline, interrupt and system call returns. -/
  | ret
  | block
  | wait
  | yield
  | exit (code : ℤ)
  /-- The handler returns and `preempt_enable` is called. -/
  | leave
  | checkYield
  | spawn (task stack : Option ℕ) (stackSize quantum : ℕ)
  | spawnUser (t : ℕ) (new : Task) (rsp : ℕ)
  | fork (space task kstack scstack : Option ℕ) (fdt : Option FDTable)
  deriving DecidableEq

/-- A system call handler or a kernel thread, not interrupted. -/
def Thread.calls (th : Thread) : Bool:=th.nested=0 && (th.place.inHandler || th.place = .kernelThread)

def Thread.handles (th : Thread) : Bool:=th.nested=0 && th.place.inHandler

def stepAs (m : Machine) (cur : ℕ) (op : Op) : Option Machine:=
  let th:=m.thread cur
  match op with
  | .run rsp=>if th.place = .user then some (m.setThread cur {th with rsp:=rsp}) else none
  | .syscall=>if th.place = .user then some (m.syscallEntry cur) else none
  | .irq h=>(m.irqEntry cur).call (irqDispatch h)
  | .ret=>
    if 0<th.nested then some (m.setThread cur {th with nested:=th.nested-1})
    else match th.place with
      | .fresh=>some (m.setThread cur {th with place:=.user})
      | .interrupted=>some (m.setThread cur {th with place:=.user}).swapgs
      | .returning=>some (m.sysret cur)
      | _=>none
  | .block=>if th.calls then m.call blockCurrent else none
  | .wait=>if th.calls then m.call fun s=>(wait s).map fun r=>(r.1,r.2.2) else none
  | .yield=>
    if th.handles then some {m with yieldPending:=true}
    else if th.calls then m.call yield
    else none
  | .exit code=>
    if th.handles then (m.exitUnwind cur).call (exit code)
    else if th.calls then m.call (exit code)
    else none
  | .leave=>if th.handles then some (m.leave cur) else none
  | .checkYield=>
    if th.nested=0 ∧ th.place = .leaving then
      let m:=m.setThread cur {th with place:=.returning}
      if m.yieldPending then Machine.call {m with yieldPending:=false} yield else some m
    else none
  | .spawn task stack stackSize quantum=>
    if th.calls then
      match task, stack with
      | some t, some _=>some { m.setThread t ⟨.kernelThread,0,0,0⟩ with
          sched:=(spawn task stack stackSize quantum m.sched).1 }
      | _, _=>some {m with sched:=(spawn task stack stackSize quantum m.sched).1}
    else none
  | .spawnUser t new rsp=>
    if th.calls then
      some { m.setThread t ⟨.fresh,0,rsp,0⟩ with
        sched:=(enqueueNew t {new with tid:=m.sched.nextTid,state:=.ready} m.sched).1 }
    else none
  | .fork space task kstack scstack fdt=>
    if th.handles then
      match task, forkCurrent space task kstack scstack fdt m.sched with
      | some t, (s,.ok _,_)=>some {m.setThread t ⟨.fresh,0,m.lastUserRsp,0⟩ with sched:=s}
      | _, (s,_,_)=>some {m with sched:=s}
    else none

def step (m : Machine) (op : Op) : Option Machine:=m.sched.currentTask.bind fun cur=>stepAs m cur op

/-- The state after `sched::init` and `syscall::init`. -/
def Booted (m : Machine) : Prop:=
  (∃garbage idleStack,m.sched=init garbage idleStack) ∧ m.thread idleTask=⟨.kernelThread,0,0,0⟩ ∧
    m.gsBase = .zero ∧ m.kernelGsBase = .gsBlock ∧ m.yieldPending=false

/-- The heap returns objects that are not in use, the idle task neither blocks nor exits, and
the keyboard wakes tasks that are not dead. -/
def Op.Valid (m : Machine) : Op→Prop
  | .block | .exit _=>m.sched.currentTask≠some idleTask
  | .wait=>m.sched.currentTask=some idleTask→∀r∈Scheduler.wait m.sched,r.2.1≠.blocked
  | .irq h=>∀p∈h.waiting,m.sched.Live p
  | .spawn task _ _ _ | .fork _ task _ _ _=>∀t∈task,¬m.sched.IsTask t
  | .spawnUser t _ _=>¬m.sched.IsTask t
  | _=>True

instance (m : Machine) (op : Op) : Decidable (op.Valid m):=
  match op with
  | .block | .exit _=>inferInstanceAs (Decidable (m.sched.currentTask≠_))
  | .wait=>inferInstanceAs (Decidable (_→∀r∈Scheduler.wait m.sched,_))
  | .irq h=>inferInstanceAs (Decidable (∀p∈h.waiting,m.sched.Live p))
  | .spawn task _ _ _ | .fork _ task _ _ _=>inferInstanceAs (Decidable (∀t∈task,¬m.sched.IsTask t))
  | .spawnUser t _ _=>inferInstanceAs (Decidable (¬m.sched.IsTask t))
  | .run _ | .syscall | .ret | .yield | .leave | .checkYield=>inferInstanceAs (Decidable True)

def InUser (m : Machine) : Prop:=∃cur,m.sched.currentTask=some cur ∧ (m.thread cur).place = .user

variable {m m' : Machine} {op : Op} {s' : Sched} {ev : List Event} {cur : ℕ} {s : Sched} {t : ℕ} {th : Thread}

@[simp] theorem Machine.thread_setThread (m : Machine) (p : ℕ) (th : Thread) (q : ℕ) :
    (m.setThread p th).thread q=if q=p then th else m.thread q:=Function.update_apply ..

@[simp] theorem Machine.sched_setThread (m : Machine) (p : ℕ) (th : Thread) : (m.setThread p th).sched=m.sched:=rfl

@[simp] theorem Machine.sched_swapgs (m : Machine) : m.swapgs.sched=m.sched:=rfl

@[simp] theorem Machine.thread_swapgs (m : Machine) : m.swapgs.thread=m.thread:=rfl

theorem Machine.sched_storeUserRsp (m : Machine) (v : ℕ) : (m.storeUserRsp v).sched=m.sched:=by
  unfold Machine.storeUserRsp
  split <;> rfl

theorem Machine.thread_storeUserRsp (m : Machine) (v : ℕ) : (m.storeUserRsp v).thread=m.thread:=by
  unfold Machine.storeUserRsp
  split <;> rfl

theorem Machine.syscallEntry_sched (m : Machine) (cur : ℕ) : (m.syscallEntry cur).sched=preemptDisable m.sched:=
  congrArg preemptDisable (m.swapgs.sched_storeUserRsp _)

theorem Machine.syscallEntry_thread (m : Machine) (cur : ℕ) :
    ∃th,th.place.inHandler ∧ th.entryRsp=(m.thread cur).rsp ∧
    ∀p,(m.syscallEntry cur).thread p=if p=cur then th else m.thread p:=by
  have ht:=m.swapgs.thread_storeUserRsp (m.thread cur).rsp
  refine ⟨(m.syscallEntry cur).thread cur,?_,?_,fun p=>?_⟩
  · simp [Machine.syscallEntry,Place.inHandler]
  · simp [Machine.syscallEntry,ht]
  by_cases hp : p=cur
  · simp [hp]
  · simp [Machine.syscallEntry,ht,hp]

theorem Machine.irqEntry_sched (m : Machine) (cur : ℕ) : (m.irqEntry cur).sched=m.sched:=by
  unfold Machine.irqEntry
  split <;> rfl

theorem Machine.call_eq_some {f : Sched→Option (Sched×List Event)} (h : m.call f=some m') :
    ∃s' ev,f m.sched=some (s',ev) ∧ m'={m with sched:=s'}:=by
  obtain ⟨⟨s',ev⟩,hf,rfl⟩:=Option.map_eq_some_iff.mp h
  exact ⟨s',ev,hf,rfl⟩

theorem invariant_preempt {n : ℕ} (h : ∃ring zombies cur,Invariant s ring zombies cur) :
    ∃ring zombies cur,Invariant {s with preemptCount:=n} ring zombies cur:=by
  obtain ⟨ring,zombies,cur,h⟩:=h
  exact ⟨ring,zombies,cur,h.congr ⟨rfl,rfl,rfl,rfl,fun _=>.rfl⟩ rfl fun _=>rfl⟩

theorem irqDispatch_rescheduled {h : Handler} (hinv : ∃ring zombies cur,Invariant m.sched ring zombies cur)
    (hv : (Op.irq h).Valid m) (hs : irqDispatch h m.sched=some (s',ev)) :
    Rescheduled m.sched s' ∧ (m.sched.preemptCount≠0→m.sched.currentTask≠some idleTask →
    s'.currentTask=m.sched.currentTask):=by
  obtain ⟨ring,zombies,cur,hinv⟩:=hinv
  cases h with
  | timer=>exact ⟨hinv.tick_rescheduled hs,fun hc _=>hinv.tick_current hs hc⟩
  | keyboard t=>exact ⟨hinv.wake_rescheduled hv hs,fun _ hc=>wake_current hs hc⟩
  | other=>
    cases hs
    exact ⟨⟨fun _=>.rfl,rfl,_,_,_,hinv⟩,fun _ _=>rfl⟩

/-- A new task in the ring, as `spawn`, `spawn_user` and `fork_current` leave it. -/
structure Joined (s s' : Sched) (t : ℕ) : Prop where
  live : ∀p,s'.Live p↔s.Live p ∨ p=t
  preemptCount : s'.preemptCount=s.preemptCount
  currentTask : s'.currentTask=s.currentTask
  invariant : ∃ring zombies cur,Invariant s' ring zombies cur

theorem joined_enqueueNew (new : Task) (hinv : ∃ring zombies cur,Invariant s ring zombies cur)
    (ht : ¬s.IsTask t) (hnew : new.state = .ready) : Joined s (enqueueNew t new s).1 t:=by
  obtain ⟨ring,zombies,cur,hinv⟩:=hinv
  obtain ⟨hlive,hcount,hcur,hinv'⟩:=hinv.enqueueNew_live ht hnew
  exact ⟨hlive,hcount,hcur,hinv'⟩

theorem joined_spawn {st stackSize quantum : ℕ} (hinv : ∃ring zombies cur,Invariant s ring zombies cur)
    (ht : ¬s.IsTask t) : Joined s (spawn (some t) (some st) stackSize quantum s).1 t:=
  joined_enqueueNew { s.task t with
    stack:=some st,stackSize:=stackSize,syscallStack:=none,fdTable:=none,state:=.ready,
    tid:=s.nextTid,quantum:=quantum,timeslice:=quantum,next:=none,pml4:=none } hinv ht rfl

theorem Thread.inHandler_of_handles (h : th.handles) : th.place.inHandler:=by
  simp only [Thread.handles,Bool.and_eq_true] at h
  exact h.2

theorem Thread.kernelThread_of_calls (h : th.calls) (hn : ¬th.handles) : th.place = .kernelThread:=by
  simp only [Thread.calls,Bool.and_eq_true,Bool.or_eq_true,decide_eq_true_eq] at h
  refine h.2.resolve_left fun hin=>hn ?_
  simp [Thread.handles,h.1,hin]

theorem step_eq_some (h : step m op=some m') :
    ∃cur,m.sched.currentTask=some cur ∧ stepAs m cur op=some m':=Option.bind_eq_some_iff.mp h

theorem stepAs_fork {space task kstack scstack : Option ℕ} {fdt : Option FDTable}
    (hinv : ∃ring zombies cur,Invariant m.sched ring zombies cur)
    (hv : (Op.fork space task kstack scstack fdt).Valid m)
    (h : stepAs m cur (.fork space task kstack scstack fdt)=some m') :
    (m.thread cur).handles ∧ (m'=m ∨ ∃t,task=some t ∧ Joined m.sched m'.sched t ∧
    ∃s',m'={m.setThread t ⟨.fresh,0,m.lastUserRsp,0⟩ with sched:=s'}):=by
  simp only [stepAs] at h
  split at h
  · rename_i hh
    refine ⟨hh,?_⟩
    rcases forkCurrent_cases space task kstack scstack fdt m.sched with
      ⟨e,ev,hf,-⟩ | ⟨p,t,new,ev,-,rfl,hf,-,hnew,-,-⟩
    · rw [hf] at h
      left
      cases task <;> cases h <;> rfl
    rw [hf] at h
    cases h
    exact .inr ⟨t,rfl,joined_enqueueNew _ hinv (hv t rfl) hnew,_,rfl⟩
  · cases h

def bootedMachine : Machine where
  sched:=init (fun _=>blankTask) 100
  thread:=fun _=>⟨.kernelThread,0,0,0⟩
  gsBase:=.zero
  kernelGsBase:=.gsBlock
  userRsp:=0
  low:=⟨0,0⟩
  yieldPending:=false
  lastUserRsp:=0

theorem bootedMachine_booted : Booted bootedMachine:=⟨⟨_,_,rfl⟩,rfl,rfl,rfl,rfl⟩

def userTask (stack : ℕ) : Task:=
  { blankTask with
    stack:=some stack,stackSize:=defaultStack,syscallStack:=some (stack+defaultStack),quantum:=1,
    timeslice:=1,pml4:=some 4096 }

end Knail.KernelEntry
