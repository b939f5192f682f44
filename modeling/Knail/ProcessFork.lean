import Knail.ProcessSpawn

/-!
# Copying a process

`fork_current` copies the lower half of the current task's address space page by page into a new
space, and then makes a task with two stacks and a copy of the descriptor table. As in
`spawn_user`, what the allocator of the heap returns is an argument.
-/
namespace Knail.Spawn

open PageTables

def flagNx : ℕ:=0x8000000000000000

/-- A copy in the making: memory, and the frames of the pages that are mapped. -/
structure Copy where
  machine : Machine
  frames : List ℕ

def copyLoop (body : ℕ → Copy→Bool×Copy) : List ℕ → Copy→Bool×Copy
  | [], c=>(true,c)
  | i::rest, c=>
    match body i c with
    | (false,c)=>(false,c)
    | (true,c)=>copyLoop body rest c

def copyFrame (src dst : ℕ) (m : Machine) : Machine:=m.fill dst fun i=>if i<512 then m.mem src i else m.mem dst i

/-- A page of the copy gets a frame of its own with the bytes of the original. A frame that cannot
be mapped is given back. -/
def copyPage (dst va pte : ℕ) (c : Copy) : Bool×Copy:=
  match allocFrame c.machine with
  | (0,m)=>(false,⟨m,c.frames⟩)
  | (frame,m)=>
    match mapPage dst va frame (pte&&&(flagPresent|||flagWrite|||flagUser|||flagNx)) m with
    | (false,m)=>(false,⟨freeFrame frame m,c.frames⟩)
    | (true,m)=>(true,⟨copyFrame (entryBase pte) frame m,frame::c.frames⟩)

/-- The innermost loop of `clone_user_space`: the present user pages of a page table. -/
def copyPt (dst va pt : ℕ) : Copy→Bool×Copy:=
  copyLoop (fun i c=>
    let pte:=c.machine.mem pt i
    if pte&&&flagPresent=0 then (true,c)
    else if pte&&&flagUser=0 then (true,c)
    else copyPage dst (va|||i*2^12) pte c) (List.range 512)

/-- The loops above it: entries that are absent or huge are passed over. -/
def copyTables (sub : ℕ→ℕ → Copy→Bool×Copy) (n shift va t : ℕ) : Copy→Bool×Copy:=
  copyLoop (fun i c=>
    let e:=c.machine.mem t i
    if e&&&flagPresent=0 ∨ e&&&flagHuge≠0 then (true,c)
    else sub (va|||i*2^shift) (entryBase e) c) (List.range n)

def copyPd (dst : ℕ) : ℕ→ℕ → Copy→Bool×Copy:=copyTables (copyPt dst) 512 21
def copyPdpt (dst : ℕ) : ℕ→ℕ → Copy→Bool×Copy:=copyTables (copyPd dst) 512 30
def copyPml4 (dst : ℕ) : ℕ→ℕ → Copy→Bool×Copy:=copyTables (copyPdpt dst) 256 39

/-- `clone_user_space`: the PML4 of the copy, 0 if there is none, the frames that its pages got,
and memory. -/
def cloneUserSpace (kernel src : ℕ) (m : Machine) : ℕ×List ℕ×Machine:=
  match createUserSpace kernel m with
  | (0,_,m)=>(0,[],m)
  | (dst,_,m)=>
    if src=0 then (dst,[],m)
    else
      match copyPml4 dst 0 src ⟨m,[]⟩ with
      | (false,c)=>(0,c.frames,destroyUserSpace dst c.machine)
      | (true,c)=>(dst,c.frames,c.machine)

/-- The results of the allocations that `fork_current` makes, in their order, and the pages by
which the heap grew for the descriptors. -/
structure ForkAllocations where
  task : Kmalloc
  kstack : Kmalloc
  scstack : Kmalloc
  fdTable : Kmalloc
  files : List (Option ℕ)
  grown : List ℕ

namespace Kernel

def destroySpace (r : ℕ) (s : Kernel) : Kernel:=s.withMachine (destroyUserSpace r s.machine)

def kfreeSome (b : Option ℕ) (s : Kernel) : Kernel:=
  match b with
  | none=>s
  | some b=>s.kfree b

/-- `fdtable::clone` of the table of `p` for the task `t`. -/
def cloneTable (kernel p t : ℕ) (al : ForkAllocations) (s : Kernel) : Option ℕ×Kernel:=
  if (s.world.fdTable p).isNone then (none,s)
  else
    let s₁:=s.kmalloc kernel al.fdTable
    match al.fdTable.block with
    | none=>(none,s₁)
    | some fdt=>
      let s₂:={s₁.kmalloc kernel ⟨none,al.grown⟩ with world:=s.world.fork p t true al.files}
      match Descriptors.FDTable.clone (s.world.fdTable p) true al.files s.world.store with
      | (none,_)=>(none,s₂.kfree fdt)
      | (some _,_)=>(some fdt,s₂)

end Kernel

def finishFork (r p t kstack scstack fdt : ℕ) (s : Kernel) : Except KError ℕ×Kernel:=
  let child:=Scheduler.forkedTask (some r) kstack scstack (schedTable fdt (s.world.table t)) p t s.sched
  (.ok s.sched.nextTid,{s with sched:=(Scheduler.enqueueNew t child s.sched).1})

/-- The rest of `fork_current` once the address space is copied. Both stacks are asked for before
the results are looked at. -/
def forkTask (kernel r p : ℕ) (al : ForkAllocations) (s : Kernel) : Except KError ℕ×Kernel:=
  let s₁:=s.kmalloc kernel al.task
  match al.task.block with
  | none=>(.error .outOfMemory,s₁.destroySpace r)
  | some t=>
    let s₂:=(s₁.kmalloc kernel al.kstack).kmalloc kernel al.scstack
    match al.kstack.block, al.scstack.block with
    | some kstack, some scstack=>
      match s₂.cloneTable kernel p t al with
      | (none,s₃)=>(.error .outOfMemory,(((s₃.kfree scstack).kfree kstack).kfree t).destroySpace r)
      | (some fdt,s₃)=>finishFork r p t kstack scstack fdt s₃
    | kstack, scstack=>
      (.error .outOfMemory,(((s₂.kfreeSome kstack).kfreeSome scstack).kfree t).destroySpace r)

/-- The current task and its PML4, if it has a space of its own. -/
def Kernel.parent (s : Kernel) : Option (ℕ×ℕ):=
  s.sched.currentTask.bind fun p=>(s.sched.task p).pml4.map fun src=>(p,src)

def forkCurrent (kernel : ℕ) (al : ForkAllocations) (s : Kernel) : Except KError ℕ×Kernel:=
  match s.parent with
  | none=>(.error .invalidArgument,s)
  | some (p,src)=>
    match cloneUserSpace kernel src s.machine with
    | (0,_,m)=>(.error .outOfMemory,s.withMachine m)
    | (r,_,m)=>forkTask kernel r p al (s.withMachine m)

end Knail.Spawn
