import Knail.Descriptors
import Knail.ElfImages
import Knail.Scheduler
import Knail.UpperHalf
import Knail.UserStacks

/-!
# Starting a process

`spawn_elf` makes an address space, maps the pages of the segments, copies the segments and hands over to
`spawn_user`, which maps and fills the stack and makes the task. A store to an address without a page is a fault, and
there is no result after one.
-/
namespace Knail.Spawn

open PageTables Elf

def userRw : ℕ:=flagPresent|||flagWrite|||flagUser

/-- A page gets a frame of its own. The frame stays taken if it cannot be mapped. -/
def mapFrame (r va : ℕ) (m : Machine) : Bool×Machine:=
  match allocFrame m with
  | (0,m)=>(false,m)
  | (frame,m)=>mapPage r va frame userRw m

/-- The loops that map pages one after the other, up to the first failure. -/
def mapPages (r : ℕ) : List ℕ→Machine→Bool×Machine
  | [], m=>(true,m)
  | va::rest, m=>
    match mapFrame r va m with
    | (false,m)=>(false,m)
    | (true,m)=>mapPages r rest m

/-- The pages that the loop for a segment visits. The end is computed in 64 bits. -/
def segmentPages (seg : Segment) : List ℕ:=
  let vstart:=seg.vaddr/4096*4096
  let vend:=u64 (seg.vaddr+seg.memsz+0xFFF)/4096*4096
  (List.range ((vend-vstart)/4096)).map (vstart + · * 4096)

def imagePages (image : Image) : List ℕ:=image.segments.flatMap segmentPages

/-- The stores of the copy loops: zeros for the whole segment, then the bytes of the file. -/
def segmentStores (mem : ℕ→UInt8) (seg : Segment) : List (ℕ×UInt8):=
  ((List.range seg.memsz).map fun j=>(u64 (seg.vaddr+j),0)) ++
    (List.range seg.filesz).map fun j=>(u64 (seg.vaddr+j),mem (u64 (seg.data+j)))

def imageStores (mem : ℕ→UInt8) (image : Image) : List (ℕ×UInt8):=image.segments.flatMap (segmentStores mem)

instance (v : ℕ) : Decidable (Canonical v):=inferInstanceAs (Decidable (_ ∨ _))

/-- The walk of the processor; the result is `none` for an address without a page. -/
def translate (r a : ℕ) (m : Machine) : Option ℕ:=
  if Canonical a then lookup (slots m) tableIdx pageAddr 3 r a else none

def setByte (w k : ℕ) (b : UInt8) : ℕ:=w-w/256^k%256*256^k+b.toNat*256^k

def storePhys (p : ℕ) (b : UInt8) (m : Machine) : Machine:=
  m.write (p/4096*4096) (p%4096/8) (setByte (m.mem (p/4096*4096) (p%4096/8)) (p%8) b)

/-- Stores through a space, up to the first fault, and the addresses that were written. -/
def runStores (r : ℕ) : List (ℕ×UInt8)→Machine→Bool×Machine×List ℕ
  | [], m=>(true,m,[])
  | (a,b)::rest, m=>
    match translate r a m with
    | none=>(false,m,[])
    | some p=>
      match runStores r rest (storePhys p b m) with
      | (ok,m,written)=>(ok,m,a::written)

def stackPages : List ℕ:=(List.range (userStackSize/4096)).map (userStackTop-userStackSize + · * 4096)

/-- A call of `kmalloc`: its result, and the pages by which the heap grew. -/
structure Kmalloc where
  block : Option ℕ
  grown : List ℕ

/-- The parts of the kernel that a new process needs: memory, the live blocks of the heap apart
from descriptors, the descriptors with their tables, and the scheduler. -/
structure Kernel where
  machine : Machine
  blocks : List ℕ
  world : Descriptors.World
  sched : Scheduler.Sched

namespace Kernel

def withMachine (s : Kernel) (m : Machine) : Kernel:={s with machine:=m}

def kmalloc (kernel : ℕ) (a : Kmalloc) (s : Kernel) : Kernel:=
  {s with machine:=a.grown.foldl (fun m v=>expandPage kernel v m) s.machine,blocks:=a.block.toList++s.blocks}

def kfree (b : ℕ) (s : Kernel) : Kernel:={s with blocks:=s.blocks.erase b}

end Kernel

structure Args where
  argv : Strings
  argc : ℕ
  envp : Strings
  envc : ℕ

/-- The results of the allocations that `spawn_user` makes, in their order, and the vnode of the
terminal. -/
structure Allocations where
  stackBuf : Kmalloc
  task : Kmalloc
  kstack : Kmalloc
  scstack : Kmalloc
  fdTable : Kmalloc
  files : Option ℕ×Option ℕ×Option ℕ
  /-- The pages by which the heap grew for the three descriptors. -/
  grown : List ℕ
  tty : Option ℕ

def schedTable (addr : ℕ) (tab : Descriptors.FDTable) : Scheduler.FDTable:=
  ⟨addr,(List.range Descriptors.maxFds).map fun i=>(tab.fds i).map fun f=>⟨f,none⟩⟩

/-- The end of `spawn_user`: every allocation has succeeded. -/
def finishTask (kernel r quantum t kstack scstack fdt : ℕ) (al : Allocations) (s : Kernel) : Except KError ℕ×Kernel:=
  let world:=s.world.spawn t al.tty al.files
  let new : Scheduler.Task:={ s.sched.task t with
    stack:=some kstack,stackSize:=Scheduler.defaultStack,syscallStack:=some scstack,
    fdTable:=some (schedTable fdt (world.table t)),state:=.ready,tid:=s.sched.nextTid,quantum:=quantum,
    timeslice:=quantum,next:=none,pml4:=some r }
  (.ok s.sched.nextTid,
    { machine:=al.grown.foldl (fun m v=>expandPage kernel v m) s.machine,blocks:=s.blocks,world:=world,
      sched:=(Scheduler.enqueueNew t new s.sched).1 })

/-- The task object, the two stacks and the table, each with the cleanup of the ones before it. -/
def makeTask (kernel r quantum : ℕ) (al : Allocations) (s : Kernel) : Except KError ℕ×Kernel:=
  let s₁:=s.kmalloc kernel al.task
  match al.task.block with
  | none=>(.error .outOfMemory,s₁)
  | some t=>
    let s₂:=s₁.kmalloc kernel al.kstack
    match al.kstack.block with
    | none=>(.error .outOfMemory,s₂.kfree t)
    | some kstack=>
      let s₃:=s₂.kmalloc kernel al.scstack
      match al.scstack.block with
      | none=>(.error .outOfMemory,(s₃.kfree kstack).kfree t)
      | some scstack=>
        let s₄:=s₃.kmalloc kernel al.fdTable
        match al.fdTable.block with
        | none=>(.error .outOfMemory,((s₄.kfree scstack).kfree kstack).kfree t)
        | some fdt=>finishTask kernel r quantum t kstack scstack fdt al s₄

/-- `spawn_user` once the stack is mapped; the result is `none` after a fault. -/
def startUser (kernel r entry quantum : ℕ) (args : Args) (al : Allocations) (s : Kernel) :
    Option (Except KError ℕ)×Kernel:=
  let s₁:=s.kmalloc kernel al.stackBuf
  match al.stackBuf.block with
  | none=>(some (.error .outOfMemory),s₁)
  | some buf=>
    let image:=buildStack (buf+stackBufSize) args.argv args.argc args.envp args.envc entry
    match runStores r image.stores (activate kernel r s₁.machine) with
    | (false,m,_)=>(none,s₁.withMachine m)
    | (true,m,_)=>
      match makeTask kernel r quantum al ((s₁.withMachine (activate kernel kernel m)).kfree buf) with
      | (res,s₂)=>(some res,s₂)

def spawnUser (kernel r entry quantum : ℕ) (args : Args) (al : Allocations) (s : Kernel) :
    Option (Except KError ℕ)×Kernel:=
  match mapPages r stackPages s.machine with
  | (false,m)=>(some (.error .outOfMemory),s.withMachine m)
  | (true,m)=>startUser kernel r entry quantum args al (s.withMachine m)

def defaultQuantum : ℕ:=10

/-- What `spawn_elf` leaves: a result unless there was a fault, the state, and the addresses that
the copy loops wrote. -/
structure Outcome where
  result : Option (Except KError ℕ)
  kernel : Kernel
  written : List ℕ

/-- `spawn_elf`, with the memory from which the bytes of the file are read. -/
def spawnElf (kernel : ℕ) (mem : ℕ→UInt8) (image : Image) (args : Args) (al : Allocations) (s : Kernel) : Outcome:=
  match createUserSpace kernel s.machine with
  | (0,_,m)=>⟨some (.error .outOfMemory),s.withMachine m,[]⟩
  | (r,_,m)=>
    match mapPages r (imagePages image) m with
    | (false,m)=>⟨some (.error .outOfMemory),s.withMachine (destroyUserSpace r m),[]⟩
    | (true,m)=>
      match runStores r (imageStores mem image) (activate kernel r m) with
      | (false,m,written)=>⟨none,s.withMachine m,written⟩
      | (true,m,written)=>
        match spawnUser kernel r image.entry defaultQuantum args al (s.withMachine (activate kernel kernel m)) with
        | (some (.error e),s')=>⟨some (.error e),s'.withMachine (destroyUserSpace r s'.machine),written⟩
        | (res,s')=>⟨res,s',written⟩

end Knail.Spawn
