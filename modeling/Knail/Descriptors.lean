import Knail.KernelHeap
import Knail.SlotTables
import Knail.Transitions
import Knail.VfsFiles
import Mathlib.Data.List.ReduceOption
import Mathlib.Data.Finset.Card

/-!
# Descriptor tables

Descriptors are heap objects that refer to vnodes, which count them; tasks keep them in tables. `open`, `close`,
`dup`, `dup2`, `pipe`, `exit` and the copy in `fork_current` are modelled with all their exits.
-/
namespace Knail.Descriptors

open Function Vfs

inductive FileOps
  | ramfs | tty | fat32 | pipe
  deriving DecidableEq, Repr

def pipeBufSize : ℕ:=4096

structure PipeBuffer where
  buf : ℕ→UInt8
  readPos : ℕ
  writePos : ℕ
  used : ℕ
  refcount : ℕ

/-- A vnode with its operations, and the buffer behind `data` if it is a pipe. -/
structure Node where
  vnode : VNode
  ops : Option FileOps
  pipe : Option PipeBuffer

structure OpenFile extends FileDescriptor where
  node : ℕ

def pred32 (n : ℕ) : ℕ:=u32 (4294967295+n)

namespace Node

def addRef (v : Node) : Node:={ v with vnode:={v.vnode with refcount:=u32 (v.vnode.refcount+1)} }

def pipeClose (v : Node) : Node:=
  match v.pipe with
  | none=>v
  | some pb=>{ v with pipe:=if pred32 pb.refcount=0 then none else some {pb with refcount:=pred32 pb.refcount} }

/-- The effect of `vfs::close` on the vnode. Only pipes have an operation for the last close. -/
def dropRef (v : Node) : Node:=
  let v':={ v with vnode:={v.vnode with refcount:=pred32 v.vnode.refcount} }
  if pred32 v.vnode.refcount=0 ∧ v.ops=some .pipe then v'.pipeClose else v'

end Node

/-- The vnode that `vfs::pipe` makes for its two ends. -/
def pipeNode : Node where
  vnode:={ name := "[pipe]".toUTF8.toList,type:=.file,size:=0,data:=none,dataCapacity:=0,refcount:=2,
             priv:=none }
  ops:=some .pipe
  pipe:=some {buf:=fun _=>0,readPos:=0,writePos:=0,used:=0,refcount:=2}

structure Store where
  nodes : ℕ→Option Node
  files : ℕ→Option OpenFile

namespace Store

def modifyNode (s : Store) (n : ℕ) (f : Node→Node) : Store:=
  {s with nodes:=update s.nodes n ((s.nodes n).map f)}

def close (s : Store) : Option ℕ→Store
  | none=>s
  | some f=>
    match s.files f with
    | none=>s
    | some d=>{s.modifyNode d.node Node.dropRef with files:=update s.files f none}

/-- The rest of `vfs::open` once there is a vnode: truncation comes before the allocation. -/
def openNode (s : Store) (n flags : ℕ) (fd : Option ℕ) : Except KError ℕ×Store:=
  match s.nodes n with
  | none=>(.error .notFound,s)
  | some v=>
    let v':={v with vnode:=v.vnode.truncate flags}
    match fd with
    | none=>(.error .outOfMemory,{s with nodes:=update s.nodes n (some v')})
    | some f=>
      (.ok f,{ nodes:=update s.nodes n (some v'.addRef)
               files:=update s.files f (some {v'.vnode.descriptor flags with node:=n}) })

/-- `vfs::open`, from what `resolve_internal` and `create_internal` return for the path. -/
def vfsOpen (s : Store) (resolved : Option ℕ) (created : Option (ℕ×Node)) (flags : ℕ) (fd : Option ℕ) :
    Except KError ℕ×Store:=
  match resolved with
  | some n=>s.openNode n flags fd
  | none=>
    if flags&&&oCreate=0 then (.error .notFound,s)
    else
      match created with
      | none=>(.error .ioError,s)
      | some (n,v)=>openNode {s with nodes:=update s.nodes n (some v)} n flags fd

def dup (s : Store) (f : ℕ) (copy : Option ℕ) : Except KError ℕ×Store:=
  match s.files f, copy with
  | none, _=>(.error .invalidArgument,s)
  | some _, none=>(.error .outOfMemory,s)
  | some d, some c=>
    (.ok c,{s.modifyNode d.node Node.addRef with files:=update s.files c (some d)})

/-- `vfs::pipe`: the buffer, the vnode and the two descriptors are allocated in this order. -/
def pipe (s : Store) (buffer : Bool) (node rfd wfd : Option ℕ) : Except KError (ℕ×ℕ)×Store:=
  match buffer, node, rfd, wfd with
  | true, some n, some r, some w=>
    (.ok (r,w),
      { nodes:=update s.nodes n (some pipeNode)
        files:=update (update s.files r (some {offset:=0,flags:=vfsRead,dirIndex:=0,node:=n}))
          w (some {offset:=0,flags:=vfsWrite,dirIndex:=0,node:=n}) })
  | _, _, _, _=>(.error .outOfMemory,s)

end Store

def maxFds : ℕ:=64
def fdOffset : ℕ:=3

structure FDTable where
  fds : ℕ→Option ℕ
  count : ℕ

def toI32 (n : ℕ) : ℤ:=if u32 n<2147483648 then u32 n else u32 n-4294967296

namespace FDTable

/-- `fdtable::alloc`. -/
def empty : FDTable:=⟨fun _=>none,0⟩

def put (t : FDTable) (i file : ℕ) : FDTable:=⟨update t.fds i (some file),u32 (t.count+1)⟩

def install (t : FDTable) (file : ℕ) : Except KError (ℕ×FDTable):=
  match (List.range' fdOffset (maxFds-fdOffset)).find? (fun i=>(t.fds i).isNone) with
  | some i=>.ok (i,t.put i file)
  | none=>.error .outOfFileDescriptors

def installAt (t : FDTable) (file : ℕ) (fd : ℤ) : Except KError (ℤ×FDTable):=
  if fd<0 then .error .invalidArgument
  else if maxFds≤fd.toNat then .error .invalidArgument
  else if (t.fds fd.toNat).isSome then .error .alreadyExists
  else .ok (fd,t.put fd.toNat file)

def lookup (t : FDTable) (fd : ℕ) : Except KError ℕ:=
  if maxFds≤fd then .error .badFileDescriptor
  else
    match t.fds fd with
    | none=>.error .badFileDescriptor
    | some f=>.ok f

def remove (t : FDTable) (fd : ℕ) : Except KError (ℕ×FDTable):=
  if maxFds≤fd then .error .badFileDescriptor
  else
    match t.fds fd with
    | none=>.error .badFileDescriptor
    | some f=>.ok (f,⟨update t.fds fd none,pred32 t.count⟩)

def entries (t : FDTable) : List ℕ:=filled maxFds t.fds

def free (t : FDTable) (s : Store) : Store:=t.entries.foldl (fun s f=>s.close (some f)) s

/-- The loop of `fdtable::clone` over the remaining slots, with the results of `kmalloc` to come. -/
def cloneLoop (src : FDTable) : List ℕ→List (Option ℕ)→FDTable→Store→Option FDTable×Store
  | [], _, dst, s=>(some dst,s)
  | i::is, mem, dst, s=>
    match src.fds i with
    | none=>cloneLoop src is mem dst s
    | some f=>
      match s.dup f (mem.head?.join) with
      | (.error _,s)=>(none,dst.free s)
      | (.ok c,s)=>cloneLoop src is mem.tail (dst.put i c) s

/-- `fdtable::clone`, given whether there is memory for the table. -/
def clone (src : Option FDTable) (table : Bool) (mem : List (Option ℕ)) (s : Store) : Option FDTable×Store:=
  match src, table with
  | none, _ | _, false=>(none,s)
  | some src, true=>cloneLoop src (List.range maxFds) mem empty s

end FDTable

/-- The store and the live tasks that have a table. -/
structure World where
  store : Store
  tasks : List ℕ
  table : ℕ→FDTable

def eOk : ℤ:=0
def eNoent : ℤ:=-2
def eBadf : ℤ:=-9
def eFault : ℤ:=-14
def eNospace : ℤ:=-28

namespace World

def fdTable (w : World) (t : ℕ) : Option FDTable:=if t∈w.tasks then some (w.table t) else none

def setTable (w : World) (t : ℕ) (tab : FDTable) : World:={w with table:=update w.table t tab}

def setStore (w : World) (s : Store) : World:={w with store:=s}

/-- Put a descriptor into the first free slot, or close it: the end of `handle_open` and
`handle_dup`. -/
def installOrClose (w : World) (t : ℕ) (tab : FDTable) (f : ℕ) : ℤ×World:=
  match tab.install f with
  | .error _=>(eNospace,w.setStore (w.store.close (some f)))
  | .ok (fd,tab')=>(fd,w.setTable t tab')

/-- `handle_open`; `path` tells whether the pointer is not null. -/
def handleOpen (w : World) (t : ℕ) (path : Bool) (resolved : Option ℕ) (created : Option (ℕ×Node)) (flags : ℕ)
    (fd : Option ℕ) : ℤ×World:=
  if path then
    match w.fdTable t with
    | none=>(eBadf,w)
    | some tab=>
      match w.store.vfsOpen resolved created flags fd with
      | (.error _,s)=>(eNoent,w.setStore s)
      | (.ok f,s)=>(w.setStore s).installOrClose t tab f
  else (eFault,w)

def handleClose (w : World) (t fd : ℕ) : ℤ×World:=
  match w.fdTable t with
  | none=>(eBadf,w)
  | some tab=>
    match tab.remove fd with
    | .error _=>(eBadf,w)
    | .ok (f,tab')=>(eOk,(w.setTable t tab').setStore (w.store.close (some f)))

def handleDup (w : World) (t fd : ℕ) (copy : Option ℕ) : ℤ×World:=
  match w.fdTable t with
  | none=>(eBadf,w)
  | some tab=>
    match tab.lookup fd with
    | .error _=>(eBadf,w)
    | .ok f=>
      match w.store.dup f copy with
      | (.error _,s)=>(eNospace,w.setStore s)
      | (.ok c,s)=>(w.setStore s).installOrClose t tab c

/-- The end of `handle_dup2`, once `newfd` has been taken out of the table. -/
def dupInto (w : World) (t : ℕ) (tab : FDTable) (f newfd : ℕ) (copy : Option ℕ) : ℤ×World:=
  match w.store.dup f copy with
  | (.error _,s)=>(eNospace,w.setStore s)
  | (.ok c,s)=>
    match tab.installAt c (toI32 newfd) with
    | .error _=>(eNospace,w.setStore (s.close (some c)))
    | .ok (fd,tab')=>(fd,(w.setStore s).setTable t tab')

/-- `handle_dup2`. The descriptor that `remove` returns is dropped: what is closed is the null
pointer that `existing` still holds. -/
def handleDup2 (w : World) (t oldfd newfd : ℕ) (copy : Option ℕ) : ℤ×World:=
  match w.fdTable t with
  | none=>(eBadf,w)
  | some tab=>
    if oldfd=newfd then (toI64 newfd,w)
    else
      match tab.lookup oldfd with
      | .error _=>(eBadf,w)
      | .ok f=>
        match tab.remove newfd with
        | .error _=>w.dupInto t tab f newfd copy
        | .ok (_,tab')=>((w.setTable t tab').setStore (w.store.close none)).dupInto t tab' f newfd copy

/-- `handle_pipe`; `fds` tells whether the pointer is not null. -/
def handlePipe (w : World) (t : ℕ) (fds buffer : Bool) (node rfd wfd : Option ℕ) : ℤ×World:=
  if fds then
    match w.fdTable t with
    | none=>(eBadf,w)
    | some tab=>
      match w.store.pipe buffer node rfd wfd with
      | (.error _,s)=>(eNospace,w.setStore s)
      | (.ok (r,wr),s)=>
        match tab.install r with
        | .error _=>(eNospace,w.setStore ((s.close (some r)).close (some wr)))
        | .ok (i,tab₁)=>
          match tab₁.install wr with
          | .error _=>
            let tab₂:=match tab₁.remove i with
              | .error _=>tab₁
              | .ok (_,tab₂)=>tab₂
            (eNospace,(w.setTable t tab₂).setStore ((s.close (some r)).close (some wr)))
          | .ok (_,tab₂)=>(eOk,(w.setStore s).setTable t tab₂)
  else (eFault,w)

/-- The part of `sched::exit` that frees the table. -/
def exit (w : World) (t : ℕ) : World:=
  match w.fdTable t with
  | none=>w
  | some tab=>{w with store:=tab.free w.store,tasks:=w.tasks.erase t}

/-- The descriptors of `fork_current`: the child gets a copy of the table, or there is no child.
A failure before the copy is made does not get here. -/
def fork (w : World) (t child : ℕ) (table : Bool) (mem : List (Option ℕ)) : World:=
  match FDTable.clone (w.fdTable t) table mem w.store with
  | (none,s)=>w.setStore s
  | (some tab,s)=>{store:=s,tasks:=child::w.tasks,table:=update w.table child tab}

end World

/-- The result of one `vfs::open` of `init_stdio`, put into its slot. -/
def FDTable.installOk (tab : FDTable) (res : Except KError ℕ) (fd : ℤ) : FDTable:=
  match res with
  | .error _=>tab
  | .ok f=>
    match tab.installAt f fd with
    | .error _=>tab
    | .ok (_,tab')=>tab'

/-- `init_stdio` opens the terminal three times and then fills the first three slots. -/
def initStdio (tty : Option ℕ) (mem : Option ℕ×Option ℕ×Option ℕ) (tab : FDTable) (s : Store) : FDTable×Store:=
  match s.vfsOpen tty none vfsRead mem.1 with
  | (r,s₁)=>
    match s₁.vfsOpen tty none vfsWrite mem.2.1 with
    | (w,s₂)=>
      match s₂.vfsOpen tty none vfsWrite mem.2.2 with
      | (e,s₃)=>(((tab.installOk r 0).installOk w 1).installOk e 2,s₃)

/-- The descriptors of `spawn_user`. -/
def World.spawn (w : World) (t : ℕ) (tty : Option ℕ) (mem : Option ℕ×Option ℕ×Option ℕ) : World:=
  match initStdio tty mem .empty w.store with
  | (tab,s)=>{store:=s,tasks:=t::w.tasks,table:=update w.table t tab}

inductive Op
  | openPath (t : ℕ) (path : Bool) (resolved : Option ℕ) (created : Option (ℕ×Node)) (flags : ℕ) (fd : Option ℕ)
  | close (t fd : ℕ)
  | dup (t fd : ℕ) (copy : Option ℕ)
  | dup2 (t oldfd newfd : ℕ) (copy : Option ℕ)
  | pipe (t : ℕ) (fds buffer : Bool) (node rfd wfd : Option ℕ)
  | exit (t : ℕ)
  | fork (t child : ℕ) (table : Bool) (mem : List (Option ℕ))
  | spawn (t : ℕ) (tty : Option ℕ) (mem : Option ℕ×Option ℕ×Option ℕ)

def step (w : World) : Op→Option World
  | .openPath t path resolved created flags fd=>some (w.handleOpen t path resolved created flags fd).2
  | .close t fd=>some (w.handleClose t fd).2
  | .dup t fd copy=>some (w.handleDup t fd copy).2
  | .dup2 t oldfd newfd copy=>some (w.handleDup2 t oldfd newfd copy).2
  | .pipe t fds buffer node rfd wfd=>some (w.handlePipe t fds buffer node rfd wfd).2
  | .exit t=>some (w.exit t)
  | .fork t child table mem=>some (w.fork t child table mem)
  | .spawn t tty mem=>some (w.spawn t tty mem)

/-- The results of `kmalloc` for descriptors: different free addresses of the heap. -/
def Supply (s : Store) (mem : List (Option ℕ)) : Prop:=
  mem.reduceOption.Nodup ∧
    ∀f∈mem.reduceOption,(s.files f).isNone ∧ KernelHeap.heapStart≤f ∧ f<KernelHeap.heapMax

instance (s : Store) (mem : List (Option ℕ)) : Decidable (Supply s mem):=inferInstanceAs (Decidable (_ ∧ _))

/-- The contract of the allocator and of the scheduler: objects are new, and so are tasks. A vnode
is made with a reference count of zero. -/
def Op.Valid : Op→World→Prop
  | .openPath _ _ _ created _ fd, w=>
    Supply w.store [fd] ∧ ∀p∈created,(w.store.nodes p.1).isNone ∧ p.2.vnode.refcount=0
  | .dup _ _ copy, w | .dup2 _ _ _ copy, w=>Supply w.store [copy]
  | .pipe _ _ _ node rfd wfd, w=>Supply w.store [rfd,wfd] ∧ ∀n∈node,(w.store.nodes n).isNone
  | .fork _ child _ mem, w=>Supply w.store mem ∧ child∉w.tasks
  | .spawn t _ mem, w=>Supply w.store [mem.1,mem.2.1,mem.2.2] ∧ t∉w.tasks
  | .close _ _, _ | .exit _, _=>True

instance : (op : Op)→(w : World)→Decidable (op.Valid w)
  | .openPath .., _ | .pipe .., _ | .fork .., _ | .spawn .., _=>inferInstanceAs (Decidable (_ ∧ _))
  | .dup .., _ | .dup2 .., _=>inferInstanceAs (Decidable (Supply _ _))
  | .close .., _ | .exit .., _=>inferInstanceAs (Decidable True)

/-- After boot no task has a table and there are no descriptors. -/
structure Booted (w : World) : Prop where
  tasks : w.tasks=[]
  files : ∀f,w.store.files f=none
  refcount : ∀n v,w.store.nodes n=some v→v.vnode.refcount=0

/-- The descriptors in the slots of the live tasks. -/
def World.held (w : World) : List ℕ:=w.tasks.flatMap fun t=>(w.table t).entries

def Store.refersTo (s : Store) (n f : ℕ) : Bool:=(s.files f).any (·.node=n)

/-- How many descriptors in slots refer to a vnode. -/
def World.references (w : World) (n : ℕ) : ℕ:=(w.held.toFinset.filter (w.store.refersTo n ·)).card

end Knail.Descriptors
