import Knail.LinkedPaths
import Knail.VfsNodes
import Mathlib.Data.List.ReduceOption

/-!
# The tree of names

Directories list their children through `children` and `next_sibling`, and every vnode points back to its directory.
The operations are those of the memory file system. Strings have no terminating zero; what `kmalloc` returns is an
argument.
-/
namespace Knail.Directory

open Vfs Function

def slash : UInt8:=0x2F
def dot : UInt8:=0x2E

/-! The names in the tree after `init`. -/

def devName : List UInt8:=[0x64,0x65,0x76]
def tmpName : List UInt8:=[0x74,0x6D,0x70]
def binName : List UInt8:=[0x62,0x69,0x6E]
def ttyName : List UInt8:=[0x74,0x74,0x79]

/-- The size of the buffers for a component and for a name. -/
def nameSize : ℕ:=128

/-- The size of the buffer for the path of a parent. -/
def parentSize : ℕ:=256

def kstrcpy (size : ℕ) (src : List UInt8) : List UInt8:=src.take (size-1)

structure TreeNode where
  name : List UInt8
  type : VType
  parent : Option ℕ
  children : Option ℕ
  nextSibling : Option ℕ
  refcount : ℕ

/-- The static vnode of the terminal. All other vnodes are on the heap. -/
def ttyNode : ℕ:=0

/-- The vnodes by address, the addresses of those there are, and `vfs_root`. -/
structure Fs where
  live : List ℕ
  node : ℕ→TreeNode
  root : Option ℕ

/-- `path_next`: the next component and the rest of the path. A component that is too long is cut,
and its end is taken for the next one. -/
def pathNext (path : List UInt8) : List UInt8×List UInt8:=
  let path:=path.dropWhile (· = slash)
  let component:=(path.takeWhile (· ≠ slash)).take (nameSize-1)
  (component,path.drop component.length)

namespace Fs

variable (fs : Fs)

def next (n : ℕ) : Option ℕ:=(fs.node n).nextSibling

def modify (n : ℕ) (f : TreeNode→TreeNode) : Fs:={fs with node:=update fs.node n (f (fs.node n))}

def fuel : ℕ:=fs.live.length+1

/-- The child with a given name: a loop over `next_sibling`. -/
def findChild (dir : ℕ) (name : List UInt8) : Option ℕ:=
  (walk fs.next (fun c=>(fs.node c).name=name) fs.fuel (fs.node dir).children).join

/-- The loop of `resolve_internal`. -/
def resolveLoop : ℕ→List UInt8→ℕ→Option ℕ
  | 0, _, _=>none
  | fuel+1, p, node=>
    match pathNext p with
    | (component,p)=>
      if component=[] then some node
      else if component=[dot] then resolveLoop fuel p node
      else if component=[dot,dot] then resolveLoop fuel p ((fs.node node).parent.getD node)
      else if (fs.node node).type≠.dir then none
      else
        match fs.findChild node component with
        | none=>none
        | some child=>resolveLoop fuel p child

/-- `get_cwd`, with the directory of the calling task. -/
def getCwd (cwd : Option ℕ) : Option ℕ:=cwd.or fs.root

def resolveInternal (cwd : Option ℕ) (path : List UInt8) : Option ℕ:=
  match path with
  | []=>none
  | c::rest=>
    if c=slash then fs.root.bind fun node=>fs.resolveLoop (path.length+1) rest node
    else (fs.getCwd cwd).bind fun node=>fs.resolveLoop (path.length+1) path node

end Fs

/-- The loop of `resolve_parent` that looks for the last slash, from an index on. -/
def lastSlash : List UInt8→ℕ→Option ℕ→Option ℕ
  | [], _, last=>last
  | c::path, i, last=>lastSlash path (i+1) (if c=slash then some i else last)

/-- The last slash leaves room for the end of the string in the buffer for the path of the parent. -/
def Short (path : List UInt8) : Prop:=∀last∈lastSlash path 0 none,last<parentSize

instance (path : List UInt8) : Decidable (Short path):=
  inferInstanceAs (Decidable (∀last∈lastSlash path 0 none,last<parentSize))

namespace Fs

variable (fs : Fs)

/-- `resolve_parent`: the directory and the name in it. For a path that is not short the function
writes past its buffer; what is given here for it has no meaning. -/
def resolveParent (cwd : Option ℕ) (path : List UInt8) : Option ℕ×List UInt8:=
  match lastSlash path 0 none with
  | none=>(fs.getCwd cwd,kstrcpy nameSize path)
  | some last=>
    (fs.resolveInternal cwd (path.take (if last=0 then 1 else last)),kstrcpy nameSize (path.drop (last+1)))

def addChild (dir child : ℕ) (name : List UInt8) (type : VType) : Fs where
  live:=child::fs.live
  node:=update
    (update fs.node child
      { name:=kstrcpy nameSize name,type:=type,parent:=some dir,children:=none,
        nextSibling:=(fs.node dir).children,refcount:=0 })
    dir {fs.node dir with children:=some child}
  root:=fs.root

/-- `create_internal`: the new vnode, if there is one. -/
def createInternal (cwd : Option ℕ) (path : List UInt8) (type : VType) (mem : Option ℕ) : Option ℕ×Fs:=
  match fs.resolveParent cwd path with
  | (none,_)=>(none,fs)
  | (some dir,leaf)=>
    if (fs.node dir).type≠.dir then (none,fs)
    else if (fs.findChild dir leaf).isSome then (none,fs)
    else
      match mem with
      | none=>(none,fs)
      | some child=>(some child,fs.addChild dir child leaf type)

def create (cwd : Option ℕ) (path : List UInt8) (type : VType) (mem : Option ℕ) : Except KError ℕ×Fs:=
  match fs.createInternal cwd path type mem with
  | (none,fs)=>(.error .ioError,fs)
  | (some n,fs)=>(.ok n,fs)

def mkdir (cwd : Option ℕ) (path : List UInt8) (mem : Option ℕ) : Except KError Unit×Fs:=
  if (fs.resolveInternal cwd path).isSome then (.error .alreadyExists,fs)
  else
    match fs.createInternal cwd path .dir mem with
    | (none,fs)=>(.error .notFound,fs)
    | (some _,fs)=>(.ok (),fs)

def addRef (n : ℕ) : Fs:=fs.modify n fun v=>{v with refcount:=u32 (v.refcount+1)}

/-- `vfs::open`, as far as it concerns the tree; `fd` tells whether there is memory for a descriptor. -/
def openPath (cwd : Option ℕ) (path : List UInt8) (flags : ℕ) (mem : Option ℕ) (fd : Bool) : Except KError ℕ×Fs:=
  match fs.resolveInternal cwd path with
  | some n=>if fd then (.ok n,fs.addRef n) else (.error .outOfMemory,fs)
  | none=>
    if flags&&&oCreate=0 then (.error .notFound,fs)
    else
      match fs.createInternal cwd path .file mem with
      | (none,fs)=>(.error .ioError,fs)
      | (some n,fs)=>if fd then (.ok n,fs.addRef n) else (.error .outOfMemory,fs)

/-- `vfs::close` of a descriptor that refers to a vnode. -/
def close (n : ℕ) : Fs:=fs.modify n fun v=>{v with refcount:=u32 (4294967295+v.refcount)}

/-- Take a vnode out of the list of its directory. -/
def detach (dir n : ℕ) : Fs:=
  if (fs.node dir).children=some n then fs.modify dir fun v=>{v with children:=(fs.node n).nextSibling}
  else
    match (walk fs.next (fun prev=>fs.next prev=some n) fs.fuel (fs.node dir).children).join with
    | none=>fs
    | some prev=>fs.modify prev fun v=>{v with nextSibling:=(fs.node n).nextSibling}

/-- `kfree` of a vnode. The static one has no header of a heap block before it and stays. -/
def free (n : ℕ) : Fs:=if n=ttyNode then fs else {fs with live:=fs.live.erase n}

def unlink (cwd : Option ℕ) (path : List UInt8) : Except KError Unit×Fs:=
  match fs.resolveInternal cwd path with
  | none=>(.error .notFound,fs)
  | some n=>
    if (fs.node n).type = .dir then (.error .isDirectory,fs)
    else if 0<(fs.node n).refcount then (.error .busy,fs)
    else
      match (fs.node n).parent with
      | none=>(.error .invalidArgument,fs)
      | some dir=>(.ok (),(fs.detach dir n).free n)

/-- `init` puts the vnode of the terminal into `/dev`. -/
def addTty (dev : ℕ) : Fs:=
  (fs.modify ttyNode fun v=>{v with parent:=some dev,nextSibling:=(fs.node dev).children}).modify dev
    fun v=>{v with children:=some ttyNode}

/-- `vfs::init`, with the results of `kmalloc` for the root and the three directories. There is no
result after a null pointer was dereferenced. -/
def init (root dev tmp bin : Option ℕ) : Option Fs:=
  match root with
  | none=>none
  | some r=>
    let fs:={ fs with
      live:=r::fs.live,root:=some r
      node:=update fs.node r ⟨[slash],.dir,none,none,none,0⟩ }
    let fs:=(fs.createInternal none (slash::devName) .dir dev).2
    let fs:=(fs.createInternal none (slash::tmpName) .dir tmp).2
    let fs:=(fs.createInternal none (slash::binName) .dir bin).2
    (fs.resolveInternal none (slash::devName)).map fs.addTty

end Fs

theorem Fs.close_addRef {fs : Fs} {n : ℕ} (hlt : (fs.node n).refcount<4294967296) : (fs.addRef n).close n=fs:=by
  have hcount : u32 (4294967295+u32 ((fs.node n).refcount+1))=(fs.node n).refcount:=by
    unfold u32
    omega
  simp only [Fs.addRef,Fs.close,Fs.modify,update_self,hcount,update_idem,update_eq_self]

/-- Before `init` there is the static vnode only. -/
def Fs.unborn (node : ℕ→TreeNode) : Fs where
  live:=[ttyNode]
  node:=update node ttyNode ⟨ttyName,.file,none,none,none,0⟩
  root:=none

inductive Op
  | init (root dev tmp bin : Option ℕ)
  | create (cwd : Option ℕ) (path : List UInt8) (type : VType) (mem : Option ℕ)
  | mkdir (cwd : Option ℕ) (path : List UInt8) (mem : Option ℕ)
  | openPath (cwd : Option ℕ) (path : List UInt8) (flags : ℕ) (mem : Option ℕ) (fd : Bool)
  | unlink (cwd : Option ℕ) (path : List UInt8)
  | close (n : ℕ)

def step (fs : Fs) : Op→Option Fs
  | .init root dev tmp bin=>fs.init root dev tmp bin
  | .create cwd path type mem=>some (fs.create cwd path type mem).2
  | .mkdir cwd path mem=>some (fs.mkdir cwd path mem).2
  | .openPath cwd path flags mem fd=>some (fs.openPath cwd path flags mem fd).2
  | .unlink cwd path=>some (fs.unlink cwd path).2
  | .close n=>some (fs.close n)

/-- The current directory of a task is a directory, if it is set. -/
def Fs.ValidCwd (fs : Fs) (cwd : Option ℕ) : Prop:=∀d∈cwd,d∈fs.live ∧ (fs.node d).type = .dir

/-- The contract of the allocator, and paths for which there is room. Nothing but `init` is called
before `init`. -/
def Op.Valid : Op→Fs→Prop
  | .init root dev tmp bin, fs=>[root,dev,tmp,bin].reduceOption.Nodup ∧
    ∀a∈[root,dev,tmp,bin].reduceOption, a∉fs.live
  | .create cwd path _ mem, fs | .mkdir cwd path mem, fs | .openPath cwd path _ mem _, fs=>
    fs.root.isSome ∧ fs.ValidCwd cwd ∧ Short path ∧ ∀a∈mem,a∉fs.live
  | .unlink cwd _, fs=>fs.root.isSome ∧ fs.ValidCwd cwd
  | .close _, _=>True

instance (fs : Fs) (cwd : Option ℕ) : Decidable (fs.ValidCwd cwd):=
  inferInstanceAs (Decidable (∀d∈cwd,d∈fs.live ∧ (fs.node d).type = .dir))

instance : (op : Op)→(fs : Fs)→Decidable (op.Valid fs)
  | .init .., _ | .create .., _ | .mkdir .., _ | .openPath .., _ | .unlink .., _=>inferInstanceAs (Decidable (_ ∧ _))
  | .close _, _=>inferInstanceAs (Decidable True)

end Knail.Directory
