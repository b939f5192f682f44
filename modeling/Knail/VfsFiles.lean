import Knail.VfsNodes

/-!
# Reading and writing open files

`vfs::read` and `vfs::write` check the descriptor and call the operation of the vnode; `vfs::seek` moves the position.
The buffer of a memory file is a function, of which the first `dataCapacity` bytes are allocated.
-/
namespace Knail.Vfs

/-- The operations of a vnode that `read` and `write` call, on the state that they change. A null
pointer is `none`. -/
structure Backend (σ : Type) where
  vnode : σ→VNode
  read : Option (ℕ→ℕ→σ→Except KError (List UInt8)×σ)
  write : Option (ℕ→List UInt8→σ→Except KError ℕ×σ)

def toI64 (n : ℕ) : ℤ:=if u64 n<9223372036854775808 then u64 n else u64 n-18446744073709551616

namespace FileDescriptor

variable {σ : Type}

/-- The position moves on by a result that is positive as a signed number. -/
def advance (d : FileDescriptor) (n : ℕ) : FileDescriptor:=
  if 0<toI64 n then {d with offset:=u64 (d.offset+n)} else d

/-- `vfs::read`; `buf` tells whether the pointer is not null. The result holds the bytes stored. -/
def read (ops : Backend σ) (buf : Bool) (len : ℕ) (d : FileDescriptor) (s : σ) :
    Except KError (List UInt8)×FileDescriptor×σ:=
  if buf=false then (.error .invalidArgument,d,s)
  else if d.flags&&&vfsRead=0 then (.error .permissionDenied,d,s)
  else if (ops.vnode s).type = .dir then (.error .isDirectory,d,s)
  else
    match ops.read with
    | none=>(.error .ioError,d,s)
    | some opRead=>
      match opRead d.offset len s with
      | (.error e,s)=>(.error e,d,s)
      | (.ok bytes,s)=>(.ok bytes,d.advance bytes.length,s)

def seekEnd (d : FileDescriptor) (size : ℕ) : FileDescriptor:=
  if d.flags&&&vfsAppend≠0 then {d with offset:=size} else d

/-- `vfs::write`. The position of an appending descriptor is moved before the operation is called. -/
def write (ops : Backend σ) (buf : Bool) (src : List UInt8) (d : FileDescriptor) (s : σ) :
    Except KError ℕ×FileDescriptor×σ:=
  if buf=false then (.error .invalidArgument,d,s)
  else if d.flags&&&vfsWrite=0 then (.error .permissionDenied,d,s)
  else if (ops.vnode s).type = .dir then (.error .isDirectory,d,s)
  else
    match ops.write with
    | none=>(.error .ioError,d,s)
    | some opWrite=>
      match opWrite (d.seekEnd (ops.vnode s).size).offset src s with
      | (.error e,s')=>(.error e,d.seekEnd (ops.vnode s).size,s')
      | (.ok n,s')=>(.ok n,(d.seekEnd (ops.vnode s).size).advance n,s')

/-- `vfs::seek`. The sum is one of signed 64-bit numbers. -/
def seek (v : VNode) (offset : ℤ) (whence : ℕ) (d : FileDescriptor) : Except KError ℤ×FileDescriptor:=
  if v.type = .dir then (.error .isDirectory,d)
  else
    let base : Option ℤ:=
      if whence=0 then some 0
      else if whence=1 then some (toI64 d.offset)
      else if whence=2 then some (toI64 v.size)
      else none
    match base with
    | none=>(.error .invalidArgument,d)
    | some base=>
      let newoff:=toI64 ((base+offset)%18446744073709551616).toNat
      if newoff<0 then (.error .invalidArgument,d) else (.ok newoff,{d with offset:=newoff.toNat})

end FileDescriptor

def ramfsRead (offset len : ℕ) (v : VNode) : Except KError (List UInt8)×VNode:=
  match v.data with
  | none=>(.ok [],v)
  | some data=>
    if v.size≤offset then (.ok [],v)
    else
      let len:=if v.size-offset<len then v.size-offset else len
      (.ok ((List.range len).map fun i=>data (offset+i)),v)

/-- The larger buffer of `ramfs_write`: the old bytes below the size, and zeros. -/
def VNode.regrow (v : VNode) (stop : ℕ) : VNode:=
  { v with
    data:=some fun i=>if i<v.size then (v.data.getD fun _=>0) i else 0
    dataCapacity:=if u64 (stop*2)<64 then 64 else u64 (stop*2) }

/-- The end of `ramfs_write`: the bytes are copied into the buffer. -/
def VNode.store (v : VNode) (offset stop : ℕ) (src : List UInt8) : VNode:=
  { v with
    data:=v.data.map fun data i=>if offset ≤ i ∧ i<offset+src.length then src.getD (i-offset) 0 else data i
    size:=if v.size<stop then stop else v.size }

/-- `ramfs_write`, given whether `kmalloc` succeeds. -/
def ramfsWrite (mem : Bool) (offset : ℕ) (src : List UInt8) (v : VNode) : Except KError ℕ×VNode:=
  let stop:=u64 (offset+src.length)
  if v.dataCapacity<stop then
    if mem then (.ok src.length,(v.regrow stop).store offset stop src) else (.error .outOfMemory,v)
  else (.ok src.length,v.store offset stop src)

def ramfsOps (mem : Bool) : Backend VNode where
  vnode:=id
  read:=some ramfsRead
  write:=some (ramfsWrite mem)

end Knail.Vfs
