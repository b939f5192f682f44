import Knail.KernelTypes

/-!
# Vnodes and descriptors

The objects that the virtual file system shares with its back ends. The links of the
directory tree are left out: every operation here is given its vnode.
-/
namespace Knail.Vfs

inductive VType
  | file
  | dir
  deriving DecidableEq, Repr

/-- The private data of a vnode on a FAT32 volume. -/
structure Fat32Node where
  firstCluster : ℕ
  isDir : Bool
  direntSector : ℕ
  direntOffset : ℕ
  hasDirent : Bool
  deriving DecidableEq, Repr

/-- A vnode. The buffer of `data` and its capacity are used by the memory file system, the
private data by FAT32. -/
structure VNode where
  name : List UInt8
  type : VType
  size : ℕ
  data : Option (ℕ→UInt8)
  dataCapacity : ℕ
  refcount : ℕ
  priv : Option Fat32Node

/-- An open file: the position and the flags of `open`, with the internal access bits. -/
structure FileDescriptor where
  offset : ℕ
  flags : ℕ
  dirIndex : ℕ
  deriving DecidableEq, Repr

/-! The flags of `open`: those of the caller and the internal access bits. -/

def oWrite : ℕ:=1
def oRdwr : ℕ:=2
def oCreate : ℕ:=0x40
def oTrunc : ℕ:=0x200
def oAppend : ℕ:=0x400

def vfsRead : ℕ:=0x100
def vfsWrite : ℕ:=0x200
def vfsAppend : ℕ:=0x400

def openFlags (flags : ℕ) : ℕ:=
  let iflags:=
    if flags&&&3=oRdwr then flags|||(vfsRead|||vfsWrite)
    else if flags&&&3=oWrite then flags|||vfsWrite
    else flags|||vfsRead
  if flags&&&oAppend≠0 then iflags|||vfsAppend else iflags

/-- What `open` does to the vnode before it makes a descriptor. -/
def VNode.truncate (v : VNode) (flags : ℕ) : VNode:=
  if flags&&&oTrunc≠0 ∧ v.type = .file then {v with data:=none,size:=0,dataCapacity:=0} else v

/-- The descriptor that `open` makes. -/
def VNode.descriptor (v : VNode) (flags : ℕ) : FileDescriptor where
  offset:=if openFlags flags&&&vfsAppend≠0 then v.size else 0
  flags:=openFlags flags
  dirIndex:=0

end Knail.Vfs
