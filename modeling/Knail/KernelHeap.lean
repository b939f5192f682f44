import Knail.KernelTypes
import Knail.LinkedPaths

/-!
# The kernel heap allocator

Block headers sit in front of their payload and form a doubly linked list in address order. Headers and payload bytes
are two maps over addresses; the frames and the page mapper are parameters. `none` is a list search that does not end.
-/
namespace Knail.KernelHeap

def heapStart : ℕ:=0xFFFF900000000000

def heapMax : ℕ:=0xFFFF900040000000

def heapMagic : ℕ:=0xBEEFCAFE

/-- `sizeof(BlockHeader)`. -/
def headerSize : ℕ:=40

def minSplit : ℕ:=32

def pageSize : ℕ:=4096

structure BlockHeader where
  size : ℕ
  free : Bool
  next : Option ℕ
  prev : Option ℕ
  magic : ℕ
  deriving DecidableEq, Repr

structure Heap (β : Type) where
  header : ℕ→BlockHeader
  byte : ℕ→UInt8
  head : Option ℕ
  heapEnd : ℕ
  allocCount : ℕ
  freeCount : ℕ
  backing : β

/-- `pmm::alloc_frame`, with 0 for failure, and `vmm::map_page` on the kernel space, whose
result the heap ignores. -/
structure Backing (β : Type) where
  allocFrame : β→ℕ×β
  mapPage : (virt phys : ℕ)→β→β

variable {β : Type}

namespace Heap

def next (h : Heap β) (p : ℕ) : Option ℕ:=(h.header p).next

def modify (h : Heap β) (p : ℕ) (f : BlockHeader→BlockHeader) : Heap β:=
  {h with header:=Function.update h.header p (f (h.header p))}

/-- More steps than there can be headers below `heap_end`. -/
def fuel (h : Heap β) : ℕ:=(h.heapEnd-heapStart)/headerSize+1

def setPrev (h : Heap β) (p : Option ℕ) (v : ℕ) : Heap β:=
  match p with
  | none=>h
  | some p=>h.modify p ({· with prev:=some v})

end Heap

def align16 (n : ℕ) : ℕ:=u64 (n+15)/16*16

/-- The mapping loop of `expand`. Pages mapped before a failure stay mapped. -/
def mapPages (B : Backing β) (base : ℕ) : (pages i : ℕ)→β→Bool×β
  | 0, _, b=>(true,b)
  | n+1, i, b=>
    let (phys,b):=B.allocFrame b
    if phys=0 then (false,b)
    else mapPages B base n (i+1) (B.mapPage (u64 (base+i*pageSize)) phys b)

def append (blk : ℕ) (h : Heap β) : Option (Heap β):=
  match h.head with
  | none=>some {h with head:=some blk}
  | some first=>do
    let cur ← (←walk h.next (fun p=>(h.next p).isNone) h.fuel (some first))
    return (h.modify cur ({· with next:=some blk})).modify blk ({· with prev:=some cur})

def expand (B : Backing β) (needed : ℕ) (h : Heap β) : Option (Option ℕ×Heap β):=
  let bytes:=u64 (needed+headerSize)
  let pages:=max (u64 (bytes+pageSize-1)/pageSize) 1
  if heapMax<u64 (h.heapEnd+u64 (pages*pageSize)) then some (none,h)
  else match mapPages B h.heapEnd pages 0 h.backing with
    | (false,b)=>some (none,{h with backing:=b})
    | (true,b)=>do
      let blk:=h.heapEnd
      let h:={h with backing:=b,heapEnd:=u64 (h.heapEnd+u64 (pages*pageSize))}
      let h ← append blk (h.modify blk fun _=>
        ⟨usub64 (u64 (pages*pageSize)) headerSize,true,none,none,heapMagic⟩)
      return (some blk,h)

def coalesce (blk : Option ℕ) (h : Heap β) : Heap β:=
  match blk with
  | none=>h
  | some blk=>
    if (h.header blk).free=false then h
    else match h.next blk with
      | none=>h
      | some n=>
        let next:=h.header n
        if next.free ∧ next.magic=heapMagic then
          (h.modify blk fun b=>{b with size:=u64 (b.size+headerSize+next.size),next:=next.next}).setPrev
            next.next blk
        else h

def init (B : Backing β) (garbage : ℕ→BlockHeader) (byte : ℕ→UInt8) (b : β) : Option (Heap β):=do
  let (_,h) ← expand B 0
    { header:=garbage,byte:=byte,head:=none,heapEnd:=heapStart,allocCount:=0,freeCount:=0,
      backing:=b }
  return h

/-- Cut a block in two if the remainder is large enough. `kmalloc` and `krealloc` each
have a copy of this code. -/
def split (size blk : ℕ) (h : Heap β) : Heap β:=
  let b:=h.header blk
  if u64 (size+headerSize+minSplit)≤b.size then
    let new:=u64 (blk+headerSize+size)
    let h:=h.modify new fun _=>⟨usub64 (usub64 b.size size) headerSize,true,b.next,some blk,heapMagic⟩
    (h.setPrev b.next new).modify blk ({· with next:=some new,size:=size})
  else h

/-- The part of `kmalloc` after a block is found. -/
def take (size blk : ℕ) (h : Heap β) : Option ℕ×Heap β:=
  let h:=(split size blk h).modify blk ({· with free:=false})
  (some (u64 (blk+headerSize)),{h with allocCount:=u64 (h.allocCount+1)})

def kmalloc (B : Backing β) (size : ℕ) (h : Heap β) : Option (Option ℕ×Heap β):=
  if size=0 then some (none,h)
  else
    let size:=align16 size
    let fits:=fun p=>(h.header p).magic != heapMagic || (h.header p).free && decide (size≤(h.header p).size)
    match walk h.next fits h.fuel h.head with
    | none=>none
    | some (some blk)=>if (h.header blk).magic≠heapMagic then some (none,h) else some (take size blk h)
    | some none=>match expand B size h with
      | none=>none
      | some (none,h)=>some (none,h)
      | some (some blk,h)=>some (take size blk h)

/-- `for (i = 0; i < n; i++) dst[i] = src[i]`, from index `i` on. -/
def copyBytes (dst src : ℕ) : (n i : ℕ)→(ℕ→UInt8)→ℕ→UInt8
  | 0, _, m=>m
  | n+1, i, m=>copyBytes dst src n (i+1) (Function.update m (u64 (dst+i)) (m (u64 (src+i))))

/-- The part of `krealloc` after a block is found. The block is claimed before it is split,
and nothing is counted or coalesced. -/
def relocate (aligned p b : ℕ) (h : Heap β) : Option ℕ×Heap β:=
  let blk:=usub64 p headerSize
  let h:=split aligned b (h.modify b ({· with free:=false}))
  let newptr:=u64 (b+headerSize)
  let n:=min (h.header blk).size aligned
  let h:={h with byte:=copyBytes newptr p n 0 h.byte}
  (some newptr,h.modify blk ({· with free:=true}))

def krealloc (ptr : Option ℕ) (newSize : ℕ) (h : Heap β) : Option (Option ℕ×Heap β):=
  match ptr with
  | none=>some (none,h)
  | some p=>
    if newSize=0 then some (none,h)
    else
      let blk:=usub64 p headerSize
      if (h.header blk).magic≠heapMagic then some (none,h)
      else if newSize≤(h.header blk).size then some (some p,h)
      else
        let aligned:=align16 newSize
        let fits:=fun b=>(h.header b).free && decide (aligned≤(h.header b).size)
        match walk h.next fits h.fuel h.head with
        | none=>none
        | some none=>some (none,h)
        | some (some b)=>some (relocate aligned p b h)

def kfree (ptr : Option ℕ) (h : Heap β) : Heap β:=
  match ptr with
  | none=>h
  | some p=>
    let blk:=usub64 p headerSize
    if (h.header blk).magic≠heapMagic then h
    else if (h.header blk).free then h
    else
      let h:=h.modify blk ({· with free:=true})
      let h:=coalesce (some blk) {h with freeCount:=u64 (h.freeCount+1)}
      coalesce (h.header blk).prev h

end Knail.KernelHeap
