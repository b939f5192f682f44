import Knail.DirectoryTree
import Knail.ElfBounds
import Knail.HeapRequests

/-!
# What the loader holds

`elf::load` opens a file, takes a buffer from the heap, reads the file into it and checks it. On
each of its exits it has given back the descriptor, and the buffer unless it returns an image.
-/
namespace Knail.Elf

open KernelHeap Directory

/-- The content of a file. FAT keeps its size in 32 bits, and a file of the memory file system lies in the heap of 1 GiB. -/
structure File where
  content : List UInt8
  length_lt : content.length<4294967296

structure Kernel (β : Type) where
  heap : Heap β
  fs : Fs

/-- `sizeof(FileDescriptor)`. -/
def descriptorSize : ℕ:=32

/-- The loop that reads the file, with what the reads have to say: an error, or how many bytes
they would deliver. A read never delivers more than is asked for, and without an answer the file
has ended. -/
def readInto (content : List UInt8) (buf : ℕ) :
    List (Except KError ℕ)→ℕ→(ℕ→UInt8)→Except KError ℕ×(ℕ→UInt8)
  | [], total, mem=>(.ok total,mem)
  | r::rs, total, mem=>
    if content.length≤total then (.ok total,mem)
    else
      match r with
      | .error e=>(.error e,mem)
      | .ok n=>
        let bytes:=(content.drop total).take n
        if bytes.length=0 then (.ok total,mem)
        else readInto content buf rs (total+bytes.length) (putBytes mem (buf+total) bytes)

variable {β : Type}

namespace Kernel

def kfree (s : Kernel β) (p : ℕ) : Kernel β:={s with heap:=KernelHeap.kfree (some p) s.heap}

/-- `vfs::close`. No file that a path leads to has a `close` of its own that does anything. -/
def close (s : Kernel β) (n fd : ℕ) : Kernel β:=⟨KernelHeap.kfree (some fd) s.heap,s.fs.close n⟩

/-- `elf::load`, given the files behind the vnodes and what the reads have to say. -/
def load (B : Backing β) (file : ℕ→File) (reads : List (Except KError ℕ)) (cwd : Option ℕ) (path : List UInt8)
    (s : Kernel β) : Option (Except LoadError Image×Kernel β):=
  match s.fs.resolveInternal cwd path with
  | none=>some (.error ⟨.notFound,"[ELF] cannot open: "⟩,s)
  | some n=>
    match kmalloc B descriptorSize s.heap with
    | none=>none
    | some (none,heap)=>some (.error ⟨.notFound,"[ELF] cannot open: "⟩,{s with heap:=heap})
    | some (some fd,heap)=>
      let s : Kernel β:=⟨heap,s.fs.addRef n⟩
      let size:=(file n).content.length
      if size<64 then some (.error (fail "[ELF] file too small"),s.close n fd)
      else
        match kmalloc B size s.heap with
        | none=>none
        | some (none,heap)=>some (.error ⟨.outOfMemory,"[ELF] out of memory"⟩,({s with heap:=heap}).close n fd)
        | some (some buf,heap)=>
          match readInto (file n).content buf reads 0 heap.byte with
          | (.error e,mem)=>
            some (.error ⟨e,"[ELF] read error"⟩,(({ s with heap:={heap with byte:=mem} }).kfree buf).close n fd)
          | (.ok total,mem)=>
            let s:=({ s with heap:={heap with byte:=mem} }).close n fd
            if total≠size then some (.error ⟨.ioError,"[ELF] short read: got "⟩,s.kfree buf)
            else
              match validate s.heap.byte buf size with
              | .error e=>some (.error e,s.kfree buf)
              | .ok image=>some (.ok image,s)

end Kernel

def Live (h : Heap β) (live : Set Block) : Prop:=∃bs,Blocks h bs ∧ used bs=live

/-- What a load leaves: the tree with its counts as it was, and no block more than before, or one
block with the file if there is an image. -/
def Balanced (file : ℕ→File) (opened : Option ℕ) (s : Kernel β) (live : Set Block) :
    Except LoadError Image→Kernel β→Prop
  | .error _, s'=>s'.fs=s.fs ∧ Live s'.heap live
  | .ok image, s'=>s'.fs=s.fs ∧ ∃b∉live,Live s'.heap (insert b live) ∧ image.fileData=b.payload ∧
      image.fileSize≤b.size ∧ ∃n,opened=some n ∧ (file n).content.length=image.fileSize ∧
        ∀i c,(file n).content[i]? = some c→s'.heap.byte (image.fileData+i)=c

variable {B : Backing β} {h : Heap β} {live : Set Block} {b d : Block} {n : ℕ}

theorem Live.kfree (hl : Live h (insert b live)) (hb : b∉live) : Live (KernelHeap.kfree (some b.payload) h) live:=by
  obtain ⟨bs,hbs,hu⟩:=hl
  obtain ⟨bs',hbs',hu'⟩:=kfree_spec hbs (hu▸Set.mem_insert b live)
  exact ⟨bs',hbs',by rw [hu',hu,Set.insert_sdiff_self_of_notMem hb]⟩

theorem Live.write (hl : Live h live) (mem : ℕ→UInt8) : Live {h with byte:=mem} live:=by
  obtain ⟨bs,hbs,hu⟩:=hl
  exact ⟨bs,hbs.congr rfl rfl rfl,hu⟩

theorem Kernel.fs_kfree (s : Kernel β) (p : ℕ) : (s.kfree p).fs=s.fs:=rfl

theorem Live.free {s : Kernel β} (hl : Live s.heap (insert b live)) (hb : b∉live) : Live (s.kfree b.payload).heap live:=by
  exact hl.kfree hb

theorem Live.close {s : Kernel β} (hl : Live s.heap (insert d live)) (hd : d∉live) (n : ℕ) :
    Live (s.close n d.payload).heap live:=by
  exact hl.kfree hd

theorem Live.kmalloc (hl : Live h live) (hn : 1≤n) (hlt : n<4294967296) : ∃r h',KernelHeap.kmalloc B n h=some (r,h') ∧
    (r=none ∧ Live h' live ∨ ∃b∉live,r=some b.payload ∧ n≤b.size ∧ Live h' (insert b live)):=by
  obtain ⟨bs,hbs,rfl⟩:=hl
  by_cases hle : n≤heapMax-heapStart
  · obtain ⟨r,h',hk,⟨hr,hb'⟩ | ⟨bs',b,hr,hb',hh⟩⟩:=kmalloc_spec hbs hn hle
    · exact ⟨r,h',hk,.inl ⟨hr,bs,hb',rfl⟩⟩
    · exact ⟨r,h',hk,.inr ⟨b,fun hb=>hh.fresh b hb rfl,hr,hh.size_le,bs',hb',hh.used_eq⟩⟩
  have halign:=align16_of_le (show n≤18446744073709551600 by omega)
  have hpages:=pagesFor_of_le (show n≤18446744073709547472 by omega)
  have hbound:=hbs.bound
  have htiles:=hbs.tiles.bounds.1
  simp only [heapMax,heapStart] at hle hbound htiles
  rcases kmalloc_found B hbs (Nat.ne_of_gt hn) with ⟨l,b,r,rfl,-,hfit,-⟩ | ⟨-,hk⟩
  · have:=hbs.size_lt (b:=b) (by simp)
    omega
  rcases expand_cases B (align16 n) h with ⟨-,he⟩ | ⟨hmax,-⟩
  · exact ⟨none,h,by rw [hk,he]; rfl,.inl ⟨rfl,bs,hbs,rfl⟩⟩
  · simp only [hpages,heapMax,u64,pageSize] at hmax
    omega

theorem byte_coalesce (blk : Option ℕ) (h : Heap β) : (coalesce blk h).byte=h.byte:=by
  unfold coalesce
  split
  · rfl
  split
  · rfl
  split
  · rfl
  dsimp only
  split
  · unfold Heap.setPrev
    split <;> rfl
  · rfl

theorem byte_kfree (p : ℕ) (h : Heap β) : (KernelHeap.kfree (some p) h).byte=h.byte:=by
  unfold KernelHeap.kfree
  dsimp only
  split
  · rfl
  split
  · rfl
  · rw [byte_coalesce,byte_coalesce]
    rfl

theorem byte_close (s : Kernel β) (n p : ℕ) : (s.close n p).heap.byte=s.heap.byte:=by
  rw [Kernel.close,byte_kfree]

theorem readInto_spec {content : List UInt8} {buf total t : ℕ} {reads : List (Except KError ℕ)} {mem mem' : ℕ→UInt8}
    (hm : ∀i<total,∀c,content[i]? = some c→mem (buf+i)=c) (h : readInto content buf reads total mem=(.ok t,mem')) :
    ∀i<t,∀c,content[i]? = some c→mem' (buf+i)=c:=by
  induction reads generalizing total mem with
  | nil=>
    cases h
    exact hm
  | cons r rs ih=>
    unfold readInto at h
    split at h
    · cases h
      exact hm
    cases r with
    | error e=>cases h
    | ok n=>
      dsimp only at h
      split at h
      · cases h
        exact hm
      refine ih (fun i hi c hc=>?_) h
      by_cases hlt : i<total
      · rw [putBytes_of_lt (by omega)]
        exact hm i hlt c hc
      have hlen : i-total<((content.drop total).take n).length:=by omega
      rw [putBytes_of_mem (by omega) (by omega),show buf+i-(buf+total)=i-total by omega,
        List.getD_eq_getElem _ _ hlen,List.getElem_take,List.getElem_drop]
      simp only [show total+(i-total)=i by omega]
      exact (List.getElem_eq_iff _).mpr hc

/-- On every exit the loader has given back what it does not return. -/
theorem load_balanced (B : Backing β) (file : ℕ→File) (reads : List (Except KError ℕ)) (cwd : Option ℕ)
    (path : List UInt8) (s : Kernel β) (hl : Live s.heap live) (hcount : ∀n,(s.fs.node n).refcount<4294967296) :
    ∃r s',s.load B file reads cwd path=some (r,s') ∧ Balanced file (s.fs.resolveInternal cwd path) s live r s':=by
  unfold Kernel.load
  cases hn : s.fs.resolveInternal cwd path with
  | none=>exact ⟨_,s,rfl,rfl,hl⟩
  | some n=>
    have hfs (s' : Kernel β) (hs : s'.fs=s.fs.addRef n) (fd : ℕ) : (s'.close n fd).fs=s.fs:=by
      rw [Kernel.close,hs]
      exact Fs.close_addRef (hcount n)
    obtain ⟨r,h₁,hk₁,⟨rfl,hl₁⟩ | ⟨d,hd,rfl,-,hl₁⟩⟩:=hl.kmalloc (show 1≤descriptorSize by decide) (by decide)
    · rw [hk₁]
      exact ⟨_,_,rfl,rfl,hl₁⟩
    rw [hk₁]
    dsimp only
    split
    · exact ⟨_,_,rfl,hfs _ rfl _,Live.close hl₁ hd n⟩
    obtain ⟨r,h₂,hk₂,⟨rfl,hl₂⟩ | ⟨b,hb,rfl,hsize,hl₂⟩⟩:=hl₁.kmalloc (by omega) (file n).length_lt
    · rw [hk₂]
      exact ⟨_,_,rfl,hfs _ rfl _,Live.close hl₂ hd n⟩
    -- the two blocks can be given back in either order
    have hbd : d∉insert b live:=by
      rintro (rfl | hd')
      · exact hb (Set.mem_insert d live)
      · exact hd hd'
    have hbl : b∉live:=fun h=>hb (Set.mem_insert_of_mem d h)
    rw [hk₂]
    dsimp only
    rcases hr : readInto (file n).content b.payload reads 0 h₂.byte with ⟨e | total,mem⟩
    · exact ⟨_,_,rfl,hfs _ rfl _,(Live.free (hl₂.write mem) hb).close hd n⟩
    have hclosed:=Live.close (s:=⟨_,s.fs.addRef n⟩) (Set.insert_comm b d live▸hl₂.write mem) hbd n
    dsimp only
    split
    · exact ⟨_,_,rfl,(Kernel.fs_kfree _ _).trans (hfs _ rfl _),hclosed.free hbl⟩
    next htotal =>
    split
    · exact ⟨_,_,rfl,(Kernel.fs_kfree _ _).trans (hfs _ rfl _),hclosed.free hbl⟩
    next image hv =>
    obtain ⟨-,-,-,hdata,hfsize⟩:=validate_ok hv
    refine ⟨_,_,rfl,hfs _ rfl _,b,hbl,hclosed,hdata,hfsize▸hsize,n,rfl,hfsize.symm,fun i c hc=>?_⟩
    rw [hdata,byte_close]
    refine readInto_spec (fun _ h=>absurd h (Nat.not_lt_zero _)) hr i ?_ c hc
    rw [not_not.mp htotal]
    exact (List.getElem?_eq_some_iff.mp hc).1

def zeros (_ : ℕ) : File:=⟨List.replicate 64 0,Nat.lt_of_sub_pos (Nat.succ_pos _)⟩

def rootOnly : Fs:=⟨[1],fun _=>⟨[],.file,none,none,none,1⟩,some 1⟩

/-- A load whose second read fails. -/
theorem load_balanced_failing : ∃(h : Heap Unit) (live : Set Block),Live h live ∧ ∃r s',
    Kernel.load endless zeros [.ok 10,.error .ioError] none [slash] ⟨h,rootOnly⟩=some (r,s') ∧
    Balanced zeros (rootOnly.resolveInternal none [slash]) ⟨h,rootOnly⟩ live r s':=by
  obtain ⟨h,bs,-,hb⟩:=init_spec endless (fun _=>⟨0,false,none,none,0⟩) (fun _=>0) ()
  have hl : Live h (used bs):=⟨bs,hb,rfl⟩
  exact ⟨h,used bs,hl,load_balanced endless zeros _ none [slash] ⟨h,rootOnly⟩ hl fun _=>Nat.le_of_ble_eq_true rfl⟩

end Knail.Elf
