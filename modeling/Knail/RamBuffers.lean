import Knail.FileAccess
import Knail.HeapRequests

/-!
# The buffer of a memory file

`ramfs_write` adds position and length, doubles the sum and asks `kmalloc` for as much, all in 64 bits. The bytes that
it copies lie inside the buffer exactly when neither computation wraps around.
-/
namespace Knail.Vfs
open KernelHeap

/-- The size that `ramfs_write` asks `kmalloc` for. -/
def newCapacity (stop : ℕ) : ℕ:=if u64 (stop*2)<64 then 64 else u64 (stop*2)

theorem newCapacity_lt : newCapacity stop<18446744073709551616:=by
  have hlt : u64 (stop*2)<18446744073709551616:=Nat.mod_lt _ (by decide)
  grind [newCapacity]

theorem newCapacity_of_le (h : 2*stop≤18446744073709547472) : newCapacity stop=if 2*stop<64 then 64 else 2*stop:=by
  rw [newCapacity,u64_of_lt (by omega),Nat.mul_comm]

/-- What is known of the `b` bytes behind a pointer that `kmalloc` returned for a request of `n`:
they lie in the heap, and they are enough unless the size of the request wraps around with the header. -/
structure Granted (n b : ℕ) : Prop where
  inHeap : b<1073741824
  enough : n≤18446744073709547472→n≤b

theorem Granted.covers_iff (hg : Granted (newCapacity stop) b) (hlt : stop<18446744073709551616) :
    stop≤newCapacity stop ∧ newCapacity stop≤b↔2*stop≤18446744073709547472:=by
  obtain ⟨hin,henough⟩:=hg
  constructor
  · by_cases hhalf : 9223372036854775808 ≤ stop
    · omega
    omega
  · intro hle
    have hnew:=newCapacity_of_le hle
    grind

theorem granted_of_kmalloc {tables : ℕ→ℕ→FrameAllocator.Pmm→ℕ} {h h' : Heap Frames} {bs : List Block} {n a : ℕ}
    (hb : Blocks h bs) (hn : 1≤n) (hle : n≤18446744073709547472)
    (hk : kmalloc (frameBacking tables) n h=some (some a,h')) :
    ∃bs' b,Blocks h' bs' ∧ b∈bs' ∧ a=b.payload ∧ Granted n b.size:=by
  have hmax : n≤heapMax-heapStart:=by
    by_contra hlo
    have hrefused : Refused (frameBacking tables) n h:=refused_of_le hb (by omega) hle
    obtain ⟨h1,hr,-⟩:=hrefused
    simp [hk] at hr
  obtain ⟨r,h1,hr,⟨rfl,-⟩ | ⟨bs',b,rfl,hb',hd⟩⟩:=kmalloc_spec (B:=frameBacking tables) hb hn hmax
  · simp [hk] at hr
  obtain ⟨rfl,rfl⟩ : a=b.payload ∧ h'=h1:=by simpa [hk] using hr
  have hm : b∈used bs':=hd.used_eq▸Set.mem_insert b _
  exact ⟨bs',b,hb',hm.1,rfl,hb'.size_lt hm.1,fun _=>hd.size_le⟩

/-- What a write may do: fail and leave the node as it was, or copy only bytes that lie in the
buffers, those of the old buffer included where the write makes a new one, and leave a size within the
buffer. The block that `kmalloc` returns has `blk` bytes, and is null if there is none. -/
def WriteContained (blk : Option ℕ) (offset : ℕ) (src : List UInt8) (v : VNode) : Prop:=
  match ramfsWrite blk.isSome offset src v with
  | (.error _,v')=>v'=v
  | (.ok _,v')=>
    (∀i<src.length,u64 (offset+i)<v'.dataCapacity) ∧ v'.size≤v'.dataCapacity ∧
      (v.dataCapacity<u64 (offset+src.length) →
        v.size≤v.dataCapacity ∧ v.size≤v'.dataCapacity ∧ ∀b∈blk,v'.dataCapacity≤b)

variable {v : VNode} {blk : Option ℕ} {offset : ℕ} {src : List UInt8} {stop b : ℕ}

theorem writeContained_of_null (h : v.dataCapacity<u64 (offset+src.length)) : WriteContained none offset src v:=by
  simp [WriteContained,ramfsWrite,h]

theorem writeContained_of_le (h : u64 (offset+src.length)≤v.dataCapacity) : WriteContained blk offset src v ↔
    (∀i<src.length,u64 (offset+i)<v.dataCapacity) ∧ v.size≤v.dataCapacity:=by
  have hsize : (v.store offset (u64 (offset+src.length)) src).size≤v.dataCapacity↔v.size≤v.dataCapacity:=by
    simp only [VNode.store]
    grind
  have hn : ¬v.dataCapacity<u64 (offset+src.length):=by omega
  simp only [WriteContained,ramfsWrite,if_neg hn]
  simpa [hn,VNode.store] using fun _=>hsize

theorem writeContained_of_lt (h : v.dataCapacity<u64 (offset+src.length)) : WriteContained (some b) offset src v ↔
    (∀i<src.length,u64 (offset+i)<newCapacity (u64 (offset+src.length))) ∧
    u64 (offset+src.length)≤newCapacity (u64 (offset+src.length)) ∧
    v.size≤v.dataCapacity ∧ newCapacity (u64 (offset+src.length))≤b:=by
  have hcap : ((v.regrow (u64 (offset+src.length))).store offset (u64 (offset+src.length)) src).dataCapacity =
      newCapacity (u64 (offset+src.length)):=rfl
  have hsize : ((v.regrow (u64 (offset+src.length))).store offset (u64 (offset+src.length)) src).size =
      if v.size<u64 (offset+src.length) then u64 (offset+src.length) else v.size:=rfl
  simp only [WriteContained,ramfsWrite,if_pos h,Option.isSome_some,if_true,hcap,hsize,Option.mem_some_iff,forall_eq']
  grind

theorem exists_top_byte (hoff : offset<18446744073709551616) (h : 18446744073709551616≤offset+src.length) :
    ∃i<src.length,u64 (offset+i)=18446744073709551615:=
  ⟨18446744073709551615-offset,by omega,by unfold u64; omega⟩

/-- A write is contained exactly if the node is, and it is refused for lack of memory, or neither the
end of the bytes nor, where a new buffer is needed, twice that with a block header wraps around. -/
theorem ramfs_write_contained_iff (hcap : v.dataCapacity<18446744073709551616) (hoff : offset<18446744073709551616)
    (hblk : ∀b∈blk,Granted (newCapacity (u64 (offset+src.length))) b) : WriteContained blk offset src v ↔
    v.dataCapacity<u64 (offset+src.length) ∧ blk=none ∨
    v.size≤v.dataCapacity ∧ offset+src.length<18446744073709551616 ∧
    (offset+src.length≤v.dataCapacity ∨ 2*(offset+src.length)≤18446744073709547472):=by
  by_cases hwrap : offset+src.length<18446744073709551616
  · have hstop:=u64_of_lt hwrap
    have hbyte : ∀i<src.length,u64 (offset+i)=offset+i:=fun i hi=>u64_of_lt (by omega)
    by_cases hle : offset+src.length≤v.dataCapacity
    · rw [writeContained_of_le (by omega)]
      grind
    have hlt : v.dataCapacity<u64 (offset+src.length):=by omega
    cases blk with
    | none=>simp [writeContained_of_null hlt,hlt]
    | some b=>
      have hg:=hblk b rfl
      have hcovers:=hg.covers_iff (by omega)
      rw [writeContained_of_lt hlt]
      grind
  · have htop : ∀c,c<18446744073709551616→¬ ∀i<src.length,u64 (offset+i)<c:=by
      intro c hc hall
      obtain ⟨i,hi,htop⟩ : ∃i<src.length,u64 (offset+i)=18446744073709551615:=
        exists_top_byte hoff (by omega)
      have:=hall i hi
      omega
    by_cases hle : u64 (offset+src.length)≤v.dataCapacity
    · rw [writeContained_of_le hle]
      grind
    have hlt : v.dataCapacity<u64 (offset+src.length):=by omega
    cases blk with
    | none=>simp [writeContained_of_null hlt,hlt]
    | some b=>
      rw [writeContained_of_lt hlt]
      simp [htop _ newCapacity_lt,hwrap]

theorem ramfs_write_contained_small : WriteContained (some 64) 10 [65,66] emptyFile:=
  (ramfs_write_contained_iff (by decide) (by decide) fun b hb=>by
    cases hb
    exact ⟨by decide,fun _=>by decide⟩).2 (.inr (by decide))

/-- `seek` sets the position of an empty file to the largest signed number. Twice the end of a write of
one byte there is zero in 64 bits, a buffer of 64 bytes is allocated for it, and the byte is stored far behind. -/
theorem seek_then_write_escapes : (emptyFile.descriptor oWrite).seek emptyFile 9223372036854775807 0 =
    (.ok 9223372036854775807,{emptyFile.descriptor oWrite with offset:=9223372036854775807}) ∧
    newCapacity (u64 (9223372036854775807+1))=64 ∧ Granted 64 64 ∧
    (ramfsWrite true 9223372036854775807 [65] emptyFile).1 = .ok 1 ∧
    ¬WriteContained (some 64) 9223372036854775807 [65] emptyFile:=by
  refine ⟨rfl,rfl,⟨by decide,fun _=>by decide⟩,rfl,fun hc=>?_⟩
  have hbyte:=((writeContained_of_lt (by decide)).1 hc).1 0 (by decide)
  exact absurd hbyte (by decide)

end Knail.Vfs
