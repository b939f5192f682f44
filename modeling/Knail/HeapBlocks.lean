import Knail.KernelHeap
import Knail.Tilings

/-!
# The heap as a list of blocks

The abstract heap is the list of its blocks in address order. `Blocks h bs` says that the
headers in memory represent `bs`, doubly linked, and that the blocks tile the mapped part
of the heap. Each allocator step is an edit of this list.
-/
namespace Knail.KernelHeap

open List

structure Block where
  addr : ℕ
  size : ℕ
  free : Bool
  deriving DecidableEq, Repr

variable {β : Type} {h : Heap β} {p n : Option ℕ} {b : Block} {bs l r : List Block}
  {header header' : ℕ→BlockHeader}

def Block.stop (b : Block) : ℕ:=b.addr+headerSize+b.size

def Block.payload (b : Block) : ℕ:=b.addr+headerSize

/-- The address of the first block, or what follows an empty list. -/
def first : List Block→Option ℕ→Option ℕ
  | [], n=>n
  | b::_, _=>some b.addr

/-- The address of the last block, or what precedes an empty list. -/
def last : Option ℕ→List Block→Option ℕ
  | p, []=>p
  | _, b::bs=>last (some b.addr) bs

/-- The headers of a stretch of the list between the pointers `p` and `n`. -/
def Rep (header : ℕ→BlockHeader) : Option ℕ→List Block→Option ℕ→Prop
  | _, [], _=>True
  | p, b::bs, n=>header b.addr=⟨b.size,b.free,first bs n,p,heapMagic⟩ ∧ Rep header (some b.addr) bs n

/-- The memory represents the block list `bs`. -/
structure Blocks (h : Heap β) (bs : List Block) : Prop where
  head : h.head=first bs none
  rep : Rep h.header none bs none
  tiles : Tiles Block.addr Block.stop heapStart bs h.heapEnd
  bound : h.heapEnd≤heapMax

theorem Block.addr_lt_stop (b : Block) : b.addr<b.stop:=by
  simp only [Block.stop,headerSize]
  omega

theorem first_append (l r : List Block) (n : Option ℕ) : first (l++r) n=first l (first r n):=by
  cases l <;> rfl

theorem first_ne {x : ℕ} (hx : x∉bs.map Block.addr) : first bs none≠some x:=by
  cases bs with
  | nil=>simp [first]
  | cons c r=>
    rintro ⟨⟩
    simp at hx

theorem last_append (p : Option ℕ) (l r : List Block) : last p (l++r)=last (last p l) r:=by
  induction l generalizing p with
  | nil=>rfl
  | cons b l ih=>exact ih _

namespace Rep

theorem append_iff : Rep header p (l++r) n↔Rep header p l (first r n) ∧ Rep header (last p l) r n:=by
  induction l generalizing p with
  | nil=>simp [Rep,last]
  | cons b l ih=>simp only [cons_append,Rep,first_append,last,ih,and_assoc]

theorem congr (hr : Rep header p bs n) (he : ∀a∈bs.map Block.addr,header' a=header a) : Rep header' p bs n:=by
  induction bs generalizing p with
  | nil=>trivial
  | cons b bs ih=>
    refine ⟨(he b.addr (by simp)).trans hr.1,ih hr.2 fun a ha=>he a ?_⟩
    exact mem_cons_of_mem _ ha

theorem header_eq (hr : Rep header p (l++b::r) n) :
    header b.addr=⟨b.size,b.free,first r n,last p l,heapMagic⟩:=(append_iff.mp hr).2.1

theorem magic (hr : Rep header p bs n) (hb : b∈bs) : (header b.addr).magic=heapMagic:=by
  obtain ⟨l,r,rfl⟩:=append_of_mem hb
  rw [hr.header_eq]

theorem path (hr : Rep header p bs n) : Path (fun a=>(header a).next) (first bs n) (bs.map Block.addr) n:=by
  induction bs generalizing p with
  | nil=>rfl
  | cons b bs ih=>
    refine ⟨rfl,?_⟩
    change Path _ (header b.addr).next _ _
    rw [hr.1]
    exact ih hr.2

end Rep

theorem header_modify (h : Heap β) (a : ℕ) (f : BlockHeader→BlockHeader) (x : ℕ) :
    (h.modify a f).header x=if x=a then f (h.header a) else h.header x:=by
  simp [Heap.modify,Function.update_apply]

theorem header_modify_of_ne {a x : ℕ} (f : BlockHeader→BlockHeader) (hx : x≠a) :
    (h.modify a f).header x=h.header x:=by rw [header_modify,if_neg hx]

theorem header_setPrev_of_ne {v x : ℕ} (hx : p≠some x) : (h.setPrev p v).header x=h.header x:=by
  cases p with
  | none=>rfl
  | some a=>
    have hne : x≠a:=fun e=>hx (congrArg some e.symm)
    rw [Heap.setPrev,header_modify_of_ne _ hne]

theorem Rep.setPrev (hr : Rep h.header p bs none) (hn : (bs.map Block.addr).Nodup) (v : ℕ) :
    Rep (h.setPrev (first bs none) v).header (some v) bs none:=by
  cases bs with
  | nil=>trivial
  | cons b bs=>
    rw [map_cons,nodup_cons] at hn
    refine ⟨?_,hr.2.congr fun a ha=>?_⟩
    · rw [first,Heap.setPrev,header_modify,if_pos rfl,hr.1]
    · exact header_setPrev_of_ne fun e=>hn.1 (Option.some.inj e▸ha)

@[simp] theorem heapEnd_setPrev (h : Heap β) (p : Option ℕ) (v : ℕ) : (h.setPrev p v).heapEnd=h.heapEnd:=by
  cases p <;> rfl

@[simp] theorem head_setPrev (h : Heap β) (p : Option ℕ) (v : ℕ) : (h.setPrev p v).head=h.head:=by
  cases p <;> rfl

namespace Blocks

theorem nodup (hb : Blocks h bs) : (bs.map Block.addr).Nodup:=hb.tiles.nodup_start

theorem bounds (hb : Blocks h bs) (hm : b∈bs) : heapStart≤b.addr ∧ b.stop≤h.heapEnd:=by
  have:=hb.tiles.bounds.2 b hm
  exact ⟨this.1,this.2.2⟩

theorem length_lt_fuel (hb : Blocks h bs) : bs.length<h.fuel:=by
  have hk:=hb.tiles.length_mul_le (k:=headerSize) fun x=>by simp [Block.stop]
  have : bs.length≤(h.heapEnd-heapStart)/headerSize:=by
    rw [Nat.le_div_iff_mul_le (by decide)]
    omega
  simp only [Heap.fuel]
  omega

theorem header_eq (hb : Blocks h (l++b::r)) :
    h.header b.addr=⟨b.size,b.free,first r none,last none l,heapMagic⟩:=hb.rep.header_eq

theorem notMem (hb : Blocks h (l++b::r)) :
    b.addr∉l.map Block.addr ∧ b.addr∉r.map Block.addr ∧ (r.map Block.addr).Nodup ∧
    ∀a∈l.map Block.addr,a∉r.map Block.addr:=by
  have hn:=hb.nodup
  rw [map_append,map_cons,nodup_append,nodup_cons] at hn
  refine ⟨fun hm=>hn.2.2 _ hm _ (by simp) rfl,hn.2.1.1,hn.2.1.2,fun a ha hr=>?_⟩
  exact hn.2.2 _ ha _ (mem_cons_of_mem _ hr) rfl

theorem walk_eq (hb : Blocks h bs) (stop : ℕ→Bool) :
    walk h.next stop h.fuel h.head=some ((bs.map Block.addr).find? stop):=by
  refine walk_eq_find? ?_ (by simpa using hb.length_lt_fuel)
  rw [hb.head]
  exact hb.rep.path

theorem setBlock {h' : Heap β} {b' : Block} (hb : Blocks h (l++b::r)) (ha : b'.addr=b.addr)
    (hs : b'.size=b.size) (hhead : h'.head=h.head) (hend : h'.heapEnd=h.heapEnd)
    (hself : h'.header b.addr=⟨b'.size,b'.free,first r none,last none l,heapMagic⟩)
    (hother : ∀a,a≠b.addr→h'.header a=h.header a) : Blocks h' (l++b'::r):=by
  obtain ⟨hl,hr,-,-⟩:=hb.notMem
  have hstop : b'.stop=b.stop:=by simp only [Block.stop,ha,hs]
  obtain ⟨hrl,hrb,hrr⟩:=Rep.append_iff.mp hb.rep
  refine ⟨?_,Rep.append_iff.mpr ⟨?_,?_,?_⟩,?_,hend▸hb.bound⟩
  · rw [hhead,hb.head,first_append,first_append,first,first,ha]
  · rw [first,ha]
    exact hrl.congr fun a hm=>hother a (ne_of_mem_of_not_mem hm hl)
  · rw [ha]
    exact hself
  · rw [ha]
    exact hrr.congr fun a hm=>hother a (ne_of_mem_of_not_mem hm hr)
  rw [hend]
  obtain ⟨mid,h1,h2⟩:=Tiles.append_iff.mp hb.tiles
  refine h1.append ⟨ha.trans h2.1,b'.addr_lt_stop,?_⟩
  rw [hstop]
  exact h2.2.2

theorem setFree (hb : Blocks h (l++b::r)) (v : Bool) :
    Blocks (h.modify b.addr ({· with free:=v})) (l++{b with free:=v}::r):=by
  refine hb.setBlock rfl rfl rfl rfl ?_ fun a ha=>?_
  · rw [header_modify,if_pos rfl,hb.header_eq]
  · rw [header_modify_of_ne _ ha]

/-- Cutting a block leaves its first part in place, followed by a free block. -/
theorem split (hb : Blocks h (l++b::r)) {size : ℕ} (hs : size≤heapMax-heapStart) (hle : size≤b.size) :
    ∃size' r',Blocks (split size b.addr h) (l++⟨b.addr,size',b.free⟩::r') ∧ size ≤ size' ∧
    (r'=r ∨ ∃c,c.free=true ∧ r'=c::r):=by
  have hheader:=hb.header_eq
  have hbound:=hb.bounds (b:=b) (by simp)
  have hmax:=hb.bound
  simp only [Block.stop,heapStart,heapMax,headerSize] at hbound hmax hs
  have hcond : u64 (size+headerSize+minSplit)=size+72:=by
    simp only [headerSize,minSplit]
    exact u64_of_lt (by omega)
  by_cases hc : size+72≤b.size
  swap
  · refine ⟨b.size,r,?_,hle,.inl rfl⟩
    simpa [KernelHeap.split,hcond,hheader,hc] using hb
  have hnew : u64 (b.addr+headerSize+size)=b.addr+40+size:=
    u64_of_lt (by simp only [headerSize]; omega)
  have hrest : usub64 (usub64 b.size size) headerSize=b.size-size-40:=by
    rw [usub64_of_le (by omega) hle,usub64_of_le (by omega) (by simp only [headerSize]; omega),headerSize]
  obtain ⟨hbl,hbr,hrn,hlr⟩:=hb.notMem
  obtain ⟨hrl,-,hrr⟩:=Rep.append_iff.mp hb.rep
  obtain ⟨mid,ht1,ht2,-,ht3⟩:=Tiles.append_iff.mp hb.tiles
  let new : Block:=⟨b.addr+40+size,b.size-size-40,true⟩
  -- the new header lies inside the old payload, so it is nobody's header
  have hnl : new.addr∉l.map Block.addr:=by
    intro hm
    obtain ⟨c,hc,he⟩:=mem_map.mp hm
    have:=ht1.bounds.2 c hc
    simp only [new] at he
    omega
  have hnr : new.addr∉r.map Block.addr:=by
    intro hm
    obtain ⟨c,hcr,he⟩:=mem_map.mp hm
    have:=(ht3.bounds.2 c hcr).1
    simp only [new,Block.stop,headerSize] at he this
    omega
  have hnb : b.addr≠new.addr:=by
    simp only [new]
    omega
  refine ⟨size,new::r,?_,Nat.le_refl _,.inr ⟨new,rfl,rfl⟩⟩
  simp only [KernelHeap.split,hheader,hcond,hc,if_true,hnew,hrest]
  set h1:=h.modify (b.addr+40+size) fun _=>
    ⟨b.size-size-40,true,first r none,some b.addr,heapMagic⟩ with hh1
  have h1' (x : ℕ) (hx : x≠new.addr) : h1.header x=h.header x:=by
    rw [hh1,header_modify_of_ne _ hx]
  refine ⟨?_,Rep.append_iff.mpr ⟨?_,?_,?_,?_⟩,?_,?_⟩
  · change (h1.setPrev (first r none) _).head=_
    rw [head_setPrev,first_append]
    exact hb.head.trans (first_append _ _ _)
  · refine hrl.congr fun a ha=>?_
    rw [header_modify_of_ne _ (ne_of_mem_of_not_mem ha hbl),header_setPrev_of_ne (first_ne (hlr a ha)),
      h1' a (ne_of_mem_of_not_mem ha hnl)]
  · rw [header_modify,if_pos rfl,header_setPrev_of_ne (first_ne hbr),h1' _ hnb,hheader]
    rfl
  · rw [header_modify_of_ne _ (Ne.symm hnb),header_setPrev_of_ne (first_ne hnr),hh1,header_modify,if_pos rfl]
  · have hrr1:=hrr.congr fun a ha=>
      h1' a (ne_of_mem_of_not_mem ha hnr)
    refine (hrr1.setPrev hrn new.addr).congr fun a ha=>?_
    rw [header_modify_of_ne _ (ne_of_mem_of_not_mem ha hbr)]
  · change Tiles _ _ _ _ (h1.setPrev (first r none) _).heapEnd
    rw [heapEnd_setPrev]
    refine ht1.append ⟨ht2,Block.addr_lt_stop _,rfl,Block.addr_lt_stop _,?_⟩
    have : new.stop=b.stop:=by
      simp only [new,Block.stop,headerSize]
      omega
    rw [this]
    exact ht3
  · change (h1.setPrev (first r none) _).heapEnd≤_
    rw [heapEnd_setPrev]
    exact hb.bound

/-- Merging a free block with a free successor. -/
theorem merge {c : Block} (hb : Blocks h (l++b::c::r)) (hbf : b.free=true) (hcf : c.free=true) :
    Blocks (coalesce (some b.addr) h) (l++⟨b.addr,b.size+40+c.size,true⟩::r):=by
  have hbh : h.header b.addr=⟨b.size,b.free,some c.addr,last none l,heapMagic⟩:=hb.header_eq
  have hc : Blocks h ((l++[b])++c::r):=by simpa using hb
  have hch:=hc.header_eq
  have hmax:=hb.bound
  have hbound:=hb.bounds (b:=c) (by simp)
  obtain ⟨mid,ht1,ht2,-,ht3,-,ht4⟩:=Tiles.append_iff.mp hb.tiles
  have hmid:=ht1.bounds.1
  simp only [Block.stop,heapStart,heapMax,headerSize] at hbound hmax ht3 hmid
  have hsize : u64 (b.size+headerSize+c.size)=b.size+40+c.size:=
    u64_of_lt (by simp only [headerSize]; omega)
  obtain ⟨hbl,hbr,-,hlr⟩:=hb.notMem
  obtain ⟨-,-,hrn,-⟩:=hc.notMem
  obtain ⟨hrl,-,-,hrr⟩:=Rep.append_iff.mp hb.rep
  rw [map_cons,mem_cons,not_or] at hbr
  have hco : coalesce (some b.addr) h=(h.modify b.addr fun x=>
      {x with size:=u64 (x.size+headerSize+c.size),next:=first r none}).setPrev (first r none) b.addr:=by
    simp [coalesce,Heap.next,hbh,hbf,hch,hcf]
  rw [hco]
  set h1:=h.modify b.addr fun x=>{x with size:=u64 (x.size+headerSize+c.size),next:=first r none}
    with hh1
  have h1' (x : ℕ) (hx : x≠b.addr) : h1.header x=h.header x:=by
    rw [hh1,header_modify_of_ne _ hx]
  refine ⟨?_,Rep.append_iff.mpr ⟨?_,?_,?_⟩,?_,?_⟩
  · rw [head_setPrev,first_append]
    exact hb.head.trans (first_append _ _ _)
  · refine hrl.congr fun a ha=>?_
    have har : a∉r.map Block.addr:=fun hm=>hlr a ha (mem_cons_of_mem _ hm)
    rw [header_setPrev_of_ne (first_ne har),h1' a (ne_of_mem_of_not_mem ha hbl)]
  · rw [header_setPrev_of_ne (first_ne hbr.2),hh1,header_modify,if_pos rfl,hbh,hbf]
    exact congrArg (fun s=>BlockHeader.mk s true (first r none) (last none l) heapMagic) hsize
  · have hrr1:=hrr.congr fun a ha=>
      h1' a (ne_of_mem_of_not_mem ha hbr.2)
    exact hrr1.setPrev hrn b.addr
  · rw [heapEnd_setPrev]
    refine ht1.append ⟨ht2,Block.addr_lt_stop _,?_⟩
    have : (⟨b.addr,b.size+40+c.size,true⟩ : Block).stop=c.stop:=by
      simp only [Block.stop,headerSize]
      omega
    rw [this]
    exact ht4
  · rw [heapEnd_setPrev]
    exact hb.bound

theorem coalesce_cases (hb : Blocks h (l++b::r)) : (∃c r',b.free=true ∧ c.free=true ∧ r=c::r' ∧
    Blocks (coalesce (some b.addr) h) (l++⟨b.addr,b.size+40+c.size,true⟩::r')) ∨
    (coalesce (some b.addr) h=h ∧ ∀c r',r=c::r'→b.free=true→c.free=false):=by
  have hbh:=hb.header_eq
  by_cases hbf : b.free=true
  swap
  · exact .inr ⟨by simp [coalesce,hbh,hbf],fun _ _ _ h=>absurd h hbf⟩
  cases r with
  | nil=>exact .inr ⟨by simp [coalesce,Heap.next,hbh,first],by simp⟩
  | cons c r=>
    by_cases hcf : c.free=true
    · exact .inl ⟨c,r,hbf,hcf,rfl,hb.merge hbf hcf⟩
    have hc : Blocks h ((l++[b])++c::r):=by simpa using hb
    refine .inr ⟨?_,?_⟩
    · simp [coalesce,Heap.next,hbh,first,hc.header_eq,hcf]
    · rintro _ _ ⟨⟩ _
      simpa using hcf

/-- A block written at `heap_end` and linked behind the last one. -/
theorem append {b : Block} {e : ℕ} (hb : Blocks h bs) (ha : b.addr=h.heapEnd) (he : e=b.stop) (hmax : e≤heapMax) :
    ∃h',append b.addr ({h with heapEnd:=e}.modify b.addr fun _=>
        ⟨b.size,b.free,none,none,heapMagic⟩)=some h' ∧ Blocks h' (bs++[b]):=by
  set h1 : Heap β:={h with heapEnd:=e}.modify b.addr fun _=>⟨b.size,b.free,none,none,heapMagic⟩
    with hh1
  have hself : h1.header b.addr=⟨b.size,b.free,none,none,heapMagic⟩:=by
    rw [hh1,header_modify,if_pos rfl]
  have hnew : b.addr∉bs.map Block.addr:=by
    intro hm
    obtain ⟨c,hc,hcb⟩:=mem_map.mp hm
    have:=(hb.bounds hc).2
    have:=c.addr_lt_stop
    omega
  have hrep : Rep h1.header none bs none:=hb.rep.congr fun a hm=>by
    rw [hh1,header_modify_of_ne _ (ne_of_mem_of_not_mem hm hnew)]
  have htiles : Tiles Block.addr Block.stop heapStart (bs++[b]) e:=
    hb.tiles.append ⟨ha,b.addr_lt_stop,he.symm⟩
  have hhead : h1.head=first bs none:=hb.head
  rcases eq_nil_or_concat bs with rfl | ⟨l,c,rfl⟩
  · refine ⟨{h1 with head:=some b.addr},?_,rfl,⟨hself,trivial⟩,htiles,hmax⟩
    simp [append,hhead,first]
  rw [concat_eq_append] at *
  obtain ⟨x,hx⟩ : ∃x,h1.head=some x:=by
    rw [hhead]
    cases l <;> exact ⟨_,rfl⟩
  have hpath : Path h1.next h1.head (l.map Block.addr++[c.addr]) none:=by
    rw [hhead,←map_singleton,←map_append]
    exact hrep.path
  have hfuel : (l.map Block.addr++[c.addr]).length≤h1.fuel:=by
    have h0:=hb.length_lt_fuel
    have : h.heapEnd≤e:=by
      rw [he,←ha]
      exact Nat.le_of_lt b.addr_lt_stop
    have:=Nat.div_le_div_right (c:=headerSize) (Nat.sub_le_sub_right this heapStart)
    simp only [length_append,length_map,length_singleton,Heap.fuel] at h0 ⊢
    change _≤(e-heapStart)/headerSize+1
    omega
  have hwalk:=walk_eq_of_find? hpath hpath.find?_isNone hfuel
  have hcb : c.addr≠b.addr:=ne_of_mem_of_not_mem (by simp) hnew
  have hnl:=hb.notMem.1
  have hch:=(Rep.append_iff.mp hrep).2.1
  have hlb : b.addr∉l.map Block.addr:=fun hm=>hnew (by simp [mem_map.mp hm])
  refine ⟨(h1.modify c.addr ({· with next:=some b.addr})).modify b.addr ({· with prev:=some c.addr}),
    ?_,?_,?_,htiles,hmax⟩
  · rw [hx] at hwalk
    simp [append,hx,hwalk]
  · change h1.head=_
    rw [hhead,first_append,first_append,first_append]
    rfl
  rw [append_assoc]
  refine Rep.append_iff.mpr ⟨(Rep.append_iff.mp hrep).1.congr fun a hm=>?_,?_,?_,trivial⟩
  · rw [header_modify_of_ne _ (ne_of_mem_of_not_mem hm hlb),header_modify_of_ne _ (ne_of_mem_of_not_mem hm hnl)]
  · rw [header_modify_of_ne _ hcb,header_modify,if_pos rfl,hch]
    rfl
  · rw [header_modify,if_pos rfl,header_modify_of_ne _ (Ne.symm hcb),hself]
    rfl

end Blocks

end Knail.KernelHeap
