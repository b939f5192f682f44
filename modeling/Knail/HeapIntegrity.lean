import Mathlib.Data.Set.Insert
import Knail.HeapBlocks

/-!
# Heap integrity over every sequence of calls

A client calls `kmalloc`, `kfree` and `krealloc` on pointers it holds, while frames may run
out at any point. Every call keeps the block list sound and changes the set of blocks in
use by exactly the block it hands out or takes back.
-/
namespace Knail.KernelHeap

open Function List

variable {β : Type} {B : Backing β} {h : Heap β} {b : Block} {bs l r : List Block} {size n : ℕ} {bs' : List Block}
  {live : ℕ→Option ℕ}

def used (bs : List Block) : Set Block:={b | b∈bs ∧ b.free=false}

theorem used_append (l r : List Block) : used (l++r)=used l ∪ used r:=by
  ext x
  simp [used,or_and_right]

theorem used_cons_of_free (hb : b.free=true) (bs : List Block) : used (b::bs)=used bs:=by
  ext x
  simp only [used,mem_cons,Set.mem_ofPred_eq]
  constructor
  · rintro ⟨rfl | hx,hf⟩
    · simp [hb] at hf
    · exact ⟨hx,hf⟩
  · exact fun hx=>⟨.inr hx.1,hx.2⟩

theorem used_cons (hb : b.free=false) (bs : List Block) : used (b::bs)=insert b (used bs):=by
  ext x
  simp only [used,mem_cons,Set.mem_ofPred_eq,Set.mem_insert_iff]
  constructor
  · rintro ⟨rfl | hx,hf⟩
    · exact .inl rfl
    · exact .inr ⟨hx,hf⟩
  rintro (rfl | hx)
  · exact ⟨.inl rfl,hb⟩
  · exact ⟨.inr hx.1,hx.2⟩

section

variable (hb : Blocks h bs)
include hb

theorem Blocks.congr {h' : Heap β} (hh : h'.header=h.header) (hd : h'.head=h.head)
    (he : h'.heapEnd=h.heapEnd) : Blocks h' bs:=
  ⟨hd.trans hb.head,hh▸hb.rep,he▸hb.tiles,he▸hb.bound⟩

theorem Blocks.eq_of_addr_eq {x y : Block} (hx : x∈bs) (hy : y∈bs)
    (he : x.addr=y.addr) : x=y:=hb.tiles.eq_of_start_eq hx hy he

theorem Blocks.header_of_mem (hm : b∈bs) : (h.header b.addr).magic=heapMagic ∧
    (h.header b.addr).free=b.free ∧ (h.header b.addr).size=b.size:=by
  obtain ⟨l,r,rfl⟩:=append_of_mem hm
  rw [hb.header_eq]
  exact ⟨rfl,rfl,rfl⟩

theorem Blocks.unique (hb' : Blocks h bs') : bs=bs':=by
  have haddr : bs.map Block.addr=bs'.map Block.addr:=by
    have hp:=hb.rep.path
    rw [←hb.head] at hp
    have hp':=hb'.rep.path
    rw [←hb'.head] at hp'
    exact hp.unique_of_none hp'
  have hof {cs : List Block} (hcs : Blocks h cs) {c : Block} (hc : c∈cs) :
      c=⟨c.addr,(h.header c.addr).size,(h.header c.addr).free⟩:=by
    obtain ⟨-,hfree,hsize⟩:=hcs.header_of_mem hc
    rw [hfree,hsize]
  have hmap {cs : List Block} (hcs : Blocks h cs) :
      cs=(cs.map Block.addr).map fun a=>⟨a,(h.header a).size,(h.header a).free⟩:=by
    rw [map_map]
    calc cs=cs.map id:=(map_id cs).symm
      _ = _:=map_congr_left fun c hc=>hof hcs hc
  rw [hmap hb,hmap hb',haddr]

theorem Blocks.u64_payload (hm : b∈bs) : u64 (b.addr+headerSize)=b.payload:=by
  have h1:=(hb.bounds hm).2
  have h2:=hb.bound
  simp only [Block.stop,heapMax] at h1 h2
  exact u64_of_lt (by omega)

theorem Blocks.usub64_payload (hm : b∈bs) : usub64 b.payload headerSize=b.addr:=by
  have h1:=(hb.bounds hm).2
  have h2:=hb.bound
  simp only [Block.stop,heapMax] at h1 h2
  rw [Block.payload,usub64_of_le (by omega) (by omega)]
  omega

end

theorem align16_spec (hn : n≤heapMax-heapStart) : n≤align16 n ∧ align16 n≤heapMax-heapStart:=by
  simp only [heapMax,heapStart] at hn ⊢
  rw [align16,u64_of_lt (by omega)]
  omega

/-- The outcome of handing out a free block: one more block in use, at an address where
none was. -/
structure Handed (bs bs' : List Block) (size : ℕ) (b : Block) : Prop where
  used_eq : used bs'=insert b (used bs)
  size_le : size≤b.size
  inUse : b.free=false
  fresh : ∀x∈used bs,x.addr≠b.addr

theorem Handed.of_found {c : Block} (hh : Handed (l++b::r) bs' size c) (hf : b.free=true)
    (hbs : l++b::r=bs ∨ l=bs ∧ r=[]) (hle : n ≤ size) : Handed bs bs' n c:=by
  rcases hbs with rfl | ⟨rfl,rfl⟩
  · exact ⟨hh.used_eq,hle.trans hh.size_le,hh.inUse,hh.fresh⟩
  refine ⟨?_,hle.trans hh.size_le,hh.inUse,fun x hx=>hh.fresh x ⟨mem_append_left _ hx.1,hx.2⟩⟩
  rw [hh.used_eq,used_append,used_cons_of_free hf]
  simp [used]

theorem Blocks.handed {size' : ℕ} {r' : List Block} (hb : Blocks h (l++b::r)) (hf : b.free=true)
    (hs : size ≤ size') (hr : r'=r ∨ ∃c,c.free=true ∧ r'=c::r) :
    Handed (l++b::r) (l++⟨b.addr,size',false⟩::r') size ⟨b.addr,size',false⟩ where
  used_eq:=by
    have hr' : used r'=used r:=by
      rcases hr with rfl | ⟨c,hc,rfl⟩
      · rfl
      · exact used_cons_of_free hc r
    rw [used_append,used_append,used_cons rfl,used_cons_of_free hf,hr',Set.union_insert]
  size_le:=hs
  inUse:=rfl
  fresh:=by
    rintro x ⟨hx,hxf⟩ he
    have:=hb.eq_of_addr_eq hx (y:=b) (by simp) he
    simp [this,hf] at hxf

theorem take_spec (hb : Blocks h (l++b::r)) (hs : size≤heapMax-heapStart) (hle : size≤b.size) :
    ∃h' size' r',take size b.addr h=(some b.payload,h') ∧ Blocks h' (l++⟨b.addr,size',false⟩::r') ∧
    size ≤ size' ∧ (r'=r ∨ ∃c,c.free=true ∧ r'=c::r):=by
  obtain ⟨size',r',hsplit,hsize,hr⟩:=hb.split hs hle
  have hp:=hb.u64_payload (b:=b) (by simp)
  simp only [take,hp]
  generalize split size b.addr h=h1 at hsplit ⊢
  exact ⟨_,size',r',rfl,(hsplit.setFree false).congr rfl rfl rfl,hsize,hr⟩

/-- The pages that `expand` maps. -/
def pagesFor (needed : ℕ) : ℕ:=max (u64 (u64 (needed+headerSize)+pageSize-1)/pageSize) 1

/-- The list with the block that `expand` writes at the end of the heap. -/
def grown (k : ℕ) (c : β) (h : Heap β) : Option (Heap β):=
  append h.heapEnd ({h with backing:=c,heapEnd:=u64 (h.heapEnd+u64 (k*pageSize))}.modify h.heapEnd fun _=>
    ⟨usub64 (u64 (k*pageSize)) headerSize,true,none,none,heapMagic⟩)

theorem expand_cases (B : Backing β) (n : ℕ) (h : Heap β) :
    heapMax<u64 (h.heapEnd+u64 (pagesFor n*pageSize)) ∧ expand B n h=some (none,h) ∨
    ¬heapMax<u64 (h.heapEnd+u64 (pagesFor n*pageSize)) ∧
    ((∃c,mapPages B h.heapEnd (pagesFor n) 0 h.backing=(false,c) ∧
    expand B n h=some (none,{h with backing:=c})) ∨
          ∃c,mapPages B h.heapEnd (pagesFor n) 0 h.backing=(true,c) ∧
            expand B n h=(grown (pagesFor n) c h).map (Prod.mk (some h.heapEnd))):=by
  by_cases hmax : heapMax<u64 (h.heapEnd+u64 (pagesFor n*pageSize))
  · exact .inl ⟨hmax,if_pos hmax⟩
  refine .inr ⟨hmax,?_⟩
  unfold pagesFor at hmax ⊢
  simp only [expand,if_neg hmax]
  rcases hm : mapPages B h.heapEnd (max (u64 (u64 (n+headerSize)+pageSize-1)/pageSize) 1) 0 h.backing with ⟨ok,c⟩
  cases ok with
  | false=>exact .inl ⟨c,rfl,rfl⟩
  | true=>
    refine .inr ⟨c,rfl,?_⟩
    simp only [grown]
    cases append h.heapEnd _ <;> rfl

theorem Blocks.grown {k : ℕ} (hb : Blocks h bs) (c : β) (hk : 1≤k) (hfit : h.heapEnd+k*4096≤heapMax) :
    ∃h',grown k c h=some h' ∧ Blocks h' (bs++[⟨h.heapEnd,k*4096-40,true⟩]):=by
  simp only [heapMax] at hfit
  have hspan : u64 (k*pageSize)=k*4096:=u64_of_lt (by simp only [pageSize]; omega)
  have hend : u64 (h.heapEnd+k*4096)=h.heapEnd+k*4096:=u64_of_lt (by omega)
  have hsize : usub64 (k*4096) headerSize=k*4096-40:=
    usub64_of_le (by omega) (by simp only [headerSize]; omega)
  have hb' : Blocks {h with backing:=c} bs:=hb.congr rfl rfl rfl
  have hstop : h.heapEnd+k*4096=(⟨h.heapEnd,k*4096-40,true⟩ : Block).stop:=by
    simp only [Block.stop,headerSize]
    omega
  simp only [KernelHeap.grown,hspan,hend,hsize]
  exact hb'.append rfl hstop (by simp only [heapMax]; omega)

theorem pagesFor_eq (hs : size≤heapMax-heapStart) : pagesFor size=(size+4135)/4096:=by
  simp only [heapMax,heapStart] at hs
  have hbytes : u64 (size+headerSize)=size+40:=u64_of_lt (by simp only [headerSize]; omega)
  have hround : u64 (size+40+pageSize-1)=size+4135:=u64_of_lt (by simp only [pageSize]; omega)
  rw [pagesFor,hbytes,hround,pageSize]
  omega

theorem expand_spec (hb : Blocks h bs) (hs : size≤heapMax-heapStart) :
    ∃r h',expand B size h=some (r,h') ∧ (r=none ∧ Blocks h' bs ∨
    ∃b : Block,r=some b.addr ∧ b.free=true ∧ size≤b.size ∧ Blocks h' (bs++[b])):=by
  have hpages:=pagesFor_eq hs
  rcases expand_cases B size h with ⟨-,he⟩ | ⟨hmax,⟨c,-,he⟩ | ⟨c,-,he⟩⟩
  · exact ⟨none,h,he,.inl ⟨rfl,hb⟩⟩
  · exact ⟨none,_,he,.inl ⟨rfl,hb.congr rfl rfl rfl⟩⟩
  have hbound:=hb.bound
  have hfit : h.heapEnd+pagesFor size*4096≤heapMax:=by
    simp only [heapMax,heapStart] at hs hbound hmax ⊢
    have hspan : u64 (pagesFor size*pageSize)=pagesFor size*4096:=u64_of_lt (by simp only [pageSize]; omega)
    rw [hspan,u64_of_lt (by omega)] at hmax
    omega
  obtain ⟨h',hg,hb'⟩:=hb.grown c (by omega) hfit
  refine ⟨some h.heapEnd,h',by rw [he,hg]; rfl,.inr ⟨_,rfl,rfl,?_,hb'⟩⟩
  change size≤pagesFor size*4096-40
  omega

theorem Blocks.walk_cases (hb : Blocks h bs) (stop : ℕ→Bool) :
    walk h.next stop h.fuel h.head=some none ∧ (∀b∈bs,stop b.addr=false) ∨
    ∃l b r,bs=l++b::r ∧ stop b.addr=true ∧ walk h.next stop h.fuel h.head=some (some b.addr):=by
  rw [hb.walk_eq]
  cases hf : (bs.map Block.addr).find? stop with
  | none=>
    refine .inl ⟨rfl,fun b hb=>?_⟩
    simpa using find?_eq_none.mp hf b.addr (mem_map_of_mem hb)
  | some a=>
    obtain ⟨b,hb,rfl⟩:=mem_map.mp (mem_of_find?_eq_some hf)
    obtain ⟨l,r,rfl⟩:=append_of_mem hb
    exact .inr ⟨l,b,r,rfl,find?_some hf,rfl⟩

theorem kmalloc_found (B : Backing β) (hb : Blocks h bs) (hn : n≠0) :
    (∃l b r,bs=l++b::r ∧ b.free=true ∧ align16 n≤b.size ∧ kmalloc B n h=some (take (align16 n) b.addr h)) ∨
    (∀b∈bs,b.free=true→b.size<align16 n) ∧ kmalloc B n h=(expand B (align16 n) h).map fun e=>
    e.1.elim (none,e.2) fun blk=>take (align16 n) blk e.2:=by
  simp only [kmalloc,if_neg hn]
  rcases hb.walk_cases fun p=>(h.header p).magic != heapMagic || (h.header p).free &&
      decide (align16 n≤(h.header p).size) with ⟨hw,hno⟩ | ⟨l,b,r,rfl,hfit,hw⟩
  · refine .inr ⟨fun b hm hf=>?_,?_⟩
    · have:=hno b hm
      simpa [hb.header_of_mem hm,hf] using this
    rw [hw]
    cases expand B (align16 n) h with
    | none=>rfl
    | some e=>
      obtain ⟨_ | blk,h'⟩:=e
      · rfl
      · rfl
  · obtain ⟨hmagic,hfree,hsize⟩:=hb.header_of_mem (b:=b) (by simp)
    simp only [hmagic,hfree,hsize,bne_self_eq_false,Bool.false_or,Bool.and_eq_true,decide_eq_true_eq] at hfit
    exact .inl ⟨l,b,r,rfl,hfit.1,hfit.2,by rw [hw]; simp [hmagic]⟩

theorem kmalloc_cases (hb : Blocks h bs) (hn : 1≤n) (hle : n≤heapMax-heapStart) :
    (∃h',kmalloc B n h=some (none,h') ∧ Blocks h' bs) ∨
    ∃h1 l b r,kmalloc B n h=some (take (align16 n) b.addr h1) ∧ Blocks h1 (l++b::r) ∧ b.free=true ∧
    align16 n≤b.size ∧ (l++b::r=bs ∨ l=bs ∧ r=[]):=by
  rcases kmalloc_found B hb (Nat.ne_of_gt hn) with ⟨l,b,r,rfl,hf,hfit,hk⟩ | ⟨-,hk⟩
  · exact .inr ⟨h,l,b,r,hk,hb,hf,hfit,.inl rfl⟩
  obtain ⟨res,h1,hex,⟨rfl,hb1⟩ | ⟨b,rfl,hf,hsb,hb1⟩⟩:=expand_spec hb (align16_spec hle).2
  · exact .inl ⟨h1,by rw [hk,hex]; rfl,hb1⟩
  · exact .inr ⟨h1,bs,b,[],by rw [hk,hex]; rfl,hb1,hf,hsb,.inr ⟨rfl,rfl⟩⟩

theorem kmalloc_spec (hb : Blocks h bs) (hn : 1≤n) (hle : n≤heapMax-heapStart) :
    ∃r h',kmalloc B n h=some (r,h') ∧ (r=none ∧ Blocks h' bs ∨
    ∃bs' b,r=some b.payload ∧ Blocks h' bs' ∧ Handed bs bs' n b):=by
  obtain ⟨hal,halm⟩:=align16_spec hle
  rcases kmalloc_cases hb hn hle with ⟨h',hk,hb'⟩ | ⟨h1,l,b,r,hk,hb1,hf,hsb,hbs⟩
  · exact ⟨none,h',hk,.inl ⟨rfl,hb'⟩⟩
  obtain ⟨h',size',r',htake,hb',hsize,hr⟩:=take_spec hb1 halm hsb
  have hh:=(hb1.handed hf hsize hr).of_found hf hbs hal
  exact ⟨some b.payload,h',by rw [hk,htake],.inr ⟨_,⟨b.addr,size',false⟩,rfl,hb',hh⟩⟩

theorem Blocks.used_release (hb : Blocks h (l++b::r)) (hf : b.free=false) :
    used (l++{b with free:=true}::r)=used (l++b::r) \ {b}:=by
  obtain ⟨hl,hr,-,-⟩:=hb.notMem
  have hne (x : Block) (hx : x∈l ∨ x∈r) : x≠b:=by
    rintro rfl
    rcases hx with hx | hx
    · exact hl (mem_map_of_mem hx)
    · exact hr (mem_map_of_mem hx)
  rw [used_append,used_append,used_cons_of_free rfl,used_cons hf]
  ext x
  constructor
  · rintro (⟨hx,hxf⟩ | ⟨hx,hxf⟩)
    · exact ⟨.inl ⟨hx,hxf⟩,hne x (.inl hx)⟩
    · exact ⟨.inr (.inr ⟨hx,hxf⟩),hne x (.inr hx)⟩
  rintro ⟨hx | hx | hx,hxb⟩
  · exact .inl hx
  · exact absurd hx hxb
  · exact .inr hx

/-- `kfree` merges the block with a free successor and then with a free predecessor. -/
theorem kfree_cases (hb : Blocks h (l++b::r)) (hf : b.free=false) : ∃b' r',b'.free=true ∧
    (b'={b with free:=true} ∧ r'=r ∧ (∀c∈r.head?,c.free=false) ∨ ∃c,c.free=true ∧ r=c::r') ∧
      (Blocks (kfree (some b.payload) h) (l++b'::r') ∧ (∀a∈l.getLast?,a.free=false) ∨
        ∃l' a d,l=l'++[a] ∧ a.free=true ∧ d.free=true ∧
          Blocks (kfree (some b.payload) h) (l'++d::r')):=by
  have hheader:=hb.header_eq
  set h1 : Heap β:=h.modify b.addr ({· with free:=true}) with hh1
  have hb1 : Blocks {h1 with freeCount:=u64 (h1.freeCount+1)} (l++{b with free:=true}::r):=
    (hb.setFree true).congr rfl rfl rfl
  set h2:=coalesce (some b.addr) {h1 with freeCount:=u64 (h1.freeCount+1)} with hh2
  have hkfree : kfree (some b.payload) h=coalesce (h2.header b.addr).prev h2:=by
    simp [kfree,hb.usub64_payload (b:=b) (by simp),hheader,hf,hh1,hh2]
  obtain ⟨b',r',hfree,ha,hnext,hb2⟩ : ∃b' r',b'.free=true ∧ b'.addr=b.addr ∧
      (b'={b with free:=true} ∧ r'=r ∧ (∀c∈r.head?,c.free=false) ∨ ∃c,c.free=true ∧ r=c::r') ∧
      Blocks h2 (l++b'::r'):=by
    rcases hb1.coalesce_cases with ⟨c,r',-,hc,rfl,hb2⟩ | ⟨he,hno⟩
    · exact ⟨⟨b.addr,b.size+40+c.size,true⟩,r',rfl,rfl,.inr ⟨c,hc,rfl⟩,hb2⟩
    refine ⟨{b with free:=true},r,rfl,rfl,.inl ⟨rfl,rfl,fun c hc=>?_⟩,hh2.trans he▸hb1⟩
    obtain ⟨r',rfl⟩:=head?_eq_some_iff.mp hc
    exact hno c r' rfl rfl
  have hprev : (h2.header b.addr).prev=last none l:=by
    rw [←ha,hb2.header_eq]
  refine ⟨b',r',hfree,hnext,?_⟩
  rw [hkfree,hprev]
  rcases eq_nil_or_concat l with rfl | ⟨l,a,rfl⟩
  · exact .inl ⟨hb2,by simp⟩
  rw [concat_eq_append] at *
  rw [last_append]
  have hb3 : Blocks h2 (l++a::b'::r'):=by simpa using hb2
  rcases hb3.coalesce_cases with ⟨c,r'',hfa,-,he,hb4⟩ | ⟨he,hno⟩
  · obtain ⟨rfl,rfl⟩:=List.cons.inj he
    exact .inr ⟨l,a,_,rfl,hfa,rfl,hb4⟩
  refine .inl ⟨?_,?_⟩
  · change Blocks (coalesce (some a.addr) h2) _
    rw [he]
    exact hb2
  intro x hx
  obtain rfl : a=x:=by simpa using hx
  by_contra hfa
  exact absurd (hno b' r' rfl (by simpa using hfa)) (by simp [hfree])

theorem kfree_spec (hb : Blocks h bs) (hm : b∈used bs) :
    ∃bs',Blocks (kfree (some b.payload) h) bs' ∧ used bs'=used bs \ {b}:=by
  obtain ⟨hm,hf⟩:=hm
  obtain ⟨l,r,rfl⟩:=append_of_mem hm
  obtain ⟨b',r',hb',hnext,hres⟩:=kfree_cases hb hf
  have hr : used (b'::r')=used ({b with free:=true}::r):=by
    rw [used_cons_of_free hb',used_cons_of_free rfl]
    rcases hnext with ⟨-,rfl,-⟩ | ⟨c,hc,rfl⟩
    · rfl
    · rw [used_cons_of_free hc]
  rw [←hb.used_release hf,used_append,←hr]
  rcases hres with ⟨hb2,-⟩ | ⟨l',a,d,rfl,ha,hd,hb2⟩
  · exact ⟨_,hb2,used_append _ _⟩
  refine ⟨_,hb2,?_⟩
  rw [used_append,used_append,used_cons_of_free hd,used_cons_of_free hb',used_cons_of_free ha]
  simp [used]

theorem relocate_spec {c : Block} (hb : Blocks h (l++c::r)) (hm : b∈used (l++c::r)) (hf : c.free=true)
    (hs : size≤heapMax-heapStart) (hle : size ≤ c.size) :
    ∃h' bs1 bs' d,relocate size b.payload c.addr h=(some d.payload,h') ∧ Blocks h' bs' ∧
    Handed (l++c::r) bs1 size d ∧ used bs'=used bs1 \ {b}:=by
  obtain ⟨size',r',hsplit,hsize,hr⟩:=(hb.setFree false).split hs hle
  have hhand:=hb.handed hf hsize hr
  have hm' : b∈used (l++⟨c.addr,size',false⟩::r'):=by
    rw [hhand.used_eq]
    exact .inr hm
  -- the old block is still in the list, before or after the one that was split
  obtain ⟨l2,r2,he⟩:=append_of_mem hm'.1
  rw [he] at hsplit hhand
  have hp:=hb.u64_payload (b:=c) (by simp)
  have ha:=hb.usub64_payload hm.1
  simp only [relocate,ha,hp]
  generalize split size c.addr (h.modify c.addr ({· with free:=false}))=h1 at hsplit ⊢
  exact ⟨_,l2++b::r2,l2++{b with free:=true}::r2,⟨c.addr,size',false⟩,rfl,
    (hsplit.setFree true).congr rfl rfl rfl,hhand,hsplit.used_release hm.2⟩

theorem krealloc_found (hb : Blocks h bs) (hm : b∈used bs) (hlt : b.size<n) :
    (∃l c r,bs=l++c::r ∧ c.free=true ∧ align16 n ≤ c.size ∧
    krealloc (some b.payload) n h=some (relocate (align16 n) b.payload c.addr h)) ∨
    (∀c∈bs,c.free=true→c.size<align16 n) ∧ krealloc (some b.payload) n h=some (none,h):=by
  have hzero : n≠0:=by omega
  obtain ⟨hmagic,-,hsize⟩:=hb.header_of_mem hm.1
  simp only [krealloc,if_neg hzero,hb.usub64_payload hm.1,hmagic,hsize,ne_eq,not_true_eq_false,if_false,
    if_neg (Nat.not_le.mpr hlt)]
  rcases hb.walk_cases fun p=>(h.header p).free && decide (align16 n≤(h.header p).size) with
    ⟨hw,hno⟩ | ⟨l,c,r,rfl,hfits,hw⟩
  · refine .inr ⟨fun c hc hf=>?_,by rw [hw]⟩
    simpa [hb.header_of_mem hc,hf] using hno c hc
  obtain ⟨-,hfree,hcsize⟩:=hb.header_of_mem (b:=c) (by simp)
  simp only [hfree,hcsize,Bool.and_eq_true,decide_eq_true_eq] at hfits
  exact .inl ⟨l,c,r,rfl,hfits.1,hfits.2,by rw [hw]⟩

theorem krealloc_spec (hb : Blocks h bs) (hm : b∈used bs) (hn : 1≤n) (hle : n≤heapMax-heapStart) :
    ∃r h',krealloc (some b.payload) n h=some (r,h') ∧ (r=none ∧ h'=h ∨ r=some b.payload ∧ h'=h ∧ n≤b.size ∨
    ∃bs1 bs' d,r=some d.payload ∧ Blocks h' bs' ∧ Handed bs bs1 n d ∧ used bs'=used bs1 \ {b}):=by
  by_cases hfit : n≤b.size
  · obtain ⟨hmagic,-,hsize⟩:=hb.header_of_mem hm.1
    simp [krealloc,Nat.ne_of_gt hn,hb.usub64_payload hm.1,hmagic,hsize,hfit]
  obtain ⟨hal,halm⟩:=align16_spec hle
  rcases krealloc_found hb hm (Nat.not_le.mp hfit) with ⟨l,c,r,rfl,hf,hc,hk⟩ | ⟨-,hk⟩
  · obtain ⟨h',bs1,bs',d,hrel,hb',hhand,hu⟩:=relocate_spec hb hm hf halm hc
    exact ⟨some d.payload,h',by rw [hk,hrel],.inr (.inr ⟨bs1,bs',d,rfl,hb',
      ⟨hhand.used_eq,Nat.le_trans hal hhand.size_le,hhand.inUse,hhand.fresh⟩,hu⟩)⟩
  · exact ⟨none,h,hk,.inl ⟨rfl,rfl⟩⟩

/-- The heap with its client: the pointers in the client's hands and the size last
requested for each. -/
structure Client (β : Type) where
  heap : Heap β
  live : ℕ→Option ℕ

inductive Op
  | kmalloc (n : ℕ)
  | kfree (p : ℕ)
  | krealloc (p n : ℕ)

/-- The client takes a pointer. A pointer that it already holds has no result. -/
def hold (live : ℕ→Option ℕ) (n : ℕ) : Option ℕ→Option (ℕ→Option ℕ)
  | none=>some live
  | some q=>if live q=none then some (update live q (some n)) else none

def step (B : Backing β) : Op→Client β→Option (Client β)
  | .kmalloc n, c=>match kmalloc B n c.heap with
    | none=>none
    | some (q,h)=>(hold c.live n q).map (Client.mk h)
  | .kfree p, c=>some ⟨kfree (some p) c.heap,update c.live p none⟩
  | .krealloc p n, c=>match krealloc (some p) n c.heap with
    | none=>none
    | some (none,h)=>some ⟨h,c.live⟩
    | some (some q,h)=>
      if q=p then some ⟨h,update c.live p (some n)⟩
      else (hold c.live n (some q)).map fun live=>⟨h,update live p none⟩

def Op.Valid (c : Client β) : Op→Prop
  | .kmalloc n=>1≤n ∧ n≤heapMax-heapStart
  | .kfree p=>c.live p≠none
  | .krealloc p n=>c.live p≠none ∧ 1≤n ∧ n≤heapMax-heapStart

/-- Every pointer that the client holds is the payload of a block in use, large enough. -/
def Owned (live : ℕ→Option ℕ) (bs : List Block) : Prop:=
  ∀p n,live p=some n→∃b∈used bs,p=b.payload ∧ n≤b.size

theorem Owned.hold (ho : Owned live bs) (hh : Handed bs bs' n b) :
    hold live n (some b.payload)=some (update live b.payload (some n)) ∧
    Owned (update live b.payload (some n)) bs':=by
  have hfresh : live b.payload=none:=by
    by_contra hne
    obtain ⟨m,hm⟩:=Option.ne_none_iff_exists'.mp hne
    obtain ⟨x,hx,hp,-⟩:=ho _ m hm
    exact hh.fresh x hx (Nat.add_right_cancel hp).symm
  refine ⟨by simp [KernelHeap.hold,hfresh],fun p m hp=>?_⟩
  rw [hh.used_eq]
  by_cases he : p=b.payload
  · subst he
    obtain rfl : n=m:=by simpa using hp
    exact ⟨b,.inl rfl,rfl,hh.size_le⟩
  rw [update_of_ne he] at hp
  obtain ⟨x,hx,hpx⟩:=ho p m hp
  exact ⟨x,.inr hx,hpx⟩

theorem Owned.release (ho : Owned live bs) (hu : used bs'=used bs \ {b}) : Owned (update live b.payload none) bs':=by
  intro p m hp
  by_cases he : p=b.payload
  · simp [he] at hp
  rw [update_of_ne he] at hp
  obtain ⟨x,hx,hpx,hm⟩:=ho p m hp
  rw [hu]
  exact ⟨x,⟨hx,fun e=>he (by rw [hpx,Set.mem_singleton_iff.mp e])⟩,hpx,hm⟩

theorem step_spec {c : Client β} {op : Op} (hb : Blocks c.heap bs) (ho : Owned c.live bs) (hop : op.Valid c) :
    ∃c' bs',step B op c=some c' ∧ Blocks c'.heap bs' ∧ Owned c'.live bs':=by
  cases op with
  | kmalloc n=>
    obtain ⟨q,h',hk,⟨rfl,hb'⟩ | ⟨bs',b,rfl,hb',hh⟩⟩:=kmalloc_spec (B:=B) hb hop.1 hop.2
    · exact ⟨⟨h',c.live⟩,bs,by simp [step,hk,hold],hb',ho⟩
    · obtain ⟨hhold,ho'⟩:=ho.hold hh
      exact ⟨⟨h',update c.live b.payload (some n)⟩,bs',by simp [step,hk,hhold],hb',ho'⟩
  | kfree p=>
    obtain ⟨m,hm⟩:=Option.ne_none_iff_exists'.mp hop
    obtain ⟨b,hbu,rfl,-⟩:=ho p m hm
    obtain ⟨bs',hb',hu⟩:=kfree_spec hb hbu
    exact ⟨_,bs',rfl,hb',ho.release hu⟩
  | krealloc p n=>
    obtain ⟨m,hm⟩:=Option.ne_none_iff_exists'.mp hop.1
    obtain ⟨b,hbu,rfl,-⟩:=ho p m hm
    obtain ⟨q,h',hk,hcase⟩:=krealloc_spec hb hbu hop.2.1 hop.2.2
    rcases hcase with ⟨rfl,rfl⟩ | ⟨rfl,rfl,hfit⟩ | ⟨bs1,bs',d,rfl,hb',hh,hu⟩
    · exact ⟨c,bs,by simp [step,hk],hb,ho⟩
    · refine ⟨⟨c.heap,update c.live b.payload (some n)⟩,bs,by simp [step,hk],hb,fun p' m' hp'=>?_⟩
      by_cases he : p'=b.payload
      · subst he
        obtain rfl : n=m':=by simpa using hp'
        exact ⟨b,hbu,rfl,hfit⟩
      · exact ho p' m' ((update_of_ne he _ _).symm.trans hp')
    · obtain ⟨hhold,ho'⟩:=ho.hold hh
      have hne : d.payload≠b.payload:=fun e=>hh.fresh b hbu (Nat.add_right_cancel e).symm
      exact ⟨⟨h',update (update c.live d.payload (some n)) b.payload none⟩,bs',
        by simp [step,hk,hne,hhold],hb',ho'.release hu⟩

inductive Run (B : Backing β) (c₀ : Client β) : Client β→Prop
  | start : Run B c₀ c₀
  | step {c c' : Client β} (op : Op) : Run B c₀ c → op.Valid c→step B op c=some c'→Run B c₀ c'

/-- What a client and a reader of the list may rely on. `bs` are the addresses of the
headers in list order. -/
structure Sound (c : Client β) (bs : List ℕ) : Prop where
  chain : Path c.heap.next c.heap.head bs none
  tiles : Tiles id (fun a=>a+headerSize+(c.heap.header a).size) heapStart bs c.heap.heapEnd
  next_iff_prev : ∀a∈bs,∀a'∈bs,c.heap.next a=some a'↔(c.heap.header a').prev=some a
  head_iff_prev : ∀a∈bs,c.heap.head=some a↔(c.heap.header a).prev=none
  magic : ∀a∈bs,(c.heap.header a).magic=heapMagic
  live : ∀p n,c.live p=some n →
    ∃a∈bs,p=a+headerSize ∧ (c.heap.header a).free=false ∧ n≤(c.heap.header a).size
  disjoint : ∀p q n m,c.live p=some n→c.live q=some m→p≠q→p+n≤q ∨ q+m≤p
  headers : ∀p n,c.live p=some n→∀a∈bs,p+n≤a ∨ a+headerSize≤p

theorem Blocks.next_iff_prev {x y : Block} (hb : Blocks h bs) (hx : x∈bs) (hy : y∈bs) :
    h.next x.addr=some y.addr↔(h.header y.addr).prev=some x.addr:=by
  constructor
  · intro hn
    obtain ⟨l,r,rfl⟩:=append_of_mem hx
    rw [Heap.next,hb.header_eq] at hn
    cases r with
    | nil=>simp [first] at hn
    | cons z r=>
      obtain rfl:=hb.eq_of_addr_eq (by simp) hy (Option.some.inj hn)
      have hz : Blocks h ((l++[x])++z::r):=by simpa using hb
      rw [hz.header_eq,last_append]
      rfl
  · intro hp
    obtain ⟨l,r,rfl⟩:=append_of_mem hy
    rw [hb.header_eq] at hp
    rcases eq_nil_or_concat l with rfl | ⟨l,z,rfl⟩
    · simp [last] at hp
    rw [concat_eq_append] at *
    rw [last_append] at hp
    obtain rfl:=hb.eq_of_addr_eq (by simp) hx (Option.some.inj hp)
    have hz : Blocks h (l++z::y::r):=by simpa using hb
    rw [Heap.next,hz.header_eq]
    rfl

theorem Blocks.head_iff_prev {x : Block} (hb : Blocks h bs) (hx : x∈bs) :
    h.head=some x.addr↔(h.header x.addr).prev=none:=by
  obtain ⟨l,r,rfl⟩:=append_of_mem hx
  rw [hb.head,hb.header_eq]
  rcases eq_nil_or_concat l with rfl | ⟨l,z,rfl⟩
  · simp [first,last]
  rw [concat_eq_append] at *
  have hne : first ((l++[z])++x::r) none≠some x.addr:=by
    have hx:=hb.notMem.1
    cases l <;> simp_all [first,eq_comm]
  rw [last_append]
  exact ⟨fun e=>absurd e hne,fun e=>by simp [last] at e⟩

theorem sound_of_blocks {c : Client β} (hb : Blocks c.heap bs) (ho : Owned c.live bs) :
    Sound c (bs.map Block.addr):=by
  have hheader (b : Block) (hm : b∈bs):=(hb.header_of_mem hm).2.symm
  refine ⟨?_,?_,?_,?_,?_,?_,?_,?_⟩
  · rw [hb.head]
    exact hb.rep.path
  · rw [Tiles.map_iff]
    refine hb.tiles.congr (fun _ _=>rfl) fun b hm=>?_
    rw [(hheader b hm).1]
    rfl
  · simp only [mem_map,forall_exists_index,and_imp,forall_apply_eq_imp_iff₂]
    exact fun x hx y hy=>hb.next_iff_prev hx hy
  · simp only [mem_map,forall_exists_index,and_imp,forall_apply_eq_imp_iff₂]
    exact fun x hx=>hb.head_iff_prev hx
  · simp only [mem_map,forall_exists_index,and_imp,forall_apply_eq_imp_iff₂]
    exact fun x hx=>hb.rep.magic hx
  · intro p n hp
    obtain ⟨b,⟨hm,hf⟩,rfl,hn⟩:=ho p n hp
    exact ⟨b.addr,mem_map_of_mem hm,rfl,(hheader b hm).2.trans hf,(hheader b hm).1▸hn⟩
  · intro p q n m hp hq hne
    obtain ⟨b,⟨hb1,-⟩,rfl,hn⟩:=ho p n hp
    obtain ⟨d,⟨hd1,-⟩,rfl,hm⟩:=ho q m hq
    have:=hb.tiles.disjoint hb1 hd1 fun e=>hne (e▸rfl)
    simp only [Block.stop,Block.payload] at this ⊢
    omega
  · intro p n hp a ha
    obtain ⟨b,⟨hb1,-⟩,rfl,hn⟩:=ho p n hp
    obtain ⟨d,hd1,rfl⟩:=mem_map.mp ha
    simp only [Block.payload]
    by_cases he : d=b
    · subst he
      omega
    have:=hb.tiles.disjoint hd1 hb1 he
    simp only [Block.stop] at this
    omega

theorem init_spec (B : Backing β) (garbage : ℕ→BlockHeader) (byte : ℕ→UInt8) (b : β) :
    ∃h0 bs,init B garbage byte b=some h0 ∧ Blocks h0 bs:=by
  have hempty : Blocks ⟨garbage,byte,none,heapStart,0,0,b⟩ []:=⟨rfl,trivial,rfl,(by decide : heapStart≤heapMax)⟩
  obtain ⟨r,h',he,hr⟩:=expand_spec (B:=B) hempty (Nat.zero_le _)
  have hinit : init B garbage byte b=some h':=by simp [init,he]
  rcases hr with ⟨-,hb⟩ | ⟨d,-,-,-,hb⟩
  · exact ⟨h',_,hinit,hb⟩
  · exact ⟨h',_,hinit,hb⟩

theorem Run.blocks {c0 c : Client β} (hr : Run B c0 c) (hb : Blocks c0.heap bs) (ho : Owned c0.live bs) :
    ∃bs',Blocks c.heap bs' ∧ Owned c.live bs':=by
  induction hr with
  | start=>exact ⟨bs,hb,ho⟩
  | step op _ hop hs ih=>
    obtain ⟨bs',hb',ho'⟩:=ih
    obtain ⟨c',bs'',hs',hspec⟩:=step_spec hb' ho' hop
    obtain rfl:=Option.some.inj (hs.symm.trans hs')
    exact ⟨bs'',hspec⟩

/-- Whatever the client does and whenever frames run out, every call returns and leaves a
sound heap. -/
theorem heap_run_sound (B : Backing β) (garbage : ℕ→BlockHeader) (byte : ℕ→UInt8) (b : β) :
    ∃h₀,init B garbage byte b=some h₀ ∧ ∀c,Run B ⟨h₀,fun _=>none⟩ c →
    (∃bs,Sound c bs) ∧ ∀op : Op,op.Valid c→∃c',step B op c=some c':=by
  obtain ⟨h₀,bs,hinit,hb⟩:=init_spec B garbage byte b
  refine ⟨h₀,hinit,fun c hr=>?_⟩
  obtain ⟨bs',hb',ho'⟩:=hr.blocks hb (by simp [Owned])
  refine ⟨⟨_,sound_of_blocks hb' ho'⟩,fun op hop=>?_⟩
  obtain ⟨c',_,hs,-⟩:=step_spec hb' ho' hop
  exact ⟨c',hs⟩

def endless : Backing Unit:=⟨fun _=>(4096,()),fun _ _ b=>b⟩

-- a freed block is merged back, but a larger request still needs new pages
example : ((init endless (fun _=>⟨0,false,none,none,0⟩) (fun _=>0) ()).bind fun h=>
    (kmalloc endless 100 h).bind fun r=>(kmalloc endless 8000 (kfree r.1 r.2)).map Prod.fst) =
      some (some 0xFFFF900000001028):=by decide +kernel

end Knail.KernelHeap
