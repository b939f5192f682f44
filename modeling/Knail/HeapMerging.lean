import Knail.HeapIntegrity
import Mathlib.Data.List.Chain

/-!
# Free neighbours

`kfree` merges a block with its two neighbours only, and `expand` appends a free block
without looking at the one before it. Still no two neighbours in the list are ever both
free, so that the heap is one free block again once everything was freed.
-/
namespace Knail.KernelHeap

open List

variable {β : Type} {B : Backing β} {h : Heap β} {b : Block} {bs l r r' : List Block} {n : ℕ}

def Separated (bs : List Block) : Prop:=bs.IsChain fun x y=>x.free=false ∨ y.free=false

theorem separated_append_cons : Separated (l++b::r)↔Separated l ∧ Separated r ∧
    (∀a∈l.getLast?,a.free=false ∨ b.free=false) ∧ ∀c∈r.head?,b.free=false ∨ c.free=false:=by
  simp only [Separated,isChain_append,isChain_cons,head?_cons,Option.mem_some_iff,forall_eq']
  tauto

theorem Separated.join (hl : Separated l) (hr : Separated r) (hb : b.free=false) : Separated (l++b::r):=
  separated_append_cons.mpr ⟨hl,hr,fun _ _=>.inr hb,fun _ _=>.inl hb⟩

theorem Separated.joinFree (hl : Separated l) (hr : Separated r) (hla : ∀a∈l.getLast?,a.free=false)
    (hrc : ∀c∈r.head?,c.free=false) : Separated (l++b::r):=
  separated_append_cons.mpr ⟨hl,hr,fun a ha=>.inl (hla a ha),fun c hc=>.inr (hrc c hc)⟩

theorem Separated.around (hs : Separated (l++b::r)) (hb : b.free=true) :
    (∀a∈l.getLast?,a.free=false) ∧ ∀c∈r.head?,c.free=false:=by
  obtain ⟨-,-,hla,hrc⟩:=separated_append_cons.mp hs
  have hne : ¬b.free=false:=by simp [hb]
  exact ⟨fun a ha=>(hla a ha).resolve_right hne,fun c hc=>(hrc c hc).resolve_left hne⟩

theorem separated_kmalloc (hb : Blocks h bs) (hs : Separated bs) (hn : 1≤n) (hle : n≤heapMax-heapStart) :
    ∃q h' bs',kmalloc B n h=some (q,h') ∧ Blocks h' bs' ∧ Separated bs' ∧
    (q=none ∧ bs'=bs ∨ ∃b,q=some b.payload ∧ Handed bs bs' n b):=by
  obtain ⟨hal,halm⟩:=align16_spec hle
  rcases kmalloc_cases hb hn hle with ⟨h',hk,hb'⟩ | ⟨h1,l,b,r,hk,hb1,hf,hsb,hbs⟩
  · exact ⟨none,h',bs,hk,hb',hs,.inl ⟨rfl,rfl⟩⟩
  obtain ⟨h',size',r',htake,hb',hsize,hr⟩:=take_spec hb1 halm hsb
  have hh:=(hb1.handed hf hsize hr).of_found hf hbs hal
  -- a block of the list is free between used ones, a block behind it is the last
  obtain ⟨hsl,hsr,hrc⟩ : Separated l ∧ Separated r ∧ ∀c∈r.head?,c.free=false:=by
    rcases hbs with rfl | ⟨rfl,rfl⟩
    · obtain ⟨hsl,hsr,-,-⟩:=separated_append_cons.mp hs
      exact ⟨hsl,hsr,(hs.around hf).2⟩
    · exact ⟨hs,.nil,by simp⟩
  refine ⟨some b.payload,h',_,by rw [hk,htake],hb',hsl.join ?_ rfl,.inr ⟨⟨b.addr,size',false⟩,rfl,hh⟩⟩
  rcases hr with rfl | ⟨c,-,rfl⟩
  · exact hsr
  · exact Separated.joinFree .nil hsr (by simp) hrc

theorem separated_kfree (hb : Blocks h bs) (hs : Separated bs) (hm : b∈used bs) :
    ∃bs',Blocks (kfree (some b.payload) h) bs' ∧ Separated bs' ∧ used bs'=used bs \ {b}:=by
  obtain ⟨bs',hb',hu⟩:=kfree_spec hb hm
  refine ⟨bs',hb',?_,hu⟩
  obtain ⟨hm,hf⟩:=hm
  obtain ⟨l,r,rfl⟩:=append_of_mem hm
  obtain ⟨hsl,hsr,-,-⟩:=separated_append_cons.mp hs
  obtain ⟨d,r',-,hnext,hres⟩:=kfree_cases hb hf
  -- behind the merged block the list goes on with a block in use
  obtain ⟨hsr',hrc⟩ : Separated r' ∧ ∀c∈r'.head?,c.free=false:=by
    rcases hnext with ⟨-,rfl,hrc⟩ | ⟨c,hc,rfl⟩
    · exact ⟨hsr,hrc⟩
    · have hsr2 : Separated ([]++c::r'):=hsr
      exact ⟨(separated_append_cons.mp hsr2).2.1,(hsr2.around hc).2⟩
  rcases hres with ⟨hb2,hla⟩ | ⟨l',a,e,rfl,ha,-,hb2⟩
  · rw [hb'.unique hb2]
    exact hsl.joinFree hsr' hla hrc
  · rw [hb'.unique hb2]
    exact (separated_append_cons.mp hsl).1.joinFree hsr' (hsl.around ha).1 hrc

theorem Separated.length_le_one (hs : Separated bs) (hfree : used bs = ∅) : bs.length≤1:=by
  have hall (b : Block) (hb : b∈bs) : b.free=true:=by
    by_contra hf
    have : b∈used bs:=⟨hb,by simpa using hf⟩
    simp [hfree] at this
  rcases bs with _ | ⟨x,_ | ⟨y,bs⟩⟩
  · simp
  · simp
  rcases (isChain_cons_cons.mp hs).1 with hx | hy
  · simp [hall x (by simp)] at hx
  · simp [hall y (by simp)] at hy

/-- Calls of `kmalloc` and of `kfree` on live pointers. -/
inductive MallocRun (B : Backing β) (c₀ : Client β) : Client β→Prop
  | start : MallocRun B c₀ c₀
  | kmalloc {c c' : Client β} {n : ℕ} : MallocRun B c₀ c→n≤heapMax-heapStart →
      step B (.kmalloc n) c=some c'→MallocRun B c₀ c'
  | kfree {c c' : Client β} {p : ℕ} : MallocRun B c₀ c→c.live p≠none →
      step B (.kfree p) c=some c'→MallocRun B c₀ c'

/-- The blocks in use are the payloads in the client's hands, and free blocks lie apart. -/
structure Merged (c : Client β) (bs : List Block) : Prop where
  blocks : Blocks c.heap bs
  separated : Separated bs
  owned : Owned c.live bs
  live : ∀b∈used bs,c.live b.payload≠none

variable {c c' : Client β} {p : ℕ}

theorem Merged.kmalloc (hm : Merged c bs) (hle : n≤heapMax-heapStart) (hs : step B (.kmalloc n) c=some c') :
    ∃bs',Merged c' bs':=by
  rcases Nat.eq_zero_or_pos n with rfl | hn
  · obtain rfl : c=c':=by simpa [step,kmalloc,hold] using hs
    exact ⟨bs,hm⟩
  obtain ⟨q,h',bs',hk,hb',hs',⟨rfl,rfl⟩ | ⟨b,rfl,hh⟩⟩:=separated_kmalloc (B:=B) hm.blocks hm.separated hn hle
  · obtain rfl : ⟨h',c.live⟩=c':=by simpa [step,hk,hold] using hs
    exact ⟨bs',hb',hs',hm.owned,hm.live⟩
  obtain ⟨hhold,ho'⟩:=hm.owned.hold hh
  obtain rfl : ⟨h',Function.update c.live b.payload (some n)⟩=c':=by simpa [step,hk,hhold] using hs
  refine ⟨bs',hb',hs',ho',fun x hx=>?_⟩
  rw [hh.used_eq] at hx
  rcases hx with rfl | hx
  · simp
  by_cases he : x.payload=b.payload
  · simp [he]
  · exact (Function.update_of_ne he _ _).trans_ne (hm.live x hx)

theorem Merged.kfree (hm : Merged c bs) (hp : c.live p≠none) (hs : step B (.kfree p) c=some c') :
    ∃bs',Merged c' bs':=by
  obtain ⟨n,hn⟩:=Option.ne_none_iff_exists'.mp hp
  obtain ⟨b,hbu,rfl,-⟩:=hm.owned p n hn
  obtain ⟨bs',hb',hs',hu⟩:=separated_kfree hm.blocks hm.separated hbu
  obtain rfl:=Option.some.inj hs
  refine ⟨bs',hb',hs',hm.owned.release hu,fun x hx=>?_⟩
  rw [hu] at hx
  have hne : x.payload≠b.payload:=by
    intro he
    exact hx.2 (hm.blocks.eq_of_addr_eq hx.1.1 hbu.1 (Nat.add_right_cancel he))
  exact (Function.update_of_ne hne _ _).trans_ne (hm.live x hx.1)

theorem MallocRun.merged {c0 : Client β} (hr : MallocRun B c0 c) (h0 : ∃bs,Merged c0 bs) : ∃bs,Merged c bs:=by
  induction hr with
  | start=>exact h0
  | kmalloc _ hle hs ih=>
    obtain ⟨bs,hm⟩:=ih
    exact hm.kmalloc hle hs
  | kfree _ hp hs ih=>
    obtain ⟨bs,hm⟩:=ih
    exact hm.kfree hp hs

theorem Merged.all_freed (hm : Merged c bs) (hlive : ∀p,c.live p=none) :
    bs=[] ∧ c.heap.heapEnd=heapStart ∨ bs=[⟨heapStart,c.heap.heapEnd-heapStart-headerSize,true⟩]:=by
  have hnone : used bs = ∅:=Set.eq_empty_of_forall_notMem fun b hb=>hm.live b hb (hlive _)
  have htiles:=hm.blocks.tiles
  rcases bs with _ | ⟨x,_ | ⟨y,bs⟩⟩
  · exact .inl ⟨rfl,htiles.symm⟩
  · obtain ⟨hstart,-,hstop⟩:=htiles
    have hfree : x.free=true:=by
      by_contra hf
      have : x∈used [x]:=⟨by simp,by simpa using hf⟩
      simp [hnone] at this
    have hsize : x.size=c.heap.heapEnd-heapStart-headerSize:=by
      have : x.stop=c.heap.heapEnd:=hstop
      simp only [Block.stop] at this
      omega
    refine .inr ?_
    rw [←hsize,←hstart,←hfree]
  · simpa using hm.separated.length_le_one hnone

theorem init_merged (B : Backing β) (garbage : ℕ→BlockHeader) (byte : ℕ→UInt8) (b : β) :
    ∃h0 bs,init B garbage byte b=some h0 ∧ Merged ⟨h0,fun _=>none⟩ bs:=by
  have hempty : Blocks ⟨garbage,byte,none,heapStart,0,0,b⟩ []:=⟨rfl,trivial,rfl,(by decide : heapStart≤heapMax)⟩
  obtain ⟨r,h',he,hr⟩:=expand_spec (B:=B) hempty (Nat.zero_le _)
  have hinit : init B garbage byte b=some h':=by simp [init,he]
  rcases hr with ⟨-,hb⟩ | ⟨d,-,hf,-,hb⟩
  · exact ⟨h',_,hinit,hb,.nil,by simp [Owned],by simp [used]⟩
  refine ⟨h',_,hinit,hb,.singleton d,by simp [Owned],fun x hx=>?_⟩
  obtain ⟨hx,hxf⟩:=hx
  obtain rfl : x=d:=by simpa using hx
  simp [hf] at hxf

/-- Whatever was allocated and freed in whatever order, no two neighbours are both free, and
with everything freed the heap is one free block, or was never given a page. -/
theorem heap_merged (B : Backing β) (garbage : ℕ→BlockHeader) (byte : ℕ→UInt8) (b : β) :
    ∃h₀,init B garbage byte b=some h₀ ∧ ∀c,MallocRun B ⟨h₀,fun _=>none⟩ c →
    ∃bs,Blocks c.heap bs ∧ Separated bs ∧ ((∀p,c.live p=none)→bs=[] ∧ c.heap.heapEnd=heapStart ∨
    bs=[⟨heapStart,c.heap.heapEnd-heapStart-headerSize,true⟩]):=by
  obtain ⟨h₀,bs₀,hinit,hm₀⟩:=init_merged B garbage byte b
  refine ⟨h₀,hinit,fun c hr=>?_⟩
  obtain ⟨bs,hm⟩:=hr.merged ⟨bs₀,hm₀⟩
  exact ⟨bs,hm.blocks,hm.separated,hm.all_freed⟩

def exhausted : Backing Unit:=⟨fun _=>(0,()),fun _ _ b=>b⟩

/-- Without a frame for its first page the heap starts with no block. -/
theorem heap_without_block : ∃h₀,init exhausted (fun _=>⟨0,false,none,none,0⟩) (fun _=>0) ()=some h₀ ∧
    MallocRun exhausted ⟨h₀,fun _=>none⟩ ⟨h₀,fun _=>none⟩ ∧ Blocks h₀ [] ∧ ∀d,¬Blocks h₀ [d]:=by
  have hb : Blocks (⟨fun _=>⟨0,false,none,none,0⟩,fun _=>0,none,heapStart,0,0,()⟩ : Heap Unit) []:=
    ⟨rfl,trivial,rfl,(by decide : heapStart≤heapMax)⟩
  refine ⟨_,rfl,.start,hb,fun d hd=>?_⟩
  cases hb.unique hd

end Knail.KernelHeap
