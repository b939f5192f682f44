import Knail.HeapPages
import Knail.HeapRealloc
import Knail.HeapRequests

/-!
# Requests that run out of frames

`expand` takes a frame for every page and more for page tables, gives up at the first page without one, and does not
look whether a page was mapped. A request is all or nothing only if there are frames for all of it, or not even for
its first page.
-/
namespace Knail.KernelHeap

open Option FrameAllocator Spawn

open PageTables (Machine Tables Keeps IsFrame SameWalk HeapPages virtToPhys expandPage kernelRw tablesFor)
open Spawn (Plenty)

variable {m m' : Machine} {h h' : Heap Machine} {bs : List Block} {k n i base : ℕ}
  {level : ℕ→Option ℕ} {home : ℕ→Option ℕ×ℕ} {a j p c size : ℕ} {l r : List Block} {b : Block}

theorem heapMax_eq : PageTables.heapMax=heapMax:=rfl

def kernelBacking (k : ℕ) : Backing Machine where
  allocFrame:=PageTables.allocFrame
  mapPage virt phys m:=(PageTables.mapPage k virt phys kernelRw m).2

/-- The frames for a number of pages from an end of the heap on. -/
def framesFor : ℕ→ℕ→ℕ
  | _, 0=>0
  | e, n+1=>1+tablesFor e+framesFor (e+4096) n

theorem le_framesFor (e n : ℕ) : n≤framesFor e n:=by
  induction n generalizing e with
  | zero=>exact le_rfl
  | succ n ih=>
    have:=ih (e+4096)
    rw [framesFor]
    omega

def InBounds (m : Machine) : Prop:=∀f∈m.supply,f < maxFrames*pageSize

theorem InBounds.length_le (hb : InBounds m) {fs : List ℕ} (hd : fs.Nodup) (hfs : ∀f∈fs,IsFrame f ∧ f∈m.supply) :
    fs.length ≤ maxFrames:=by
  have hinj : (fs.map (· / 4096)).Nodup:=by
    refine List.Nodup.map_on (fun x hx y hy he=>?_) hd
    have h1:=(hfs x hx).1.bounds.1
    have h2:=(hfs y hy).1.bounds.1
    omega
  have hsub : fs.map (· / 4096)⊆List.range maxFrames:=by
    intro q hq
    obtain ⟨f,hf,rfl⟩:=List.mem_map.mp hq
    have:=hb f (hfs f hf).2
    simp only [pageSize] at this
    rw [List.mem_range]
    omega
  have:=(hinj.subperm hsub).length_le
  rwa [List.length_map,List.length_range] at this

theorem InBounds.of_plenty (hb : InBounds m) (hp : Plenty n m) : n ≤ maxFrames:=by
  obtain ⟨fs,rest,hs,rfl,hd,hfs⟩:=hp
  exact hb.length_le hd fun f hf=>⟨(hfs f hf).1,by rw [hs]; exact List.mem_append_left _ hf⟩

theorem mapPages_succ (k base n i : ℕ) (m : Machine) : mapPages (kernelBacking k) base (n+1) i m =
    if (PageTables.allocFrame m).1=0 then (false,(PageTables.allocFrame m).2)
    else mapPages (kernelBacking k) base n (i+1) (expandPage k (u64 (base+i*pageSize)) m):=by
  simp only [mapPages,expandPage]
  by_cases hf : (PageTables.allocFrame m).1=0
  · rw [if_pos hf]
    exact if_pos hf
  · rw [if_neg hf,if_neg hf]
    exact if_neg hf

theorem mapPages_keeps (ht : Tables m level home)
    (hk : level k=some 3) (base n i : ℕ) : (∀u∈m.used,u∈(mapPages (kernelBacking k) base n i m).2.used) ∧
    ∀a,(∀j,i≤j→j < i+n→¬SameWalk a (u64 (base+j*pageSize))) →
    virtToPhys k a (mapPages (kernelBacking k) base n i m).2=virtToPhys k a m:=by
  induction n generalizing m level home i with
  | zero=>exact ⟨fun _=>id,fun _ _=>rfl⟩
  | succ n ih=>
    rw [mapPages_succ]
    split
    · exact ⟨(PageTables.allocFrame_frame m).2.1,fun a _=>virtToPhys_allocFrame k a m⟩
    obtain ⟨level',hr⟩:=remaps_expandPage ht hk (u64 (base+i*pageSize))
    obtain ⟨home',ht'⟩:=hr.tables
    obtain ⟨hused,hsame⟩:=ih ht' (hr.keeps.level_eq hk) (i+1)
    refine ⟨fun u hu=>hused u (hr.keeps.used hu),fun a ha=>?_⟩
    rw [hsame a fun j h1 h2=>ha j (by omega) (by omega),hr.same hk a]
    intro v hv
    rw [List.mem_singleton.mp hv]
    exact ha i le_rfl (by omega)

theorem mem_expandPage (ht : Tables m level home) (hk : level k=some 3) (hf : (PageTables.allocFrame m).1≠0) (v : ℕ) :
    IsFrame (PageTables.allocFrame m).1 ∧ (PageTables.allocFrame m).1∉m.used ∧
    (PageTables.allocFrame m).1∈(expandPage k v m).used:=by
  rcases allocFrame_cases m with ⟨h0,-⟩ | ⟨hframe,hnew,hused⟩
  · exact absurd h0 hf
  obtain ⟨level',home',-,hkeep⟩:=PageTables.mapPage_tables (tables_allocFrame ht) hk v
    (PageTables.allocFrame m).1 kernelRw
  refine ⟨hframe,hnew,?_⟩
  rw [expandPage]
  simp only [if_neg hf]
  exact hkeep.used (by rw [hused]; exact List.mem_cons_self)

theorem expandPage_supply (k v : ℕ) (m : Machine) : (expandPage k v m).supply⊆m.supply:=by
  have h1:=(PageTables.allocFrame_supply m).1
  rw [expandPage]
  dsimp only
  split
  · exact h1
  · exact List.Subset.trans (PageTables.mapPage_supply ..) h1

theorem mapPages_supply (k base n i : ℕ) (m : Machine) : (mapPages (kernelBacking k) base n i m).2.supply⊆m.supply:=by
  induction n generalizing m i with
  | zero=>exact List.Subset.refl _
  | succ n ih=>
    rw [mapPages_succ]
    split
    · exact (PageTables.allocFrame_supply m).1
    · exact List.Subset.trans (ih _ _) (expandPage_supply ..)

theorem mapPages_frames (ht : Tables m level home)
    (hk : level k=some 3) (hok : (mapPages (kernelBacking k) base n i m).1=true) :
    ∃fs : List ℕ,fs.length=n ∧ fs.Nodup ∧ ∀f∈fs,IsFrame f ∧ f∈m.supply ∧ f∉m.used:=by
  induction n generalizing m level home i with
  | zero=>exact ⟨[],rfl,List.nodup_nil,by simp⟩
  | succ n ih=>
    rw [mapPages_succ] at hok
    split at hok
    · cases hok
    rename_i hf
    obtain ⟨hframe,hnew,hmem⟩:=mem_expandPage ht hk hf (u64 (base+i*pageSize))
    obtain ⟨level',hr⟩:=remaps_expandPage ht hk (u64 (base+i*pageSize))
    obtain ⟨home',ht'⟩:=hr.tables
    obtain ⟨fs,rfl,hd,hfs⟩:=ih ht' (hr.keeps.level_eq hk) hok
    refine ⟨(PageTables.allocFrame m).1::fs,rfl,List.nodup_cons.mpr ⟨fun hm=>(hfs _ hm).2.2 hmem,hd⟩,?_⟩
    intro f hm
    rcases List.mem_cons.mp hm with rfl | hm
    · exact ⟨hframe,(PageTables.allocFrame_supply m).2 hf,hnew⟩
    · obtain ⟨h1,h2,h3⟩:=hfs f hm
      exact ⟨h1,expandPage_supply _ _ _ h2,fun hu=>h3 (hr.keeps.used hu)⟩

theorem one_le_pagesFor (n : ℕ) : 1≤pagesFor n:=Nat.le_max_right _ _

theorem plenty_mono (hle : a≤n) (hp : Plenty n m) : Plenty a m:=by
  induction hle with
  | refl=>exact hp
  | step _ ih=>exact ih hp.mono

theorem u64_page (hlt : base+i*4096<heapMax) : u64 (base+i*pageSize)=base+i*4096:=by
  simp only [heapMax,pageSize] at *
  exact u64_of_lt (by omega)

theorem page_bounds {max : ℕ} (h1 : i+1≤j) (h2 : j < i+1+n) (hfit : base+(i+1+n)*4096 ≤ max) :
    base+i*4096+4096≤base+j*4096 ∧ base+j*4096 < max:=by
  constructor
  · rw [Nat.add_assoc,←Nat.succ_mul]
    exact Nat.add_le_add_left (Nat.mul_le_mul_right _ h1) _
  · exact lt_of_lt_of_le (Nat.add_lt_add_left (Nat.mul_lt_mul_of_pos_right h2 (by decide)) _) hfit

theorem not_sameWalk_page {v e : ℕ} (hal : e%4096=0) (hlow : heapStart≤e) (h1 : e≤a) (h2 : a<e+4096)
    (hv : e+4096≤v) (hmax : v<heapMax) : ¬SameWalk a v:=by
  have hcan {v : ℕ} (h1 : heapStart≤v) (h2 : v<heapMax) : PageTables.Canonical v:=by
    refine .inr ?_
    simp only [heapStart,heapMax] at h1 h2
    omega
  intro hw
  have:=PageTables.page_of_sameWalk hw (hcan (by omega) (by omega)) (hcan (by omega) hmax)
  omega

theorem mapPages_served (base : ℕ) (hp : HeapPages k (base+i*4096) m) (hfit : base+(i+n)*4096≤heapMax)
    (hpl : Plenty (framesFor (base+i*4096) n) m) :
    ∃m',mapPages (kernelBacking k) base n i m=(true,m') ∧ HeapPages k (base+(i+n)*4096) m':=by
  induction n generalizing i m with
  | zero=>exact ⟨m,rfl,hp⟩
  | succ n ih=>
    have hlt : base+i*4096<heapMax:=by omega
    have hfit' : base+(i+1+n)*4096≤heapMax:=by
      rw [Nat.add_right_comm]
      exact hfit
    rw [framesFor,Nat.add_assoc,Nat.add_comm,PageTables.plenty_succ] at hpl
    obtain ⟨hf,hpl⟩:=hpl
    obtain ⟨hframe,-⟩:=(allocFrame_cases m).resolve_left fun h0=>hf h0.1
    rw [mapPages_succ,if_neg hf,u64_page hlt]
    rcases hp.allocFrame.mapPage (heapMax_eq▸hlt) hframe with ⟨-,m1,hm,hp1,hoff⟩ | ⟨hno,-⟩
    · have he : expandPage k (base+i*4096) m=m1:=by
        simp only [expandPage,if_neg hf,hm]
      have hnext : base+i*4096+4096=base+(i+1)*4096:=by omega
      have hpl1:=(hoff _).mpr hpl
      rw [hnext] at hp1 hpl1
      obtain ⟨m',hm',hp'⟩:=ih hp1 hfit' hpl1
      rw [he]
      refine ⟨m',hm',?_⟩
      rwa [show i+(n+1)=i+1+n by omega]
    · exact absurd (plenty_mono (Nat.le_add_right _ _) hpl) hno

/-- Without them it gives up, or leaves out a page. -/
theorem mapPages_unserved (base : ℕ) (hp : HeapPages k (base+i*4096) m) (hfit : base+(i+n)*4096≤heapMax)
    (hpl : ¬Plenty (framesFor (base+i*4096) n) m) : (mapPages (kernelBacking k) base n i m).1=false ∨
    ∃j,i≤j ∧ j < i+n ∧ ∀a,base+j*4096≤a→a<base+(j+1)*4096 →
    virtToPhys k a (mapPages (kernelBacking k) base n i m).2=0:=by
  induction n generalizing i m with
  | zero=>exact absurd (PageTables.plenty_zero m) hpl
  | succ n ih=>
    have hlt : base+i*4096<heapMax:=by omega
    have hfit' : base+(i+1+n)*4096≤heapMax:=by
      rw [Nat.add_right_comm]
      exact hfit
    have hlow:=hp.low
    rw [framesFor,Nat.add_assoc,Nat.add_comm,PageTables.plenty_succ] at hpl
    rw [mapPages_succ,u64_page hlt]
    by_cases hf : (PageTables.allocFrame m).1=0
    · exact .inl (by rw [if_pos hf])
    rw [if_neg hf]
    obtain ⟨hframe,-⟩:=(allocFrame_cases m).resolve_left fun h0=>hf h0.1
    rcases hp.allocFrame.mapPage (heapMax_eq▸hlt) hframe with ⟨-,m1,hm,hp1,hoff⟩ | ⟨-,hm,hzero⟩
    · have he : expandPage k (base+i*4096) m=m1:=by
        simp only [expandPage,if_neg hf,hm]
      have hnext : base+i*4096+4096=base+(i+1)*4096:=by omega
      have hpl1 : ¬Plenty (framesFor (base+i*4096+4096) n) m1:=fun hp=>hpl ⟨hf,(hoff _).mp hp⟩
      rw [hnext] at hp1 hpl1
      rw [he]
      refine (ih hp1 hfit' hpl1).imp_right fun hj=>?_
      obtain ⟨j,h1,h2,hj⟩:=hj
      exact ⟨j,by omega,by omega,hj⟩
    · right
      refine ⟨i,le_rfl,by omega,fun a h1 h2=>?_⟩
      obtain ⟨level,home,ht,hk⟩:=hp.tables
      obtain ⟨level',hr⟩:=remaps_expandPage ht hk (base+i*4096)
      obtain ⟨home',ht'⟩:=hr.tables
      have hsame:=(mapPages_keeps ht' (hr.keeps.level_eq hk) base n (i+1)).2
      obtain ⟨hb1,hb2⟩:=hframe.bounds
      obtain ⟨-,hfail⟩:=PageTables.mapPage_spec (tables_allocFrame ht) hk (base+i*4096) hb1 hb2
        (show kernelRw&&&PageTables.flagPresent≠0 by decide) (by decide)
      rw [Nat.succ_mul,←Nat.add_assoc] at h2
      rw [hsame a fun j h3 h4=>?_,expandPage]
      · simp only [if_neg hf]
        rw [hfail hm k a hk]
        exact hzero a h1 h2
      obtain ⟨hlo,hhi⟩:=page_bounds h3 h4 hfit'
      rw [u64_page hhi]
      exact not_sameWalk_page hp.aligned hlow h1 h2 hlo hhi

section Rest

variable {β : Type} {B : Backing β} {g g' : Heap β}

/-- The end of the heap and what backs it are the same. -/
def SameRest (g g' : Heap β) : Prop:=g'.heapEnd=g.heapEnd ∧ g'.backing=g.backing

theorem sameRest_setPrev (g : Heap β) (q : Option ℕ) (v : ℕ) : SameRest g (g.setPrev q v):=by
  cases q with
  | none=>exact ⟨rfl,rfl⟩
  | some p=>exact ⟨rfl,rfl⟩

theorem SameRest.trans {g'' : Heap β} (h1 : SameRest g g') (h2 : SameRest g' g'') : SameRest g g'':=
  ⟨h2.1.trans h1.1,h2.2.trans h1.2⟩

theorem sameRest_split (size blk : ℕ) (g : Heap β) : SameRest g (split size blk g):=by
  unfold split
  dsimp only
  split
  · exact sameRest_setPrev (g.modify _ _) _ _
  · exact ⟨rfl,rfl⟩

theorem sameRest_take (size blk : ℕ) (g : Heap β) : SameRest g (take size blk g).2:=sameRest_split size blk g

theorem sameRest_append {blk : ℕ} (ha : append blk g=some g') : SameRest g g':=by
  unfold append at ha
  split at ha
  · cases ha
    exact ⟨rfl,rfl⟩
  simp only [bind_eq_bind,bind_eq_some_iff,pure_def,some.injEq] at ha
  obtain ⟨q,-,cur,-,rfl⟩:=ha
  exact ⟨rfl,rfl⟩

theorem sameRest_coalesce (blk : Option ℕ) (g : Heap β) : SameRest g (coalesce blk g):=by
  unfold coalesce
  cases blk with
  | none=>exact ⟨rfl,rfl⟩
  | some blk=>
    dsimp only
    split
    · exact ⟨rfl,rfl⟩
    split
    · exact ⟨rfl,rfl⟩
    split
    · exact sameRest_setPrev (g.modify _ _) _ _
    · exact ⟨rfl,rfl⟩

theorem sameRest_kfree (p : ℕ) (g : Heap β) : SameRest g (kfree (some p) g):=by
  have htwice (b : Option ℕ) (q : Heap β→Option ℕ) (g1 : Heap β) (hg : SameRest g g1) :
      SameRest g (coalesce (q (coalesce b g1)) (coalesce b g1)):=
    (hg.trans (sameRest_coalesce b g1)).trans (sameRest_coalesce _ _)
  unfold kfree
  dsimp only
  split
  · exact ⟨rfl,rfl⟩
  split
  · exact ⟨rfl,rfl⟩
  · exact htwice (some (usub64 p headerSize)) (fun g=>(g.header (usub64 p headerSize)).prev) _ ⟨rfl,rfl⟩

theorem sameRest_krealloc {q : Option ℕ} (hk : krealloc (some p) n g=some (q,g')) : SameRest g g':=by
  unfold krealloc at hk
  dsimp only at hk
  split at hk
  · cases hk
    exact ⟨rfl,rfl⟩
  split at hk
  · cases hk
    exact ⟨rfl,rfl⟩
  split at hk
  · cases hk
    exact ⟨rfl,rfl⟩
  split at hk
  · cases hk
  · cases hk
    exact ⟨rfl,rfl⟩
  · cases hk
    exact sameRest_split (align16 n) _ _

theorem rest_grown {c : β} (hg : grown k c g=some g') : g'.heapEnd=u64 (g.heapEnd+u64 (k*pageSize)) ∧ g'.backing=c:=by
  exact sameRest_append hg

end Rest

def Fits (n : ℕ) (h : Heap Machine) : Prop:=∃bs,Blocks h bs ∧ ∃b∈bs,b.free=true ∧ align16 n≤b.size

/-- The request does not wrap around, and a block fits or there are frames for all pages and page
tables; or no block fits, and the limit stops it or there is no frame for its first page. -/
def Served (n : ℕ) (h : Heap Machine) : Prop:=
  n=0 ∨ n≤18446744073709547472 ∧
      (Fits n h ∨ Plenty (framesFor h.heapEnd (pagesFor (align16 n))) h.backing) ∨
    ¬Fits n h ∧ (heapMax<u64 (h.heapEnd+u64 (pagesFor (align16 n)*pageSize)) ∨
      (PageTables.allocFrame h.backing).1=0)

/-- The block list, the end of the heap, the kernel's mappings and the frames in use are as before. -/
structure Unchanged (k : ℕ) (h h' : Heap Machine) : Prop where
  header : h'.header=h.header
  head : h'.head=h.head
  heapEnd : h'.heapEnd=h.heapEnd
  mapping : ∀a,virtToPhys k a h'.backing=virtToPhys k a h.backing
  frames : ∀u,u∈h'.backing.used↔u∈h.backing.used

/-- Every byte that was asked for, and every byte of the block, is mapped. -/
def PayloadMapped (k n p : ℕ) (h : Heap Machine) : Prop:=
  ∀a,p≤a→a<p+n ∨ a<p+(h.header (usub64 p headerSize)).size →
    a<18446744073709551616 ∧ virtToPhys k a h.backing≠0

/-- `kmalloc` returns null and changes nothing, or returns memory that is there. -/
def Atomic (k n : ℕ) (h : Heap Machine) : Prop:=
  ∃q h',kmalloc (kernelBacking k) n h=some (q,h') ∧
    (q=none ∧ Unchanged k h h' ∨ ∃p,q=some p ∧ PayloadMapped k n p h')

theorem unchanged_backing (hmem : m'.mem=h.backing.mem) (hused : m'.used=h.backing.used) :
    Unchanged k h {h with backing:=m'}:=by
  refine ⟨rfl,rfl,rfl,fun a=>?_,fun u=>by rw [hused]⟩
  simp only [virtToPhys,hmem]

theorem take_block (hb : Blocks h (l++b::r)) (hfit : size≤b.size) :
    ∃h' size' r',take size b.addr h=(some b.payload,h') ∧ Blocks h' (l++⟨b.addr,size',false⟩::r') ∧
    size ≤ size' ∧ (r'=r ∨ ∃c,c.free=true ∧ r'=c::r) ∧ SameRest h h' ∧
    (h'.header (usub64 b.payload headerSize)).size=size':=by
  have hlt:=hb.size_lt (b:=b) (by simp)
  obtain ⟨h',size',r',htake,hb',hsize,hr⟩:=take_spec hb (by simp only [heapMax,heapStart]; omega) hfit
  have hrest : SameRest h h':=by
    have:=sameRest_take size b.addr h
    rwa [htake] at this
  have hmem : (⟨b.addr,size',false⟩ : Block)∈l++⟨b.addr,size',false⟩::r':=by simp
  have haddr:=hb'.usub64_payload hmem
  change usub64 b.payload headerSize=b.addr at haddr
  refine ⟨h',size',r',htake,hb',hsize,hr,hrest,?_⟩
  rw [haddr]
  exact (hb'.header_of_mem hmem).2.2

theorem payload_mapped (hb : Blocks h' (l++b::r))
    (hp : HeapPages k h'.heapEnd h'.backing) (hsize : (h'.header (usub64 b.payload headerSize)).size=b.size)
    (hn : n≤b.size) : PayloadMapped k n b.payload h':=by
  intro a h1 h2
  obtain ⟨hlo,hhi⟩:=hb.bounds (b:=b) (by simp)
  have hbound:=hb.bound
  rw [hsize] at h2
  simp only [Block.stop,Block.payload,headerSize] at hhi h1 h2
  have ha : heapStart≤a ∧ a<h'.heapEnd:=by omega
  refine ⟨?_,hp.mapped a ha.1 ha.2⟩
  simp only [heapMax] at hbound
  omega

theorem not_payloadMapped (hp : heapStart≤p) (hn : 18446744073709547472<n) : ¬PayloadMapped k n p h:=by
  intro hm
  obtain ⟨hlt,-⟩:=hm (p+(n-1)) (by omega) (.inl (by omega))
  simp only [heapStart] at hp
  omega

theorem pages_fit (hb : Blocks h bs) (hp : HeapPages k h.heapEnd h.backing)
    (hmax : ¬heapMax<u64 (h.heapEnd+u64 (c*pageSize))) (hc : c ≤ maxFrames) :
    h.heapEnd+c*4096≤heapMax ∧ u64 (h.heapEnd+u64 (c*pageSize))=h.heapEnd+c*4096:=by
  have hbound:=hb.bound
  have hlow:=hp.low
  simp only [maxFrames] at hc
  have hspan : u64 (c*pageSize)=c*4096:=u64_of_lt (by simp only [pageSize]; omega)
  simp only [heapMax] at hbound hlow hmax ⊢
  have hend : u64 (h.heapEnd+c*4096)=h.heapEnd+c*4096:=u64_of_lt (by omega)
  rw [hspan,hend] at hmax ⊢
  exact ⟨by omega,rfl⟩

theorem take_grown (hb : Blocks h bs) (hp : HeapPages k (h.heapEnd+c*4096) m') (hc : 1 ≤ c)
    (hfit : h.heapEnd+c*4096≤heapMax) (hend : u64 (h.heapEnd+u64 (c*pageSize))=h.heapEnd+c*4096) :
    ∃h1,grown c m' h=some h1 ∧ Blocks h1 (bs++[⟨h.heapEnd,c*4096-40,true⟩]) ∧
    h1.backing=m' ∧ HeapPages k h1.heapEnd h1.backing:=by
  obtain ⟨h1,hg,hb1⟩:=hb.grown m' hc hfit
  obtain ⟨hend1,hback1⟩:=rest_grown hg
  refine ⟨h1,hg,hb1,hback1,?_⟩
  rw [hend1,hback1,hend]
  exact hp

/-- A request that is served is all or nothing, and leaves the heap mapped. -/
theorem kmalloc_served (hb : Blocks h bs) (hp : HeapPages k h.heapEnd h.backing) (hin : InBounds h.backing)
    (hs : Served n h) : ∃q h',kmalloc (kernelBacking k) n h=some (q,h') ∧
    HeapPages k h'.heapEnd h'.backing ∧ InBounds h'.backing ∧ (q=none ∧ Unchanged k h h' ∨
    ∃bs' b,q=some b.payload ∧ PayloadMapped k n b.payload h' ∧ Blocks h' bs' ∧ Handed bs bs' n b):=by
  by_cases hzero : n=0
  · exact ⟨none,h,by simp [kmalloc,hzero],hp,hin,.inl ⟨rfl,rfl,rfl,rfl,fun _=>rfl,fun _=>Iff.rfl⟩⟩
  have hs:=hs.resolve_left hzero
  rcases kmalloc_found (kernelBacking k) hb hzero with ⟨l,b,r,rfl,hf,hfit,hk⟩ | ⟨hno,hk⟩
  · have hfits : Fits n h:=⟨_,hb,b,by simp,hf,hfit⟩
    have hn:=(hs.resolve_right fun hs=>hs.1 hfits).1
    have hal : n≤align16 n:=by
      rw [align16_of_le (by omega)]
      omega
    obtain ⟨h',size',r',htake,hb',hsize,hr,hrest,hheader⟩:=take_block hb hfit
    have hp' : HeapPages k h'.heapEnd h'.backing:=by
      rw [hrest.1,hrest.2]
      exact hp
    refine ⟨some b.payload,h',by rw [hk,htake],hp',?_,.inr ⟨_,⟨b.addr,size',false⟩,rfl,?_,hb',?_⟩⟩
    · rw [hrest.2]
      exact hin
    · exact payload_mapped hb' hp' hheader (hal.trans hsize)
    · exact (hb.handed hf hsize hr).of_found hf (.inl rfl) hal
  · have hnofit : ¬Fits n h:=by
      rintro ⟨bs',hb',b,hm,hf,hfit⟩
      rw [hb'.unique hb] at hm
      exact absurd hfit (Nat.not_le.mpr (hno b hm hf))
    rcases expand_cases (kernelBacking k) (align16 n) h with ⟨-,he⟩ | ⟨hmax,hcases⟩
    · exact ⟨none,h,by rw [hk,he]; rfl,hp,hin,.inl ⟨rfl,rfl,rfl,rfl,fun _=>rfl,fun _=>Iff.rfl⟩⟩
    by_cases hfirst : (PageTables.allocFrame h.backing).1=0
    · obtain ⟨hmem,-,-⟩:=PageTables.allocFrame_frame h.backing
      have hused : (PageTables.allocFrame h.backing).2.used=h.backing.used:=by
        rcases allocFrame_cases h.backing with ⟨-,hused⟩ | ⟨hframe,-⟩
        · exact hused
        · exact absurd hfirst hframe.1
      obtain ⟨j,hj⟩:=Nat.exists_eq_succ_of_ne_zero (Nat.ne_of_gt (one_le_pagesFor _))
      have hm : mapPages (kernelBacking k) h.heapEnd (pagesFor (align16 n)) 0 h.backing =
          (false,(PageTables.allocFrame h.backing).2):=by
        rw [hj,mapPages_succ,if_pos hfirst]
      rcases hcases with ⟨c,hc,he⟩ | ⟨c,hc,-⟩
      · obtain rfl:=congrArg Prod.snd (hm.symm.trans hc)
        exact ⟨none,_,by rw [hk,he]; rfl,hp.allocFrame,fun f hf=>hin f ((PageTables.allocFrame_supply _).1 hf),
          .inl ⟨rfl,unchanged_backing hmem hused⟩⟩
      · rw [hm] at hc
        cases hc
    · obtain ⟨hn,hpl⟩:=hs.resolve_right fun hs=>hs.2.elim hmax hfirst
      replace hpl:=hpl.resolve_left hnofit
      have hcount:=(le_framesFor h.heapEnd (pagesFor (align16 n))).trans (hin.of_plenty hpl)
      obtain ⟨hfit,hend⟩:=pages_fit hb hp hmax hcount
      have hpages:=pagesFor_of_le hn
      have hal:=align16_of_le (show n≤18446744073709551600 by omega)
      obtain ⟨c,hm,hpc⟩:=mapPages_served h.heapEnd
        (by rwa [Nat.zero_mul]) (by rwa [Nat.zero_add]) (by rwa [Nat.zero_mul])
      rw [Nat.zero_add] at hpc
      rcases hcases with ⟨c',hc,-⟩ | ⟨c',hc,he⟩
      · rw [hm] at hc
        cases hc
      obtain rfl:=congrArg Prod.snd (hm.symm.trans hc)
      obtain ⟨h1,hg,hb1,hback1,hp1⟩:=take_grown hb hpc (one_le_pagesFor _) hfit hend
      have hblock : align16 n≤pagesFor (align16 n)*4096-40:=by omega
      have hle : n≤align16 n:=by omega
      obtain ⟨h',size',r',htake,hb',hsize,hr,hrest,hheader⟩:=take_block hb1 hblock
      have hp' : HeapPages k h'.heapEnd h'.backing:=by
        rw [hrest.1,hrest.2]
        exact hp1
      refine ⟨_,h',by rw [hk,he,hg]; exact congrArg some htake,hp',?_,
        .inr ⟨_,⟨h.heapEnd,size',false⟩,rfl,payload_mapped hb' hp' hheader (hle.trans hsize),hb',?_⟩⟩
      · rw [hrest.2,hback1]
        have hsupply:=mapPages_supply k h.heapEnd (pagesFor (align16 n)) 0 h.backing
        rw [hm] at hsupply
        exact fun f hf=>hin f (hsupply hf)
      · exact (hb1.handed rfl hsize hr).of_found rfl (.inr ⟨rfl,rfl⟩) hle

theorem first_frame_left {ok : Bool} (ht : Tables m level home)
    (hk : level k=some 3) (hf : (PageTables.allocFrame m).1≠0) (hn : 1≤n)
    (hm : mapPages (kernelBacking k) base n 0 m=(ok,m')) :
    (PageTables.allocFrame m).1∉m.used ∧ (PageTables.allocFrame m).1∈m'.used:=by
  obtain ⟨j,rfl⟩:=Nat.exists_eq_add_of_le hn
  rw [Nat.add_comm,mapPages_succ,if_neg hf] at hm
  obtain ⟨-,hnew,hmem⟩:=mem_expandPage ht hk hf (u64 (base+0*pageSize))
  obtain ⟨level',hr⟩:=remaps_expandPage ht hk (u64 (base+0*pageSize))
  obtain ⟨home',ht'⟩:=hr.tables
  have hkept:=(mapPages_keeps ht' (hr.keeps.level_eq hk) base j (0+1)).1 _ hmem
  rw [hm] at hkept
  exact ⟨hnew,hkept⟩

theorem page_in_payload (e : ℕ) (hs : 0<size) (hj : j*4096<size+40) :
    ∃a,e+40≤a ∧ a<e+40+size ∧ e+j*4096≤a ∧ a<e+(j+1)*4096:=by
  rw [Nat.succ_mul]
  generalize j*4096=y at hj ⊢
  refine ⟨e+max 40 y,?_,?_,?_,?_⟩
  all_goals omega

/-- Only such a request is all or nothing. -/
theorem Atomic.served (ha : Atomic k n h) (hb : Blocks h bs) (hp : HeapPages k h.heapEnd h.backing)
    (hin : InBounds h.backing) (hlt : n<18446744073709551616) : Served n h:=by
  obtain ⟨q,h',hk',hq⟩:=ha
  obtain ⟨level,home,ht,hkl⟩:=hp.tables
  by_cases hzero : n=0
  · exact .inl hzero
  right
  rcases kmalloc_found (kernelBacking k) hb hzero with ⟨l,b,r,rfl,hf,hfit,hk⟩ | ⟨hno,hk⟩
  · refine .inl ⟨?_,.inl ⟨_,hb,b,by simp,hf,hfit⟩⟩
    by_contra hn
    obtain rfl : some b.payload=q:=by
      rw [hk,some_inj] at hk'
      rw [←hb.u64_payload (by simp),←fst_take (align16 n) b.addr h,hk']
    rcases hq with ⟨he,-⟩ | ⟨p,he,hm⟩
    · cases he
    cases he
    have hlow:=(hb.bounds (b:=b) (by simp)).1
    exact not_payloadMapped (by simp only [Block.payload]; omega) (Nat.lt_of_not_le hn) hm
  have hnofit : ¬Fits n h:=by
    rintro ⟨bs',hb',b,hm,hf,hfit⟩
    rw [hb'.unique hb] at hm
    exact absurd hfit (Nat.not_le.mpr (hno b hm hf))
  by_cases hfirst : (PageTables.allocFrame h.backing).1=0
  · exact .inr ⟨hnofit,.inr hfirst⟩
  rcases expand_cases (kernelBacking k) (align16 n) h with ⟨hmax,-⟩ | ⟨hmax,⟨c,hm,he⟩ | ⟨c,hm,he⟩⟩
  · exact .inr ⟨hnofit,.inl hmax⟩
  · exfalso
    rw [hk,he] at hk'
    obtain ⟨rfl,rfl⟩:=Prod.mk.inj (some.inj hk')
    rcases hq with ⟨-,hun⟩ | ⟨p,hp,-⟩
    · obtain ⟨hnew,hleft⟩:=first_frame_left ht hkl hfirst (one_le_pagesFor (align16 n)) hm
      exact hnew ((hun.frames _).mp hleft)
    · cases hp
  · obtain ⟨fs,hlen,hd,hfs⟩:=mapPages_frames ht hkl (congrArg Prod.fst hm)
    have hcount : pagesFor (align16 n) ≤ maxFrames:=
      hlen▸hin.length_le hd fun f hf=>⟨(hfs f hf).1,(hfs f hf).2.1⟩
    obtain ⟨hfit,-⟩:=pages_fit hb hp hmax hcount
    obtain ⟨h1,hg,hb1⟩:=hb.grown c (one_le_pagesFor _) hfit
    have hback:=(rest_grown hg).2
    rw [hk,he,hg] at hk'
    have htake : take (align16 n) h.heapEnd h1=(q,h'):=some.inj hk'
    have hq' : q=some (h.heapEnd+40):=by
      have hfst:=fst_take (align16 n) h.heapEnd h1
      rw [htake] at hfst
      exact hfst.trans (congrArg some (hb1.u64_payload (b:=⟨h.heapEnd,pagesFor (align16 n)*4096-40,true⟩) (by simp)))
    rcases hq with ⟨hnone,-⟩ | ⟨p,hsome,hmapped⟩
    · rw [hq'] at hnone
      cases hnone
    obtain rfl:=some.inj (hq'.symm.trans hsome)
    have hlow:=hp.low
    have hn : n≤18446744073709547472:=by
      by_contra hn
      exact not_payloadMapped (hlow.trans (Nat.le_add_right _ _)) (Nat.lt_of_not_le hn) hmapped
    refine .inl ⟨hn,.inr ?_⟩
    -- a page that is left out holds some of the payload
    by_contra hpl
    have hpages:=pagesFor_of_le hn
    have hal:=align16_of_le (show n≤18446744073709551600 by omega)
    have hblock : align16 n≤pagesFor (align16 n)*4096-40:=by omega
    obtain ⟨h2,size',r',htake',-,hsize,-,hrest,hheader⟩:=take_block hb1 hblock
    obtain ⟨-,rfl⟩:=Prod.mk.inj (htake'.symm.trans htake)
    rcases mapPages_unserved h.heapEnd (by rwa [Nat.zero_mul])
        (by rwa [Nat.zero_add]) (by rwa [Nat.zero_mul]) with hfail | ⟨j,-,hj,hzero⟩
    · rw [hm] at hfail
      cases hfail
    rw [hm] at hzero
    obtain ⟨a,h1,h2,h3,h4⟩:=page_in_payload h.heapEnd (show 0<align16 n by omega) (show j*4096<align16 n+40 by omega)
    obtain ⟨-,hne⟩:=hmapped a h1 (.inr (lt_of_lt_of_le h2 (Nat.add_le_add_left (hsize.trans_eq hheader.symm) _)))
    rw [hrest.2,hback] at hne
    exact hne (hzero a h3 h4)

theorem atomic_iff (hb : Blocks h bs) (hp : HeapPages k h.heapEnd h.backing) (hin : InBounds h.backing)
    (hlt : n<18446744073709551616) : Atomic k n h↔Served n h:=by
  refine ⟨fun ha=>ha.served hb hp hin hlt,fun hs=>?_⟩
  obtain ⟨q,h',hk,-,-,hq⟩:=kmalloc_served hb hp hin hs
  refine ⟨q,h',hk,hq.imp_right fun hq=>?_⟩
  obtain ⟨bs',b,rfl,hm,-⟩:=hq
  exact ⟨b.payload,rfl,hm⟩

/-- The requests are served; blocks are freed and moved by those who hold them. -/
def Op.Served (c : Client Machine) : Op→Prop
  | .kmalloc n=>n<18446744073709551616 ∧ KernelHeap.Served n c.heap
  | .kfree p=>(Op.kfree p).Valid c
  | .krealloc p n=>(Op.krealloc p n).Valid c

inductive ServedRun (k : ℕ) (c₀ : Client Machine) : Client Machine→Prop
  | start : ServedRun k c₀ c₀
  | step {c c' : Client Machine} (op : Op) : ServedRun k c₀ c → op.Served c →
      step (kernelBacking k) op c=some c'→ServedRun k c₀ c'

def Intact (k : ℕ) (c : Client Machine) : Prop:=
  ∃bs,Blocks c.heap bs ∧ Owned c.live bs ∧ HeapPages k c.heap.heapEnd c.heap.backing ∧ InBounds c.heap.backing

theorem Intact.step {c c' : Client Machine} {op : Op} (hc : Intact k c) (hop : op.Served c)
    (hs : step (kernelBacking k) op c=some c') : Intact k c':=by
  obtain ⟨bs,hb,ho,hp,hin⟩:=hc
  have hrest {h' : Heap Machine} (hr : SameRest c.heap h') : HeapPages k h'.heapEnd h'.backing ∧ InBounds h'.backing:=by
    rw [hr.1,hr.2]
    exact ⟨hp,hin⟩
  have hother (hv : op.Valid c) (hr : SameRest c.heap c'.heap) : Intact k c':=by
    obtain ⟨c'',bs',hs',hb',ho'⟩:=step_spec hb ho hv
    obtain rfl:=some.inj (hs.symm.trans hs')
    exact ⟨bs',hb',ho',hrest hr⟩
  cases op with
  | kmalloc n=>
    obtain ⟨q,h',hk,hp',hin',hq⟩:=kmalloc_served hb hp hin hop.2
    simp only [KernelHeap.step,hk] at hs
    rcases hq with ⟨rfl,hun⟩ | ⟨bs',b,rfl,-,hb',hh⟩
    · simp only [hold,map_some,some_inj] at hs
      subst hs
      exact ⟨bs,hb.congr hun.header hun.head hun.heapEnd,ho,hp',hin'⟩
    obtain ⟨hhold,ho'⟩:=ho.hold hh
    rw [hhold,map_some,some_inj] at hs
    subst hs
    exact ⟨bs',hb',ho',hp',hin'⟩
  | kfree p=>
    refine hother hop ?_
    simp only [KernelHeap.step,some_inj] at hs
    subst hs
    exact sameRest_kfree p c.heap
  | krealloc p n=>
    refine hother hop ?_
    cases hk : krealloc (some p) n c.heap with
    | none=>simp [KernelHeap.step,hk] at hs
    | some r=>
      obtain ⟨q,h'⟩:=r
      have hr:=sameRest_krealloc hk
      cases q with
      | none=>
        simp only [KernelHeap.step,hk,some_inj] at hs
        subst hs
        exact hr
      | some q=>
        simp only [KernelHeap.step,hk] at hs
        split at hs
        · obtain rfl:=some.inj hs
          exact hr
        · obtain ⟨live,-,rfl⟩:=map_eq_some_iff.mp hs
          exact hr

theorem ServedRun.intact {c0 c : Client Machine} (hr : ServedRun k c0 c) (h0 : Intact k c0) : Intact k c:=by
  induction hr with
  | start=>exact h0
  | step op _ hop hs ih=>exact ih.step hop hs

/-- `heap::init` finds no frame at all, or frames for the first page and its tables. -/
theorem init_served (garbage : ℕ→BlockHeader) (byte : ℕ→UInt8) (hp : HeapPages k heapStart m) (hin : InBounds m)
    (hm : (PageTables.allocFrame m).1=0 ∨ Plenty 4 m) :
    ∃h0,init (kernelBacking k) garbage byte m=some h0 ∧ Intact k ⟨h0,fun _=>none⟩:=by
  set h : Heap Machine:=⟨garbage,byte,none,heapStart,0,0,m⟩ with hh
  have hb : Blocks h []:=⟨rfl,trivial,rfl,(by decide : heapStart≤heapMax)⟩
  have hone : pagesFor 0=1:=by decide
  have hinit {r : Option ℕ} {h' : Heap Machine} (he : expand (kernelBacking k) 0 h=some (r,h')) :
      init (kernelBacking k) garbage byte m=some h':=by
    simp [init,←hh,he]
  have hmax : ¬heapMax<u64 (heapStart+u64 (1*pageSize)):=by decide
  obtain ⟨hfit,hend⟩:=pages_fit hb hp hmax (by decide)
  rcases expand_cases (kernelBacking k) 0 h with ⟨hno,-⟩ | ⟨-,hcases⟩
  · exact absurd hno hmax
  rw [hone] at hcases
  by_cases hfirst : (PageTables.allocFrame m).1=0
  · have hmap : mapPages (kernelBacking k) h.heapEnd 1 0 h.backing=(false,(PageTables.allocFrame m).2):=by
      rw [mapPages_succ,if_pos hfirst]
    rcases hcases with ⟨c,hc,he⟩ | ⟨c,hc,-⟩
    · obtain rfl:=congrArg Prod.snd (hmap.symm.trans hc)
      refine ⟨_,hinit he,[],hb.congr rfl rfl rfl,by simp [Owned],hp.allocFrame,?_⟩
      exact fun f hf=>hin f ((PageTables.allocFrame_supply m).1 hf)
    · rw [hmap] at hc
      cases hc
  · obtain ⟨c,hmap,hpc⟩:=mapPages_served heapStart (i:=0) (n:=1) (by rwa [Nat.zero_mul])
      (by decide) (hm.resolve_left hfirst)
    rcases hcases with ⟨c',hc,-⟩ | ⟨c',hc,he⟩
    · rw [show mapPages (kernelBacking k) h.heapEnd 1 0 h.backing=_ from hmap] at hc
      cases hc
    obtain rfl:=congrArg Prod.snd (hmap.symm.trans hc)
    obtain ⟨h1,hg,hb1,hback1,hp1⟩:=take_grown hb hpc le_rfl hfit hend
    refine ⟨h1,hinit (by rw [he,hg]; rfl),_,hb1,by simp [Owned],hp1,?_⟩
    have hsupply:=mapPages_supply k heapStart 1 0 m
    rw [hmap] at hsupply
    rw [hback1]
    exact fun f hf=>hin f (hsupply hf)

theorem heapPages_init {m0 : Machine} (hi : PageTables.init m0=some (k,m)) : HeapPages k heapStart m:=by
  obtain ⟨level,home,ht,hk,-,hrest⟩:=PageTables.init_spec hi
  refine ⟨⟨level,home,ht,hk⟩,by decide,le_rfl,by decide,fun a h1 h2=>?_,.inl ⟨rfl,?_⟩⟩
  · exact absurd h1 (Nat.not_le.mpr h2)
  · simp [PageTables.slots,PageTables.decode,hrest 288 (by decide) (by decide)]

/-- After every run of requests that are served, a request is all or nothing exactly if it is
served. -/
theorem kmalloc_atomic_iff {m₀ : Machine} (hi : PageTables.init m₀=some (k,m)) (hin : InBounds m)
    (hm : (PageTables.allocFrame m).1=0 ∨ Plenty 4 m) (garbage : ℕ→BlockHeader) (byte : ℕ→UInt8) :
    ∃h₀,init (kernelBacking k) garbage byte m=some h₀ ∧ ∀c,ServedRun k ⟨h₀,fun _=>none⟩ c →
    ∀n,n<18446744073709551616→(Atomic k n c.heap↔Served n c.heap):=by
  obtain ⟨h₀,hinit,h₀i⟩:=init_served garbage byte (heapPages_init hi) hin hm
  refine ⟨h₀,hinit,fun c hr n hlt=>?_⟩
  obtain ⟨bs,hb,-,hp,hin'⟩:=hr.intact h₀i
  exact atomic_iff hb hp hin' hlt

def noHeader : ℕ→BlockHeader:=fun _=>⟨0,false,none,none,0⟩

/-- After boot with frames for one page of the heap. -/
theorem kmalloc_atomic_iff_booted : ∃h₀,init (kernelBacking 0x1000) noHeader (fun _=>0)
    (PageTables.booted [0x6000,0x7000,0x8000,0x9000])=some h₀ ∧ (Atomic 0x1000 100 h₀↔Served 100 h₀):=by
  have hpl : Plenty 4 (PageTables.booted [0x6000,0x7000,0x8000,0x9000]):=
    ⟨[0x6000,0x7000,0x8000,0x9000],[],rfl,rfl,by decide,by decide⟩
  have hin : InBounds (PageTables.booted [0x6000,0x7000,0x8000,0x9000]):=by unfold InBounds; decide
  have hboot : PageTables.init (PageTables.blank [0x6000,0x7000,0x8000,0x9000]) =
    some (0x1000,PageTables.booted [0x6000,0x7000,0x8000,0x9000]):=rfl
  obtain ⟨h₀,hinit,hall⟩:=kmalloc_atomic_iff hboot hin (.inr hpl) noHeader fun _=>0
  exact ⟨h₀,hinit,hall _ .start 100 (by decide)⟩

/-- With one frame left, a request for two pages fails and keeps the frame mapped. With a frame for
the first page of the heap and none for its tables, a request gets a pointer to a page that is not
mapped. -/
theorem kmalloc_not_atomic : (∃h₀,init (kernelBacking 0x1000) noHeader (fun _=>0)
    (PageTables.booted [0x6000,0x7000,0x8000,0x9000,0xA000])=some h₀ ∧ ¬Atomic 0x1000 8000 h₀) ∧
    ∃h₀,init (kernelBacking 0x1000) noHeader (fun _=>0) (PageTables.booted [0,0x6000])=some h₀ ∧
    ¬Atomic 0x1000 100 h₀:=by
  constructor
  · have hrun : (init (kernelBacking 0x1000) noHeader (fun _=>0)
        (PageTables.booted [0x6000,0x7000,0x8000,0x9000,0xA000])).map (fun h=>(decide (0xA000∈h.backing.used),
          (kmalloc (kernelBacking 0x1000) 8000 h).map fun r=>(r.1,decide (0xA000∈r.2.backing.used)))) =
        some (false,some (none,true)):=by decide +kernel
    obtain ⟨h₀,hinit,hfacts⟩:=map_eq_some_iff.mp hrun
    obtain ⟨hbefore,hk⟩:=Prod.mk.inj hfacts
    refine ⟨h₀,hinit,?_⟩
    rintro ⟨q,h',hk',hq⟩
    rw [hk',map_some,some_inj] at hk
    obtain ⟨rfl,hafter⟩:=Prod.mk.inj hk
    rcases hq with ⟨-,hun⟩ | ⟨p,hp,-⟩
    · exact of_decide_eq_false hbefore ((hun.frames _).mp (of_decide_eq_true hafter))
    · cases hp
  · have hrun : (init (kernelBacking 0x1000) noHeader (fun _=>0) (PageTables.booted [0,0x6000])).map (fun h=>
          (kmalloc (kernelBacking 0x1000) 100 h).map fun r=>
            (r.1,virtToPhys 0x1000 0xFFFF900000000028 r.2.backing)) =
        some (some (some 0xFFFF900000000028,0)):=by decide +kernel
    obtain ⟨h₀,hinit,hk⟩:=map_eq_some_iff.mp hrun
    refine ⟨h₀,hinit,?_⟩
    rintro ⟨q,h',hk',hq⟩
    rw [hk',map_some,some_inj] at hk
    obtain ⟨rfl,hzero⟩:=Prod.mk.inj hk
    rcases hq with ⟨hnone,-⟩ | ⟨p,hp,hm⟩
    · cases hnone
    · obtain rfl:=some.inj hp
      exact (hm _ le_rfl (.inl (by omega))).2 hzero

end Knail.KernelHeap
