import Knail.FrameAllocator
import Knail.SpawnSuccess

/-!
# The identity map of user spaces

`create_user_space` gives a space a copy of the identity map of the first GiB, so that the kernel
reaches any frame while the space is active. The segments of an image are mapped in the same
range and take the place of frames there.
-/
namespace Knail.Spawn

open PageTables Elf List FrameAllocator

variable {m m₁ m₂ m' : Machine} {level level' : ℕ→Option ℕ} {home : ℕ→Option ℕ×ℕ} {r k va a p n : ℕ}

/-- The space has a first entry, and where the kernel has a table for the upper half the space has
the same. -/
structure Seeded (k r : ℕ) (m : Machine) : Prop where
  low : m.mem r 0&&&flagPresent≠0
  upper : ∀i,256 ≤ i→m.mem k i&&&flagPresent≠0→i<512 →
    m.mem r i&&&flagPresent≠0 ∧ entryPhys (m.mem r i)=entryPhys (m.mem k i)

theorem seeded_create (ht : Tables m level home) (hk : level k=some 3) (hc : createUserSpace k m=(r,true,m')) :
    Seeded k r m':=by
  obtain ⟨level',hn⟩:=createUserSpace_spec ht hk
  rw [hc] at hn
  obtain ⟨-,pdpt,hpl,-,hmem⟩:=hn.full rfl
  obtain ⟨home',ht'⟩:=hn.tables
  have hmemk : m'.mem k=m.mem k:=hn.mem k (ht.used hk)
  refine ⟨?_,fun i hi hp hi'=>?_⟩
  · rw [hmem 0]
    exact (entry_table (ht'.frame hpl) (.inl rfl)).2.1
  rw [hmemk] at hp ⊢
  rw [hmem i,if_pos ⟨hi,hi'⟩]
  exact ⟨hp,rfl⟩

theorem Seeded.mapFrame (h : Seeded k r m) (ht : Tables m level home) (hr : level r=some 3) (hk : level k=some 3)
    (hne : k≠r) (va : ℕ) : Seeded k r (mapFrame r va m).2:=by
  have hmem:=(allocFrame_frame m).1
  have ht1:=tables_allocFrame ht
  rcases mapFrame_cases r va m with ⟨m₁,he,hm⟩ | ⟨f,m₁,-,he,hm⟩
  · rw [he] at hmem
    rw [hm]
    exact ⟨by rw [hmem]; exact h.low,by rw [hmem]; exact h.upper⟩
  rw [he] at hmem ht1
  rw [hm]
  have hkept:=mapPage_rootsKept ht1 hr va f userRw
  refine ⟨present_mapPage ht1 hr va f userRw (by rw [hmem]; exact h.low),fun i hi hp hi'=>?_⟩
  rw [hkept.other hk hne,hmem] at hp ⊢
  obtain ⟨hp',he'⟩:=h.upper i hi hp hi'
  by_cases hidx : i=pml4Idx va
  · subst hidx
    obtain ⟨hphys,hpres⟩:=hkept.linked (by rw [hmem]; exact hp')
    rw [hphys,hmem]
    exact ⟨hpres,he'⟩
  · rw [hkept.entries i hidx,hmem]
    exact ⟨hp',he'⟩

theorem Seeded.translate_activate (h : Seeded k r m) (ht : Tables m level home) (hr : level r=some 3) (hne : k≠r)
    (htr : translate r a (activate k r m)=some p) : translate r a m=some p:=by
  unfold translate at htr ⊢
  split at htr
  case isFalse => cases htr
  case isTrue hc =>
  rw [if_pos hc]
  have hne' : r≠0 ∧ r≠k:=⟨(ht.frame hr).1,hne.symm⟩
  have hi : tableIdx 3 a<512:=Nat.mod_lt _ (by decide)
  have hentry : (activate k r m).mem r (tableIdx 3 a)=activated k r m (tableIdx 3 a):=by
    rw [activate_mem hne',Function.update_self]
  rw [←htr,eq_comm]
  rcases activated_cases k r m (tableIdx 3 a) with hsame | ⟨hcopy,hup | h0⟩
  · refine lookup_root ht hr (activate_mem_of_le k hr) ?_
    rw [slots,hentry,hsame]
    rfl
  · rw [hcopy] at hentry
    by_cases hp : m.mem k (tableIdx 3 a)&&&flagPresent=0
    · simp [lookup,slots,decode,hentry,hp] at htr
    obtain ⟨hpres,hphys⟩:=h.upper _ hup hp hi
    refine lookup_root ht hr (activate_mem_of_le k hr) ?_
    rw [slots,hentry,slots,decode,decode,if_neg hp,if_neg hpres,hphys]
    simp
  · refine lookup_root ht hr (activate_mem_of_le k hr) ?_
    rw [slots,activate_entry k (by omega) (h0▸h.low)]
    rfl

theorem Space.copy_dataWrites {pages : List ℕ} (h : Space r m level pages) (hs : Seeded k r m) (hk : level k=some 3)
    (hne : k≠r) (mem : ℕ→UInt8) {image : Image} (himg : imagePages image⊆pages)
    (hseg : ∀seg∈image.segments,0<seg.memsz→seg.vaddr+seg.memsz+0xFFF<wordSize) :
    DataWrites level (PageTables.activate k r m)
    (Spawn.runStores r (imageStores mem image) (PageTables.activate k r m)).2.1:=by
  obtain ⟨home,ht⟩:=h.tables
  refine runStores_dataWrites (activate_tables ht h.root hk) h.root fun st hst p hp=>?_
  obtain ⟨seg,hsg,hst⟩:=mem_flatMap.mp hst
  obtain ⟨-,va,hva,hpage⟩:=segmentStores_page (hseg seg hsg (memsz_pos hst)) mem hst
  have hp':=hs.translate_activate ht h.root hne hp
  have hc : Canonical st.1:=by
    by_contra hc
    simp [Spawn.translate,hc] at hp'
  obtain ⟨q,hq,hl,-⟩:=h.translate (himg (mem_flatMap.mpr ⟨seg,hsg,hva⟩)) (sameWalk_of_page hpage) hc
  rw [hp'] at hq
  cases hq
  exact hl

/-- After the image is mapped, a successful `spawn_elf` changes what the first entry of the space
leads to at the pages of the stack only. -/
theorem spawnElf_low {s : Kernel} {image : Image} {al : Allocations} {mem : ℕ→UInt8} {args : Args} {tid : ℕ}
    (hb : HeapReady k s.machine) (hg : InHeap al.heapPages) (hnew : createUserSpace k s.machine=(r,true,m₁))
    (hmap : mapPages r (imagePages image) m₁=(true,m₂))
    (hseg : ∀seg∈image.segments,0<seg.memsz→seg.vaddr+seg.memsz+0xFFF<wordSize)
    (hok : (spawnElf k mem image args al s).result=some (.ok tid)) :
    (∀a,(∀va∈imagePages image,¬SameWalk a va)→virtToPhys r a m₂=virtToPhys r a m₁) ∧
    ∀a,pml4Idx a=0→(∀va∈stackPages,¬SameWalk a va) →
    virtToPhys r a (spawnElf k mem image args al s).kernel.machine=virtToPhys r a m₂:=by
  obtain ⟨level0,home0,ht0,hk0⟩:=hb.tables
  obtain ⟨level1,hn⟩:=createUserSpace_spec ht0 hk0
  rw [hnew] at hn
  have hr0 : r≠0:=(hn.full rfl).1
  obtain ⟨hr1,hru⟩:=hn.root hr0
  have hk1:=hn.level_eq hk0
  have hne : k≠r:=ne_of_mem_of_not_mem (ht0.used hk0) hru
  have hs1 : Space r m₁ level1 []:=⟨hn.tables,hr1,by simp⟩
  obtain ⟨level2,hm2,hs2,hseed⟩:=hs1.mapPages (imagePages image) hk1 (seeded_create ht0 hk0 hnew)
    (fun ht hr hk h va=>h.mapFrame ht hr hk hne va) (by rw [hmap])
  rw [hmap] at hm2 hs2 hseed
  have hk2:=hm2.keeps.level_eq hk1
  refine ⟨fun a ha=>hm2.same hr1 a ha,fun a ha hst=>?_⟩
  -- the copy loops
  have hw:=hs2.copy_dataWrites hseed hk2 hne mem (by simp) hseg
  obtain ⟨home2,ht2⟩:=hs2.tables
  have ha2:=activate_tables ht2 hs2.root hk2
  have hq1 : virtToPhys r a (PageTables.activate k r m₂)=virtToPhys r a m₂:=
    virtToPhys_activate k ht2 hs2.root (by omega) (by rw [ha]; exact hseed.low)
  obtain ⟨r,rfl⟩:=Nat.exists_eq_succ_of_ne_zero hr0
  unfold spawnElf at hok ⊢
  simp only [hnew,hmap] at hok ⊢
  rcases hrun : runStores (r+1) (imageStores mem image) (PageTables.activate k (r+1) m₂) with ⟨_ | _,m3,written⟩
  · simp [hrun] at hok
  rw [hrun] at hw
  simp only [hrun] at hok ⊢
  have hq2:=hw.virtToPhys ha2 hs2.root a
  -- the stack
  have hs3 : Space (r+1) m3 level2 []:=⟨⟨home2,hw.tables ha2⟩,hs2.root,by simp⟩
  rw [activate_self] at hok ⊢
  unfold spawnUser at hok ⊢
  rcases hstack : mapPages (r+1) stackPages m3 with ⟨_ | _,m4⟩
  · simp [hstack,Kernel.withMachine] at hok
  obtain ⟨level4,hm4,hs4,-⟩:=hs3.mapPages (P:=fun _=>True) stackPages hk2 trivial
    (fun _ _ _ _ _=>trivial) (by rw [hstack])
  rw [hstack] at hm4 hs4
  have hs4' : Space (r+1) ((s.withMachine m3).withMachine m4).machine level4 stackPages:=
    ⟨hs4.tables,hs4.root,fun va hva=>hs4.backed va (mem_append_left _ hva)⟩
  have hq:=hs4'.startUser (hm4.keeps.level_eq hk2) hne image.entry defaultQuantum args hg
  have hfinal:=((hq.user a ha).trans (hm4.same hs3.root a hst)).trans (hq2.trans hq1)
  simp only [Kernel.withMachine,hstack] at hok hfinal ⊢
  rcases hu : startUser k (r+1) image.entry defaultQuantum args al {s with machine:=m4} with ⟨_ | _ | _,s'⟩
  · simp [hu] at hok
  · simp [hu] at hok
  · rw [hu] at hfinal
    exact hfinal

theorem page_of_walk {v : ℕ} (h : SameWalk a v) : a%2^48/4096=v%2^48/4096:=by
  have h0:=h 0 (by decide)
  have h1:=h 1 (by decide)
  have h2:=h 2 (by decide)
  have h3:=h 3 (by decide)
  simp only [tableIdx] at h0 h1 h2 h3
  omega

theorem not_sameWalk_stack (hp : p<2^30) (hva : va∈stackPages) : ¬SameWalk p va:=by
  intro hw
  have hpage:=page_of_walk hw
  obtain ⟨i,hi,rfl⟩:=mem_map.mp hva
  rw [mem_range] at hi
  simp only [userStackTop,userStackSize] at hi hpage
  omega

/-- The new space starts with an identity map, no page of the image is mapped in the place of one
of the given frames, and no segment wraps around. -/
structure Clear (kernel : ℕ) (image : Image) (ram : ℕ→Prop) (m : Machine) : Prop where
  complete : (createUserSpace kernel m).2.1=true
  pages : ∀va∈imagePages image,¬ram (va%2^48/4096)
  segments : ∀seg∈image.segments,0<seg.memsz→seg.vaddr+seg.memsz+0xFFF<wordSize

/-- In the space of a process whose image is clear of the frames of the PMM, every such frame has
its own address. -/
theorem identity_access {s : Kernel} {image : Image} {al : Allocations} {tid : ℕ} (ram : ℕ→Prop) (mem : ℕ→UInt8)
    (args : Args) (hb : HeapReady k s.machine) (hg : InHeap al.heapPages)
    (hram : ∀f,ram f→f < identityMapLimitFrames) (hc : Clear k image ram s.machine)
    (hok : (spawnElf k mem image args al s).result=some (.ok tid)) (hp : ram (p/4096)) :
    virtToPhys (createUserSpace k s.machine).1 p (spawnElf k mem image args al s).kernel.machine=p:=by
  have hlt : p<2^30:=by
    have:=hram _ hp
    simp only [identityMapLimitFrames,pageSize] at this
    omega
  obtain ⟨complete,pages,segments⟩:=hc
  rcases hnew : createUserSpace k s.machine with ⟨r,full,m₁⟩
  rw [hnew] at complete
  subst complete
  obtain ⟨level₀,home₀,ht₀,hk₀⟩:=hb.tables
  obtain ⟨level₁,hn⟩:=createUserSpace_spec ht₀ hk₀
  rw [hnew] at hn
  have hidentity:=hn.identity rfl p hlt
  have hr₀ : r≠0:=(hn.full rfl).1
  rcases hmap : mapPages r (imagePages image) m₁ with ⟨_ | _,m₂⟩
  · simp [spawnElf,hnew,hmap] at hok
  obtain ⟨himage,hrest⟩:=spawnElf_low hb hg hnew hmap segments hok
  rw [hrest p (pml4Idx_low (hlt.trans (by decide))) fun va hva=>not_sameWalk_stack hlt hva,himage p fun va hva hw=>?_,
    hidentity]
  have hpage:=page_of_walk hw
  rw [Nat.mod_eq_of_lt (hlt.trans (by decide))] at hpage
  exact pages va hva (hpage▸hp)

def manyOffers : List ℕ:=(List.range 300).map fun i=>0x6000+i*0x1000

def ample : Machine:=(heapInit 0x1000 (booted manyOffers)).getD (booted manyOffers)

theorem ample_ready : HeapReady 0x1000 ample:=
  heapInit_spec (show init (blank manyOffers)=some (0x1000,booted manyOffers) from rfl) rfl

theorem ample_plenty : Plenty 263 ample:=by
  have hsupply : ample.supply=(List.range 263).map (fun i=>0xA000+i*0x1000) ++
      (List.range 33).map fun i=>0x111000+i*0x1000:=by decide +kernel
  have hused : ample.used=[0x9000,0x8000,0x7000,0x6000,0x5000,0x4000,0x3000,0x2000,0x1000]:=by decide +kernel
  refine ⟨_,_,hsupply,by simp,?_,fun f hf=>?_⟩
  · refine nodup_range.map fun i j hij=>?_
    omega
  obtain ⟨i,hi,rfl⟩:=mem_map.mp hf
  rw [mem_range] at hi
  refine ⟨isFrame_of_bounds (by omega) (by omega) (by omega),?_⟩
  rw [hused]
  simp only [mem_cons,not_mem_nil,or_false]
  omega

/-- Every allocation succeeds, and the heap does not grow. -/
def someHeap : Allocations where
  stackBuf:=⟨some (heapStart+0x100),[]⟩
  task:=⟨some (heapStart+0x200),[]⟩
  kstack:=⟨some (heapStart+0x300),[]⟩
  scstack:=⟨some (heapStart+0x400),[]⟩
  fdTable:=⟨some (heapStart+0x500),[]⟩
  files:=(none,none,none)
  grown:=[]
  tty:=none

theorem lowVaddr_lt : 0x400000<wordSize:=by decide

def lowImage : Image:=elfImage fileBuf 0x400000 lowVaddr_lt

theorem lowImage_spawned : (spawnElf 0x1000 (elfFile fileBuf 0x400000) lowImage noArgs someHeap (bootKernel ample)).result =
    some (.ok 1):=
  spawnElf_succeeds (s:=bootKernel ample) _ noArgs ample_ready (fun g hg=>absurd hg not_mem_nil)
    ⟨rfl,rfl,rfl,rfl,rfl⟩ (by decide +kernel) (by decide) ample_plenty

/-- With 4 MiB of memory the image is out of the way of the frames. -/
theorem identity_access_above : virtToPhys (createUserSpace 0x1000 (bootKernel ample).machine).1 0x5123
    (spawnElf 0x1000 (elfFile fileBuf 0x400000) lowImage noArgs someHeap (bootKernel ample)).kernel.machine=0x5123:=by
  refine identity_access (fun f=>f<1024) _ noArgs ample_ready
    (fun g hg=>absurd hg not_mem_nil) (fun f hf=>?_) ⟨?_,?_,?_⟩ lowImage_spawned (by decide)
  · exact hf.trans (by decide)
  · decide +kernel
  · decide +kernel
  · decide

/-- With more memory the frame at 4 MiB cannot be reached in the space: its address is that of the
code. -/
theorem identity_shadowed : load (elfFile fileBuf 0x400000) (some 121) (some fileBuf) [.ok 121] = .ok lowImage ∧
    (spawnElf 0x1000 (elfFile fileBuf 0x400000) lowImage noArgs someHeap (bootKernel ample)).result=some (.ok 1) ∧
    0x400000/4096 < identityMapLimitFrames ∧
    virtToPhys (createUserSpace 0x1000 (bootKernel ample).machine).1 0x400000
    (spawnElf 0x1000 (elfFile fileBuf 0x400000) lowImage noArgs someHeap (bootKernel ample)).kernel.machine≠0x400000:=by
  refine ⟨rfl,lowImage_spawned,by decide,?_⟩
  have hnew : createUserSpace 0x1000 (bootKernel ample).machine=(0xA000,true,(createUserSpace 0x1000 ample).2.2):=rfl
  have hmap : (mapPages 0xA000 (imagePages lowImage) (createUserSpace 0x1000 ample).2.2).1=true:=by decide +kernel
  have hlow:=(spawnElf_low ample_ready (fun g hg=>absurd hg not_mem_nil) hnew (eq_of_fst hmap) (by decide)
    lowImage_spawned).2 0x400000 (by decide) fun va hva=>not_sameWalk_stack (by decide) hva
  have hframe : virtToPhys 0xA000 0x400000 (mapPages 0xA000 (imagePages lowImage) (createUserSpace 0x1000 ample).2.2).2 =
      0xD000:=by decide +kernel
  rw [hnew,hlow,hframe]
  decide

end Knail.Spawn
