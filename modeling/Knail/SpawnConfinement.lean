import Knail.SpawnMemory

/-!
# What `spawn_elf` changes

While pages are mapped for a new process in the lower half, the tables of the kernel stand
still; the copy loops then write to the frames of these pages. `elf::load` keeps no segment in
the lower half, and neither does `spawn_elf`.
-/
namespace Knail.Spawn

open PageTables Elf List

variable {m m₀ m₁ m' : Machine} {level level₀ level' owner owner' : ℕ→Option ℕ} {home : ℕ→Option ℕ×ℕ}
  {pages spaces vs : List ℕ} {r k f va v a p : ℕ} {full : Bool}
  {seg : Segment} {st : ℕ×UInt8} {mem : ℕ→UInt8} {gs gs' : List ℕ} {s : Kernel} {al : Allocations} {image : Image} {α β : Type*} {x : α×β}

theorem mapPage_newRoot (ht : Tables m level home) (hr : level r=some 3) (v p flags : ℕ)
    (h0 : m.mem r (pml4Idx v)&&&flagPresent=0) (hp : (mapPage r v p flags m).2.mem r (pml4Idx v)&&&flagPresent≠0) :
    level (entryPhys ((mapPage r v p flags m).2.mem r (pml4Idx v)))=none:=by
  obtain ⟨level1,home1,c1⟩:=getOrCreate_spec ht hr (tableFlags_spec flags) (pml4Idx v)
  rw [mapPage_roots ht hr v p flags hr] at hp ⊢
  generalize getOrCreate r (pml4Idx v) (tableFlags flags) m=g at c1 hp ⊢
  have hs : slots g.2 3 r (pml4Idx v) = .table (entryPhys (g.2.mem r (pml4Idx v))):=by
    simp [slots,decode,hp]
  obtain ⟨-,hold | ⟨-,-,hnew⟩⟩:=c1.links (c1.ext.level_eq hr) hs
  · simp [slots,decode,h0] at hold
  · exact hnew

theorem not_sharesLow_mapPage (ht : Tables m level home) (hr : level r=some 3) (hk : level k=some 3) (hne : k≠r)
    (hlow : m.mem k 0&&&flagPresent≠0) (h : ¬SharesLow k r m) (v p flags : ℕ) :
    ¬SharesLow k r (mapPage r v p flags m).2:=by
  have hkept:=mapPage_rootsKept ht hr v p flags
  rintro ⟨hp,he⟩
  rw [hkept.other hk hne] at he
  by_cases h0 : pml4Idx v=0
  · by_cases hp0 : m.mem r 0&&&flagPresent=0
    · have hnew:=mapPage_newRoot ht hr v p flags (by rwa [h0]) (by rwa [h0])
      have hs : slots m 3 k 0 = .table (entryPhys (m.mem k 0)):=by simp [slots,decode,hlow]
      rw [h0,he,(ht.forest.child hk hs).1] at hnew
      cases hnew
    · obtain ⟨he',-⟩:=hkept.linked (by rwa [h0])
      rw [h0] at he'
      exact h ⟨hp0,he'.symm.trans he⟩
  · rw [hkept.entries 0 (Ne.symm h0)] at hp he
    exact h ⟨hp,he⟩

theorem present_mapPage (ht : Tables m level home) (hr : level r=some 3) (v p flags : ℕ)
    (h : m.mem r 0&&&flagPresent≠0) : (mapPage r v p flags m).2.mem r 0&&&flagPresent≠0:=by
  have hkept:=mapPage_rootsKept ht hr v p flags
  by_cases h0 : pml4Idx v=0
  · have:=(hkept.linked (by rwa [h0])).2
    rwa [h0] at this
  · rwa [hkept.entries 0 (Ne.symm h0)]

theorem isolated_dataWrites (h : Isolated k m₀ level₀ spaces m level owner) (hk : level₀ k=some 3)
    (hw : DataWrites level m m') : Isolated k m₀ level₀ spaces m' level owner:=by
  obtain ⟨home,ht⟩:=h.tables
  refine ⟨⟨home,hw.tables ht⟩,h.roots,?_,?_⟩
  · intro t l i u htl hs
    rw [slots,hw.mem htl] at hs
    rw [hw.mem (h.kernel hk).1]
    exact h.links htl hs
  · refine h.kernel_of hw.touched fun _ hl ho=>⟨hl,ho,hw.mem hl,?_⟩
    simp [hl]

/-- A space under construction: the kernel stands still, the given pages are mapped, and the first
entry is not the kernel's. It is there if the space was complete at its creation. -/
structure Ready (k : ℕ) (m₀ : Machine) (level₀ : ℕ→Option ℕ) (r : ℕ) (full : Bool) (m : Machine)
    (level owner : ℕ→Option ℕ) (pages : List ℕ) : Prop where
  isolated : Isolated k m₀ level₀ [r] m level owner
  space : Space r m level pages
  low : ¬SharesLow k r m
  entry : full=true→m.mem r 0&&&flagPresent≠0

namespace Ready

section

variable (h : Ready k m₀ level₀ r full m level owner pages)
include h

theorem ne (hk : level₀ k=some 3) : k≠r:=
  h.isolated.kernel_ne (h.isolated.roots r mem_cons_self).2 hk

theorem mono {pages' : List ℕ} (hp : pages'⊆pages) : Ready k m₀ level₀ r full m level owner pages':=
  ⟨h.isolated,⟨h.space.tables,h.space.root,fun va hva=>h.space.backed va (hp hva)⟩,h.low,h.entry⟩

theorem allocFrame : Ready k m₀ level₀ r full (allocFrame m).2 level owner pages:=by
  obtain ⟨home,ht⟩:=h.space.tables
  have hmem:=(allocFrame_frame m).1
  refine ⟨h.isolated.allocFrame,h.space.remaps (Remaps.alloc ht) (by simp),?_,?_⟩
  · rw [SharesLow,hmem]
    exact h.low
  · rw [hmem]
    exact h.entry

theorem dataWrites (hk : level₀ k=some 3)
    (hw : DataWrites level m m') : Ready k m₀ level₀ r full m' level owner pages:=by
  have hr:=hw.mem h.space.root
  refine ⟨isolated_dataWrites h.isolated hk hw,h.space.dataWrites hw,?_,?_⟩
  · rw [SharesLow,hr,hw.mem (h.isolated.kernel hk).1]
    exact h.low
  · rw [hr]
    exact h.entry

/-- One turn of the loops that map pages. After a failure nothing is said about the pages. -/
theorem mapFrame (hk : level₀ k=some 3) (hlow : m₀.mem k 0&&&flagPresent≠0) (hv : va<2^47) :
    ∃level' owner',Ready k m₀ level₀ r full (mapFrame r va m).2 level' owner'
    (if (mapFrame r va m).1 then va::pages else []) ∧ Remaps [va] m (mapFrame r va m).2 level level':=by
  obtain ⟨home,ht⟩:=h.space.tables
  have hra:=Remaps.alloc ht
  have ha:=h.allocFrame
  rcases mapFrame_cases r va m with ⟨m₁,he,hm⟩ | ⟨f,m₁,hf,he,hm⟩
  · rw [he] at ha hra
    rw [hm]
    refine ⟨level,owner,ha.mono ?_,hra.tables,hra.keeps,fun hr a _=>hra.same hr a (by simp)⟩
    simp
  rw [hm]
  have hframe:=(allocFrame_some ht he hf).1
  rw [he] at ha hra
  obtain ⟨home1,ht1⟩:=ha.space.tables
  have hkl:=(ha.isolated.kernel hk).1
  have hlow1 : m₁.mem k 0&&&flagPresent≠0:=by
    rwa [(ha.isolated.kernel hk).2.2.1]
  obtain ⟨level',owner',hi',hkeep⟩:=ha.isolated.mapPage hk mem_cons_self hv (fun _=>ha.low) f userRw
  have hnot:=not_sharesLow_mapPage ht1 ha.space.root hkl (ha.ne hk) hlow1 ha.low va f userRw
  have hentry : full=true→(mapPage r va f userRw m₁).2.mem r 0&&&flagPresent≠0:=
    fun hfull=>present_mapPage ht1 ha.space.root va f userRw (ha.entry hfull)
  obtain ⟨hok,hfail⟩:=mapPage_frame ht1 ha.space.root hframe va
  have hm' : Remaps [va] m₁ (mapPage r va f userRw m₁).2 level level':=by
    refine ⟨hi'.tables,hkeep,fun {r'} hr' a ha'=>?_⟩
    cases hb : (mapPage r va f userRw m₁).1 with
    | true=>exact (hok hb).2 r' a hr' (ha' va mem_cons_self)
    | false=>exact hfail hb r' a hr'
  refine ⟨level',owner',⟨hi',?_,hnot,hentry⟩,hra.trans hm'⟩
  rcases hb : mapPage r va f userRw m₁ with ⟨_ | _,m2⟩
  · rw [hb] at hi' hkeep
    exact ⟨hi'.tables,hkeep.level_eq ha.space.root,by simp⟩
  · rw [hb] at hi' hkeep
    exact h.space.mapPage he hf hb hi'.tables hkeep

theorem mapPages (vs : List ℕ) (hk : level₀ k=some 3) (hlow : m₀.mem k 0&&&flagPresent≠0)
    (hv : ∀pre va post,vs=pre++va::post→(mapPages r pre m).1=true→va<2^47) :
    ∃level' owner',Ready k m₀ level₀ r full (mapPages r vs m).2 level' owner'
    (if (mapPages r vs m).1 then vs++pages else []) ∧ Remaps vs m (mapPages r vs m).2 level level':=by
  induction vs generalizing m level owner pages with
  | nil=>
    obtain ⟨home,ht⟩:=h.space.tables
    exact ⟨level,owner,h,.refl ht⟩
  | cons va vs ih=>
    obtain ⟨level1,owner1,h1,hm1⟩:=h.mapFrame hk hlow (hv [] va vs rfl rfl)
    rcases he : Spawn.mapFrame r va m with ⟨_ | _,m₁⟩
    · rw [he] at h1 hm1
      simp only [mapPages,he]
      refine ⟨level1,owner1,h1,hm1.tables,hm1.keeps,fun hr a ha=>hm1.same hr a fun v hv'=>?_⟩
      exact ha v (mem_cons.mpr (.inl (mem_singleton.mp hv')))
    · rw [he] at h1 hm1
      obtain ⟨level2,owner2,h2,hm2⟩:=ih h1 fun pre va' post hvs hpre=>
        hv (va::pre) va' post (by rw [hvs]; rfl) (by simpa only [mapPages,he] using hpre)
      simp only [mapPages,he]
      refine ⟨level2,owner2,h2.mono ?_,hm1.trans hm2⟩
      split
      · intro u hu
        simp only [cons_append,mem_cons,mem_append,if_true] at hu ⊢
        tauto
      · exact nil_subset _

theorem activate (hk : level₀ k=some 3) (hp : m.mem r 0&&&flagPresent≠0) (hpages : ∀va∈pages,va<2^47) :
    Ready k m₀ level₀ r full (activate k r m) level owner pages:=by
  have he:=activate_entry k (by decide : 0<256) hp
  refine ⟨h.isolated.activate hk mem_cons_self,h.space.activate (h.isolated.kernel hk).1 hpages,?_,?_⟩
  · rw [SharesLow,he,activate_mem_of_ne k (h.ne hk)]
    exact h.low
  · rw [he]
    exact h.entry

end

end Ready

theorem segmentStores_page (h : seg.vaddr+seg.memsz+0xFFF<wordSize) (mem : ℕ→UInt8) (hs : st∈segmentStores mem seg) :
    st.1<seg.vaddr+seg.memsz ∧ ∃va∈segmentPages seg,st.1/4096=va/4096:=by
  unfold wordSize at h
  obtain ⟨j,hj,he⟩ : ∃j<seg.memsz,st.1=seg.vaddr+j:=by
    have hfile:=seg.filesz_le
    rcases mem_append.mp hs with hs | hs
    all_goals
      obtain ⟨j,hj,rfl⟩:=mem_map.mp hs
      rw [mem_range] at hj
      exact ⟨j,by omega,u64_of_lt (by omega)⟩
  refine ⟨by omega,seg.vaddr/4096*4096+((seg.vaddr+j)/4096-seg.vaddr/4096)*4096,?_,by omega⟩
  simp only [segmentPages]
  rw [u64_of_lt (by omega)]
  refine mem_map.mpr ⟨_,mem_range.mpr ?_,rfl⟩
  omega

theorem memsz_pos (hs : st∈segmentStores mem seg) : 0<seg.memsz:=by
  rw [Nat.pos_iff_ne_zero]
  intro h0
  have hf : seg.filesz=0:=Nat.le_zero.mp (h0▸seg.filesz_le)
  simp [segmentStores,h0,hf] at hs

theorem stackStores_covered {img : StackImage} (h : img.depth≤5000) (hs : st∈img.stores) :
    st.1<2^47 ∧ ∃va∈stackPages,st.1/4096=va/4096:=by
  obtain ⟨i,hi,rfl⟩:=mem_map.mp hs
  rw [mem_range] at hi
  simp only [userStackTop,stackPages,userStackSize]
  refine ⟨by omega,0x7FFFFFF000-0x40000+((0x7FFFFFF000-img.depth+i)/4096-0x7FFFFBF)*4096,?_,by omega⟩
  refine mem_map.mpr ⟨_,mem_range.mpr ?_,rfl⟩
  omega

theorem stackPages_lt (h : va∈stackPages) : va<2^39:=by
  obtain ⟨i,hi,rfl⟩:=mem_map.mp h
  rw [mem_range] at hi
  simp only [userStackTop,userStackSize] at hi ⊢
  omega

/-- All pages by which the heap grows during `spawn_user`. -/
def Allocations.heapPages (al : Allocations) : List ℕ:=
  al.stackBuf.grown++al.task.grown++al.kstack.grown++al.scstack.grown++al.fdTable.grown++al.grown

def InHeap (gs : List ℕ) : Prop:=∀g∈gs,heapStart≤g ∧ g<heapMax

theorem not_sameWalk_heap {g : ℕ} (ha : pml4Idx a<256) (hg : heapStart≤g ∧ g<heapMax) : ¬SameWalk a g:=by
  intro hw
  have h3:=hw 3 le_rfl
  have hi:=pml4Idx_heap hg.1 hg.2
  unfold pml4Idx at ha hi
  omega

/-- The kernel's translations change at the given pages only, those of the first entry of the
space not at all. -/
structure Quiet (k r : ℕ) (gs : List ℕ) (m m' : Machine) : Prop where
  kernel : ∀a,(∀g∈gs,¬SameWalk a g)→virtToPhys k a m'=virtToPhys k a m
  user : ∀a,pml4Idx a=0→virtToPhys r a m'=virtToPhys r a m

theorem Quiet.trans (h : Quiet k r gs m m₁) (h' : Quiet k r gs' m₁ m') : Quiet k r (gs++gs') m m' where
  kernel a ha:=by
    rw [h'.kernel a fun g hg=>ha g (mem_append_right _ hg),h.kernel a fun g hg=>ha g (mem_append_left _ hg)]
  user a ha:=(h'.user a ha).trans (h.user a ha)

theorem Quiet.mono (h : Quiet k r gs m m') (hs : gs⊆gs') : Quiet k r gs' m m':=
  ⟨fun a ha=>h.kernel a fun g hg=>ha g (hs hg),h.user⟩

theorem Space.grow (h : Space r m level pages) (hk : level k=some 3) (hp : ∀va∈pages,va<2^47) (gs : List ℕ)
    (hg : InHeap gs) : ∃level',Space r (grow k gs m) level' pages ∧ level' k=some 3 ∧ Quiet k r gs m (grow k gs m):=by
  obtain ⟨home,ht⟩:=h.tables
  obtain ⟨level',hm⟩:=remaps_grow gs ht hk
  refine ⟨level',h.remaps hm fun va hva g hg'=>not_sameWalk_heap (pml4Idx_lt (hp va hva)) (hg g hg'),
    hm.keeps.level_eq hk,hm.same hk,fun a ha=>hm.same h.root a fun g hg'=>not_sameWalk_heap (by omega) (hg g hg')⟩

theorem Space.quiet_activate (h : Space r m level pages) (hk : level k=some 3) (hne : k≠r)
    (hp : m.mem r 0&&&flagPresent≠0) : Quiet k r [] m (PageTables.activate k r m):=by
  obtain ⟨home,ht⟩:=h.tables
  refine ⟨fun a _=>virtToPhys_activate_of_ne ht hk h.root hne a,fun a ha=>?_⟩
  exact virtToPhys_activate k ht h.root (by omega) (by rwa [ha])

theorem Space.quiet_dataWrites (h : Space r m level pages) (hk : level k=some 3) (hw : DataWrites level m m') :
    Quiet k r [] m m':=by
  obtain ⟨home,ht⟩:=h.tables
  exact ⟨fun a _=>hw.virtToPhys ht hk a,fun a _=>hw.virtToPhys ht h.root a⟩

theorem makeTask_machine (k r quantum : ℕ) (al : Allocations) (s : Kernel) :
    ∃gs,gs⊆al.heapPages ∧ (makeTask k r quantum al s).2.machine=grow k gs s.machine:=by
  unfold makeTask
  split
  · exact ⟨al.task.grown,by grind [Allocations.heapPages],rfl⟩
  split
  · exact ⟨al.task.grown++al.kstack.grown,by grind [Allocations.heapPages],(foldl_append ..).symm⟩
  split
  · refine ⟨al.task.grown++al.kstack.grown++al.scstack.grown,by grind [Allocations.heapPages],?_⟩
    simp only [grow,foldl_append]
    rfl
  split
  · refine ⟨al.task.grown++al.kstack.grown++al.scstack.grown++al.fdTable.grown,by grind [Allocations.heapPages],?_⟩
    simp only [grow,foldl_append]
    rfl
  refine ⟨al.task.grown++al.kstack.grown++al.scstack.grown++al.fdTable.grown++al.grown,
    by grind [Allocations.heapPages],?_⟩
  simp only [grow,foldl_append]
  rfl

theorem stack_mem : userStackTop-userStackSize∈stackPages:=
  mem_map.mpr ⟨0,mem_range.mpr (by decide),rfl⟩

/-- Once the stack is mapped there is no fault, and all that happens to the kernel is that its heap
grows. -/
theorem Space.startUser (h : Space r s.machine level stackPages) (hk : level k=some 3) (hne : k≠r)
    (entry quantum : ℕ) (args : Args) (hg : InHeap al.heapPages) :
    Quiet k r al.heapPages s.machine (startUser k r entry quantum args al s).2.machine:=by
  have hstack (va : ℕ) (hva : va∈stackPages) : va<2^47:=(stackPages_lt hva).trans (by decide)
  obtain ⟨level1,h1,hk1,q1⟩:=h.grow hk hstack al.stackBuf.grown
    fun g hg'=>hg g (by simp [Allocations.heapPages,hg'])
  unfold Spawn.startUser
  dsimp only
  split
  · exact q1.mono (by grind [Allocations.heapPages])
  rename_i buf hb
  have hpres : (Spawn.grow k al.stackBuf.grown s.machine).mem r 0&&&flagPresent≠0:=by
    exact h1.present stack_mem
  have h2:=h1.activate hk1 hstack
  have q2:=h1.quiet_activate hk1 hne hpres
  obtain ⟨m3,hrun,hw⟩:=h2.runStores
    (buildStack (buf+stackBufSize) args.argv args.argc args.envp args.envc entry).stores fun st hst=>by
      obtain ⟨hlt,va,hva,hpage⟩:=stackStores_covered (depth_buildStack ..) hst
      exact ⟨.inl hlt,va,hva,sameWalk_of_page hpage⟩
  have q3:=h2.quiet_dataWrites hk1 hw
  have hmachine : (s.kmalloc k al.stackBuf).machine=Spawn.grow k al.stackBuf.grown s.machine:=rfl
  rw [hmachine,hrun]
  obtain ⟨gs,hgs,hmk⟩:=makeTask_machine k r quantum al
    (((s.kmalloc k al.stackBuf).withMachine (PageTables.activate k k m3)).kfree buf)
  obtain ⟨level4,-,-,q4⟩:=(h2.dataWrites hw).grow hk1 hstack gs fun g hg'=>hg g (hgs hg')
  rw [hmk]
  rw [activate_self]
  exact (((q1.trans q2).trans q3).trans q4).mono (by grind [Allocations.heapPages])

theorem Ready.spawnUser (h : Ready k m₀ level₀ r full s.machine level owner pages) (hk : level₀ k=some 3)
    (hf : Forest (slots m₀) 3 level₀ home) (hlow : m₀.mem k 0&&&flagPresent≠0) (entry quantum : ℕ)
    (args : Args) (hg : InHeap al.heapPages) : (∀a,(∀g∈al.heapPages,¬SameWalk a g) →
    virtToPhys k a (spawnUser k r entry quantum args al s).2.machine=virtToPhys k a m₀) ∧
    ∀tid,(spawnUser k r entry quantum args al s).1=some (.ok tid)→∀a,pml4Idx a=0 →
    (∀va∈stackPages,¬SameWalk a va) →
    virtToPhys r a (spawnUser k r entry quantum args al s).2.machine=virtToPhys r a s.machine:=by
  obtain ⟨level1,owner1,h1,hm1⟩:=h.mapPages stackPages hk hlow fun pre va post he _=>
    (stackPages_lt (by simp [he])).trans (by decide)
  have hker:=h1.isolated.virtToPhys_kernel hf hk
  unfold Spawn.spawnUser
  rcases hmap : Spawn.mapPages r stackPages s.machine with ⟨_ | _,m₁⟩
  · rw [hmap] at hker
    exact ⟨fun a _=>hker a,fun tid h=>by simp at h⟩
  rw [hmap] at h1 hm1 hker
  have hs1 : Space r (s.withMachine m₁).machine level1 stackPages:=(h1.mono (subset_append_left ..)).space
  have q:=hs1.startUser (h1.isolated.kernel hk).1 (h.ne hk) entry quantum args hg
  exact ⟨fun a ha=>(q.kernel a ha).trans (hker a),
    fun tid _ a h0 hst=>(q.user a h0).trans (hm1.same h.space.root a hst)⟩

theorem ready_create (ht : Tables m level home) (hk : level k=some 3) (hlow : m.mem k 0&&&flagPresent≠0)
    (hc : createUserSpace k m=(r,full,m')) (hr : r≠0) :
    ∃level' owner',Ready k m level r full m' level' owner' []:=by
  obtain ⟨level',owner',hi,hn⟩:=(Isolated.start ht).createUserSpace hk
  rw [hc] at hi hn
  rw [if_neg hr] at hi
  have hlow' : m'.mem k=m.mem k:=hn.mem k (ht.used hk)
  have hs : slots m 3 k 0 = .table (entryPhys (m.mem k 0)):=by simp [slots,decode,hlow]
  have hku:=ht.used (ht.forest.child hk hs).1
  refine ⟨level',owner',hi,⟨hn.tables,(hn.root hr).1,by simp⟩,?_,?_⟩
  · rintro ⟨hp,he⟩
    cases full with
    | false=>
      rw [show m'.mem r 0=0 from hn.empty hr rfl 0] at hp
      simp at hp
    | true=>
      obtain ⟨-,pdpt,hpl,hpu,hmem⟩:=hn.full rfl
      obtain ⟨home',ht'⟩:=hn.tables
      have hm0 : m'.mem r 0=pdpt|||(flagPresent|||flagWrite):=by exact hmem 0
      rw [hm0,(entry_table (f:=flagPresent|||flagWrite) (ht'.frame hpl) (.inl rfl)).1,hlow'] at he
      exact hpu (he▸hku)
  · rintro rfl
    obtain ⟨-,pdpt,hpl,-,hmem⟩:=hn.full rfl
    obtain ⟨home',ht'⟩:=hn.tables
    have hm0 : m'.mem r 0=pdpt|||(flagPresent|||flagWrite):=by exact hmem 0
    rw [hm0]
    exact (entry_table (ht'.frame hpl) (.inl rfl)).2.1

theorem imageStores_covered (mem : ℕ→UInt8) (hseg : ∀seg∈image.segments,0<seg.memsz→seg.vaddr+seg.memsz≤2^47)
    (hst : st∈imageStores mem image) : st.1<2^47 ∧ ∃va∈imagePages image,st.1/4096=va/4096:=by
  obtain ⟨seg,hs,hst⟩:=mem_flatMap.mp hst
  have hle:=hseg seg hs (memsz_pos hst)
  obtain ⟨hlt,va,hva,hpage⟩:=segmentStores_page (by unfold wordSize; omega) mem hst
  exact ⟨hlt.trans_le hle,va,mem_flatMap.mpr ⟨seg,hs,hva⟩,hpage⟩

theorem Space.copy (h : Space r m level pages) (mem : ℕ→UInt8) (himg : imagePages image⊆pages)
    (hseg : ∀seg∈image.segments,0<seg.memsz→seg.vaddr+seg.memsz≤2^47) :
    ∃m',Spawn.runStores r (imageStores mem image) m=(true,m',(imageStores mem image).map Prod.fst) ∧
    DataWrites level m m':=by
  refine h.runStores _ fun st hst=>?_
  obtain ⟨hlt,va,hva,hpage⟩:=imageStores_covered mem hseg hst
  exact ⟨.inl hlt,va,himg hva,sameWalk_of_page hpage⟩

theorem Ready.copy (h : Ready k m₀ level₀ r full m level owner pages) (hk : level₀ k=some 3)
    (hp : m.mem r 0&&&flagPresent≠0) (hpages : ∀va∈pages,va<2^47) (mem : ℕ→UInt8)
    (himg : imagePages image⊆pages) (hseg : ∀seg∈image.segments,0<seg.memsz→seg.vaddr+seg.memsz≤2^47) :
    ∃m',runStores r (imageStores mem image) (PageTables.activate k r m) =
    (true,m',(imageStores mem image).map Prod.fst) ∧ Ready k m₀ level₀ r full m' level owner pages ∧
    Quiet k r [] m m' ∧ ∀a∈(imageStores mem image).map Prod.fst,a<2^47:=by
  have ha:=h.activate hk hp hpages
  have hkl:=(h.isolated.kernel hk).1
  obtain ⟨m',hrun,hw⟩:=ha.space.copy mem himg hseg
  refine ⟨m',hrun,ha.dataWrites hk hw,?_,?_⟩
  · exact (h.space.quiet_activate hkl (h.ne hk) hp).trans (ha.space.quiet_dataWrites hkl hw)
  intro a ha
  obtain ⟨st,hst,rfl⟩:=mem_map.mp ha
  exact (imageStores_covered mem hseg hst).1

theorem frees_freePd (pd : ℕ) (m : Machine) : Frees (fun _=>True) m (freePd pd m):=by
  refine frees_foldl _ _ fun m' _ i _=>?_
  dsimp only
  split
  · exact .refl _ _
  · exact frees_freeFrame trivial

theorem frees_freePdpt (pdpt : ℕ) (m : Machine) : Frees (fun _=>True) m (freePdpt pdpt m):=by
  refine frees_foldl _ _ fun m' _ i _=>?_
  dsimp only
  split
  · exact .refl _ _
  · exact (frees_freePd _ _).trans (frees_freeFrame trivial)

theorem destroyUserSpace_mem (r : ℕ) (m : Machine) : (destroyUserSpace r m).mem=m.mem:=by
  suffices h : Frees (fun _=>True) m (destroyUserSpace r m) from h.mem
  unfold destroyUserSpace
  split
  · exact .refl _ _
  refine Frees.trans (frees_foldl _ _ fun m' _ i _=>?_) (frees_freeFrame trivial)
  dsimp only
  split
  · exact .refl _ _
  · exact (frees_freePdpt _ _).trans (frees_freeFrame trivial)

theorem virtToPhys_destroy (r k a : ℕ) (m : Machine) : virtToPhys k a (destroyUserSpace r m)=virtToPhys k a m:=by
  simp only [virtToPhys,destroyUserSpace_mem]

/-- There is memory for a new space and for the given pages in it. -/
def Affords (kernel : ℕ) (pages : List ℕ) (m : Machine) : Prop:=
  (createUserSpace kernel m).1≠0 ∧ (mapPages (createUserSpace kernel m).1 pages (createUserSpace kernel m).2.2).1=true

/-- As far as there is memory for them, the pages and the segments of the image are in the lower
half, and the space gets an own first entry before it is activated: when it is created, or with a
page of the image. -/
structure Confined (kernel : ℕ) (image : Image) (m : Machine) : Prop where
  pages : ∀pre va post,imagePages image=pre++va::post→Affords kernel pre m→va<2^47
  segments : Affords kernel (imagePages image) m→∀seg∈image.segments,0<seg.memsz→seg.vaddr+seg.memsz≤2^47
  low : Affords kernel (imagePages image) m →
    (createUserSpace kernel m).2.1=true ∨ ∃va∈imagePages image,va<2^39

theorem mapPages_append (r : ℕ) (vs ws : List ℕ) (m : Machine) (h : (mapPages r (vs++ws) m).1=true) :
    (mapPages r vs m).1=true:=by
  induction vs generalizing m with
  | nil=>rfl
  | cons v vs ih=>
    simp only [cons_append,mapPages] at h ⊢
    generalize mapFrame r v m=g at h ⊢
    rcases g with ⟨_ | _,m₁⟩
    · exact h
    · exact ih m₁ h

theorem pml4Idx_low (h : va<2^39) : pml4Idx va=0:=by
  simp only [pml4Idx,tableIdx]
  omega

/-- For a confined image the kernel's translations change at the pages of the heap only, and the
copy loops write to the lower half. -/
theorem spawnElf_confined {s : Kernel} {image : Image} {al : Allocations} (mem : ℕ→UInt8) (args : Args)
    (hb : HeapReady k s.machine) (hg : InHeap al.heapPages) (hc : Confined k image s.machine) :
    (∀v,(∀g∈al.heapPages,¬SameWalk v g) →
    virtToPhys k v (spawnElf k mem image args al s).kernel.machine=virtToPhys k v s.machine) ∧
    ∀a∈(spawnElf k mem image args al s).written,a<2^47:=by
  obtain ⟨level₀,home₀,ht,hk⟩:=hb.tables
  obtain ⟨pages,segments,low⟩:=hc
  unfold Affords at pages segments low
  unfold spawnElf
  obtain ⟨levelᵢ,ownerᵢ,hi,-⟩:=(Isolated.start ht).createUserSpace hk
  have hcreate:=hi.virtToPhys_kernel ht.forest hk
  rcases hnew : createUserSpace k s.machine with ⟨_ | r,full,m₁⟩
  · rw [hnew] at hcreate
    exact ⟨fun v _=>hcreate v,by simp⟩
  rw [hnew] at pages segments low
  obtain ⟨level₁,owner₁,h₁⟩:=ready_create ht hk hb.low hnew (Nat.succ_ne_zero r)
  obtain ⟨level₂,owner₂,h₂,-⟩:=h₁.mapPages (imagePages image) hk hb.low fun pre va post he hpre=>
    pages pre va post he ⟨Nat.succ_ne_zero r,hpre⟩
  rcases hmap : mapPages (r+1) (imagePages image) m₁ with ⟨_ | _,m₂⟩
  · rw [hmap] at h₂
    simp only [hmap]
    refine ⟨fun v _=>?_,by simp⟩
    exact (virtToPhys_destroy (r+1) k v m₂).trans (h₂.isolated.virtToPhys_kernel ht.forest hk v)
  rw [hmap] at h₂
  have hafford : r+1≠0 ∧ (mapPages (r+1) (imagePages image) m₁).1=true:=⟨Nat.succ_ne_zero r,by rw [hmap]⟩
  have hpages (va : ℕ) (hva : va∈imagePages image) : va<2^47:=by
    obtain ⟨pre,post,he⟩:=append_of_mem hva
    refine pages pre va post he ⟨Nat.succ_ne_zero r,mapPages_append _ pre (va::post) _ ?_⟩
    rw [←he,hmap]
  have hentry : m₂.mem (r+1) 0&&&flagPresent≠0:=by
    rcases low hafford with hfull | ⟨va,hva,hlt⟩
    · exact h₂.entry hfull
    · have:=h₂.space.present (mem_append_left _ hva)
      rwa [pml4Idx_low hlt] at this
  obtain ⟨m₃,hrun,h₃,-,hwritten⟩:=h₂.copy hk hentry (by simpa using hpages) mem (by simp) (segments hafford)
  have h₃' : Ready k s.machine level₀ (r+1) full (s.withMachine (PageTables.activate k k m₃)).machine level₂ owner₂
      (imagePages image++[]):=by
    rw [activate_self]
    exact h₃
  have huser:=(h₃'.spawnUser hk ht.forest hb.low image.entry defaultQuantum args hg).1
  simp only [hmap,hrun]
  rcases hu : spawnUser k (r+1) image.entry defaultQuantum args al (s.withMachine (PageTables.activate k k m₃))
    with ⟨_ | _ | _,s'⟩
  · rw [hu] at huser
    exact ⟨huser,hwritten⟩
  · rw [hu] at huser
    exact ⟨fun v hv=>(virtToPhys_destroy (r+1) k v s'.machine).trans (huser v hv),hwritten⟩
  · rw [hu] at huser
    exact ⟨huser,hwritten⟩

theorem confined_of_lower (hpages : ∀va∈imagePages image,va<2^47)
    (hseg : ∀seg∈image.segments,seg.vaddr+seg.memsz≤2^47) (hfull : (createUserSpace k m).2.1=true) :
    Confined k image m:=
  ⟨fun pre va post he _=>hpages va (by simp [he]),fun _ seg hs _=>hseg seg hs,fun _=>.inl hfull⟩

/-- A heap block with an executable file in it: one segment of one byte at the given address. -/
def elfFile (buf vaddr : ℕ) : ℕ→UInt8:=
  let header:=putLE (putBytes (fun _=>0) buf [0x7F,0x45,0x4C,0x46,2,1,1]) 4 (buf+16) 0x3E0002
  let header:=putLE (putLE (putLE header 8 (buf+24) vaddr) 8 (buf+32) 64) 4 (buf+54) 0x10038
  let phdr:=putLE (putLE (putLE header 4 (buf+64) 1) 8 (buf+72) 120) 8 (buf+80) vaddr
  putLE (putLE phdr 8 (buf+96) 1) 8 (buf+104) 1

def elfImage (buf vaddr : ℕ) (h : vaddr<wordSize) : Image where
  entry:=vaddr
  segments:=[⟨vaddr,1,1,0,buf+120,le_rfl,h,by decide⟩]
  fileData:=buf
  fileSize:=121

/-- The kernel after boot, with the idle task alone. -/
def bootKernel (m : Machine) : Kernel where
  machine:=m
  blocks:=[]
  world:=⟨⟨fun _=>none,fun _=>none⟩,[],fun _=>.empty⟩
  sched:=Scheduler.init (fun _=>⟨none,0,none,.ready,0,0,0,0,0,none,none,none⟩) 0x100000

def noArgs : Args:=⟨⟨false,fun _=>none⟩,0,⟨false,fun _=>none⟩,0⟩

def noHeap : Allocations:=
  ⟨⟨none,[]⟩,⟨none,[]⟩,⟨none,[]⟩,⟨none,[]⟩,⟨none,[]⟩,(none,none,none),[],none⟩

theorem withHeap_ready : HeapReady 0x1000 withHeap:=
  heapInit_spec (show init (blank offers)=some (0x1000,booted offers) from rfl) rfl

def fileBuf : ℕ:=heapStart+32

/-- A file with code at 4 MiB is loaded, and there is no memory for the stack. -/
theorem spawnElf_confined_low :
    load (elfFile fileBuf 0x400000) (some 121) (some fileBuf) [.ok 121] = .ok (elfImage fileBuf 0x400000 (by decide)) ∧
    virtToPhys 0x1000 0x400000 (spawnElf 0x1000 (elfFile fileBuf 0x400000) (elfImage fileBuf 0x400000 (by decide))
    noArgs noHeap (bootKernel withHeap)).kernel.machine=virtToPhys 0x1000 0x400000 withHeap:=by
  have hc : Confined 0x1000 (elfImage fileBuf 0x400000 (by decide)) (bootKernel withHeap).machine:=
    confined_of_lower (by decide +kernel) (by decide) (by decide +kernel)
  refine ⟨rfl,(spawnElf_confined _ noArgs withHeap_ready ?_ hc).1 _ ?_⟩
  · exact fun g hg=>absurd hg not_mem_nil
  · exact fun g hg=>absurd hg not_mem_nil

def kernelCode : ℕ:=0xFFFFFFFF80100000

def upperImage : Image:=elfImage fileBuf kernelCode (by decide)

/-- The memory when the segment of that image is mapped, when it is copied, and when there are no
more frames for the stack. -/
def upperMapped : Machine:=(mapPages 0xA000 (imagePages upperImage) (createUserSpace 0x1000 withHeap).2.2).2

def upperCopied : Machine:=
  (runStores 0xA000 (imageStores (elfFile fileBuf kernelCode) upperImage) (activate 0x1000 0xA000 upperMapped)).2.1

def upperFailed : Machine:=(mapPages 0xA000 stackPages upperCopied).2

theorem spawnElf_stackFails {args : Args}
    {m2 m3 m4 : Machine} {written : List ℕ} (h1 : createUserSpace k s.machine=(r,full,m₁)) (hr : r≠0)
    (h2 : mapPages r (imagePages image) m₁=(true,m2))
    (h3 : runStores r (imageStores mem image) (activate k r m2)=(true,m3,written))
    (h4 : mapPages r stackPages m3=(false,m4)) : spawnElf k mem image args al s =
    ⟨some (.error .outOfMemory),s.withMachine (destroyUserSpace r m4),written⟩:=by
  simp only [spawnElf,h1,h2,h3,spawnUser,activate_self,Kernel.withMachine,h4]

theorem eq_of_fst {y : α} (h : x.1=y) : x=(y,x.2):=Prod.ext h rfl

theorem eq_of_snd {y : β} (h : x.2=y) : x=(x.1,y):=Prod.ext rfl h

theorem spawnElf_upperImage : spawnElf 0x1000 (elfFile fileBuf kernelCode) upperImage noArgs noHeap (bootKernel withHeap) =
    ⟨some (.error .outOfMemory),(bootKernel withHeap).withMachine (destroyUserSpace 0xA000 upperFailed),
    [kernelCode,kernelCode]⟩:=by
  have h1 : createUserSpace 0x1000 (bootKernel withHeap).machine=(0xA000,true,(createUserSpace 0x1000 withHeap).2.2):=
    rfl
  have h2 : (mapPages 0xA000 (imagePages upperImage) (createUserSpace 0x1000 withHeap).2.2).1=true:=by decide +kernel
  have h3 : (runStores 0xA000 (imageStores (elfFile fileBuf kernelCode) upperImage)
      (activate 0x1000 0xA000 upperMapped)).1=true:=by decide +kernel
  have h3' : (runStores 0xA000 (imageStores (elfFile fileBuf kernelCode) upperImage)
      (activate 0x1000 0xA000 upperMapped)).2.2=[kernelCode,kernelCode]:=by decide +kernel
  have h4 : (mapPages 0xA000 stackPages upperCopied).1=false:=by decide +kernel
  exact spawnElf_stackFails h1 (by decide) (eq_of_fst h2) ((eq_of_fst h3).trans (congrArg (true,·) (eq_of_snd h3')))
    (eq_of_fst h4)

/-- A segment at a page of the kernel's code takes the place of that page in the kernel's space,
and its bytes are written there. -/
theorem spawnElf_moves_kernel : load (elfFile fileBuf kernelCode) (some 121) (some fileBuf) [.ok 121] = .ok upperImage ∧
    HeapReady 0x1000 (bootKernel withHeap).machine ∧ noHeap.heapPages=[] ∧
    (virtToPhys 0x1000 kernelCode (spawnElf 0x1000 (elfFile fileBuf kernelCode) upperImage noArgs noHeap
    (bootKernel withHeap)).kernel.machine≠virtToPhys 0x1000 kernelCode (bootKernel withHeap).machine ∧
    ∃a∈(spawnElf 0x1000 (elfFile fileBuf kernelCode) upperImage noArgs noHeap (bootKernel withHeap)).written,
    ¬a<2^47):=by
  rw [spawnElf_upperImage]
  refine ⟨rfl,withHeap_ready,rfl,?_,kernelCode,mem_cons_self,by decide⟩
  have hafter : virtToPhys 0x1000 kernelCode upperFailed=0xD000:=by decide +kernel
  have hbefore : virtToPhys 0x1000 kernelCode withHeap=0x100000:=by decide +kernel
  rw [Kernel.withMachine,virtToPhys_destroy,hafter,bootKernel,hbefore]
  decide

end Knail.Spawn
