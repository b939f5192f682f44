import Knail.KernelIsolation

/-!
# One upper half for all spaces

`create_user_space` copies the upper half of the kernel's PML4. The heap's entry stands there
since `heap::init`, so later pages of the heap go into tables that every space shares, and
no space has to be activated again to see them.
-/
namespace Knail.PageTables

open List Option

variable {m m' m₀ : Machine} {level level' level₀ owner : ℕ→Option ℕ} {home : ℕ→Option ℕ×ℕ} {spaces : List ℕ}
  {t i f k r u v : ℕ}

def heapStart : ℕ:=0xFFFF900000000000
def heapMax : ℕ:=0xFFFF900040000000
def kernelRw : ℕ:=flagPresent|||flagWrite

/-- One turn of the loop in `heap::expand`; whether the page could be mapped is not looked at. -/
def expandPage (kernel virt : ℕ) (m : Machine) : Machine:=
  let (phys,m):=allocFrame m
  if phys=0 then m else (mapPage kernel virt phys kernelRw m).2

/-- `heap::init` maps the first page of the heap. There is no result if no frame is left for
it, or for the tables above it: then the header of the first block is stored to a page that
is not there. -/
def heapInit (kernel : ℕ) (m : Machine) : Option Machine:=
  let (phys,m):=allocFrame m
  if phys=0 then none
  else match mapPage kernel heapStart phys kernelRw m with
    | (true,m)=>some m
    | (false,_)=>none

theorem pml4Idx_heap (h1 : heapStart≤v) (h2 : v<heapMax) : pml4Idx v=288:=by
  simp only [heapStart,heapMax,pml4Idx,tableIdx] at *
  omega

theorem pml4Idx_upper (h1 : 2^64-2^47≤v) (h2 : v<2^64) : 256≤pml4Idx v ∧ pml4Idx v<512:=by
  simp only [pml4Idx,tableIdx]
  omega

theorem allocFrame_frame (m : Machine) : (allocFrame m).2.mem=m.mem ∧
    (∀u∈m.used,u∈(allocFrame m).2.used) ∧ (allocFrame m).2.touched=m.touched:=by
  unfold allocFrame
  split
  · exact ⟨rfl,fun _=>id,rfl⟩
  split
  · exact ⟨rfl,fun _=>mem_cons_of_mem _,rfl⟩
  · exact ⟨rfl,fun _=>id,rfl⟩

theorem getOrCreate_linked (hp : m.mem t i&&&flagPresent≠0) (hh : m.mem t i&&&flagHuge=0) :
    getOrCreate t i f m=(entryPhys (m.mem t i),withUser t i f m):=by
  have hmem : (withUser t i f m).mem t i=m.mem t i ∨ (withUser t i f m).mem t i=m.mem t i|||flagUser:=by
    unfold withUser
    split
    · exact .inr (by rw [mem_write_self,Function.update_self])
    · exact .inl rfl
  obtain ⟨hphys,-,hhuge,-⟩:=or_user (m.mem t i)
  rw [getOrCreate,if_pos hp]
  rcases hmem with he | he
  · simp only [he,hh,ne_eq,not_true_eq_false,if_false]
  · simp only [he,hhuge,hphys,hh,ne_eq,not_true_eq_false,if_false]

theorem mapPage_roots (ht : Tables m level home) (hr : level r=some 3) (v p flags : ℕ) (hu : level u=some 3) :
    (mapPage r v p flags m).2.mem u=(getOrCreate r (pml4Idx v) (tableFlags flags) m).2.mem u:=by
  have hne {c l : ℕ} {lev : ℕ→Option ℕ} (hu : lev u=some 3) (hl : lev c=some l) (h : l≠3) : u≠c:=by
    rintro rfl
    exact h (some.inj (hl.symm.trans hu))
  set g:=(getOrCreate r (pml4Idx v) (tableFlags flags) m).2 with hg
  obtain ⟨m1,he,hm⟩ | ⟨m1,pt,he,level1,-,hl,hu1,hm,-⟩:=mapPage_rule p
    (P:=fun l t m1=>∃level1,(∃home1,Tables m1 level1 home1) ∧ level1 t=some l ∧ level1 u=some 3 ∧
      (l≠3→m1.mem u=g.mem u) ∧ (l=3→t=r ∧ m1=m))
    ⟨level,⟨home,ht⟩,hr,hu,fun h=>absurd rfl h,fun _=>⟨rfl,rfl⟩⟩
    fun {l t m1 c m2} hlt h he=>by
      obtain ⟨level1,⟨home1,ht1⟩,hl,hu1,hm,hroot⟩:=h
      obtain ⟨level2,home2,hc⟩:=getOrCreate_spec ht1 hl (tableFlags_spec flags) (tableIdx (l+1) v)
      have hmem : m2.mem u=g.mem u:=by
        by_cases h3 : l+1=3
        · rw [h3,(hroot h3).1,(hroot h3).2] at he
          rw [hg,pml4Idx,he]
        · rw [←hm h3,←hc.other u (ht1.used hu1) (hne hu1 hl h3),he]
      rw [he] at hc
      exact ⟨fun _=>hmem,fun h0=>⟨level2,⟨home2,hc.tables⟩,(hc.child h0).1,hc.ext.level_eq hu1,fun _=>hmem,
        fun h=>absurd h hlt.ne⟩⟩
  · rw [he]
    exact hm
  · rw [he]
    exact (mem_write_of_ne (hne hu1 hl (by decide))).trans (hm (by decide))

/-- What `map_page` does to the PML4s. -/
structure RootsKept (r : ℕ) (level : ℕ→Option ℕ) (i : ℕ) (m m' : Machine) : Prop where
  other : ∀{u},level u=some 3→u≠r→m'.mem u=m.mem u
  entries : ∀j,j≠i→m'.mem r j=m.mem r j
  linked : m.mem r i&&&flagPresent≠0 →
    entryPhys (m'.mem r i)=entryPhys (m.mem r i) ∧ m'.mem r i&&&flagPresent≠0

theorem mapPage_rootsKept (ht : Tables m level home) (hr : level r=some 3) (v p flags : ℕ) :
    RootsKept r level (pml4Idx v) m (mapPage r v p flags m).2:=by
  obtain ⟨level1,home1,c1⟩:=getOrCreate_spec ht hr (tableFlags_spec flags) (pml4Idx v)
  refine ⟨fun hu hne=>?_,fun j hj=>?_,fun hp=>?_⟩
  · rw [mapPage_roots ht hr v p flags hu]
    exact c1.other _ (ht.used hu) hne
  · rw [mapPage_roots ht hr v p flags hr]
    exact c1.entries j hj
  rw [mapPage_roots ht hr v p flags hr,getOrCreate_linked hp (ht.flat hr hp)]
  unfold withUser
  split
  · obtain ⟨hphys,hpres,-⟩:=or_user (m.mem r (pml4Idx v))
    rw [mem_write_self,Function.update_self,hphys,hpres]
    exact ⟨rfl,hp⟩
  · exact ⟨rfl,hp⟩

theorem Isolated.allocFrame (h : Isolated k m₀ level₀ spaces m level owner) :
    Isolated k m₀ level₀ spaces (allocFrame m).2 level owner:=by
  obtain ⟨hmem,hused,htouched⟩:=allocFrame_frame m
  obtain ⟨home,ht⟩:=h.tables
  have hslots : slots (PageTables.allocFrame m).2=slots m:=by
    funext l t i
    rw [slots,hmem]
    rfl
  refine ⟨⟨home,ht.congr (fun _=>by rw [hmem]) fun hl=>hused _ (ht.used hl)⟩,h.roots,?_,?_⟩
  · rw [hslots,hmem]
    exact h.links
  · rw [hmem,htouched]
    exact h.kernel

/-- The kernel's PML4 alone, as the part of the kernel that has to stay. -/
def rootOnly (k u : ℕ) : Option ℕ:=if u=k then some 3 else none

theorem rootOnly_self (k : ℕ) : rootOnly k k=some 3:=if_pos rfl

theorem eq_of_rootOnly {l : ℕ} (h : rootOnly k u=some l) : u=k:=by
  unfold rootOnly at h
  split at h
  · assumption
  · cases h

/-- The tables of the user spaces are as they were. -/
structure Spares (m m' : Machine) (level level' owner owner' : ℕ→Option ℕ) : Prop where
  kept : ∀{t l r},level t=some l → owner t=some r→level' t=some l ∧ owner' t=some r ∧ m'.mem t=m.mem t
  back : ∀{t l r},level' t=some l → owner' t=some r→level t=some l ∧ owner t=some r
  keeps : Keeps m m' level level'

theorem Spares.refl (m : Machine) (level owner : ℕ→Option ℕ) : Spares m m level level owner owner:=
  ⟨fun hl ho=>⟨hl,ho,rfl⟩,fun hl ho=>⟨hl,ho⟩,id,.inl,id⟩

theorem Spares.trans {m'' : Machine} {level'' owner' owner'' : ℕ→Option ℕ} (h : Spares m m' level level' owner owner')
    (h' : Spares m' m'' level' level'' owner' owner'') : Spares m m'' level level'' owner owner'' where
  kept hl ho:=by
    obtain ⟨hl1,ho1,hm1⟩:=h.kept hl ho
    obtain ⟨hl2,ho2,hm2⟩:=h'.kept hl1 ho1
    exact ⟨hl2,ho2,hm2.trans hm1⟩
  back hl ho:=by
    obtain ⟨hl1,ho1⟩:=h'.back hl ho
    exact h.back hl1 ho1
  keeps:=h.keeps.trans h'.keeps

theorem Isolated.getOrCreate_kernel (h : Isolated k m₀ (rootOnly k) spaces m level owner) {j : ℕ}
    (htl : level t=some (j+1)) (hj : j+1≠3) (hto : owner t=none) (hf : TableFlags f) (i : ℕ) :
    ∃level' owner',Isolated k m₀ (rootOnly k) spaces (PageTables.getOrCreate t i f m).2 level' owner' ∧
    Spares m (PageTables.getOrCreate t i f m).2 level level' owner owner' ∧
    ((PageTables.getOrCreate t i f m).1≠0→level' (PageTables.getOrCreate t i f m).1=some j ∧
    owner' (PageTables.getOrCreate t i f m).1=none):=by
  have hne {u l : ℕ} (hu : rootOnly k u=some l) : u≠t:=by
    obtain rfl:=eq_of_rootOnly hu
    rintro rfl
    rw [(h.kernel (rootOnly_self u)).1] at htl
    exact hj (some.inj htl).symm
  obtain ⟨home,ht⟩:=h.tables
  obtain ⟨level1,home1,hcreated⟩:=getOrCreate_spec ht htl hf i
  obtain ⟨level',h',hkeep,hc⟩:=h.getOrCreate_owned (fun u=>if level u=none then none else owner u)
    (rootOnly_self k) htl hne hf (fun u hs=>h.child_owner htl hj hs) (fun hl=>by simp [hl]) (fun hl=>by simp [hl,hto])
  rw [hto] at hc
  refine ⟨level',_,h',⟨fun {u l r} hl ho=>?_,fun {u l r} hl ho=>?_,hkeep⟩,hc⟩
  · have hut : u≠t:=by
      rintro rfl
      simp [hto] at ho
    exact ⟨hkeep.level_eq hl,by simp [hl,ho],hcreated.other u (ht.used hl) hut⟩
  · split at ho
    · cases ho
    rename_i hl0
    obtain ⟨l0,hl0⟩:=ne_none_iff_exists'.mp hl0
    have:=hkeep.level_eq hl0
    rw [hl] at this
    exact ⟨hl0.trans this.symm,ho⟩

/-- A page of the kernel is mapped below a PML4 entry that is there. -/
theorem Isolated.mapPage_kernel (h : Isolated k m₀ (rootOnly k) spaces m level owner)
    (hp : m.mem k (pml4Idx v)&&&flagPresent≠0) (p : ℕ) :
    ∃level' owner',Isolated k m₀ (rootOnly k) spaces (PageTables.mapPage k v p kernelRw m).2 level' owner' ∧
    Spares m (PageTables.mapPage k v p kernelRw m).2 level level' owner owner':=by
  have hf:=tableFlags_spec kernelRw
  obtain ⟨home,ht⟩:=h.tables
  have hkl:=(h.kernel (rootOnly_self k)).1
  -- the entry is left as it is, for want of the user bit
  have hlink : PageTables.getOrCreate k (pml4Idx v) (tableFlags kernelRw) m=(entryPhys (m.mem k (pml4Idx v)),m):=
    getOrCreate_linked hp (ht.flat hkl hp)
  have hs : slots m 3 k (pml4Idx v) = .table (entryPhys (m.mem k (pml4Idx v))):=by simp [slots,decode,hp]
  have hl1:=(ht.forest.child hkl hs).1
  have ho1:=h.kernel_child (rootOnly_self k) hs
  obtain ⟨m1,he,hm⟩ | ⟨m1,pt,he,level1,owner1,h1,s1,hl,hnone,-⟩:=mapPage_rule p
    (P:=fun l t m1=>∃level1 owner1,Isolated k m₀ (rootOnly k) spaces m1 level1 owner1 ∧
      Spares m m1 level level1 owner owner1 ∧ level1 t=some l ∧ owner1 t=none ∧ (l=3→t=k ∧ m1=m))
    (Q:=fun m1=>∃level1 owner1,Isolated k m₀ (rootOnly k) spaces m1 level1 owner1 ∧
      Spares m m1 level level1 owner owner1)
    ⟨level,owner,h,.refl m level owner,hkl,(h.kernel (rootOnly_self k)).2.1,fun _=>⟨rfl,rfl⟩⟩
    fun {l t m1 c m2} hlt hp he=>by
      obtain ⟨level1,owner1,h1,s1,hl,ho,hroot⟩:=hp
      by_cases h3 : l+1=3
      · rw [h3,(hroot h3).1,(hroot h3).2] at he
        obtain ⟨hc,hm⟩:=Prod.mk.inj (hlink.symm.trans he)
        rw [←hc,←hm,Nat.succ.inj h3]
        exact ⟨fun _=>⟨level,owner,h,.refl m level owner⟩,fun _=>⟨level,owner,h,.refl m level owner,hl1,ho1,
          fun h=>absurd h (by decide)⟩⟩
      · obtain ⟨level2,owner2,h2,s2,hc⟩:=h1.getOrCreate_kernel hl h3 ho hf (tableIdx (l+1) v)
        rw [he] at h2 s2 hc
        exact ⟨fun _=>⟨level2,owner2,h2,s1.trans s2⟩,fun h0=>⟨level2,owner2,h2,s1.trans s2,(hc h0).1,(hc h0).2,
          fun h=>absurd h hlt.ne⟩⟩
  · rw [he]
    exact hm
  rw [he]
  refine ⟨level1,owner1,h1.writePage (rootOnly_self k) hl (fun hu=>?_) _ _,s1.trans ?_⟩
  · obtain rfl:=eq_of_rootOnly hu
    rintro rfl
    simp [(h1.kernel (rootOnly_self _)).1] at hl
  refine ⟨fun {u l r} hl ho=>⟨hl,ho,mem_write_of_ne ?_⟩,fun hl ho=>⟨hl,ho⟩,id,.inl,id⟩
  rintro rfl
  simp [hnone] at ho

/-- The kernel's PML4 stands still, the lower halves of the spaces are their own, and the
upper halves are the kernel's. -/
structure SharedUpper (k : ℕ) (m₀ : Machine) (spaces : List ℕ) (m : Machine) : Prop where
  isolated : ∃level owner,Isolated k m₀ (rootOnly k) spaces m level owner
  low : ∀r∈spaces,m.mem r 0&&&flagPresent≠0 ∧ entryPhys (m.mem r 0)≠entryPhys (m₀.mem k 0)
  upper : ∀r∈spaces,∀i,256 ≤ i→i<512→m.mem r i=m₀.mem k i

section

variable (h : SharedUpper k m₀ spaces m)
include h

theorem SharedUpper.kernel_eq : m.mem k=m₀.mem k:=by
  obtain ⟨level,owner,hi⟩:=h.isolated
  exact (hi.kernel (rootOnly_self k)).2.2.1

theorem SharedUpper.not_sharesLow (hr : r∈spaces) : ¬SharesLow k r m:=by
  rintro ⟨-,he⟩
  rw [h.kernel_eq] at he
  exact (h.low r hr).2 he

theorem SharedUpper.create (hlow : m₀.mem k 0&&&flagPresent≠0)
    (hc : createUserSpace k m=(r,true,m')) : SharedUpper k m₀ (r::spaces) m':=by
  obtain ⟨level,owner,hi⟩:=h.isolated
  obtain ⟨home,ht⟩:=hi.tables
  have hkl:=(hi.kernel (rootOnly_self k)).1
  obtain ⟨level',owner',hiso,hn⟩:=hi.createUserSpace (rootOnly_self k)
  rw [hc] at hn hiso
  obtain ⟨hr0,pdpt,hpl,hpu,hmem⟩:=hn.full rfl
  dsimp only at hr0 hmem hiso
  rw [if_neg hr0] at hiso
  have hold {r' : ℕ} (hr' : r'∈spaces) : m'.mem r'=m.mem r':=hn.mem r' (ht.used (hi.roots r' hr').1)
  obtain ⟨home',ht'⟩:=hn.tables
  have hpf : IsFrame pdpt:=ht'.frame hpl
  -- the kernel's first PDPT is in use, the space's was not
  have hku : entryPhys (m₀.mem k 0)∈m.used:=by
    rw [←h.kernel_eq] at hlow ⊢
    exact ht.used (ht.forest.child hkl (i:=0) (by simp [slots,decode,hlow])).1
  refine ⟨⟨level',owner',hiso⟩,?_,?_⟩
  · intro r' hr'
    rcases mem_cons.mp hr' with rfl | hr'
    · obtain ⟨hphys,hpres,-⟩:=entry_table hpf (.inl rfl : TableFlags (flagPresent|||flagWrite))
      have hm0 : m'.mem r' 0=pdpt|||(flagPresent|||flagWrite):=by simp [hmem]
      rw [hm0,hphys]
      refine ⟨hpres,?_⟩
      rintro rfl
      exact hpu hku
    · rw [hold hr']
      exact h.low r' hr'
  · intro r' hr' i h1 h2
    rcases mem_cons.mp hr' with rfl | hr'
    · rw [hmem,if_pos ⟨h1,h2⟩,h.kernel_eq]
    · rw [hold hr']
      exact h.upper r' hr' i h1 h2

theorem SharedUpper.map (hr : r∈spaces) (hv : v<2^47) (p flags : ℕ) :
    SharedUpper k m₀ spaces (mapPage r v p flags m).2:=by
  obtain ⟨level,owner,hi⟩:=h.isolated
  obtain ⟨home,ht⟩:=hi.tables
  have hidx:=pml4Idx_lt hv
  have hkept:=mapPage_rootsKept ht (hi.roots r hr).1 v p flags
  obtain ⟨level',owner',hi',-⟩:=hi.mapPage (rootOnly_self k) hr hv (fun _=>h.not_sharesLow hr) p flags
  refine ⟨⟨level',owner',hi'⟩,?_,?_⟩
  · intro r' hr'
    obtain ⟨hp,he⟩:=h.low r' hr'
    by_cases hrr : r'=r
    · subst hrr
      by_cases h0 : pml4Idx v=0
      · obtain ⟨he',hp'⟩:=hkept.linked (by rwa [h0])
        rw [h0] at he' hp'
        exact ⟨hp',he'▸he⟩
      · rw [hkept.entries 0 (Ne.symm h0)]
        exact ⟨hp,he⟩
    · rw [hkept.other (hi.roots r' hr').1 hrr]
      exact ⟨hp,he⟩
  · intro r' hr' i h1 h2
    rw [←h.upper r' hr' i h1 h2]
    by_cases hrr : r'=r
    · subst hrr
      exact hkept.entries i (by omega)
    · rw [hkept.other (hi.roots r' hr').1 hrr]

theorem SharedUpper.expand (hheap : m₀.mem k 288&&&flagPresent≠0)
    (h1 : heapStart≤v) (h2 : v<heapMax) : SharedUpper k m₀ spaces (expandPage k v m):=by
  obtain ⟨level,owner,hi⟩:=h.isolated
  have hia:=hi.allocFrame
  have hmem:=(allocFrame_frame m).1
  unfold expandPage
  generalize allocFrame m=a at hia hmem ⊢
  obtain ⟨phys,m1⟩:=a
  dsimp only at hia hmem ⊢
  have hs : SharedUpper k m₀ spaces m1:=⟨⟨level,owner,hia⟩,by rw [hmem]; exact h.low,by rw [hmem]; exact h.upper⟩
  split
  · exact hs
  obtain ⟨home,ht⟩:=hia.tables
  obtain ⟨hkl,hko,-⟩:=hia.kernel (rootOnly_self k)
  have hkept:=mapPage_rootsKept ht hkl v phys kernelRw
  have hne {r : ℕ} (hr : r∈spaces) : r≠k:=by
    rintro rfl
    simp [(hia.roots r hr).2] at hko
  have hp : m1.mem k (pml4Idx v)&&&flagPresent≠0:=by
    rw [pml4Idx_heap h1 h2,hs.kernel_eq]
    exact hheap
  obtain ⟨level',owner',hi',-⟩:=hia.mapPage_kernel hp phys
  refine ⟨⟨level',owner',hi'⟩,?_,?_⟩
  · intro r hr
    rw [hkept.other (hia.roots r hr).1 (hne hr)]
    exact hs.low r hr
  intro r hr
  rw [hkept.other (hia.roots r hr).1 (hne hr)]
  exact hs.upper r hr

theorem SharedUpper.destroy (hr : r∈spaces) : SharedUpper k m₀ (spaces.filter (· ≠ r)) (destroyUserSpace r m):=by
  obtain ⟨level,owner,hi⟩:=h.isolated
  have hmem:=(hi.frees_destroy hr (h.not_sharesLow hr)).mem
  refine ⟨⟨_,owner,hi.destroy hr (h.not_sharesLow hr)⟩,?_,?_⟩
  · intro r' hr'
    rw [hmem]
    exact h.low r' (mem_filter.mp hr').1
  intro r' hr'
  rw [hmem]
  exact h.upper r' (mem_filter.mp hr').1

end

/-- The states after `heap::init`: complete user spaces come and go and are mapped in their
lower halves, and the heap grows. -/
inductive HeapRun (kernel : ℕ) (m₀ : Machine) : State→Prop
  | start : HeapRun kernel m₀ ⟨{m₀ with touched:=[]},[]⟩
  | create {s : State} {r : ℕ} {m : Machine} :
      HeapRun kernel m₀ s→createUserSpace kernel s.machine=(r,true,m)→HeapRun kernel m₀ ⟨m,r::s.spaces⟩
  | map {s : State} {r virt : ℕ} (phys flags : ℕ) : HeapRun kernel m₀ s → r∈s.spaces→virt<2^47 →
      HeapRun kernel m₀ ⟨(mapPage r virt phys flags s.machine).2,s.spaces⟩
  | expand {s : State} {virt : ℕ} : HeapRun kernel m₀ s→heapStart≤virt→virt<heapMax →
      HeapRun kernel m₀ ⟨expandPage kernel virt s.machine,s.spaces⟩
  | destroy {s : State} {r : ℕ} : HeapRun kernel m₀ s → r∈s.spaces →
      HeapRun kernel m₀ ⟨destroyUserSpace r s.machine,s.spaces.filter (· ≠ r)⟩

structure HeapReady (k : ℕ) (m₀ : Machine) : Prop where
  tables : ∃level home,Tables m₀ level home ∧ level k=some 3
  low : m₀.mem k 0&&&flagPresent≠0
  heap : m₀.mem k 288&&&flagPresent≠0

theorem HeapRun.sharedUpper {s : State} (hb : HeapReady k m₀) (hr : HeapRun k m₀ s) :
    SharedUpper k m₀ s.spaces s.machine:=by
  induction hr with
  | start=>
    obtain ⟨level,home,ht,hk⟩:=hb.tables
    refine ⟨⟨level,fun _=>none,⟨home,ht.congr (fun _=>rfl) ht.used⟩,by simp,fun _ _=>.inl rfl,fun hu=>?_⟩,
      by simp,by simp⟩
    obtain rfl:=eq_of_rootOnly hu
    rw [rootOnly_self] at hu
    exact ⟨hk.trans hu,rfl,rfl,by simp⟩
  | create _ hc ih=>exact ih.create hb.low hc
  | map phys flags _ hr hv ih=>exact ih.map hr hv phys flags
  | expand _ h1 h2 ih=>exact ih.expand hb.heap h1 h2
  | destroy _ hr ih=>exact ih.destroy hr

theorem heapInit_spec {m1 : Machine} (hi : init m=some (k,m1)) (hh : heapInit k m1=some m₀) : HeapReady k m₀:=by
  obtain ⟨level,home,ht,hk,hlow,-⟩:=init_spec hi
  obtain ⟨hmem,hused,-⟩:=allocFrame_frame m1
  replace ht : Tables (allocFrame m1).2 level home:=ht.congr (fun _=>by rw [hmem]) fun hl=>hused _ (ht.used hl)
  rw [←hmem] at hlow
  simp only [heapInit] at hh
  generalize allocFrame m1=a at ht hlow hh
  obtain ⟨phys,m2⟩:=a
  split at hh
  · cases hh
  have hidx : pml4Idx heapStart=288:=pml4Idx_heap le_rfl (by decide)
  have hkept:=mapPage_rootsKept ht hk heapStart phys kernelRw
  rcases mapPage_walk ht hk heapStart phys kernelRw with ⟨m3,-,-,he,-⟩ | ⟨m3,level',home',pt,he,ht',hext,hd⟩
  · rw [he] at hh
    cases hh
  rw [he] at hh hkept
  obtain rfl:=some.inj hh
  have hpt:=hd.level_eq ht'.forest (hext.level_eq hk)
  have hkpt : k≠pt:=by
    rintro rfl
    simp [hext.level_eq hk] at hpt
  refine ⟨⟨level',home',ht'.writePage hpt _ _,hext.level_eq hk⟩,?_,?_⟩
  · rw [hkept.entries 0 (by rw [hidx]; decide)]
    exact hlow
  obtain ⟨pdpt,hs,-⟩:=hd
  rw [mem_write_of_ne hkpt,←hidx]
  exact (of_decode_table hs).1

/-- In all runs after boot every user space translates the upper half as the kernel does. -/
theorem upper_half_agrees {m₁ : Machine} {s : State} (hi : init m=some (k,m₁)) (hh : heapInit k m₁=some m₀)
    (hr : HeapRun k m₀ s) (hs : r∈s.spaces) (hv : 2^64-2^47≤v) (hv' : v<2^64) :
    virtToPhys r v s.machine=virtToPhys k v s.machine:=by
  have h:=hr.sharedUpper (heapInit_spec hi hh)
  obtain ⟨h₁,h₂⟩:=pml4Idx_upper hv hv'
  have he : s.machine.mem r (pml4Idx v)=s.machine.mem k (pml4Idx v):=by
    rw [h.upper r hs _ h₁ h₂,h.kernel_eq]
  simp only [virtToPhys,he]

/-- Boot with the frames 6 to 16 left for the heap and the user spaces. -/
def offers : List ℕ:=[0x6000,0x7000,0x8000,0x9000,0xA000,0xB000,0xC000,0xD000,0xE000,0xF000,0x10000]

def withHeap : Machine:=(heapInit 0x1000 (booted offers)).getD (booted offers)

/-- The heap grows after a space was made, and the space is mapped. -/
theorem upper_half_agrees_grown : ∃s,init (blank offers)=some (0x1000,booted offers) ∧
    heapInit 0x1000 (booted offers)=some withHeap ∧ HeapRun 0x1000 withHeap s ∧ s.spaces=[0xA000] ∧
    virtToPhys 0xA000 (heapStart+0x1234) s.machine=virtToPhys 0x1000 (heapStart+0x1234) s.machine:=by
  have hi : init (blank offers)=some (0x1000,booted offers):=rfl
  have hh : heapInit 0x1000 (booted offers)=some withHeap:=rfl
  have h₀ : HeapRun 0x1000 withHeap _:=.start
  have h₁:=h₀.create rfl
  have h₂ : HeapRun 0x1000 withHeap ⟨expandPage 0x1000 (heapStart+0x1000) _,_⟩:=h₁.expand (by decide) (by decide)
  have h₃ : HeapRun 0x1000 withHeap ⟨(mapPage 0xA000 0x400000 0xF000 7 _).2,_⟩:=
    h₂.map 0xF000 7 mem_cons_self (by decide)
  refine ⟨_,hi,hh,h₃,rfl,?_⟩
  exact upper_half_agrees hi hh h₃ mem_cons_self (by decide) (by decide)

end Knail.PageTables
