import Knail.ProcessFork
import Knail.SpaceLedger
import Knail.SpawnConfinement

/-!
# The frames of a process under construction

The steps of `spawn_elf` and `fork_current` keep the books of the new space: pages are mapped and
filled, the space is activated, and the heap grows in between.
-/
namespace Knail.Spawn

open PageTables Elf List

variable {m m₀ m' : Machine} {level level' owner : ℕ→Option ℕ} {home : ℕ→Option ℕ×ℕ} {taken : ℕ→Prop}
  {pages : List ℕ} {k r va f : ℕ} {full : Bool} {taken' : ℕ→Prop} {pages' : List ℕ} {c : Copy} {shift : ℕ}

/-- The frames that are handed out for pages, up to the first failure. -/
def pageFrames (r : ℕ) : List ℕ→Machine→List ℕ
  | [], _=>[]
  | va::rest, m=>
    if (allocFrame m).1=0 then []
    else (allocFrame m).1 ::
      match mapFrame r va m with
      | (false,_)=>[]
      | (true,m)=>pageFrames r rest m

/-- A space whose frames are accounted for and in which the given pages are mapped. -/
structure Tracked (k : ℕ) (m₀ : Machine) (r : ℕ) (m : Machine) (level owner : ℕ→Option ℕ) (taken : ℕ→Prop)
    (pages : List ℕ) : Prop where
  ledger : Ledger k m₀ r m level owner taken
  space : Space r m level pages
  low : ¬SharesLow k r m

namespace Tracked

section

variable (h : Tracked k m₀ r m level owner taken pages)
include h

theorem kernel : level k=some 3 ∧ m.mem k=m₀.mem k:=
  ⟨(h.ledger.isolated.kernel (rootOnly_self k)).1,(h.ledger.isolated.kernel (rootOnly_self k)).2.2.1⟩

theorem ne : k≠r:=
  h.ledger.isolated.kernel_ne h.ledger.root.2 (rootOnly_self k)

theorem mono (ht : ∀u,taken u→taken' u) (hp : pages'⊆pages) : Tracked k m₀ r m level owner taken' pages':=
  ⟨h.ledger.mono ht,⟨h.space.tables,h.space.root,fun va hva=>h.space.backed va (hp hva)⟩,h.low⟩

theorem allocFrame : Tracked k m₀ r (allocFrame m).2 level owner
    (fun u=>(allocFrame m).1≠0 ∧ u=(allocFrame m).1 ∨ taken u) pages:=by
  obtain ⟨home,ht⟩:=h.space.tables
  refine ⟨h.ledger.allocFrame,h.space.remaps (Remaps.alloc ht) (by simp),?_⟩
  rw [SharesLow,(allocFrame_frame m).1]
  exact h.low

section

variable (hlow : m₀.mem k 0&&&flagPresent≠0)
include hlow

theorem mapPage (hv : va<2^47) (p flags : ℕ) :
    ∃level' owner',Tracked k m₀ r (mapPage r va p flags m).2 level' owner' taken [] ∧
    Keeps m (mapPage r va p flags m).2 level level':=by
  obtain ⟨home,ht⟩:=h.space.tables
  obtain ⟨hkl,hk⟩:=h.kernel
  rw [←hk] at hlow
  obtain ⟨level',owner',hl',hkeep⟩:=h.ledger.mapPage hv (fun _=>h.low) p flags
  refine ⟨level',owner',⟨hl',⟨hl'.isolated.tables,hl'.root.1,by simp⟩,?_⟩,hkeep⟩
  exact not_sharesLow_mapPage ht h.space.root hkl h.ne hlow h.low va p flags

theorem mapFrame (hv : va<2^47) : ∃level' owner',Tracked k m₀ r (mapFrame r va m).2 level' owner'
    (fun u=>(PageTables.allocFrame m).1≠0 ∧ u=(PageTables.allocFrame m).1 ∨ taken u)
    (if (mapFrame r va m).1 then va::pages else []) ∧ Keeps m (mapFrame r va m).2 level level':=by
  have ha:=h.allocFrame
  have hka:=keeps_allocFrame m level
  rcases mapFrame_cases r va m with ⟨m1,he,hm⟩ | ⟨f,m1,hf,he,hm⟩
  · rw [he] at ha hka ⊢
    rw [hm]
    exact ⟨level,owner,ha.mono (fun _=>id) (by simp),hka⟩
  rw [he] at ha hka ⊢
  rw [hm]
  obtain ⟨level',owner',h',hkeep⟩:=ha.mapPage hlow hv f userRw
  refine ⟨level',owner',⟨h'.ledger,?_,h'.low⟩,hka.trans hkeep⟩
  rcases hb : PageTables.mapPage r va f userRw m1 with ⟨_ | _,m2⟩
  · rw [hb] at h'
    exact h'.space
  · rw [hb] at h' hkeep
    exact h.space.mapPage he hf hb h'.space.tables hkeep

/-- The loops that map pages, as long as the pages that they reach are in the lower half. -/
theorem mapPages (vs : List ℕ) (hv : ∀pre va post,vs=pre++va::post→(mapPages r pre m).1=true→va<2^47) :
    ∃level' owner',Tracked k m₀ r (mapPages r vs m).2 level' owner' (fun u=>u∈pageFrames r vs m ∨ taken u)
    (if (mapPages r vs m).1 then vs++pages else []) ∧ Keeps m (mapPages r vs m).2 level level':=by
  induction vs generalizing m level owner taken pages with
  | nil=>exact ⟨level,owner,h.mono (fun _=>.inr) (by simp [mapPages]),id,.inl,id⟩
  | cons va vs ih=>
    obtain ⟨level1,owner1,h1,e1⟩:=h.mapFrame hlow (hv [] va vs rfl rfl)
    have hframe (u : ℕ) (hu : (PageTables.allocFrame m).1≠0 ∧ u=(PageTables.allocFrame m).1 ∨ taken u) :
        u∈pageFrames r (va::vs) m ∨ taken u:=by
      refine hu.imp_left fun hfst=>?_
      simp [pageFrames,hfst.1,hfst.2]
    rcases he : Spawn.mapFrame r va m with ⟨_ | _,m1⟩
    · rw [he] at h1 e1
      simp only [mapPages,he]
      exact ⟨level1,owner1,h1.mono hframe (by simp),e1⟩
    rw [he] at h1 e1
    obtain ⟨level2,owner2,h2,e2⟩:=ih h1 fun pre va' post hvs hpre=>
      hv (va::pre) va' post (by rw [hvs]; rfl) (by simpa only [mapPages,he] using hpre)
    simp only [mapPages,he]
    refine ⟨level2,owner2,h2.mono (fun u hu=>?_) ?_,e1.trans e2⟩
    · rcases hu with hu | hu
      · have h0 : (PageTables.allocFrame m).1≠0:=by
          rcases mapFrame_cases r va m with ⟨m',-,hm⟩ | ⟨f,m',hf,ha,-⟩
          · simp [he] at hm
          · rwa [ha]
        simp [pageFrames,h0,he,hu]
      · exact hframe u hu
    · split
      · intro u hu
        simp only [cons_append,mem_cons,mem_append,if_true] at hu ⊢
        tauto
      · exact nil_subset _

end

theorem activate (hp : m.mem r 0&&&flagPresent≠0)
    (hpages : ∀va∈pages,va<2^47) : Tracked k m₀ r (activate k r m) level owner taken pages:=by
  refine ⟨h.ledger.activate,h.space.activate h.kernel.1 hpages,?_⟩
  rw [SharesLow,activate_entry k (by decide : 0<256) hp,activate_mem_of_ne k h.ne]
  exact h.low

theorem dataWrites (hw : DataWrites level m m') : Tracked k m₀ r m' level owner taken pages:=by
  have hslots {t l i u : ℕ} (htl : level t=some (l+1)) (hs : slots m (l+1) t i = .table u) :
      slots m' (l+1) t i = .table u:=by
    rw [slots,hw.mem htl]
    exact hs
  refine ⟨h.ledger.congr (isolated_dataWrites h.ledger.isolated (rootOnly_self k) hw) hw.used
    (fun _=>hslots h.space.root) (fun _ _=>hslots),h.space.dataWrites hw,?_⟩
  rw [SharesLow,hw.mem h.space.root,hw.mem h.kernel.1]
  exact h.low

end

theorem freeFrame (h : Tracked k m₀ r m level owner (fun u=>u=f ∨ taken u) pages) (hf : f∉m₀.used)
    (hl : level f=none) : Tracked k m₀ r (freeFrame f m) level owner taken []:=by
  have hl':=h.ledger.freeFrame hf hl
  exact ⟨hl',⟨hl'.isolated.tables,h.space.root,by simp⟩,h.low⟩

section

variable (h : Tracked k m₀ r m level owner taken pages)
include h

theorem expandPage {v : ℕ} (hheap : m₀.mem k 288&&&flagPresent≠0)
    (hpages : ∀va∈pages,va<2^47) (hv : heapStart≤v ∧ v<heapMax) :
    ∃level' owner',Tracked k m₀ r (expandPage k v m) level' owner' (fun u=>u∉m.used ∨ taken u) pages ∧
    Keeps m (expandPage k v m) level level':=by
  obtain ⟨home,ht⟩:=h.space.tables
  obtain ⟨level1,hr1⟩:=remaps_expandPage ht h.kernel.1 v
  obtain ⟨level',owner',hl',hs'⟩:=h.ledger.expandPage hheap hv.1 hv.2
  have hr : Remaps [v] m (PageTables.expandPage k v m) level level':=⟨hl'.isolated.tables,hs'.keeps,hr1.same⟩
  refine ⟨level',owner',⟨hl',h.space.remaps hr fun va hva w hw=>?_,?_⟩,hs'.keeps⟩
  · rw [mem_singleton.mp hw]
    exact not_sameWalk_heap (pml4Idx_lt (hpages va hva)) hv
  · rw [SharesLow,(hs'.kept h.ledger.root.1 h.ledger.root.2).2.2,(hl'.isolated.kernel (rootOnly_self k)).2.2.1,←h.kernel.2]
    exact h.low

theorem grow (hheap : m₀.mem k 288&&&flagPresent≠0) (hpages : ∀va∈pages,va<2^47) (gs : List ℕ) (hg : InHeap gs) :
    ∃level' owner',Tracked k m₀ r (grow k gs m) level' owner' (fun u=>u∉m.used ∨ taken u) pages ∧
    Keeps m (grow k gs m) level level':=by
  induction gs generalizing m level owner taken with
  | nil=>exact ⟨level,owner,h.mono (fun _=>.inr) (List.Subset.refl _),id,.inl,id⟩
  | cons g gs ih=>
    obtain ⟨level1,owner1,h1,e1⟩:=h.expandPage hheap hpages (hg g mem_cons_self)
    obtain ⟨level2,owner2,h2,e2⟩:=ih h1 fun g' hg'=>hg g' (mem_cons_of_mem _ hg')
    refine ⟨level2,owner2,h2.mono (fun u hu=>?_) (List.Subset.refl _),e1.trans e2⟩
    rcases hu with hu | hu
    · exact .inl fun hu'=>hu (e1.used hu')
    · exact hu

end

end Tracked

theorem tracked_create (ht : Tables m level home) (hk : level k=some 3) (hlow : m.mem k 0&&&flagPresent≠0)
    (hc : createUserSpace k m=(r,full,m')) (hr : r≠0) :
    ∃level' owner',Tracked k m r m' level' owner' (fun _=>False) []:=by
  obtain ⟨_,_,hready⟩:=ready_create ht hk hlow hc hr
  obtain ⟨level',owner',h⟩:=ledger_create ht hk hc hr
  exact ⟨level',owner',h,⟨h.isolated.tables,h.root.1,by simp⟩,hready.low⟩

def CopyTracked (k : ℕ) (m₀ : Machine) (r : ℕ) (c : Copy) : Prop:=
  ∃level owner,Tracked k m₀ r c.machine level owner (· ∈ c.frames) []

theorem CopyTracked.copyPage (h : CopyTracked k m₀ r c) (hlow : m₀.mem k 0&&&flagPresent≠0)
    (hv : va<2^47) (pte : ℕ) : CopyTracked k m₀ r (copyPage r va pte c).2:=by
  obtain ⟨level,owner,h⟩:=h
  obtain ⟨home,ht⟩:=h.space.tables
  have ha:=h.allocFrame
  have hcases:=allocFrame_cases c.machine
  unfold Spawn.copyPage
  rcases he : allocFrame c.machine with ⟨_ | f,m1⟩
  · rw [he] at ha
    exact ⟨level,owner,ha.mono (by simp) (List.Subset.refl _)⟩
  rw [he] at ha hcases
  obtain ⟨hframe,hfu,hfl⟩:=allocFrame_some ht he (Nat.succ_ne_zero f)
  have hnew : f+1∉c.machine.used:=by
    rcases hcases with ⟨h0,-⟩ | ⟨-,hnew,-⟩
    · exact absurd h0 (Nat.succ_ne_zero f)
    · exact hnew
  obtain ⟨level',owner',h',hkeep⟩:=
    ha.mapPage hlow hv (f+1) (pte&&&(flagPresent|||flagWrite|||flagUser|||flagNx))
  obtain ⟨-,hfl'⟩:=hkeep.data hfu hfl
  rcases hm : mapPage r va (f+1) (pte&&&(flagPresent|||flagWrite|||flagUser|||flagNx)) m1
    with ⟨_ | _,m2⟩
  · rw [hm] at h'
    simp only [hm]
    have hf0 : f+1∉m₀.used:=fun hu=>hnew (h.ledger.old _ hu).1
    exact ⟨level',owner',(h'.mono (fun u hu=>hu.imp_left And.right) (List.Subset.refl _)).freeFrame hf0 hfl'⟩
  · rw [hm] at h'
    simp only [hm]
    have hw : DataWrites level' m2 (copyFrame (entryBase pte) (f+1) m2):=by
      refine ⟨rfl,fun {t l} hl=>mem_fill_of_ne ?_,fun u hu=>?_⟩
      · rintro rfl
        simp [hfl'] at hl
      rcases mem_cons.mp hu with rfl | hu
      · exact .inr hfl'
      · exact .inl hu
    refine ⟨level',owner',(h'.dataWrites hw).mono (fun u hu=>?_) (List.Subset.refl _)⟩
    rcases hu with ⟨-,rfl⟩ | hu
    · exact mem_cons_self
    · exact mem_cons_of_mem _ hu

theorem copyLoop_keeps {P : Copy→Prop} {body : ℕ → Copy→Bool×Copy} {xs : List ℕ}
    (hbody : ∀i∈xs,∀c,P c→P (body i c).2) (hc : P c) : P (copyLoop body xs c).2:=by
  induction xs generalizing c with
  | nil=>exact hc
  | cons x xs ih=>
    have hx:=hbody x mem_cons_self c hc
    rw [copyLoop]
    rcases hb : body x c with ⟨_ | _,c'⟩
    · rw [hb] at hx
      exact hx
    · rw [hb] at hx
      exact ih (fun i hi=>hbody i (mem_cons_of_mem _ hi)) hx

theorem or_lt_low {i : ℕ} (hv : va<2^47) (hi : i*2^shift<2^47) : va|||i*2^shift<2^47:=
  Nat.or_lt_two_pow hv hi

theorem CopyTracked.copyPt (h : CopyTracked k m₀ r c) (hlow : m₀.mem k 0&&&flagPresent≠0)
    (hv : va<2^47) (pt : ℕ) : CopyTracked k m₀ r (copyPt r va pt c).2:=by
  refine copyLoop_keeps (fun i hi c hc=>?_) h
  rw [mem_range] at hi
  dsimp only
  split
  · exact hc
  split
  · exact hc
  · exact hc.copyPage hlow (or_lt_low hv (by omega)) _

theorem CopyTracked.copyTables {sub : ℕ→ℕ → Copy→Bool×Copy} {n : ℕ}
    (hsub : ∀{va t c},va<2^47 → CopyTracked k m₀ r c → CopyTracked k m₀ r (sub va t c).2)
    (hn : n*2^shift≤2^47) (h : CopyTracked k m₀ r c) (hv : va<2^47) (t : ℕ) :
    CopyTracked k m₀ r (copyTables sub n shift va t c).2:=by
  refine copyLoop_keeps (fun i hi c hc=>?_) h
  rw [mem_range] at hi
  dsimp only
  split
  · exact hc
  · have hlt:=Nat.mul_lt_mul_of_pos_right hi (Nat.two_pow_pos shift)
    exact hsub (or_lt_low hv (hlt.trans_le hn)) hc

theorem CopyTracked.copyPml4 (h : CopyTracked k m₀ r c) (hlow : m₀.mem k 0&&&flagPresent≠0) (src : ℕ) :
    CopyTracked k m₀ r (copyPml4 r 0 src c).2:=by
  have hpd {va t : ℕ} {c : Copy} (hv : va<2^47) (hc : CopyTracked k m₀ r c) :
      CopyTracked k m₀ r (copyPd r va t c).2:=
    copyTables (fun hv hc=>hc.copyPt hlow hv _) (by decide) hc hv t
  have hpdpt {va t : ℕ} {c : Copy} (hv : va<2^47) (hc : CopyTracked k m₀ r c) :
      CopyTracked k m₀ r (copyPdpt r va t c).2:=copyTables hpd (by decide) hc hv t
  exact copyTables hpdpt (by decide) h (by decide) src

end Knail.Spawn
