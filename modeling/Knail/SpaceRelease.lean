import Knail.SpawnLedger
import Mathlib.Data.Finset.Card

/-!
# What `destroy_user_space` gives back

A complete space is filled by `map_page` calls while its owner takes frames for the pages. When it is
destroyed, its tables are freed, each of them once, and the frames of the pages stay in use.
-/
namespace Knail.PageTables

open List

variable {m m' m₀ m₁ : Machine} {k r u v : ℕ} {full : Bool} {spaces : List ℕ} {s : Filling}

/-- The page tables are in order and the kernel's first 512 GiB have a table. -/
def InOrder (k : ℕ) (m : Machine) : Prop:=
  ∃level home,Tables m level home ∧ level k=some 3 ∧ m.mem k 0&&&flagPresent≠0

theorem InOrder.create (h : InOrder k m) (hc : createUserSpace k m=(r,full,m')) : InOrder k m':=by
  obtain ⟨level,home,ht,hk,hlow⟩:=h
  obtain ⟨level',hn⟩:=createUserSpace_spec ht hk
  rw [hc] at hn
  obtain ⟨home',ht'⟩:=hn.tables
  refine ⟨level',home',ht',hn.level_eq hk,?_⟩
  rw [hn.mem k (ht.used hk)]
  exact hlow

theorem Built.inOrder (h : Built k spaces m) : InOrder k m:=by
  induction h with
  | init h=>
    obtain ⟨level,home,ht,hk,hlow,-⟩:=init_spec h
    exact ⟨level,home,ht,hk,hlow⟩
  | create _ hc ih=>exact ih.create hc
  | createFailed _ hc ih=>exact ih.create hc
  | @map m k r spaces v p f hb hr ih=>
    obtain ⟨level,home,ht,hk,hs⟩:=hb.tables
    obtain ⟨level',home',ht',hkeep⟩:=mapPage_tables ht (hs r hr) v p f
    obtain ⟨-,-,-,-,hlow⟩:=ih
    refine ⟨level',home',ht',hkeep.level_eq hk,?_⟩
    by_cases hkr : k=r
    · subst hkr
      exact Spawn.present_mapPage ht hk v p f hlow
    · rw [(mapPage_rootsKept ht (hs r hr) v p f).other hk hkr]
      exact hlow
  | @activate m k r spaces hb hr ih=>
    obtain ⟨level,home,ht,hk,hs⟩:=hb.tables
    obtain ⟨-,-,-,-,hlow⟩:=ih
    refine ⟨level,home,activate_tables ht (hs r hr) hk,hk,?_⟩
    by_cases hkr : k=r
    · subst hkr
      simpa [PageTables.activate] using hlow
    · rw [Spawn.activate_mem_of_ne k hkr]
      exact hlow

inductive Call
  | alloc
  | map (virt phys flags : ℕ)

def Call.LowerHalf : Call→Prop
  | .alloc=>True
  | .map virt _ _=>virt<2^47

/-- The machine and the frames that the owner has allocated for pages. -/
structure Filling where
  machine : Machine
  leaves : List ℕ

def Call.run (r : ℕ) : Call→Filling→Filling
  | .alloc, s=>
    let (f,m):=allocFrame s.machine
    ⟨m,if f=0 then s.leaves else f::s.leaves⟩
  | .map virt phys flags, s=>⟨(mapPage r virt phys flags s.machine).2,s.leaves⟩

def runCalls (r : ℕ) (calls : List Call) (s : Filling) : Filling:=calls.foldl (fun s c=>c.run r s) s

def usedFrames (m : Machine) : ℕ:=m.used.toFinset.card

/-- The frames of the space are accounted for, those of its pages are no tables, and its upper half is
the kernel's. -/
structure Accounted (k : ℕ) (m₀ : Machine) (r : ℕ) (s : Filling) : Prop where
  tracked : ∃level owner,Spawn.Tracked k m₀ r s.machine level owner (· ∈ s.leaves) [] ∧
    ∀u∈s.leaves,u∈s.machine.used ∧ level u=none
  nodup : s.leaves.Nodup
  new : ∀u∈s.leaves,u∉m₀.used
  upper : ∀i,256 ≤ i→i<512→s.machine.mem r i=m₀.mem k i

namespace Accounted

theorem create (h : InOrder k m₀) (hc : createUserSpace k m₀=(r,true,m₁)) : Accounted k m₀ r ⟨m₁,[]⟩:=by
  obtain ⟨level0,home0,ht0,hk,hlow⟩:=h
  obtain ⟨level',hn⟩:=createUserSpace_spec ht0 hk
  rw [hc] at hn
  obtain ⟨hr,pdpt,-,-,hmem⟩:=hn.full rfl
  obtain ⟨level,owner,ht⟩:=Spawn.tracked_create ht0 hk hlow hc hr
  refine ⟨⟨level,owner,ht.mono (by simp) (List.Subset.refl _),by simp⟩,nodup_nil,by simp,fun i h1 h2=>?_⟩
  exact (hmem i).trans (if_pos ⟨h1,h2⟩)

theorem alloc (h : Accounted k m₀ r s) : Accounted k m₀ r (Call.alloc.run r s):=by
  obtain ⟨level,owner,ht,hl⟩:=h.tracked
  obtain ⟨home,htab⟩:=ht.space.tables
  have ha:=ht.allocFrame
  have hkeep:=Spawn.keeps_allocFrame s.machine level
  have hmem:=(allocFrame_frame s.machine).1
  have hdata {u : ℕ} (hu : u∈s.leaves):=hkeep.data (hl u hu).1 (hl u hu).2
  have hupper (i : ℕ) (h1 : 256 ≤ i) (h2 : i<512) : (allocFrame s.machine).2.mem r i=m₀.mem k i:=by
    rw [hmem]
    exact h.upper i h1 h2
  simp only [Call.run]
  rcases Spawn.allocFrame_cases s.machine with ⟨h0,-⟩ | ⟨hf,hnew,hused⟩
  · rw [if_pos h0]
    exact ⟨⟨level,owner,ha.mono (fun u hu=>hu.resolve_left fun hu=>hu.1 h0) (List.Subset.refl _),
      fun u hu=>hdata hu⟩,h.nodup,h.new,hupper⟩
  rw [if_neg hf.1]
  refine ⟨⟨level,owner,ha.mono (fun u hu=>?_) (List.Subset.refl _),fun u hu=>?_⟩,?_,fun u hu=>?_,hupper⟩
  · exact mem_cons.mpr (hu.imp_left And.right)
  · rcases mem_cons.mp hu with rfl | hu
    · exact ⟨hused▸mem_cons_self,htab.level_eq_none hnew⟩
    · exact hdata hu
  · exact nodup_cons.mpr ⟨fun hu=>hnew (hl _ hu).1,h.nodup⟩
  rcases mem_cons.mp hu with rfl | hu
  · exact fun hu0=>hnew (ht.ledger.old _ hu0).1
  · exact h.new u hu

theorem map (h : Accounted k m₀ r s) (hlow : m₀.mem k 0&&&flagPresent≠0) (hv : v<2^47)
    (phys flags : ℕ) : Accounted k m₀ r ((Call.map v phys flags).run r s):=by
  obtain ⟨level,owner,ht,hl⟩:=h.tracked
  obtain ⟨home,htab⟩:=ht.space.tables
  obtain ⟨level',owner',ht',hkeep⟩:=ht.mapPage hlow hv phys flags
  refine ⟨⟨level',owner',ht',fun u hu=>hkeep.data (hl u hu).1 (hl u hu).2⟩,h.nodup,h.new,fun i h1 h2=>?_⟩
  have hidx:=pml4Idx_lt hv
  have hkept:=mapPage_rootsKept htab ht.space.root v phys flags
  exact (hkept.entries i (by omega)).trans (h.upper i h1 h2)

theorem run (h : Accounted k m₀ r s) (hlow : m₀.mem k 0&&&flagPresent≠0) (calls : List Call)
    (hcalls : ∀c∈calls,c.LowerHalf) : Accounted k m₀ r (runCalls r calls s):=by
  induction calls generalizing s with
  | nil=>exact h
  | cons c calls ih=>
    have hstep : Accounted k m₀ r (c.run r s):=by
      cases c with
      | alloc=>exact h.alloc
      | map v p f=>exact h.map hlow (hcalls _ mem_cons_self) p f
    exact ih hstep fun c' hc'=>hcalls c' (mem_cons_of_mem _ hc')

end Accounted

/-- Destroying the space is freeing the given frames: the tables of the space, each once, no frame of a
page and no table of the kernel. -/
structure Released (k : ℕ) (m₀ : Machine) (r : ℕ) (s : Filling) (freed : List ℕ) : Prop where
  destroyed : destroyUserSpace r s.machine=freeFrames freed s.machine
  once : freed.Nodup
  tables : ∀u,u∈freed↔u=r ∨ Hangs s.machine 3 r u
  leaves : ∀u∈s.leaves,u∉freed
  old : ∀u∈m₀.used,u∉freed
  upper : ∀i,256 ≤ i→i<512→∀v u,slots s.machine 3 r i = .table v →
    Reaches (slots s.machine) 2 v u→u∉freed
  used_frames : usedFrames (destroyUserSpace r s.machine)=usedFrames m₀+s.leaves.length

theorem Isolated.owner_of_reaches {level0 level owner : ℕ→Option ℕ} {l t : ℕ}
    (h : Isolated k m₀ level0 spaces m level owner) (hl : l<3) (htl : level t=some l) (hto : owner t=none)
    (hr : Reaches (slots m) l t u) : owner u=none:=by
  obtain ⟨home,ht⟩:=h.tables
  induction hr with
  | refl l t=>exact hto
  | step hs _ ih=>
    refine ih (by omega) (ht.forest.child htl hs).1 ?_
    rw [h.child_owner htl (by omega) hs]
    exact hto

theorem Accounted.released (h : Accounted k m₀ r s) : ∃freed,Released k m₀ r s freed:=by
  obtain ⟨level,owner,ht,hl⟩:=h.tracked
  obtain ⟨home,htab⟩:=ht.space.tables
  obtain ⟨freed,hn,hfreed,hd⟩:=htab.freesOnce_destroy ht.space.root
  have howner (u : ℕ):=(hfreed u).trans (ht.ledger.hangs_iff ht.low)
  have hleaves (u : ℕ) (hu : u∈s.leaves) : u∉freed:=by
    rw [howner,(hl u hu).2]
    simp
  have hold (u : ℕ) (hu : u∈m₀.used) : u∉freed:=by
    rw [howner]
    rintro ⟨ho,hlu⟩
    simp [(ht.ledger.old u hu).2 ho] at hlu
  refine ⟨freed,hd,hn,hfreed,hleaves,hold,fun i h1 h2 v u hv hu=>?_,?_⟩
  · obtain ⟨hkl,hkm⟩:=ht.kernel
    have hvk : slots s.machine 3 k i = .table v:=by
      rw [slots,hkm,←h.upper i h1 h2]
      exact hv
    have hvo:=ht.ledger.isolated.kernel_child (rootOnly_self k) hvk
    rw [howner,ht.ledger.isolated.owner_of_reaches (by decide) (htab.forest.child hkl hvk).1 hvo hu]
    simp
  · have hmem (u : ℕ) : u∈(destroyUserSpace r s.machine).used↔u∈m₀.used ∨ u∈s.leaves:=by
      refine ⟨(ht.ledger.destroy ht.low).2 u,fun hu=>?_⟩
      rcases hu with hu | hu
      · exact (ht.ledger.destroy ht.low).1 u hu
      · rw [hd,freeFrames_used]
        exact ⟨(hl u hu).1,hleaves u hu⟩
    have hunion : (destroyUserSpace r s.machine).used.toFinset=m₀.used.toFinset ∪ s.leaves.toFinset:=by
      ext u
      simp [hmem]
    have hdisj : Disjoint m₀.used.toFinset s.leaves.toFinset:=by
      rw [Finset.disjoint_left]
      intro u hu hu'
      exact h.new u (by simpa using hu') (by simpa using hu)
    rw [usedFrames,hunion,Finset.card_union_of_disjoint hdisj,toFinset_card_of_nodup h.nodup]
    rfl

/-- However a complete space is filled, destroying it gives back its tables and nothing else. -/
theorem space_released (h : InOrder k m₀) (hc : createUserSpace k m₀=(r,true,m₁)) (calls : List Call)
    (hcalls : ∀c∈calls,c.LowerHalf) : ∃freed,Released k m₀ r (runCalls r calls ⟨m₁,[]⟩) freed:=by
  have hacc:=Accounted.create h hc
  obtain ⟨-,-,-,-,hlow⟩:=h
  exact (hacc.run hlow calls hcalls).released

/-- A page is mapped, which splits a huge page, and a second one fails for want of a table. -/
theorem space_released_low : ∃freed,Released 0x1000 (booted [0x6000,0x7000,0x8000,0x9000,0xA000]) 0x6000
    (runCalls 0x6000 [.alloc,.map 0x400000 0x9000 7,.map 0x8000400000 0x9000 7]
    ⟨(createUserSpace 0x1000 (booted [0x6000,0x7000,0x8000,0x9000,0xA000])).2.2,[]⟩) freed:=
  space_released (booted_built _).inOrder rfl _ (by simp [Call.LowerHalf])

end Knail.PageTables
