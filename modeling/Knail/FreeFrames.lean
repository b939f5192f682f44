import Knail.SpawnMemory

/-!
# Frames whose contents are not looked at

A frame that is free, or in use and no table, can hold anything: the operations on page tables do
the same whatever its words are, and leave them as they are.
-/
namespace Knail.PageTables

open List Function

variable {m m' m₁ : Machine} {level level' level₁ : ℕ→Option ℕ} {home home₁ : ℕ→Option ℕ×ℕ} {g : ℕ→ℕ}
  {t i c f r k v : ℕ}

namespace Machine

def withFrame (f : ℕ) (g : ℕ→ℕ) (m : Machine) : Machine:={m with mem:=update m.mem f g}

theorem withFrame_mem_self : (m.withFrame f g).mem f=g:=update_self ..

theorem withFrame_mem (ht : t≠f) : (m.withFrame f g).mem t=m.mem t:=update_of_ne ht _ _

theorem withFrame_self (f : ℕ) (m : Machine) : m.withFrame f (m.mem f)=m:=by
  rw [withFrame,update_eq_self]

theorem withFrame_fill (ht : t≠f) (e : ℕ→ℕ) : (m.withFrame f g).fill t e=(m.fill t e).withFrame f g:=by
  simp only [withFrame,fill,update_comm ht]

theorem withFrame_write (ht : t≠f) (i e : ℕ) : (m.withFrame f g).write t i e=(m.write t i e).withFrame f g:=by
  simp only [write,withFrame_mem ht]
  simp only [withFrame,update_comm ht]

end Machine

/-- The frame is not taken between the two states. -/
def Untaken (f : ℕ) (m m' : Machine) : Prop:=f∉m'.used ∨ f∈m.used

theorem allocFrame_withFrame (f : ℕ) (g : ℕ→ℕ) (m : Machine) :
    allocFrame (m.withFrame f g)=((allocFrame m).1,(allocFrame m).2.withFrame f g):=by
  obtain ⟨mem,used,supply,touched⟩:=m
  cases supply with
  | nil=>rfl
  | cons o rest=>by_cases h : IsFrame o ∧ o∉used <;> simp [allocFrame,Machine.withFrame,h]

theorem allocTable_ne (h : Untaken f m (allocTable m).2) (hc : (allocTable m).1≠0) : (allocTable m).1≠f:=by
  rcases allocTable_spec m with ⟨h0,-⟩ | ⟨-,hnew,-,hused⟩
  · exact absurd h0 hc
  · rintro rfl
    exact h.elim (fun hu=>hu (hused▸List.mem_cons_self)) hnew

theorem allocTable_withFrame (h : Untaken f m (allocTable m).2) :
    allocTable (m.withFrame f g)=((allocTable m).1,(allocTable m).2.withFrame f g):=by
  have hne:=allocTable_ne h
  simp only [allocTable,allocFrame_withFrame] at hne ⊢
  split
  · rfl
  rename_i hc
  rw [if_neg hc] at hne
  rw [Machine.withFrame_fill (hne hc)]

theorem withUser_withFrame (ht : t≠f) (i fl : ℕ) :
    withUser t i fl (m.withFrame f g)=(withUser t i fl m).withFrame f g:=by
  unfold withUser
  split
  · rw [Machine.withFrame_mem ht,Machine.withFrame_write ht]
  · rfl

theorem splitHuge_used (t i fl : ℕ) (m : Machine) : (splitHuge t i fl m).2.used=(allocTable m).2.used:=by
  simp only [splitHuge]
  split <;> rfl

theorem splitHuge_withFrame (ht : t≠f) (h : Untaken f m (splitHuge t i fl m).2) :
    splitHuge t i fl (m.withFrame f g)=((splitHuge t i fl m).1,(splitHuge t i fl m).2.withFrame f g):=by
  rw [Untaken,splitHuge_used] at h
  simp only [splitHuge,allocTable_withFrame h]
  split
  · rfl
  · rename_i hc
    simp only [Machine.withFrame_mem ht,Machine.withFrame_fill (allocTable_ne h hc),Machine.withFrame_write ht]

theorem getOrCreate_withFrame (ht : t≠f) (h : Untaken f m (getOrCreate t i c m).2) :
    getOrCreate t i c (m.withFrame f g)=((getOrCreate t i c m).1,(getOrCreate t i c m).2.withFrame f g):=by
  unfold getOrCreate at h ⊢
  simp only [Machine.withFrame_mem ht,withUser_withFrame ht]
  split
  · rename_i hp
    rw [if_pos hp] at h
    split
    · rename_i hh
      simp only [if_pos hh] at h
      exact splitHuge_withFrame ht (by rwa [Untaken,withUser_used])
    · rfl
  · rename_i hp
    rw [if_neg hp] at h
    have h' : Untaken f m (allocTable m).2:=by
      dsimp only at h
      split at h <;> exact h
    simp only [allocTable_withFrame h']
    split
    · rfl
    · rw [Machine.withFrame_write ht]

/-- Between the two states the frame is neither taken nor a table. -/
def Unread (f : ℕ) (level : ℕ→Option ℕ) (m m' : Machine) : Prop:=f∉m'.used ∨ f∈m.used ∧ level f=none

namespace Unread

section

variable (h : Unread f level m m')
include h

theorem ne {l : ℕ} (ht : Tables m level home) (hu : m.used⊆m'.used) (hl : level t=some l) : t≠f:=by
  rintro rfl
  rcases h with h | ⟨-,h⟩
  · exact h (hu (ht.used hl))
  · simp [hl] at h

theorem step (hk : Keeps m m₁ level level₁) : Unread f level₁ m₁ m':=
  h.imp_right fun ⟨hu,hl⟩=>hk.data hu hl

theorem untaken (hu : m₁.used⊆m'.used) : Untaken f m m₁:=
  h.imp (fun hf hf'=>hf (hu hf')) And.left

theorem mono (hu : m₁.used⊆m'.used) : Unread f level m m₁:=
  h.imp_left fun hf hf'=>hf (hu hf')

end

end Unread

theorem Created.withFrame {fl : ℕ} (c : Created m t i k (getOrCreate t i fl m) level level₁ home₁)
    (ht : Tables m level home) (htl : level t=some (k+1)) (h : Unread f level m m')
    (hu : (getOrCreate t i fl m).2.used⊆m'.used) (g : ℕ→ℕ) :
    getOrCreate t i fl (m.withFrame f g)=((getOrCreate t i fl m).1,(getOrCreate t i fl m).2.withFrame f g) ∧
    Unread f level₁ (getOrCreate t i fl m).2 m':=
  ⟨getOrCreate_withFrame (h.ne ht (fun _ hx=>hu (c.ext.used hx)) htl) (h.untaken hu),h.step c.ext.keeps⟩

theorem mapPage_withFrame {p fl : ℕ} (ht : Tables m level home) (hr : level r=some 3)
    (h : Unread f level m (mapPage r v p fl m).2) (g : ℕ→ℕ) :
    mapPage r v p fl (m.withFrame f g)=((mapPage r v p fl m).1,(mapPage r v p fl m).2.withFrame f g):=by
  have hfl:=tableFlags_spec fl
  obtain ⟨level₁,home₁,c1⟩:=getOrCreate_spec ht hr hfl (pml4Idx v)
  have hw1 {m' : Machine} (h : Unread f level m m'):=c1.withFrame ht hr h
  unfold mapPage at h ⊢
  rcases e1 : getOrCreate r (pml4Idx v) (tableFlags fl) m with ⟨pdpt,m₁⟩
  simp only [e1] at c1 hw1 h ⊢
  by_cases h1 : pdpt=0
  · rw [if_pos h1] at h ⊢
    rw [(hw1 h (List.Subset.refl _) g).1]
    simp only [if_pos h1]
  simp only [if_neg h1] at h ⊢
  obtain ⟨level2,home2,c2⟩:=getOrCreate_spec c1.tables (c1.child h1).1 hfl (pdptIdx v)
  have hw2 {m' : Machine} (h : Unread f level₁ m₁ m'):=c2.withFrame c1.tables (c1.child h1).1 h
  rcases e2 : getOrCreate pdpt (pdptIdx v) (tableFlags fl) m₁ with ⟨pd,m2⟩
  simp only [e2] at c2 hw2 h ⊢
  by_cases h2 : pd=0
  · rw [if_pos h2] at h ⊢
    obtain ⟨r1,u1⟩:=hw1 h (fun _ hx=>c2.ext.used hx) g
    rw [r1]
    simp only [if_neg h1]
    rw [(hw2 u1 (List.Subset.refl _) g).1]
    simp only [if_pos h2]
  simp only [if_neg h2] at h ⊢
  obtain ⟨level3,home3,c3⟩:=getOrCreate_spec c2.tables (c2.child h2).1 hfl (pdIdx v)
  have hw3 {m' : Machine} (h : Unread f level2 m2 m'):=c3.withFrame c2.tables (c2.child h2).1 h
  rcases e3 : getOrCreate pd (pdIdx v) (tableFlags fl) m2 with ⟨pt,m3⟩
  simp only [e3] at c3 hw3 h ⊢
  -- whether the last table is there or not, no other frame is taken
  have hm3 : Unread f level m m3:=by
    refine h.mono ?_
    split <;> exact List.Subset.refl _
  obtain ⟨r1,u1⟩:=hw1 hm3 (fun _ hx=>c3.ext.used (c2.ext.used hx)) g
  rw [r1]
  simp only [if_neg h1]
  obtain ⟨r2,u2⟩:=hw2 u1 (fun _ hx=>c3.ext.used hx) g
  rw [r2]
  simp only [if_neg h2]
  obtain ⟨r3,u3⟩:=hw3 u2 (List.Subset.refl _) g
  rw [r3]
  split
  · rfl
  rename_i h3
  have hpt : pt≠f:=u3.ne c3.tables (List.Subset.refl _) (c3.child h3).1
  rw [Machine.withFrame_write hpt]

theorem allocTable_second (m m₁ : Machine) (h1 : (allocTable m).1≠0) (hs : m₁.supply=(allocTable m).2.supply)
    (h2 : (allocTable m₁).1≠0) : m.supply[1]? = some (allocTable m₁).1:=by
  have hhead {n : Machine} (h : (allocTable n).1≠0) : ∃rest,n.supply=(allocTable n).1::rest ∧
      (allocTable n).2.supply=rest:=by
    unfold allocTable allocFrame at h ⊢
    cases hn : n.supply with
    | nil=>simp [hn] at h
    | cons o rest=>
      by_cases ho : IsFrame o ∧ o∉n.used
      · simp [ho,ho.1.1,Machine.fill]
      · simp [hn,ho] at h
  obtain ⟨rest,he,hr⟩:=hhead h1
  obtain ⟨rest',he',-⟩:=hhead h2
  rw [he]
  rw [hs,hr] at he'
  simp [he']

/-- A frame is not looked at in making a space, if it is not one of the new tables. -/
theorem createUserSpace_withFrame (hk : k≠f) (h : f∉(createUserSpace k m).2.2.used)
    (hback : (createUserSpace k m).2.1=true ∨ m.supply[1]?≠some f) (g : ℕ→ℕ) :
    createUserSpace k (m.withFrame f g)=((createUserSpace k m).1,(createUserSpace k m).2.1,
    (createUserSpace k m).2.2.withFrame f g):=by
  unfold createUserSpace at h hback ⊢
  have hsecond (n : Machine):=allocTable_second m n
  have ne_of {n : Machine} (h : f∉(allocTable n).2.used):=allocTable_ne (.inl h)
  have blind {n : Machine} (h : f∉(allocTable n).2.used):=allocTable_withFrame (g:=g) (.inl h)
  rcases e1 : allocTable m with ⟨pml4,m₁⟩
  have ne1:=ne_of (n:=m)
  have blind1:=blind (n:=m)
  simp only [e1] at h hback hsecond ne1 blind1 ⊢
  by_cases h1 : pml4=0
  · simp only [if_pos h1] at h ⊢
    simp only [blind1 h,if_pos h1]
  simp only [if_neg h1] at h hback ⊢
  set m1':=m₁.fill pml4 fun i=>if i<256 then 0 else m₁.mem pml4 i with hm1'
  replace hsecond:=hsecond m1' h1 rfl
  rcases e2 : allocTable m1' with ⟨lowPdpt,m2⟩
  have ne2:=ne_of (n:=m1')
  have blind2:=blind (n:=m1')
  have hu1 (hf : f∉m2.used) : f∉m₁.used:=fun hu=>hf (by simpa [e2] using allocTable_used (m:=m1') hu)
  simp only [e2] at h hback hsecond ne2 blind2 ⊢
  by_cases h2 : lowPdpt=0
  · simp only [if_pos h2] at h ⊢
    have n1:=ne1 (hu1 h) h1
    simp only [blind1 (hu1 h),if_neg h1,Machine.withFrame_mem n1,Machine.withFrame_fill n1,←hm1',blind2 h,if_pos h2]
  simp only [if_neg h2] at h hback ⊢
  rcases e3 : allocTable m2 with ⟨lowPd,m3⟩
  have ne3:=ne_of (n:=m2)
  have blind3:=blind (n:=m2)
  have hu2 (hf : f∉m3.used) : f∉m2.used:=fun hu=>hf (by simpa [e3] using allocTable_used hu)
  simp only [e3] at h hback ne3 blind3 ⊢
  by_cases h3 : lowPd=0
  · simp only [if_pos h3,Bool.false_eq_true,false_or] at h hback ⊢
    have hf3 : f∉m3.used:=fun hu=>h (mem_filter.mpr ⟨hu,decide_eq_true fun he=>hback (by
      rw [he]
      exact hsecond h2)⟩)
    have n1:=ne1 (hu1 (hu2 hf3)) h1
    simp only [blind1 (hu1 (hu2 hf3)),if_neg h1,Machine.withFrame_mem n1,Machine.withFrame_fill n1,←hm1',
      blind2 (hu2 hf3),if_neg h2,blind3 hf3,if_pos h3]
    rfl
  · simp only [if_neg h3] at h ⊢
    have hf3 : f∉m3.used:=h
    have n1:=ne1 (hu1 (hu2 hf3)) h1
    have n2:=ne2 (hu2 hf3) h2
    have n3:=ne3 hf3 h3
    simp only [blind1 (hu1 (hu2 hf3)),if_neg h1,Machine.withFrame_mem n1,Machine.withFrame_fill n1,←hm1',
      blind2 (hu2 hf3),if_neg h2,blind3 hf3,if_neg h3,Machine.withFrame_write n1,Machine.withFrame_write n2,
      Machine.withFrame_fill n3,Machine.withFrame_mem hk]

theorem expandPage_withFrame (ht : Tables m level home) (hk : level k=some 3) (hu : f∈m.used) (hl : level f=none)
    (v : ℕ) (g : ℕ→ℕ) : expandPage k v (m.withFrame f g)=(expandPage k v m).withFrame f g:=by
  unfold expandPage
  simp only [allocFrame_withFrame]
  split
  · rfl
  · rw [mapPage_withFrame (Spawn.tables_allocFrame ht) hk (.inr ⟨(allocFrame_frame m).2.1 _ hu,hl⟩)]

theorem allocFrame_supply (m : Machine) :
    (allocFrame m).2.supply⊆m.supply ∧ ((allocFrame m).1≠0→(allocFrame m).1∈m.supply):=by
  unfold allocFrame
  cases hs : m.supply with
  | nil=>exact ⟨by simp [hs],by simp⟩
  | cons o rest=>
    dsimp only
    split
    · exact ⟨subset_cons_self ..,fun _=>List.mem_cons_self⟩
    · exact ⟨subset_cons_self ..,by simp⟩

structure Draws (m m' : Machine) : Prop where
  supply : m'.supply⊆m.supply
  used : ∀u∈m'.used,u∈m.used ∨ u∈m.supply

namespace Draws

theorem of_eq (hs : m'.supply=m.supply) (hu : m'.used=m.used) : Draws m m':=
  ⟨hs▸List.Subset.refl _,fun _ h=>.inl (hu▸h)⟩

theorem trans {m'' : Machine} (h : Draws m m') (h' : Draws m' m'') : Draws m m'':=by
  refine ⟨List.Subset.trans h'.supply h.supply,fun u hu=>?_⟩
  rcases h'.used u hu with hu | hu
  · exact h.used u hu
  · exact .inr (h.supply hu)

theorem allocFrame (m : Machine) : Draws m (allocFrame m).2:=by
  refine ⟨(allocFrame_supply m).1,fun u hu=>?_⟩
  rcases Spawn.allocFrame_cases m with ⟨-,hused⟩ | ⟨hf,-,hused⟩
  · exact .inl (hused▸hu)
  rw [hused] at hu
  rcases mem_cons.mp hu with rfl | hu
  · exact .inr ((allocFrame_supply m).2 hf.1)
  · exact .inl hu

theorem allocTable (m : Machine) : Draws m (allocTable m).2:=by
  have h:=allocFrame m
  unfold PageTables.allocTable
  dsimp only
  split
  · exact h
  · exact h.trans (.of_eq rfl rfl)

theorem getOrCreate (t i fl : ℕ) (m : Machine) : Draws m (getOrCreate t i fl m).2:=by
  have hsupply : (withUser t i fl m).supply=m.supply:=by
    unfold withUser
    split <;> rfl
  have huser : Draws m (withUser t i fl m):=.of_eq hsupply (withUser_used t i fl m)
  unfold PageTables.getOrCreate splitHuge
  dsimp only
  split
  · have h:=huser.trans (allocTable (withUser t i fl m))
    split
    · split
      · exact h
      · exact h.trans (.of_eq rfl rfl)
    · exact huser
  · have h:=allocTable m
    split
    · exact h
    · exact h.trans (.of_eq rfl rfl)

theorem mapPage (r v p fl : ℕ) (m : Machine) : Draws m (mapPage r v p fl m).2:=by
  obtain ⟨m₁,he,h⟩ | ⟨m₁,pt,he,h⟩:=mapPage_rule p (P:=fun _ _ m₁=>Draws m m₁)
    (.of_eq rfl rfl) fun {l t m₁ c m2} _ h he=>by
      have h':=h.trans (getOrCreate t (tableIdx (l+1) v) (tableFlags fl) m₁)
      rw [he] at h'
      exact ⟨fun _=>h',fun _=>h'⟩
  · rw [he]
    exact h
  · rw [he]
    exact h.trans (.of_eq rfl rfl)

theorem freeFrame (f : ℕ) (m : Machine) : Draws m (freeFrame f m):=
  ⟨List.Subset.refl _,fun _ hu=>.inl (mem_filter.mp hu).1⟩

theorem createUserSpace (k : ℕ) (m : Machine) : Draws m (createUserSpace k m).2.2:=by
  unfold PageTables.createUserSpace
  dsimp only
  have h1:=allocTable m
  split
  · exact h1
  have hclear : Draws m ((PageTables.allocTable m).2.fill (PageTables.allocTable m).1
      fun i=>if i<256 then 0 else (PageTables.allocTable m).2.mem (PageTables.allocTable m).1 i):=
    h1.trans (.of_eq rfl rfl)
  have h2:=hclear.trans (allocTable _)
  split
  · exact h2
  have h3:=h2.trans (allocTable _)
  split
  · exact h3.trans (freeFrame _ _)
  · exact h3.trans (.of_eq rfl rfl)

end Draws

theorem mapPage_supply (r v p fl : ℕ) (m : Machine) : (mapPage r v p fl m).2.supply⊆m.supply:=(Draws.mapPage r v p fl m).supply

end Knail.PageTables

namespace Knail.Spawn

open PageTables

variable {m m' m₁ : Machine} {level level' : ℕ→Option ℕ} {home : ℕ→Option ℕ×ℕ} {g : ℕ→ℕ} {f r k va : ℕ}

theorem grow_withFrame (vs : List ℕ) (ht : Tables m level home) (hk : level k=some 3) (hu : f∈m.used)
    (hl : level f=none) (g : ℕ→ℕ) : grow k vs (m.withFrame f g)=(grow k vs m).withFrame f g:=by
  induction vs generalizing m level home with
  | nil=>rfl
  | cons v vs ih=>
    obtain ⟨level₁,h1⟩:=remaps_expandPage ht hk v
    obtain ⟨home₁,ht1⟩:=h1.tables
    obtain ⟨hu1,hl1⟩:=h1.keeps.data hu hl
    rw [grow,List.foldl_cons,expandPage_withFrame ht hk hu hl]
    exact ih ht1 (h1.keeps.level_eq hk) hu1 hl1

theorem mapFrame_supply (r va : ℕ) (m : Machine) : (mapFrame r va m).2.supply⊆m.supply:=by
  have h:=(allocFrame_supply m).1
  unfold mapFrame
  rcases he : allocFrame m with ⟨_ | c,m₁⟩
  · rw [he] at h
    exact h
  · rw [he] at h
    exact List.Subset.trans (mapPage_supply ..) h

theorem mapPages_supply (r : ℕ) (vs : List ℕ) (m : Machine) : (mapPages r vs m).2.supply⊆m.supply:=by
  induction vs generalizing m with
  | nil=>exact List.Subset.refl _
  | cons va vs ih=>
    have h:=mapFrame_supply r va m
    simp only [mapPages]
    rcases he : mapFrame r va m with ⟨_ | _,m₁⟩
    · rwa [he] at h
    · rw [he] at h
      exact List.Subset.trans (ih m₁) h

end Knail.Spawn
