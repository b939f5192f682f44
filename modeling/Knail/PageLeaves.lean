import Knail.FreeFrames
import Knail.SpaceLedger

/-!
# The entries of the page tables

A page of 4 KiB is an entry of a page table. `map_page` writes one such entry: the other pages keep
theirs, and a page that appears beside the one that was asked for is in the same 2 MiB.
-/
namespace Knail.PageTables

variable {m m' m₁ : Machine} {level level' level₁ : ℕ→Option ℕ} {home home' : ℕ→Option ℕ×ℕ}
  {t i c f r r' k v a u p flags pte pte' : ℕ} {l : ℕ} {pt : Option ℕ}

/-- The walk of the address ends at this entry of a page table. -/
def Leaf (r a pte : ℕ) (m : Machine) : Prop:=∃pt,Descends (slots m) tableIdx pt 3 r a ∧ m.mem pt (ptIdx a)=pte

/-- A page of the lower half that is mapped with `FLAG_USER`. -/
structure UserPage (r a pte : ℕ) (m : Machine) : Prop where
  low : a<2^47
  aligned : a%4096=0
  leaf : Leaf r a pte m
  present : pte&&&flagPresent≠0
  user : pte&&&flagUser≠0

theorem Leaf.unique (h : Leaf r a pte m) (h' : Leaf r a pte' m) : pte=pte':=by
  obtain ⟨pt,hd,rfl⟩:=h
  obtain ⟨pt',hd',rfl⟩:=h'
  rw [hd.target_unique hd']

theorem descends_of_links (h : Descends (slots m) tableIdx c l t a) (ht : Tables m level home)
    (htl : level t=some l) (hM : ∀{t l i u},level t=some (l+1)→slots m (l+1) t i = .table u →
    slots m' (l+1) t i = .table u) : Descends (slots m') tableIdx c l t a:=by
  induction l generalizing t with
  | zero=>exact h
  | succ l ih=>
    obtain ⟨u,hu,hd⟩:=h
    exact ⟨u,hM htl hu,ih hd (ht.forest.child htl hu).1⟩

theorem descends_iff (ht : Tables m level home) (htl : level t=some l)
    (hmem : ∀{t l},level t=some (l+1)→m'.mem t=m.mem t) :
    Descends (slots m') tableIdx c l t a↔Descends (slots m) tableIdx c l t a:=by
  have hslots {t l i : ℕ} (htl : level t=some (l+1)) : slots m' (l+1) t i=slots m (l+1) t i:=by
    rw [slots,hmem htl]
    rfl
  induction l generalizing t with
  | zero=>exact Iff.rfl
  | succ l ih=>
    refine exists_congr fun u=>?_
    rw [hslots htl]
    exact and_congr_right fun hu=>ih (ht.forest.child htl hu).1

theorem leaf_iff (ht : Tables m level home) (hr : level r=some 3) (hmem : ∀{t l},level t=some l→m'.mem t=m.mem t) :
    Leaf r a pte m'↔Leaf r a pte m:=by
  refine exists_congr fun pt=>?_
  rw [descends_iff ht hr fun htl=>hmem htl]
  refine and_congr_right fun hd=>?_
  rw [hmem (hd.level_eq ht.forest hr)]

/-- The tables between the two states: links and page tables stay, and the only new page table is the
given one, if any. -/
structure Walked (m m' : Machine) (level level' : ℕ→Option ℕ) (pt : Option ℕ) : Prop where
  links : ∀{t l i u},level t=some (l+1)→slots m (l+1) t i = .table u→slots m' (l+1) t i = .table u
  leaves : ∀{t},level t=some 0→m'.mem t=m.mem t
  old : ∀{t l i u},level' t=some (l+1)→slots m' (l+1) t i = .table u →
    level t=some (l+1) ∧ slots m (l+1) t i = .table u ∨ level u=none
  new : ∀{t i u},level' t=some 1→slots m' 1 t i = .table u→pt=some u ∨
    level t=some 1 ∧ slots m 1 t i = .table u

namespace Walked

theorem refl (m : Machine) (level : ℕ→Option ℕ) : Walked m m level level none:=
  ⟨fun _ hs=>hs,fun _=>rfl,fun hl hs=>.inl ⟨hl,hs⟩,fun hl hs=>.inr ⟨hl,hs⟩⟩

theorem trans {m2 : Machine} {level2 : ℕ→Option ℕ} (h : Walked m m₁ level level₁ none)
    (h' : Walked m₁ m2 level₁ level2 pt) (hext : Extends m m₁ level level₁) : Walked m m2 level level2 pt where
  links htl hs:=h'.links (hext.level_eq htl) (h.links htl hs)
  leaves htl:=(h'.leaves (hext.level_eq htl)).trans (h.leaves htl)
  old:=by
    intro t l i u htl hs
    rcases h'.old htl hs with ⟨htl,hs⟩ | hn
    · exact h.old htl hs
    · exact .inr (Option.eq_none_iff_forall_ne_some.mpr fun l hl=>by simp [hext.level_eq hl] at hn)
  new:=by
    intro t i u htl hs
    rcases h'.new htl hs with hpt | ⟨htl,hs⟩
    · exact .inl hpt
    · exact .inr ((h.new htl hs).resolve_left (by simp))

theorem of_created {fl : ℕ} (ht : Tables m level home) (htl : level t=some (k+1)) (hf : TableFlags fl)
    (hc : Created m t i k (getOrCreate t i fl m) level level' home') : Walked m (getOrCreate t i fl m).2 level level'
    (if k=0 ∧ (getOrCreate t i fl m).1≠0 then some (getOrCreate t i fl m).1 else none) where
  links hul hs:=getOrCreate_slots ht htl hf hul hs
  leaves hul:=hc.other _ (ht.used hul) (by
    rintro rfl
    simp [hul] at htl)
  old:=by
    intro u l j v hul hs
    obtain ⟨hu,hold | ⟨-,-,hn⟩⟩:=hc.links hul hs
    · exact .inl ⟨hu,hold⟩
    · exact .inr hn
  new:=by
    intro u j v hul hs
    obtain ⟨hu,hold | ⟨rfl,rfl,hn⟩⟩:=hc.links hul hs
    · exact .inr ⟨hu,hold⟩
    obtain rfl : k=0:=by simpa [hu,eq_comm] using htl
    rcases getOrCreate_used u j fl m with hused | ⟨h0,-⟩
    · have hv:=(hc.tables.forest.child hul hs).1
      rcases hc.ext.fresh hv with hv' | hv'
      · simp [hn] at hv'
      · exact absurd (hused▸hc.tables.used hv) hv'
    · left
      rw [if_pos ⟨rfl,h0⟩]
      rw [(hc.child h0).2] at hs
      cases hs
      rfl

end Walked

theorem mapPage_walked (ht : Tables m level home) (hr : level r=some 3) (v p flags : ℕ) :
    ∃m₁ level₁ home1,Tables m₁ level₁ home1 ∧ Extends m m₁ level level₁ ∧
    (mapPage r v p flags m=(false,m₁) ∧ Walked m m₁ level level₁ none ∨
    ∃pt,mapPage r v p flags m=(true,m₁.write pt (ptIdx v) ((p&&&physMask)|||flags)) ∧
    Descends (slots m₁) tableIdx pt 3 r v ∧ Walked m m₁ level level₁ (some pt)):=by
  obtain ⟨m₁,he,level₁,home1,ht1,hext,hw⟩ | ⟨m₁,pt,he,level₁,hd,hext,hw⟩:=mapPage_rule p
    (P:=fun l t m₁=>∃level₁,Descent r v l t m₁ level₁ ∧ Extends m m₁ level level₁ ∧
      Walked m m₁ level level₁ (if l=0 then some t else none))
    (Q:=fun m₁=>∃level₁ home1,Tables m₁ level₁ home1 ∧ Extends m m₁ level level₁ ∧ Walked m m₁ level level₁ none)
    ⟨level,ht.descent hr v,.refl m level,.refl m level⟩ fun {l t m₁ c m2} _ h he=>by
      obtain ⟨level₁,hd,hext,hw⟩:=h
      obtain ⟨home1,ht1⟩:=hd.tables
      have hf:=tableFlags_spec flags
      obtain ⟨level2,home2,hc⟩:=getOrCreate_spec ht1 hd.level_eq hf (tableIdx (l+1) v)
      replace hw:=hw.trans (.of_created ht1 hd.level_eq hf hc) hext
      rw [he] at hc hw
      refine ⟨fun h0=>⟨level2,home2,hc.tables,hext.trans hc.ext,?_⟩,
        fun h0=>⟨level2,hd.step hc h0,hext.trans hc.ext,?_⟩⟩
      · rwa [if_neg fun h=>h.2 h0] at hw
      · simpa [h0] using hw
  · exact ⟨m₁,level₁,home1,ht1,hext,.inl ⟨he,hw⟩⟩
  · obtain ⟨home1,ht1⟩:=hd.tables
    exact ⟨m₁,level₁,home1,ht1,hext,.inr ⟨pt,he,hd.descends,hw⟩⟩

theorem Walked.descends_old (h : Walked m m' level level' pt) (ht' : Tables m' level' home')
    (hd : Descends (slots m') tableIdx c l t a) (htl : level' t=some l) (hc : level c=some k) :
    Descends (slots m) tableIdx c l t a ∧ ∃n,level t=some n:=by
  induction l generalizing t with
  | zero=>
    obtain rfl:=hd
    exact ⟨rfl,k,hc⟩
  | succ l ih=>
    obtain ⟨u,hu,hd⟩:=hd
    obtain ⟨hd0,n,hn⟩:=ih hd (ht'.forest.child htl hu).1
    rcases h.old htl hu with ⟨ht0,hs0⟩ | hnone
    · exact ⟨⟨u,hs0,hd0⟩,l+1,ht0⟩
    · simp [hnone] at hn

theorem Walked.descends (h : Walked m m' level level' pt) (ht : Tables m level home)
    (ht' : Tables m' level' home') (hr : level' r=some 3) (hd : Descends (slots m') tableIdx c 3 r a) :
    pt=some c ∨ Descends (slots m) tableIdx c 3 r a ∧ m'.mem c=m.mem c:=by
  have hwalk:=hd
  obtain ⟨u2,s2,u1,s1,u0,s0,rfl⟩:=hd
  have hu1:=(ht'.forest.child (ht'.forest.child hr s2).1 s1).1
  refine (h.new hu1 s0).imp_right fun hold=>?_
  have hl:=(ht.forest.child hold.1 hold.2).1
  exact ⟨(h.descends_old ht' hwalk hr hl).1,h.leaves hl⟩

theorem descends_write {pt e : ℕ} (ht : Tables m level home) (hpt : level pt=some 0) (hr : level r=some 3) :
    Descends (slots (m.write pt i e)) tableIdx c 3 r a↔Descends (slots m) tableIdx c 3 r a:=by
  refine descends_iff ht hr fun {t l} htl=>mem_write_of_ne ?_
  rintro rfl
  simp [hpt] at htl

/-- What a successful `map_page` does to the entries of the page tables of all spaces. -/
structure OneLeaf (r v e : ℕ) (level : ℕ→Option ℕ) (m m' : Machine) : Prop where
  mapped : Leaf r v e m'
  kept : ∀{r' a pte},level r'=some 3→¬SameWalk a v→Leaf r' a pte m→Leaf r' a pte m'
  /-- Other entries that are new are in the same 2 MiB. -/
  beside : ∀{r' a pte},level r'=some 3→¬SameWalk a v→Leaf r' a pte m' →
    Leaf r' a pte m ∨ ∀l,1≤l→l≤3→tableIdx l a=tableIdx l v

theorem mapPage_oneLeaf (ht : Tables m level home) (hr : level r=some 3) (h : mapPage r v p flags m=(true,m')) :
    OneLeaf r v ((p&&&physMask)|||flags) level m m':=by
  obtain ⟨m₁,level₁,home1,ht1,hext,⟨hfail,-⟩ | ⟨pt,hok,hd,hw⟩⟩:=mapPage_walked ht hr v p flags
  · rw [hfail] at h
    cases h
  obtain rfl : m₁.write pt (ptIdx v) ((p&&&physMask)|||flags)=m':=by simpa [hok] using h
  have hr1:=hext.level_eq hr
  have hpt:=hd.level_eq ht1.forest hr1
  -- an entry that the last write does not hit
  have hentry {r' a c : ℕ} (hr' : level r'=some 3) (hdc : Descends (slots m₁) tableIdx c 3 r' a)
      (hne : ¬SameWalk a v) : (m₁.write pt (ptIdx v) ((p&&&physMask)|||flags)).mem c (ptIdx a)=m₁.mem c (ptIdx a):=by
    by_cases hc : c=pt
    · subst hc
      rw [mem_write_self,Function.update_of_ne fun h0=>hne fun l hl=>?_]
      rcases Nat.eq_zero_or_pos l with rfl | hl0
      · exact h0
      · exact (hdc.unique ht1.forest hd (hext.level_eq hr') hr1 (Nat.le_refl _)).2 l hl0 hl
    · rw [mem_write_of_ne hc]
  refine ⟨⟨pt,(descends_write ht1 hpt hr1).mpr hd,?_⟩,fun {r' a pte} hr' hne hleaf=>?_,
    fun {r' a pte} hr' hne hleaf=>?_⟩
  · rw [mem_write_self,Function.update_self]
  · obtain ⟨c,hdc,rfl⟩:=hleaf
    have hdc1:=descends_of_links hdc ht hr' hw.links
    refine ⟨c,(descends_write ht1 hpt (hext.level_eq hr')).mpr hdc1,?_⟩
    rw [hentry hr' hdc1 hne,hw.leaves (hdc.level_eq ht.forest hr')]
  · obtain ⟨c,hdc,rfl⟩:=hleaf
    replace hdc:=(descends_write ht1 hpt (hext.level_eq hr')).mp hdc
    rw [hentry hr' hdc hne]
    rcases hw.descends ht ht1 (hext.level_eq hr') hdc with hc | ⟨hold,hmem⟩
    · cases hc
      exact .inr (hdc.unique ht1.forest hd (hext.level_eq hr') hr1 (Nat.le_refl _)).2
    · exact .inl ⟨c,hold,by rw [hmem]⟩

theorem mapPage_failed_leaf (ht : Tables m level home) (hr : level r=some 3) (h : mapPage r v p flags m=(false,m'))
    (hr' : level r'=some 3) (hleaf : Leaf r' a pte m') : Leaf r' a pte m:=by
  obtain ⟨m₁,level₁,home1,ht1,hext,⟨hfail,hw⟩ | ⟨pt,hok,-⟩⟩:=mapPage_walked ht hr v p flags
  · obtain rfl : m₁=m':=by simpa [hfail] using h
    obtain ⟨c,hdc,rfl⟩:=hleaf
    obtain ⟨hold,hmem⟩:=(hw.descends ht ht1 (hext.level_eq hr') hdc).resolve_left (by simp)
    exact ⟨c,hold,by rw [hmem]⟩
  · rw [hok] at h
    cases h

theorem mapPage_mem (ht : Tables m level home) (hr : level r=some 3) (v p flags : ℕ)
    (h : Unread f level m (mapPage r v p flags m).2) : (mapPage r v p flags m).2.mem f=m.mem f:=by
  have hw:=mapPage_withFrame ht hr h (m.mem f)
  rw [Machine.withFrame_self] at hw
  rw [show (mapPage r v p flags m).2=(mapPage r v p flags m).2.withFrame f (m.mem f) from congrArg Prod.snd hw,
    Machine.withFrame_mem_self]

end Knail.PageTables
