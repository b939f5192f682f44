import Knail.KernelIsolation

/-!
# What unmapping a page does to translations

`unmap_page` clears the entry of a page table. Its walk does not look at the huge bit, so that
below a huge page it takes the page itself for a table and clears eight bytes of it.
-/
namespace Knail.PageTables

variable {m : Machine} {spaces : List ℕ} {a e i k p r t u v : ℕ}

def WalksToHuge (r v p : ℕ) (m : Machine) : Prop:=
  ∃t u,slots m 3 r (pml4Idx v) = .table t ∧ slots m 2 t (pdptIdx v) = .table u ∧ slots m 1 u (pdIdx v) = .page p

def InHugePage (r v : ℕ) (m : Machine) : Prop:=∃p,WalksToHuge r v p m

/-- What `unmap_page` is for. A page is the addresses of one walk; among canonical addresses
these are the ones that agree above bit 11. -/
structure Unmaps (r v : ℕ) (m : Machine) : Prop where
  page : ∀a,SameWalk a v→virtToPhys r a (unmapPage r v m)=0
  others : ∀a,¬SameWalk a v→virtToPhys r a (unmapPage r v m)=virtToPhys r a m
  writes : ∀t∈(unmapPage r v m).touched,t∈m.touched ∨ Reaches (slots m) 3 r t

theorem of_decode_page (h : decode (t+1) e = .page p) : e&&&flagPresent≠0 ∧ e&&&flagHuge≠0 ∧ entryPhys e=p:=by
  unfold decode at h
  split at h
  · cases h
  rename_i hp
  split at h
  · rename_i hh
    exact ⟨hp,(hh.resolve_left (Nat.succ_ne_zero t)).2,Slot.page.inj h⟩
  · cases h

theorem Descends.reaches {l : ℕ} (h : Descends (slots m) tableIdx t l r v) : Reaches (slots m) l r t:=by
  induction l generalizing r with
  | zero=>exact h ▸ .refl 0 r
  | succ l ih=>
    obtain ⟨u,hu,hd⟩:=h
    exact .step hu (ih hd)

/-- The three ends of the walk of `unmap_page`. -/
theorem unmapPage_cases (r v : ℕ) (m : Machine) :
    unmapPage r v m=m ∧ (∀a,SameWalk a v→virtToPhys r a m=0) ∧ ¬InHugePage r v m ∨
    (∃p,WalksToHuge r v p m ∧ unmapPage r v m=m.write p (ptIdx v) 0) ∨
    ∃pt,Descends (slots m) tableIdx pt 3 r v ∧ ¬InHugePage r v m:=by
  have hwalk {a : ℕ} (ha : SameWalk a v) : pml4Idx a=pml4Idx v ∧ pdptIdx a=pdptIdx v ∧ pdIdx a=pdIdx v:=
    ⟨ha 3 (by decide),ha 2 (by decide),ha 1 (by decide)⟩
  by_cases h4 : m.mem r (pml4Idx v)&&&flagPresent=0
  · refine .inl ⟨by simp [unmapPage,h4],fun a ha=>by simp [virtToPhys,hwalk ha,h4],?_⟩
    rintro ⟨p,t,u,ht,-⟩
    exact (of_decode_table ht).1 h4
  have hs4 : slots m 3 r (pml4Idx v) = .table (entryPhys (m.mem r (pml4Idx v))):=by simp [slots,decode,h4]
  obtain ⟨pdpt,hpdpt⟩ : ∃pdpt,entryPhys (m.mem r (pml4Idx v))=pdpt:=⟨_,rfl⟩
  rw [hpdpt] at hs4
  by_cases h3 : m.mem pdpt (pdptIdx v)&&&flagPresent=0
  · refine .inl ⟨by simp [unmapPage,h4,hpdpt,h3],fun a ha=>by simp [virtToPhys,hwalk ha,h4,hpdpt,h3],?_⟩
    rintro ⟨p,t,u,ht,hu,-⟩
    obtain rfl:=Slot.table.inj (hs4.symm.trans ht)
    exact (of_decode_table hu).1 h3
  have hs3 : slots m 2 pdpt (pdptIdx v) = .table (entryPhys (m.mem pdpt (pdptIdx v))):=by simp [slots,decode,h3]
  obtain ⟨pd,hpd⟩ : ∃pd,entryPhys (m.mem pdpt (pdptIdx v))=pd:=⟨_,rfl⟩
  rw [hpd] at hs3
  have hlast {p : ℕ} (hp : WalksToHuge r v p m) : slots m 1 pd (pdIdx v) = .page p:=by
    obtain ⟨t,u,ht,hu,hp⟩:=hp
    obtain rfl:=Slot.table.inj (hs4.symm.trans ht)
    obtain rfl:=Slot.table.inj (hs3.symm.trans hu)
    exact hp
  by_cases h2 : m.mem pd (pdIdx v)&&&flagPresent=0
  · refine .inl ⟨by simp [unmapPage,h4,hpdpt,h3,hpd,h2],
      fun a ha=>by simp [virtToPhys,hwalk ha,h4,hpdpt,h3,hpd,h2],?_⟩
    rintro ⟨p,hp⟩
    exact (of_decode_page (hlast hp)).1 h2
  by_cases hh : m.mem pd (pdIdx v)&&&flagHuge=0
  · refine .inr (.inr ⟨entryPhys (m.mem pd (pdIdx v)),⟨pdpt,hs4,pd,hs3,_,?_,rfl⟩,?_⟩)
    · change slots m 1 pd (pdIdx v)=_
      simp [slots,decode,h2,hh]
    · rintro ⟨p,hp⟩
      exact (of_decode_page (hlast hp)).2.1 hh
  · exact .inr (.inl ⟨entryPhys (m.mem pd (pdIdx v)),⟨pdpt,pd,hs4,hs3,by simp [slots,decode,h2,hh]⟩,
      by simp [unmapPage,h4,hpdpt,h3,hpd,h2]⟩)

theorem WalksToHuge.translate (h : WalksToHuge r v p m) (hw : ∀l,1≤l→l≤3→tableIdx l a=tableIdx l v) :
    virtToPhys r a m=p+a%0x200000:=by
  obtain ⟨t,u,ht,hu,hp⟩:=h
  rw [virtToPhys_eq]
  have h3 : slots m 3 r (tableIdx 3 a) = .table t:=by rw [hw 3 (by decide) (by decide)]; exact ht
  have h2 : slots m 2 t (tableIdx 2 a) = .table u:=by rw [hw 2 (by decide) (by decide)]; exact hu
  have h1 : slots m 1 u (tableIdx 1 a) = .page p:=by rw [hw 1 (by decide) (by decide)]; exact hp
  simp [lookup,h3,h2,h1,pageAddr]

theorem slots_clear {l j : ℕ} : slots (m.write t i 0) l u j=slots m l u j ∨ slots (m.write t i 0) l u j = .absent:=by
  by_cases hj : u=t ∧ j=i
  · obtain ⟨rfl,rfl⟩:=hj
    refine .inr ?_
    rw [slots,mem_write_self,Function.update_self,decode_zero]
  · exact .inl (slots_write hj)

theorem WalksToHuge.clear (h : WalksToHuge r v p m) (t i : ℕ) : WalksToHuge r v p (m.write t i 0) ∨
    ∀a,(∀l,1≤l→l≤3→tableIdx l a=tableIdx l v)→virtToPhys r a (m.write t i 0)=0:=by
  obtain ⟨t',u',ht',hu',hp'⟩:=h
  have hget {a : ℕ} (hw : ∀l,1≤l→l≤3→tableIdx l a=tableIdx l v) : tableIdx 3 a=pml4Idx v ∧
      tableIdx 2 a=pdptIdx v ∧ tableIdx 1 a=pdIdx v:=
    ⟨hw 3 (by decide) (by decide),hw 2 (by decide) (by decide),hw 1 (by decide) (by decide)⟩
  rcases slots_clear (m:=m) (t:=t) (i:=i) (l:=3) (u:=r) (j:=pml4Idx v) with h3 | h3
  swap
  · exact .inr fun a hw=>by simp [virtToPhys_eq,lookup,hget hw,h3]
  rw [ht'] at h3
  rcases slots_clear (m:=m) (t:=t) (i:=i) (l:=2) (u:=t') (j:=pdptIdx v) with h2 | h2
  swap
  · exact .inr fun a hw=>by simp [virtToPhys_eq,lookup,hget hw,h3,h2]
  rw [hu'] at h2
  rcases slots_clear (m:=m) (t:=t) (i:=i) (l:=1) (u:=u') (j:=pdIdx v) with h1 | h1
  swap
  · exact .inr fun a hw=>by simp [virtToPhys_eq,lookup,hget hw,h3,h2,h1]
  rw [hp'] at h1
  exact .inl ⟨t',u',h3,h2,h1⟩

theorem exists_other_page (v : ℕ) : ∃a,(∀l,1≤l→l≤3→tableIdx l a=tableIdx l v) ∧ ¬SameWalk a v ∧
    0<a%0x200000:=by
  obtain ⟨j,hj0,hj,hne⟩ : ∃j,0<j ∧ j<512 ∧ j≠ptIdx v:=by
    by_cases h : ptIdx v=1
    · exact ⟨2,by decide,by decide,by omega⟩
    · exact ⟨1,by decide,by decide,Ne.symm h⟩
  have hdiv : (v/0x200000*0x200000+j*4096)/2^21=v/2^21:=by omega
  refine ⟨v/0x200000*0x200000+j*4096,fun l h1 h3=>?_,fun hw=>hne ?_,by omega⟩
  · obtain ⟨n,rfl⟩ : ∃n,l=n+1:=⟨l-1,by omega⟩
    have hpow : 2^(12+9*(n+1))=2^21*2^(9*n):=by rw [←Nat.pow_add]; congr 1; omega
    rw [tableIdx,tableIdx,hpow,←Nat.div_div_eq_div_mul,←Nat.div_div_eq_div_mul,hdiv]
  have h0:=hw 0 (by decide)
  simp only [ptIdx,tableIdx] at h0 ⊢
  omega

theorem not_unmaps (h : WalksToHuge r v p m) (he : unmapPage r v m=m.write p (ptIdx v) 0) : ¬Unmaps r v m:=by
  rintro ⟨hpage,hothers,-⟩
  rw [he] at hpage hothers
  rcases h.clear p (ptIdx v) with h' | hnone
  · have hw : SameWalk (v/4096*4096+1) v:=sameWalk_of_page (by omega)
    have:=h'.translate fun l _ hl=>hw l hl
    rw [hpage _ hw] at this
    omega
  · obtain ⟨b,hb,hne,hpos⟩:=exists_other_page v
    have hold:=h.translate hb
    rw [←hothers b hne,hnone b hb] at hold
    omega

/-- `unmap_page` unmaps its page and nothing else exactly if the page is not part of a huge one. -/
theorem unmaps_iff (hb : Built k spaces m) (hr : r∈spaces) (v : ℕ) : Unmaps r v m↔¬InHugePage r v m:=by
  rcases unmapPage_cases r v m with ⟨he,hzero,hno⟩ | ⟨p,hp,he⟩ | ⟨pt,hd,hno⟩
  · refine iff_of_true ⟨?_,?_,?_⟩ hno
    · rwa [he]
    · exact fun a _=>by rw [he]
    · exact fun t ht=>.inl (he▸ht)
  · exact iff_of_false (not_unmaps hp he) (not_not_intro ⟨p,hp⟩)
  · obtain ⟨level,home,ht,-,hs⟩:=hb.tables
    obtain ⟨hsame,hother⟩:=ht.writeLeaf (hs r hr) hd 0
    have he:=unmapPage_eq hd
    refine iff_of_true ⟨fun a ha=>?_,fun a ha=>?_,fun t ht=>?_⟩ hno
    · rw [he,hsame a ha,decode_zero]
      rfl
    · rw [he,hother r a (hs r hr) ha]
    rw [he] at ht
    rcases List.mem_cons.mp ht with rfl | ht
    · exact .inr (Descends.reaches hd)
    · exact .inl ht

/-- The kernel's space right after `vmm::init`. -/
def freshKernel : Machine:=((init ⟨fun _ _=>0,[],[0x1000,0x2000,0x3000,0x4000,0x5000],[]⟩).map Prod.snd).getD
  ⟨fun _ _=>0,[],[],[]⟩

theorem freshKernel_built : Built 0x1000 [0x1000] freshKernel:=
  .init (show init ⟨fun _ _=>0,[],[0x1000,0x2000,0x3000,0x4000,0x5000],[]⟩=some (0x1000,freshKernel) from rfl)

theorem unmaps_iff_absent : Built 0x1000 [0x1000] freshKernel ∧ Unmaps 0x1000 0x40000000 freshKernel:=by
  refine ⟨freshKernel_built,(unmaps_iff freshKernel_built (List.mem_singleton_self _) _).mpr ?_⟩
  rintro ⟨p,t,u,ht,hu,-⟩
  have ht' : slots freshKernel 3 0x1000 (pml4Idx 0x40000000) = .table 0x2000:=by decide
  obtain rfl:=Slot.table.inj (ht'.trans ht)
  have hu' : slots freshKernel 2 0x2000 (pdptIdx 0x40000000) = .absent:=by decide
  cases hu'.trans hu

/-- Unmapping a page of the identity map clears the first bytes at 4 MiB and leaves the page. -/
theorem unmap_identity_page : Built 0x1000 [0x1000] freshKernel ∧
    virtToPhys 0x1000 0x400000 (unmapPage 0x1000 0x400000 freshKernel)=0x400000 ∧
    (unmapPage 0x1000 0x400000 freshKernel).touched=0x400000::freshKernel.touched ∧ 0x400000∉freshKernel.used:=by
  refine ⟨freshKernel_built,?_,?_,?_⟩ <;> decide

end Knail.PageTables
