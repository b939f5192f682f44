import Knail.PageLeaves
import Knail.UserAccess

/-!
# Split pages of the identity map

A complete space maps its first GiB with huge pages. `map_page` of a user page there splits the huge page
and makes user pages of all pieces, so that every page table of the first GiB is full of user pages.
-/
namespace Knail.PageTables

variable {m m' : Machine} {level : ℕ→Option ℕ} {home : ℕ→Option ℕ×ℕ} {S : List (ℕ×ℕ)}
  {k r v a b p flags pte l t u q : ℕ}

theorem Leaf.sameWalk (h : Leaf r a pte m) (hw : SameWalk a v) : Leaf r v pte m:=by
  obtain ⟨pt,hd,rfl⟩:=h
  refine ⟨pt,?_,by rw [ptIdx,ptIdx,hw 0 (by decide)]⟩
  simpa only [Descends,hw 3 (by decide),hw 2 (by decide),hw 1 (by decide)] using hd

theorem Leaf.virtToPhys_eq (h : Leaf r a pte m) (hp : pte&&&flagPresent≠0) : virtToPhys r a m=entryPhys pte+a%4096:=by
  obtain ⟨pt,⟨u2,s2,u1,s1,u0,s0,rfl⟩,rfl⟩:=h
  have hs : slots m 0 u0 (tableIdx 0 a) = .page (entryPhys (m.mem u0 (ptIdx a))):=by
    simp only [slots,decode]
    exact (if_neg hp).trans (if_pos (.inl trivial))
  rw [virtToPhys_eq]
  simp only [lookup,s2,s1,s0,hs,Option.getD_some,pageAddr]
  rfl

theorem openBelow_link (hs : slots m (l+1) t (tableIdx (l+1) a) = .table u) (S : List (ℕ×ℕ)) :
    openBelow S m a (l+1) t=(isOpen S m t (tableIdx (l+1) a) && openBelow S m a l u):=by
  obtain ⟨hp,rfl⟩:=of_decode_table hs
  have hh : (decide (l=0) && decide (m.mem t (tableIdx (l+1) a)&&&flagHuge≠0))=false:=by
    by_contra hh
    simp only [Bool.not_eq_false,Bool.and_eq_true,decide_eq_true_eq] at hh
    obtain ⟨rfl,hh⟩:=hh
    simp [slots,decode,hp,hh] at hs
  rw [openBelow,hh,Bool.false_or]

theorem openBelow_huge (hs : slots m 1 t (tableIdx 1 a) = .page q) (S : List (ℕ×ℕ)) :
    openBelow S m a 1 t=isOpen S m t (tableIdx 1 a):=by
  have hh : m.mem t (tableIdx 1 a)&&&flagHuge≠0:=by
    intro hh
    by_cases hp : m.mem t (tableIdx 1 a)&&&flagPresent=0 <;> simp [slots,decode,hp,hh] at hs
  simp [openBelow,hh]

theorem Leaf.user_of_access (h : Leaf r a pte m) (ho : userAccess r a m=true) :
    pte&&&flagPresent≠0 ∧ pte&&&flagUser≠0:=by
  obtain ⟨pt,⟨u2,s2,u1,s1,u0,s0,rfl⟩,rfl⟩:=h
  rw [userAccess,openBelow_link s2,openBelow_link s1,openBelow_link s0] at ho
  simp only [Bool.and_eq_true,openBelow,isOpen_iff,List.not_mem_nil,or_false] at ho
  exact ho.2.2.2

theorem huge_of_no_leaf (htr : virtToPhys r b m≠0) (hb : SameWalk b a) (hno : ∀pte,¬Leaf r a pte m) :
    ∃u2 u1 q,slots m 3 r (tableIdx 3 a) = .table u2 ∧ slots m 2 u2 (tableIdx 2 a) = .table u1 ∧
    slots m 1 u1 (tableIdx 1 a) = .page q:=by
  have hupper {l t : ℕ} (i : ℕ) (hl : 2≤l) : slots m l t i = .absent ∨ ∃u,slots m l t i = .table u:=by
    rw [slots,decode]
    split
    · exact .inl rfl
    · rw [if_neg (by omega)]
      exact .inr ⟨_,rfl⟩
  rw [virtToPhys_eq] at htr
  rcases hupper (t:=r) (l:=3) (tableIdx 3 a) (by decide) with s2 | ⟨u2,s2⟩
  · simp [lookup,hb 3 (by decide),s2] at htr
  rcases hupper (t:=u2) (l:=2) (tableIdx 2 a) (by decide) with s1 | ⟨u1,s1⟩
  · simp [lookup,hb 3 (by decide),s2,hb 2 (by decide),s1] at htr
  refine ⟨u2,u1,?_⟩
  cases s0 : slots m 1 u1 (tableIdx 1 a) with
  | absent=>simp [lookup,hb 3 (by decide),s2,hb 2 (by decide),s1,hb 1 (by decide),s0] at htr
  | table u0=>exact absurd ⟨u0,⟨u2,s2,u1,s1,u0,s0,rfl⟩,rfl⟩ (hno _)
  | page q=>exact ⟨q,s2,s1,rfl⟩

theorem openBelow_raised {u2 u1 : ℕ} (s2 : slots m 3 r (tableIdx 3 a) = .table u2) (s1 : slots m 2 u2 (tableIdx 2 a) = .table u1)
    (s0 : slots m 1 u1 (tableIdx 1 a) = .page q) (hidx : ∀l,1≤l→l≤3→tableIdx l a=tableIdx l v) :
    openBelow (walkEntries r v m) m a 3 r=true:=by
  have i3 : tableIdx 3 a=pml4Idx v:=hidx 3 (by decide) (by decide)
  have i2 : tableIdx 2 a=pdptIdx v:=hidx 2 (by decide) (by decide)
  have i1 : tableIdx 1 a=pdIdx v:=hidx 1 (by decide) (by decide)
  obtain ⟨p2,e2⟩:=of_decode_table s2
  obtain ⟨p1,e1⟩:=of_decode_table s1
  have p0 : m.mem u1 (tableIdx 1 a)&&&flagPresent≠0:=by
    intro h0
    simp [slots,decode,h0] at s0
  rw [openBelow_link s2,openBelow_link s1,openBelow_huge s0]
  rw [i3] at p2 e2
  rw [i2] at p1 e1
  have hw : walkEntries r v m=[(r,pml4Idx v),(u2,pdptIdx v),(u1,pdIdx v)]:=by
    simp only [walkEntries,p2,e2,p1,e1,if_false]
  rw [i1] at p0
  simp only [Bool.and_eq_true,isOpen_iff,hw,i3,i2,i1]
  exact ⟨⟨p2,.inr (by simp)⟩,⟨p1,.inr (by simp)⟩,p0,.inr (by simp)⟩

/-- The first GiB is mapped, and its page tables hold user pages only. -/
structure LowOpen (r : ℕ) (m : Machine) : Prop where
  user : ∀{a pte},a<2^30→Leaf r a pte m→pte&&&flagPresent≠0 ∧ pte&&&flagUser≠0
  mapped : ∀{a},a<2^30→a%4096≠0→virtToPhys r a m≠0

theorem lowOpen_create (ht : Tables m level home) (hk : level k=some 3) (hc : createUserSpace k m=(r,true,m')) :
    LowOpen r m':=by
  obtain ⟨level',hn⟩:=createUserSpace_spec ht hk
  rw [hc] at hn
  have hr : r≠0:=(hn.full rfl).1
  refine ⟨?_,fun {a} ha hal h0=>hal ?_⟩
  · rintro a pte ha ⟨pt,hd,-⟩
    exact absurd hd (hn.leafless hr a pt (by omega))
  · have hid : virtToPhys r a m'=a:=hn.identity rfl a ha
    omega

theorem LowOpen.congr (h : LowOpen r m) (ht : Tables m level home) (hr : level r=some 3)
    (hmem : ∀{t l},level t=some l→m'.mem t=m.mem t) : LowOpen r m':=by
  refine ⟨fun ha hleaf=>h.user ha ((leaf_iff ht hr hmem).mp hleaf),fun {a} ha hal=>?_⟩
  have hsame : virtToPhys r a m'=virtToPhys r a m:=by
    rw [virtToPhys_eq,virtToPhys_eq]
    refine congrArg (·.getD 0) (lookup_congr ht.forest (fun hl i=>?_) hr a)
    rw [slots,hmem hl]
    rfl
  rw [hsame]
  exact h.mapped ha hal

theorem userEntry (hp : p%4096=0) (hp' : p<2^52) (hf : flags&&&flagPresent≠0) (hu : flags&&&flagUser≠0) :
    ((p&&&physMask)|||flags)&&&flagPresent≠0 ∧ ((p&&&physMask)|||flags)&&&flagUser≠0:=by
  have hfield:=field_of_bounds hp hp'
  rw [hfield,or_and_of_left_eq_zero (and_eq_zero_of_field hfield rfl),or_and_of_left_eq_zero (and_eq_zero_of_field hfield rfl)]
  exact ⟨hf,hu⟩

theorem LowOpen.mapPage (h : LowOpen r m) (ht : Tables m level home) (hr : level r=some 3) (hp : IsFrame p)
    (hf : flags&&&flagPresent≠0) (hu : flags&&&flagUser≠0) (hf' : flags&&&physMask=0) (v : ℕ) :
    LowOpen r (mapPage r v p flags m).2:=by
  obtain ⟨hok,hfail⟩:=mapPage_spec ht hr v hp.bounds.1 hp.bounds.2 hf hf'
  have haccess {a : ℕ} (hne : ¬SameWalk a v) : userAccess r a (PageTables.mapPage r v p flags m).2 =
      openBelow (walkEntries r v m) m a 3 r:=by
    rw [userAccess,openBelow_eq,openBelow_eq,mapPage_access ht hr hu hne]
  rcases hm : PageTables.mapPage r v p flags m with ⟨_ | _,m'⟩
  · rw [hm] at hfail
    refine ⟨fun ha hleaf=>h.user ha (mapPage_failed_leaf ht hr hm hr hleaf),fun ha hal=>?_⟩
    rw [hfail rfl r _ hr]
    exact h.mapped ha hal
  rw [hm] at hok haccess
  obtain ⟨hsame,hother⟩:=hok rfl
  have hone:=mapPage_oneLeaf ht hr hm
  refine ⟨fun {a pte} ha hleaf=>?_,fun {a} ha hal=>?_⟩
  · by_cases hw : SameWalk a v
    · rw [(hleaf.sameWalk hw).unique hone.mapped]
      exact userEntry hp.bounds.1 hp.bounds.2 hf hu
    by_cases hold : ∃pte0,Leaf r a pte0 m
    · obtain ⟨pte0,hold⟩:=hold
      rw [hleaf.unique (hone.kept hr hw hold)]
      exact h.user ha hold
    -- the page is a piece of a huge page
    rw [not_exists] at hold
    have hidx:=(hone.beside hr hw hleaf).resolve_left (hold pte)
    have hb : SameWalk (a/4096*4096+1) a:=sameWalk_of_page (by omega)
    obtain ⟨u2,u1,q,s2,s1,s0⟩:=huge_of_no_leaf (h.mapped (by omega) (by omega)) hb hold
    exact hleaf.user_of_access ((haccess hw).trans (openBelow_raised s2 s1 s0 hidx))
  · by_cases hw : SameWalk a v
    · rw [hsame a hw]
      omega
    · rw [hother r a hr hw]
      exact h.mapped ha hal

theorem tableIdx_of_block (hab : b/2^21=a/2^21) (l : ℕ) : tableIdx (l+1) b=tableIdx (l+1) a:=by
  rw [tableIdx,tableIdx,show 12+9*(l+1)=21+9*l by omega,Nat.pow_add,←Nat.div_div_eq_div_mul,
    ← Nat.div_div_eq_div_mul,hab]

theorem LowOpen.whole (h : LowOpen r m) (hu : UserPage r a pte m) (ha : a<2^30) (hb : b%4096=0)
    (hab : b/2^21=a/2^21) : ∃pte',UserPage r b pte' m:=by
  obtain ⟨pt,hd,-⟩:=hu.leaf
  have hd' : Descends (slots m) tableIdx pt 3 r b:=by
    simpa only [Descends,tableIdx_of_block hab] using hd
  have hleaf : Leaf r b (m.mem pt (ptIdx b)) m:=⟨pt,hd',rfl⟩
  obtain ⟨hp,hu'⟩:=h.user (by omega) hleaf
  exact ⟨_,by omega,hb,hleaf,hp,hu'⟩

end Knail.PageTables
