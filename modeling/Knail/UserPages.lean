import Knail.PageLeaves

/-!
# The user pages of a space, in order

`clone_user_space` walks the tables of a space with four loops. The pages that it meets are listed here
with their entries: they are the pages of the lower half with `FLAG_USER`, each of them once.
-/
namespace Knail.PageTables

open List

variable {m m' : Machine} {level : ℕ→Option ℕ} {home : ℕ→Option ℕ×ℕ} {t i r v va n s l pte : ℕ}
  {pages : ℕ→List (ℕ×ℕ)} {shift : ℕ} {sub : ℕ→ℕ→List (ℕ×ℕ)}

/-- The pages below the entries of a table, which is reached with the given address bits. -/
def linkedPages (sub : ℕ→ℕ→List (ℕ×ℕ)) (n shift va t : ℕ) (m : Machine) : List (ℕ×ℕ):=
  (List.range n).flatMap fun i=>
    if m.mem t i&&&flagPresent=0 ∨ m.mem t i&&&flagHuge≠0 then []
    else sub (va|||i*2^shift) (entryBase (m.mem t i))

/-- The user pages below a table of the given level. -/
def pagesAt (m : Machine) : ℕ→ℕ→ℕ→List (ℕ×ℕ)
  | 0, va, t=>(List.range 512).flatMap fun i=>
    if m.mem t i&&&flagPresent=0 ∨ m.mem t i&&&flagUser=0 then [] else [(va|||i*2^12,m.mem t i)]
  | l+1, va, t=>linkedPages (pagesAt m l) 512 (12+9*(l+1)) va t m

def userPages (r : ℕ) (m : Machine) : List (ℕ×ℕ):=linkedPages (pagesAt m 2) 256 39 0 r m

/-- The pages are in ascending order within the given range. -/
structure InBlock (lo size : ℕ) (ps : List (ℕ×ℕ)) : Prop where
  sorted : ps.Pairwise fun p q=>p.1<q.1
  bounds : ∀p∈ps,lo≤p.1 ∧ p.1<lo+size

theorem InBlock.nil (lo size : ℕ) : InBlock lo size []:=⟨.nil,by simp⟩

theorem inBlock_flatMap (h : ∀i<n,InBlock (va+i*s) s (pages i)) : InBlock va (n*s) ((List.range n).flatMap pages):=by
  have hstep {i j : ℕ} (hij : i<j) : i*s+s≤j*s:=by
    rw [←Nat.succ_mul]
    exact Nat.mul_le_mul_right s hij
  refine ⟨pairwise_flatMap.mpr ⟨fun i hi=>(h i (mem_range.mp hi)).sorted,?_⟩,fun p hp=>?_⟩
  · refine pairwise_lt_range.imp_of_mem fun {i j} hi hj hij p hp q hq=>?_
    have h1:=(h i (mem_range.mp hi)).bounds p hp
    have h2:=(h j (mem_range.mp hj)).bounds q hq
    have h3:=hstep hij
    omega
  · obtain ⟨i,hi,hp⟩:=mem_flatMap.mp hp
    have h1:=(h i (mem_range.mp hi)).bounds p hp
    have h2:=hstep (mem_range.mp hi)
    omega

theorem or_index (hva : va%2^(shift+9)=0) (hi : i<512) : va|||i*2^shift=va+i*2^shift:=by
  obtain ⟨q,rfl⟩:=Nat.dvd_of_mod_eq_zero hva
  refine (Nat.two_pow_add_eq_or_of_lt ?_ q).symm
  rw [Nat.pow_add,Nat.mul_comm]
  exact Nat.mul_lt_mul_of_pos_left hi (Nat.two_pow_pos shift)

theorem add_index_mod (hva : va%2^(shift+9)=0) (i : ℕ) : (va+i*2^shift)%2^shift=0:=by
  obtain ⟨q,rfl⟩:=Nat.dvd_of_mod_eq_zero hva
  rw [Nat.pow_add,Nat.mul_assoc,Nat.mul_comm i,←Nat.mul_add,Nat.mul_mod_right]

theorem pow_add_nine (shift : ℕ) : 2^(shift+9)=512*2^shift:=by rw [Nat.pow_add,Nat.mul_comm]

theorem inBlock_linkedPages (hn : n≤512)
    (hsub : ∀va t,va%2^shift=0→InBlock va (2^shift) (sub va t)) (hva : va%2^(shift+9)=0) (t : ℕ)
    (m : Machine) : InBlock va (n*2^shift) (linkedPages sub n shift va t m):=by
  refine inBlock_flatMap fun i hi=>?_
  split
  · exact .nil _ _
  · rw [or_index hva (hi.trans_le hn)]
    exact hsub _ _ (add_index_mod hva i)

theorem inBlock_pagesAt (m : Machine) (l : ℕ) (hva : va%2^(12+9*l+9)=0) (t : ℕ) :
    InBlock va (2^(12+9*l+9)) (pagesAt m l va t):=by
  rw [pow_add_nine]
  induction l generalizing va t with
  | zero=>
    refine inBlock_flatMap fun i hi=>?_
    split
    · exact .nil _ _
    · rw [or_index hva hi]
      exact ⟨pairwise_singleton ..,by simp⟩
  | succ l ih=>
    refine inBlock_linkedPages (Nat.le_refl _) (fun va t hva=>?_) hva t m
    have:=ih hva t
    rwa [←pow_add_nine] at this

theorem inBlock_userPages (r : ℕ) (m : Machine) : InBlock 0 (2^47) (userPages r m):=
  inBlock_linkedPages (show 256≤512 by decide) (fun _ t hva=>inBlock_pagesAt m 2 hva t) rfl r m

theorem index_of_block (hs : 0<s) (hva : va%(512*s)=0) : (∀i,i<512→va+i*s≤v→v<va+i*s+s→v/s%512=i) ∧
    (va≤v→v<va+512*s→va+v/s%512*s≤v ∧ v<va+v/s%512*s+s):=by
  obtain ⟨q,rfl⟩:=Nat.dvd_of_mod_eq_zero hva
  have hq (i : ℕ) : 512*s*q+i*s=(512*q+i)*s:=by rw [Nat.add_mul,Nat.mul_right_comm]
  have hdiv (i : ℕ) (h1 : 512*s*q+i*s≤v) (h2 : v<512*s*q+i*s+s) : v/s=512*q+i:=by
    rw [hq] at h1 h2
    exact Nat.div_eq_of_lt_le h1 (by rwa [Nat.succ_mul])
  refine ⟨fun i hi h1 h2=>?_,fun h1 h2=>?_⟩
  · rw [hdiv i h1 h2]
    omega
  have hlo : 512*q≤v/s:=(Nat.le_div_iff_mul_le hs).mpr (by rwa [Nat.mul_right_comm])
  have hhi : v/s<512*q+512:=(Nat.div_lt_iff_lt_mul hs).mpr (by
    rw [Nat.add_mul,Nat.mul_right_comm]
    exact h2)
  rw [show v/s%512=v/s-512*q by omega,hq,show 512*q+(v/s-512*q)=v/s by omega]
  exact ⟨Nat.div_mul_le_self v s,Nat.lt_div_mul_add hs⟩

theorem mem_linkedPages {p : ℕ×ℕ} (hn : n≤512) (hva : va%2^(shift+9)=0) :
    p∈linkedPages sub n shift va t m↔∃i<n,m.mem t i&&&flagPresent≠0 ∧ m.mem t i&&&flagHuge=0 ∧
    p∈sub (va+i*2^shift) (entryBase (m.mem t i)):=by
  rw [linkedPages,mem_flatMap]
  refine exists_congr fun i=>?_
  rw [mem_range]
  refine and_congr_right fun hi=>?_
  rw [or_index hva (hi.trans_le hn)]
  split
  · rename_i h
    simp only [not_mem_nil,false_iff]
    rintro ⟨h1,h2,-⟩
    exact h.elim h1 fun h3=>h3 h2
  · rename_i h
    simp only [not_or,not_not] at h
    simp only [h,ne_eq,not_false_eq_true,true_and]

theorem Tables.slots_table (ht : Tables m level home) (htl : level t=some (l+1)) {u : ℕ} :
    slots m (l+1) t i = .table u ↔
    m.mem t i&&&flagPresent≠0 ∧ m.mem t i&&&flagHuge=0 ∧ entryBase (m.mem t i)=u:=by
  refine ⟨fun hs=>?_,?_⟩
  · have hp:=(of_decode_table hs).1
    refine ⟨hp,?_,ht.plain htl hs⟩
    by_contra hh
    rcases Nat.eq_zero_or_pos l with rfl | hl
    · simp [slots,decode,hp,hh] at hs
    · obtain ⟨l,rfl⟩:=Nat.exists_eq_succ_of_ne_zero hl.ne'
      exact hh (ht.flat htl hp)
  · rintro ⟨hp,hh,rfl⟩
    have hs : slots m (l+1) t i = .table (entryPhys (m.mem t i)):=by simp [slots,decode,hp,hh]
    rw [ht.plain htl hs]
    exact hs

/-- The pages below a table are those of its block of addresses that a walk from it finds. -/
theorem mem_pagesAt (ht : Tables m level home) (htl : level t=some l) (hva : va%2^(12+9*l+9)=0) :
    (v,pte)∈pagesAt m l va t↔(va≤v ∧ v<va+2^(12+9*l+9)) ∧ v%4096=0 ∧
    (∃pt,Descends (slots m) tableIdx pt l t v ∧ m.mem pt (ptIdx v)=pte) ∧
    pte&&&flagPresent≠0 ∧ pte&&&flagUser≠0:=by
  induction l generalizing va t with
  | zero=>
    simp only [pagesAt,mem_flatMap,mem_range,Descends,exists_eq_left']
    constructor
    · rintro ⟨i,hi,hp⟩
      split at hp
      · cases hp
      rename_i hpte
      rw [or_index hva hi,mem_singleton,Prod.mk.injEq] at hp
      obtain ⟨rfl,rfl⟩:=hp
      have hidx : ptIdx (va+i*2^12)=i:=by
        simp only [ptIdx,tableIdx]
        omega
      refine ⟨by omega,by omega,by rw [hidx],?_⟩
      simpa only [not_or] using hpte
    · rintro ⟨⟨h1,h2⟩,hal,rfl,hp,hu⟩
      have hv : va+ptIdx v*2^12=v:=by
        simp only [ptIdx,tableIdx]
        omega
      have hidx : ptIdx v<512:=Nat.mod_lt _ (by decide)
      refine ⟨ptIdx v,hidx,?_⟩
      rw [if_neg (by simp only [hp,hu,or_self,not_false_eq_true]),or_index hva hidx,hv]
      exact mem_singleton_self _
  | succ l ih=>
    have hva':=hva
    rw [pow_add_nine] at hva' ⊢
    obtain ⟨hidx,hblock⟩:=index_of_block (Nat.two_pow_pos (12+9*(l+1))) hva'
    rw [pagesAt,mem_linkedPages (Nat.le_refl _) hva]
    constructor
    · rintro ⟨i,hi,hp,hh,hmem⟩
      have hs:=(ht.slots_table htl).mpr ⟨hp,hh,rfl⟩
      obtain ⟨⟨h1,h2⟩,hal,⟨pt,hd,he⟩,hflags⟩:=(ih (ht.forest.child htl hs).1 (add_index_mod hva i)).mp hmem
      have hi' : tableIdx (l+1) v=i:=hidx i hi h1 h2
      have hin:=(inBlock_linkedPages (Nat.le_refl _) (fun va t hva=>inBlock_pagesAt m l hva t) hva t m).bounds (v,pte)
        ((mem_linkedPages (Nat.le_refl _) hva).mpr ⟨i,hi,hp,hh,hmem⟩)
      exact ⟨hin,hal,⟨pt,⟨_,by rw [hi']; exact hs,hd⟩,he⟩,hflags⟩
    · rintro ⟨⟨h1,h2⟩,hal,⟨pt,⟨u,hs,hd⟩,he⟩,hflags⟩
      obtain ⟨hp,hh,rfl⟩:=(ht.slots_table htl).mp hs
      refine ⟨tableIdx (l+1) v,Nat.mod_lt _ (by decide),hp,hh,?_⟩
      exact (ih (ht.forest.child htl hs).1 (add_index_mod hva _)).mpr ⟨hblock h1 h2,hal,⟨pt,hd,he⟩,hflags⟩

theorem mem_userPages (ht : Tables m level home) (hr : level r=some 3) :
    (v,pte)∈userPages r m↔UserPage r v pte m:=by
  rw [userPages,mem_linkedPages (by decide) rfl]
  constructor
  · rintro ⟨i,hi,hp,hh,hmem⟩
    have hs:=(ht.slots_table hr).mpr ⟨hp,hh,rfl⟩
    rw [Nat.zero_add] at hmem
    obtain ⟨⟨h1,h2⟩,hal,⟨pt,hd,he⟩,hflags⟩:=
      (mem_pagesAt ht (ht.forest.child hr hs).1 (Nat.mul_mod_left i (2^39))).mp hmem
    have hi' : tableIdx 3 v=i:=by
      simp only [tableIdx]
      omega
    exact ⟨by omega,hal,⟨pt,⟨_,by rw [hi']; exact hs,hd⟩,he⟩,hflags.1,hflags.2⟩
  · rintro ⟨hlow,hal,⟨pt,⟨u,hs,hd⟩,he⟩,hpres,huser⟩
    obtain ⟨hp,hh,rfl⟩:=(ht.slots_table hr).mp hs
    refine ⟨tableIdx 3 v,pml4Idx_lt hlow,hp,hh,?_⟩
    rw [Nat.zero_add]
    refine (mem_pagesAt ht (ht.forest.child hr hs).1 (Nat.mul_mod_left _ (2^39))).mpr
      ⟨?_,hal,⟨pt,hd,he⟩,hpres,huser⟩
    simp only [tableIdx]
    omega

end Knail.PageTables
