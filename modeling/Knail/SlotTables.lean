import Mathlib.Data.List.Perm.Basic
import Mathlib.Data.List.Nodup
import Mathlib.Logic.Function.Basic

/-!
# Tables of slots

A table has a fixed number of slots, each empty or filled. What the slots hold is a list in
the order of the slots; filling or emptying one slot changes it by one entry, up to order.
-/
namespace Knail

open Function List

variable {α κ : Type*} {n i : ℕ} {a : α} {g : ℕ→Option α}

def filled (n : ℕ) (g : ℕ→Option α) : List α:=(List.range n).filterMap g

theorem mem_filled : a∈filled n g↔∃i<n,g i=some a:=by
  simp [filled]

theorem filled_none : filled n (fun _=>(none : Option α))=[]:=by
  simp [filled]

theorem filled_succ : filled (n+1) g=filled n g++(g n).toList:=by
  rw [filled,range_succ,filterMap_append]
  cases h : g n <;> simp [filled,h]

/-- Slots past the end do not count. -/
theorem filled_update_of_le (hi : n ≤ i) (v : Option α) : filled n (update g i v)=filled n g:=by
  refine filterMap_congr fun j hj=>update_of_ne ?_ _ _
  have:=mem_range.mp hj
  omega

theorem filled_set (hi : i<n) (hg : g i=none) : (filled n (update g i (some a))).Perm (a::filled n g):=by
  induction n with
  | zero=>omega
  | succ n ih=>
    rw [filled_succ,filled_succ]
    rcases Nat.lt_succ_iff_lt_or_eq.mp hi with h | rfl
    · rw [update_of_ne (by omega)]
      exact (ih h).append_right _
    · rw [filled_update_of_le (Nat.le_refl _),update_self,hg]
      simp

theorem filled_clear (hi : i<n) (hg : g i=some a) : (filled n g).Perm (a::filled n (update g i none)):=by
  have h:=filled_set (g:=update g i none) (a:=a) hi (update_self ..)
  rwa [update_idem,←hg,update_eq_self] at h

/-- Slots with one entry between them are one slot, if no entry is there twice. -/
theorem filled_inj {j : ℕ} (h : (filled n g).Nodup) (hi : i<n) (hj : j<n) (hgi : g i=some a) (hgj : g j=some a) :
    i=j:=by
  by_contra hne
  have hnodup:=(filled_clear hi hgi).nodup_iff.mp h
  refine (nodup_cons.mp hnodup).1 (mem_filled.mpr ⟨j,hj,?_⟩)
  rw [update_of_ne (Ne.symm hne),hgj]

theorem length_filled : (filled n g).length=((List.range n).filter fun i=>(g i).isSome).length:=by
  rw [filled,length_filterMap_eq_countP,countP_eq_length_filter]

/-- One owner's share of what all owners hold. -/
theorem flatMap_perm_erase [DecidableEq κ] {owners : List κ} {k : κ} (hk : k∈owners) (f : κ→List α) :
    (owners.flatMap f).Perm (f k++(owners.erase k).flatMap f):=
  (perm_cons_erase hk).flatMap_right f

theorem flatMap_erase_congr [DecidableEq κ] {owners : List κ} (hn : owners.Nodup) (k : κ) {f f' : κ→List α}
    (hf : ∀j≠k,f' j=f j) : (owners.erase k).flatMap f'=(owners.erase k).flatMap f:=
  flatMap_congr fun _ hj=>hf _ (hn.mem_erase_iff.mp hj).1

end Knail
