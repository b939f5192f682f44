import Mathlib.Data.Nat.Notation
import Mathlib.Logic.Function.Iterate

/-!
# Walks along links

From every place one link leads on, and a walk follows the links until it comes to a place where it
stops.
-/
namespace Knail

variable {α : Type*} {step : α→α} {stop : α→Prop} {a : α} {l : List α}

/-- A loop with a bounded number of turns has a result for some bound exactly if its walk stops. The
invariant holds at every place that the walk comes to. -/
theorem exists_loop_iff {ρ : Type*} (loop : ℕ→α→Option ρ) (step : α→α) (stop inv : α→Prop)
    (hzero : ∀a,loop 0 a=none) (hstop : ∀n a,inv a→stop a→∃r,loop (n+1) a=some r)
    (hgo : ∀n a,inv a→¬stop a→loop (n+1) a=loop n (step a) ∧ inv (step a)) (ha : inv a) :
    (∃n r,loop n a=some r)↔∃k,stop (step^[k] a):=by
  constructor
  · rintro ⟨n,r,hr⟩
    induction n generalizing a with
    | zero=>
      rw [hzero] at hr
      cases hr
    | succ n ih=>
      by_cases hs : stop a
      · exact ⟨0,hs⟩
      obtain ⟨hloop,hinv⟩:=hgo n a ha hs
      obtain ⟨k,hk⟩:=ih hinv (hloop▸hr)
      exact ⟨k+1,hk⟩
  · rintro ⟨k,hk⟩
    induction k generalizing a with
    | zero=>exact ⟨1,hstop 0 a ha hk⟩
    | succ k ih=>
      by_cases hs : stop a
      · exact ⟨1,hstop 0 a ha hs⟩
      · obtain ⟨n,r,hr⟩:=ih (hgo 0 a ha hs).2 hk
        exact ⟨n+1,r,(hgo n a ha hs).1.trans hr⟩

end Knail
