import Mathlib.Tactic.Common

/-!
# Reachable states

A system takes steps by operations, each of which may be impossible in a state. The states
that are reached by permitted operations satisfy every property that holds at the start and
that permitted operations keep. Lists of operations can be replayed.
-/
namespace Knail

variable {σ ω : Type*} {init I : σ→Prop} {step : σ→ω→Option σ} {ok : ω→σ→Prop} {s s' : σ}

/-- The states that operations with the given property lead to. -/
inductive Reach (init : σ→Prop) (step : σ→ω→Option σ) (ok : ω→σ→Prop) : σ→Prop
  | start {s : σ} : init s→Reach init step ok s
  | step {s s' : σ} (op : ω) : Reach init step ok s → ok op s→step s op=some s'→Reach init step ok s'

theorem Reach.invariant (h : Reach init step ok s) (hinit : ∀s,init s→I s)
    (hstep : ∀s s' op,I s → ok op s→step s op=some s'→I s') : I s:=by
  induction h with
  | start h=>exact hinit _ h
  | step op _ hok hs ih=>exact hstep _ _ op ih hok hs

section Replay

variable [∀op s,Decidable (ok op s)]

/-- Take the operations of a list in turn, as long as they are permitted. -/
def replay (step : σ→ω→Option σ) (ok : ω→σ→Prop) [∀op s,Decidable (ok op s)] (s : σ) (ops : List ω) :
    Option σ:=
  ops.foldlM (fun s op=>if ok op s then step s op else none) s

theorem Reach.replay (h : Reach init step ok s) {ops : List ω} (hs : replay step ok s ops=some s') :
    Reach init step ok s':=by
  induction ops generalizing s with
  | nil=>
    cases hs
    exact h
  | cons op ops ih=>
    obtain ⟨s1,h1,h2⟩:=Option.bind_eq_some_iff.mp hs
    dsimp only at h1
    split at h1
    · rename_i hok
      exact ih (h.step op hok h1) h2
    · cases h1

/-- A list of operations that leads to a state with a decidable property. -/
theorem Reach.exists_replay (h : Reach init step ok s) (ops : List ω) (P : σ→Prop) [DecidablePred P]
    (hs : (Knail.replay step ok s ops).any (fun s=>decide (P s))=true) : ∃s',Reach init step ok s' ∧ P s':=by
  cases hr : Knail.replay step ok s ops with
  | none=>simp [hr] at hs
  | some s'=>
    rw [hr,Option.any_some,decide_eq_true_eq] at hs
    exact ⟨s',h.replay hr,hs⟩

end Replay

end Knail
