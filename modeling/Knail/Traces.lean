import Mathlib.Tactic.Common

/-!
# Traces of operations and simulations

A system answers every operation of a list with a result. A specification relates states,
operations and results and may leave a choice. If every permitted step is one of the
specification, so is every run whose steps are permitted.
-/
namespace Knail

variable {σ τ ω ρ : Type*}

/-- The results of operations one after the other, and the state after them. -/
def trace (step : ω→σ→ρ×σ) : List ω→σ→List ρ×σ
  | [], s=>([],s)
  | op::ops, s=>
    match step op s with
    | (r,s)=>
      match trace step ops s with
      | (rs,s)=>(r::rs,s)

/-- Every operation is permitted in the state that it finds. -/
def Along (step : ω→σ→ρ×σ) (ok : ω→σ→Prop) : List ω→σ→Prop
  | [], _=>True
  | op::ops, s=>ok op s ∧ Along step ok ops (step op s).2

instance (step : ω→σ→ρ×σ) (ok : ω→σ→Prop) [∀op s,Decidable (ok op s)] :
    (ops : List ω)→(s : σ)→Decidable (Along step ok ops s)
  | [], _=>inferInstanceAs (Decidable True)
  | op::ops, s=>
    have:=instDecidableAlong step ok ops (step op s).2
    inferInstanceAs (Decidable (_ ∧ _))

/-- Operations with their results as a specification allows them. -/
inductive Allowed (spec : ω→τ→ρ→τ→Prop) : List ω→τ→List ρ→τ→Prop
  | nil {t : τ} : Allowed spec [] t [] t
  | cons {op : ω} {ops : List ω} {t t' t'' : τ} {r : ρ} {rs : List ρ} :
    spec op t r t'→Allowed spec ops t' rs t''→Allowed spec (op::ops) t (r::rs) t''

section

variable {step : ω→σ→ρ×σ} {ok : ω→σ→Prop} {s : σ} {t : τ}

theorem trace_cons (op : ω) (ops : List ω) :
    trace step (op::ops) s=((step op s).1::(trace step ops (step op s).2).1,(trace step ops (step op s).2).2):=rfl

/-- A relation that every permitted step keeps, with a result that the specification allows. -/
theorem Allowed.of_simulation {spec : ω→τ→ρ→τ→Prop} {R : σ→τ→Prop}
    (hstep : ∀s t op,R s t → ok op s→∃t',spec op t (step op s).1 t' ∧ R (step op s).2 t') {ops : List ω}
    (h : R s t) (hok : Along step ok ops s) :
    ∃t',Allowed spec ops t (trace step ops s).1 t' ∧ R (trace step ops s).2 t':=by
  induction ops generalizing s t with
  | nil=>exact ⟨t,.nil,h⟩
  | cons op ops ih=>
    obtain ⟨t1,hspec,h1⟩:=hstep s t op h hok.1
    obtain ⟨t2,hall,h2⟩:=ih h1 hok.2
    exact ⟨t2,.cons hspec hall,h2⟩

/-- Two systems that permitted steps keep related, with equal results. -/
theorem trace_eq_of_simulation {step' : ω→τ→ρ×τ} {R : τ→σ→Prop}
    (hstep : ∀t s op,R t s → ok op s→(step op s).1=(step' op t).1 ∧ R (step' op t).2 (step op s).2) {ops : List ω}
    (h : R t s) (hok : Along step ok ops s) : (trace step ops s).1=(trace step' ops t).1:=by
  induction ops generalizing s t with
  | nil=>rfl
  | cons op ops ih=>
    obtain ⟨heq,h1⟩:=hstep t s op h hok.1
    rw [trace_cons,trace_cons,heq,ih h1 hok.2]

/-- An invariant of all steps, and what it implies for their results. -/
theorem trace_forall {I : σ→Prop} {P : ρ→Prop} (hstep : ∀s op,I s→P (step op s).1 ∧ I (step op s).2) (h : I s)
    (ops : List ω) : ∀r∈(trace step ops s).1,P r:=by
  induction ops generalizing s with
  | nil=>simp [trace]
  | cons op ops ih=>
    obtain ⟨hp,hi⟩:=hstep s op h
    rw [trace_cons]
    simpa using ⟨hp,ih hi⟩

end

end Knail
