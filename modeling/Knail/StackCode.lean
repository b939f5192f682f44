import Mathlib.Algebra.Group.Nat.Defs
import Mathlib.Logic.Function.Basic
import Mathlib.Tactic.Common

/-!
# Registers and a stack

A processor with registers of 64 bits and a stack that grows down in a memory of words.
Registers that are pushed in some order and popped in the opposite order have their old
values, as long as the words in between are kept.
-/
namespace Knail

open Function List

abbrev Word:=BitVec 64

structure Core (ρ : Type*) where
  reg : ρ→Word
  sp : Word
  mem : Word→Word

variable {ρ : Type*} {mem mem' : Word→Word} {sp : Word} {vs : List Word}

def above (sp : Word) (i : ℕ) : Word:=sp+BitVec.ofNat 64 (8*i)

@[simp] theorem above_zero (sp : Word) : above sp 0=sp:=by simp [above]

theorem above_succ (sp : Word) (i : ℕ) : above sp (i+1)=above (sp+8) i:=by
  unfold above
  bv_omega

theorem above_ne {i : ℕ} (hi : i<2^60) (sp : Word) : above sp i≠sp-8:=by
  unfold above
  bv_omega

theorem sub_add_eight (sp : Word) : sp-8+8=sp:=by bv_omega

def StackAt (mem : Word→Word) : Word→List Word→Prop
  | _, []=>True
  | sp, v::vs=>mem sp=v ∧ StackAt mem (sp+8) vs

/-- Only the words of the stack matter. -/
theorem StackAt.congr (h : StackAt mem sp vs) (hm : ∀i<vs.length,mem' (above sp i)=mem (above sp i)) :
    StackAt mem' sp vs:=by
  induction vs generalizing sp with
  | nil=>trivial
  | cons v vs ih=>
    refine ⟨?_,ih h.2 fun i hi=>?_⟩
    · rw [←above_zero sp,hm 0 (by simp),above_zero]
      exact h.1
    · rw [←above_succ]
      exact hm (i+1) (by simpa using hi)

theorem StackAt.get {i : ℕ} {v : Word} (h : StackAt mem sp vs) (hi : vs[i]? = some v) : mem (above sp i)=v:=by
  induction vs generalizing sp i with
  | nil=>cases hi
  | cons w vs ih=>
    cases i with
    | zero=>
      rw [above_zero]
      exact h.1.trans (Option.some.inj hi)
    | succ i=>
      rw [above_succ]
      exact ih h.2 hi

/-- A word below the stack, in a memory that the stack does not fill. -/
theorem StackAt.push (h : StackAt mem sp vs) (hn : vs.length<2^60) (v : Word) :
    StackAt (update mem (sp-8) v) (sp-8) (v::vs):=by
  refine ⟨update_self ..,?_⟩
  rw [sub_add_eight]
  exact h.congr fun i hi=>update_of_ne (above_ne (by omega) sp) _ _

namespace Core

variable [DecidableEq ρ] {c c' : Core ρ}

def push (c : Core ρ) (v : Word) : Core ρ:={c with sp:=c.sp-8,mem:=update c.mem (c.sp-8) v}

def setReg (c : Core ρ) (r : ρ) (v : Word) : Core ρ:={c with reg:=update c.reg r v}

def pop (c : Core ρ) (r : ρ) : Core ρ:={c.setReg r (c.mem c.sp) with sp:=c.sp+8}

def pushAll (c : Core ρ) (rs : List ρ) : Core ρ:=rs.foldl (fun c r=>c.push (c.reg r)) c

def popAll (c : Core ρ) (rs : List ρ) : Core ρ:=rs.foldl pop c

def Stacked (c : Core ρ) (vs : List Word) : Prop:=StackAt c.mem c.sp vs

omit [DecidableEq ρ] in
theorem Stacked.push (h : c.Stacked vs) (hn : vs.length<2^60) (v : Word) : (c.push v).Stacked (v::vs):=
  StackAt.push h hn v

omit [DecidableEq ρ] in
theorem pushAll_spec (rs : List ρ) (h : c.Stacked vs) (hn : vs.length+rs.length<2^60) :
    (c.pushAll rs).reg=c.reg ∧ (c.pushAll rs).Stacked (rs.reverse.map c.reg++vs):=by
  induction rs generalizing c vs with
  | nil=>exact ⟨rfl,h⟩
  | cons r rs ih=>
    simp only [length_cons] at hn
    obtain ⟨hr,hs⟩:=ih (h.push (by omega) (c.reg r)) (by simp only [length_cons]; omega)
    refine ⟨hr,?_⟩
    rw [reverse_cons,map_append,append_assoc]
    exact hs

theorem popAll_spec (f : ρ→Word) (rs : List ρ) (h : c.Stacked (rs.map f++vs)) :
    (∀r,(c.popAll rs).reg r=if r∈rs then f r else c.reg r) ∧ (c.popAll rs).Stacked vs ∧ (c.popAll rs).mem=c.mem:=by
  induction rs generalizing c with
  | nil=>exact ⟨fun _=>by simp [popAll],h,rfl⟩
  | cons r rs ih=>
    obtain ⟨hreg,hs,hm⟩:=ih (c:=c.pop r) h.2
    refine ⟨fun q=>(hreg q).trans ?_,hs,hm⟩
    have hv : c.mem c.sp=f r:=h.1
    by_cases hq : q=r
    · subst hq
      simp [pop,setReg,hv]
    · simp [pop,setReg,hq]

end Core

end Knail
