import Mathlib.Logic.Function.Basic
import Mathlib.Tactic.Common

/-!
# Radix trees of tables

A slot of a table is absent, points to a table one level below, or is a page; the digit of an address at each level
selects the slot. Tables form a forest when every table below the top has one place. Tables directly below the top may
be shared by several roots.
-/
namespace Knail

open Function

inductive Slot (τ π : Type*)
  | absent
  | table (t : τ)
  | page (p : π)
  deriving DecidableEq, Repr

abbrev Slots (τ ι π : Type*):=ℕ→τ→ι→Slot τ π

variable {τ ι π α δ : Type*} {M M' : Slots τ ι π} {digit : ℕ→α→ι} {addr : ℕ→π→α→δ}
  {top k l : ℕ} {level : τ→Option ℕ} {home : τ→Option τ×ι} {t t' u c : τ} {i j : ι} {a b : α}

/-- The page that an address selects below a table of the given level. -/
def lookup (M : Slots τ ι π) (digit : ℕ→α→ι) (addr : ℕ→π→α→δ) : ℕ→τ→α→Option δ
  | 0, t, a=>match M 0 t (digit 0 a) with
    | .page p=>some (addr 0 p a)
    | _=>none
  | l+1, t, a=>match M (l+1) t (digit (l+1) a) with
    | .absent=>none
    | .table u=>lookup M digit addr l u a
    | .page p=>some (addr (l+1) p a)

/-- Every table has a level and, below the top, a single home: the table that points to
it, left out when that is a root, and the index of the slot. -/
structure Forest (M : Slots τ ι π) (top : ℕ) (level : τ→Option ℕ) (home : τ→Option τ×ι) : Prop where
  child : ∀{t l i u},level t=some (l+1)→M (l+1) t i = .table u →
    level u=some l ∧ home u=(if l+1=top then none else some t,i)

/-- Following an address down from a table of level `l` leads to the level 0 table `c`. -/
def Descends (M : Slots τ ι π) (digit : ℕ→α→ι) (c : τ) : ℕ→τ→α→Prop
  | 0, t, _=>t=c
  | l+1, t, a=>∃u,M (l+1) t (digit (l+1) a) = .table u ∧ Descends M digit c l u a

/-- The tables that are reached from a table of the given level, itself included. -/
inductive Reaches (M : Slots τ ι π) : ℕ→τ→τ→Prop
  | refl (l : ℕ) (t : τ) : Reaches M l t t
  | step {l : ℕ} {t u v : τ} {i : ι} : M (l+1) t i = .table u→Reaches M l u v→Reaches M (l+1) t v

/-- What a slot without a table means for an address. -/
def Slot.value (addr : ℕ→π→α→δ) (l : ℕ) : Slot τ π→α→Option δ
  | .absent, _=>none
  | .table _, _=>none
  | .page p, a=>some (addr l p a)

section

variable (hf : Forest M top level home)
include hf

/-- A forest depends on the slots above level 0. -/
theorem Forest.congr (hM : ∀{t l},level t=some (l+1)→∀i,M' (l+1) t i=M (l+1) t i) : Forest M' top level home where
  child:=fun ht hs=>hf.child ht (hM ht _▸hs)

/-- Lookups only read the slots of tables in the forest, from the level of the start downwards. -/
theorem lookup_congr_le (hM : ∀{t j},j≤l→level t=some j→∀i,M' j t i=M j t i) (ht : level t=some l) (a : α) :
    lookup M' digit addr l t a=lookup M digit addr l t a:=by
  induction l generalizing t with
  | zero=>simp only [lookup,hM (Nat.le_refl _) ht]
  | succ l ih=>
    simp only [lookup,hM (Nat.le_refl _) ht]
    cases hs : M (l+1) t (digit (l+1) a) with
    | absent=>rfl
    | page p=>rfl
    | table u=>exact ih (fun hj=>hM (Nat.le_succ_of_le hj)) (hf.child ht hs).1

theorem lookup_congr (hM : ∀{t l},level t=some l→∀i,M' l t i=M l t i) (ht : level t=some l) (a : α) :
    lookup M' digit addr l t a=lookup M digit addr l t a:=
  lookup_congr_le hf (fun _=>hM) ht a

/-- Putting a table in place of an absent slot or a page changes no lookup, if the table
gives every address below the slot the meaning it had. -/
theorem lookup_replace (ht : level t=some (k+1))
    (hother : ∀{t' l},level t'=some l→∀j,¬(t'=t ∧ j=i)→M' l t' j=M l t' j)
    (hnew : M' (k+1) t i = .table c) (hold : ∀u,M (k+1) t i≠.table u)
    (hc : ∀a,digit (k+1) a=i→lookup M' digit addr k c a=(M (k+1) t i).value addr (k+1) a)
    (ht' : level t'=some l) (a : α) : lookup M' digit addr l t' a=lookup M digit addr l t' a:=by
  induction l generalizing t' with
  | zero=>
    have hne : t'≠t:=by
      rintro rfl
      simp [ht'] at ht
    simp only [lookup,hother ht' _ fun h=>hne h.1]
  | succ l ih=>
    by_cases he : t'=t ∧ digit (l+1) a=i
    · obtain ⟨rfl,hi⟩:=he
      obtain rfl : l=k:=by simpa [ht'] using ht
      simp only [lookup,hi,hnew]
      rw [hc a hi]
      cases hs : M (l+1) t' i with
      | absent=>rfl
      | page p=>rfl
      | table u=>exact absurd hs (hold u)
    · simp only [lookup,hother ht' _ he]
      cases hs : M (l+1) t' (digit (l+1) a) with
      | absent=>rfl
      | page p=>rfl
      | table u=>exact ih (hf.child ht' hs).1

end

/-- A table without slots in use has no pages. -/
theorem lookup_empty (hM : ∀j,M l t j = .absent) (a : α) : lookup M digit addr l t a=none:=by
  cases l <;> simp [lookup,hM]

/-- A fresh table linked at a slot extends the forest. -/
theorem Forest.insert [DecidableEq τ] (hf : Forest M top level home) (ht : level t=some (k+1)) (hc : level c=none)
    (hother : ∀{t' l},level t'=some l→∀j,¬(t'=t ∧ j=i)→M' l t' j=M l t' j)
    (hnew : M' (k+1) t i = .table c) (hempty : ∀j u,M' k c j≠.table u) : Forest M' top (update level c (some k))
    (update home c (if k+1=top then none else some t,i)) where
  child:=by
    intro t' l j u ht' hs
    by_cases htc : t'=c
    · subst htc
      obtain rfl : k=l+1:=by simpa using ht'
      exact absurd hs (hempty j u)
    rw [update_of_ne htc] at ht'
    by_cases he : t'=t ∧ j=i
    · obtain ⟨rfl,rfl⟩:=he
      obtain rfl : l=k:=by simpa [ht'] using ht
      obtain rfl : c=u:=by simpa [hnew] using hs
      simp
    · rw [hother ht' j he] at hs
      obtain ⟨hu,hh⟩:=hf.child ht' hs
      have huc : u≠c:=by
        rintro rfl
        simp [hc] at hu
      rw [update_of_ne huc,update_of_ne huc]
      exact ⟨hu,hh⟩

theorem Reaches.level_eq (hf : Forest M top level home) (h : Reaches M l t u) (ht : level t=some l) :
    ∃k,level u=some k:=by
  induction h with
  | refl l t=>exact ⟨l,ht⟩
  | step hs _ ih=>exact ih (hf.child ht hs).1

theorem Descends.mono (h : Descends M digit c l t a) (hM : ∀{l t i u},M l t i = .table u→M' l t i = .table u) :
    Descends M' digit c l t a:=by
  induction l generalizing t with
  | zero=>exact h
  | succ l ih=>
    obtain ⟨u,hu,hd⟩:=h
    exact ⟨u,hM hu,ih hd⟩

theorem Descends.level_eq (hf : Forest M top level home) (h : Descends M digit c l t a)
    (ht : level t=some l) : level c=some 0:=by
  induction l generalizing t with
  | zero=>exact h▸ht
  | succ l ih=>
    obtain ⟨u,hu,hd⟩:=h
    exact ih hd (hf.child ht hu).1

/-- A walk leads to one table. -/
theorem Descends.target_unique {c' : τ} (h : Descends M digit c l t a) (h' : Descends M digit c' l t a) : c=c':=by
  induction l generalizing t with
  | zero=>exact h.symm.trans h'
  | succ l ih=>
    obtain ⟨u,hu,hd⟩:=h
    obtain ⟨u',hu',hd'⟩:=h'
    obtain rfl : u=u':=by simpa [hu] using hu'
    exact ih hd hd'

/-- Two addresses that lead to the same table agree in every digit on the way; below the
top they start at the same table. -/
theorem Descends.unique (hf : Forest M top level home) (h : Descends M digit c l t a)
    (h' : Descends M digit c l t' b) (ht : level t=some l) (ht' : level t'=some l) (hl : l≤top) :
    (l<top→t=t') ∧ ∀k,1≤k→k≤l→digit k a=digit k b:=by
  induction l generalizing t t' with
  | zero=>
    refine ⟨fun _=>h.trans h'.symm,fun k h1 h0=>?_⟩
    omega
  | succ l ih=>
    obtain ⟨u,hu,hd⟩:=h
    obtain ⟨u',hu',hd'⟩:=h'
    obtain ⟨hlu,hhu⟩:=hf.child ht hu
    obtain ⟨hlu',hhu'⟩:=hf.child ht' hu'
    obtain ⟨heq,hdig⟩:=ih hd hd' hlu hlu' (by omega)
    obtain rfl:=heq (by omega)
    have hhome:=hhu.symm.trans hhu'
    rw [Prod.mk.injEq] at hhome
    refine ⟨fun hlt=>?_,fun k hk hkl=>?_⟩
    · have hne : l+1≠top:=by omega
      simpa [hne] using hhome.1
    rcases Nat.lt_or_ge l k with hlk | hlk
    · obtain rfl : k=l+1:=by omega
      exact hhome.2
    · exact hdig k hk hlk

/-- Setting a slot of a level 0 table changes the lookups that read it, and no others. -/
theorem lookup_set (hf : Forest M top level home) (hc : level c=some 0)
    (hother : ∀{t' l},level t'=some l→∀j,¬(t'=c ∧ j=i)→M' l t' j=M l t' j) (ht : level t=some l) (a : α) :
    (Descends M digit c l t a ∧ digit 0 a=i→lookup M' digit addr l t a=(M' 0 c i).value addr 0 a) ∧
    (¬(Descends M digit c l t a ∧ digit 0 a=i)→lookup M' digit addr l t a=lookup M digit addr l t a):=by
  induction l generalizing t with
  | zero=>
    refine ⟨fun h=>?_,fun h=>?_⟩
    · obtain ⟨rfl,rfl⟩:=h
      cases hs : M' 0 t (digit 0 a) <;> simp [lookup,hs,Slot.value]
    · simp only [lookup,hother ht _ h]
  | succ l ih=>
    have hne : t≠c:=by
      rintro rfl
      simp [hc] at ht
    have hslot : M' (l+1) t (digit (l+1) a)=M (l+1) t (digit (l+1) a):=
      hother ht _ fun h=>hne h.1
    refine ⟨fun h=>?_,fun h=>?_⟩
    · obtain ⟨⟨u,hu,hd⟩,hi⟩:=h
      simp only [lookup,hslot,hu]
      exact (ih (hf.child ht hu).1).1 ⟨hd,hi⟩
    simp only [lookup,hslot]
    cases hs : M (l+1) t (digit (l+1) a) with
    | absent=>rfl
    | page p=>rfl
    | table u=>exact (ih (hf.child ht hs).1).2 fun hd=>h ⟨⟨u,hs,hd.1⟩,hd.2⟩

end Knail
