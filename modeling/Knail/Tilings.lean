import Mathlib.Data.List.Pairwise
import Mathlib.Tactic.Common

/-!
# Consecutive intervals

`Tiles start stop lo xs hi` says that the half-open intervals `[start x, stop x)` of the
elements of `xs`, in order, are not empty and cover `[lo, hi)` without gap or overlap.
-/
namespace Knail

open List

variable {α : Type*} {start stop : α→ℕ} {lo mid hi : ℕ} {x y : α} {xs ys : List α}

def Tiles (start stop : α→ℕ) : ℕ→List α→ℕ→Prop
  | lo, [], hi=>lo=hi
  | lo, x::xs, hi=>start x=lo ∧ start x<stop x ∧ Tiles start stop (stop x) xs hi

namespace Tiles

@[simp] theorem nil_iff : Tiles start stop lo [] hi↔lo=hi:=Iff.rfl

@[simp] theorem cons_iff :
    Tiles start stop lo (x::xs) hi↔start x=lo ∧ start x<stop x ∧ Tiles start stop (stop x) xs hi:=
  Iff.rfl

theorem append_iff :
    Tiles start stop lo (xs++ys) hi↔∃mid,Tiles start stop lo xs mid ∧ Tiles start stop mid ys hi:=by
  induction xs generalizing lo with
  | nil=>simp
  | cons x xs ih=>simp [ih,and_assoc]

theorem append (h : Tiles start stop lo xs mid) (h' : Tiles start stop mid ys hi) :
    Tiles start stop lo (xs++ys) hi:=append_iff.mpr ⟨mid,h,h'⟩

theorem map_iff {γ : Type*} {f : γ→α} {zs : List γ} :
    Tiles start stop lo (zs.map f) hi↔Tiles (fun z=>start (f z)) (fun z=>stop (f z)) lo zs hi:=by
  induction zs generalizing lo with
  | nil=>rfl
  | cons z zs ih=>simp [ih]

section

variable (h : Tiles start stop lo xs hi)
include h

theorem congr {start' stop' : α→ℕ} (hs : ∀x∈xs,start' x=start x)
    (ht : ∀x∈xs,stop' x=stop x) : Tiles start' stop' lo xs hi:=by
  induction xs generalizing lo with
  | nil=>exact h
  | cons x xs ih=>
    rw [cons_iff,hs x mem_cons_self,ht x mem_cons_self]
    exact ⟨h.1,h.2.1,ih h.2.2 (fun y hy=>hs y (mem_cons_of_mem _ hy))
      fun y hy=>ht y (mem_cons_of_mem _ hy)⟩

theorem bounds : lo≤hi ∧ ∀x∈xs,lo ≤ start x ∧ start x<stop x ∧ stop x≤hi:=by
  induction xs generalizing lo with
  | nil=>simpa using Nat.le_of_eq h
  | cons x xs ih=>
    obtain ⟨rfl,hx,hr⟩:=h
    obtain ⟨hle,hmem⟩:=ih hr
    refine ⟨by omega,fun y hy=>?_⟩
    rcases mem_cons.mp hy with rfl | hy
    · exact ⟨Nat.le_refl _,hx,hle⟩
    · have:=hmem y hy
      exact ⟨by omega,this.2⟩

/-- No two elements start at the same place. -/
theorem eq_of_start_eq (hx : x∈xs) (hy : y∈xs) (he : start x=start y) : x=y:=by
  induction xs generalizing lo with
  | nil=>simp at hx
  | cons z zs ih=>
    have hz (w : α) (hw : w∈zs) : start z<start w:=by
      have:=(h.2.2.bounds.2 w hw).1
      have:=h.2.1
      omega
    rcases mem_cons.mp hx with rfl | hx' <;> rcases mem_cons.mp hy with rfl | hy'
    · rfl
    · exact absurd he (Nat.ne_of_lt (hz y hy'))
    · exact absurd he (Nat.ne_of_gt (hz x hx'))
    · exact ih h.2.2 hx' hy'

theorem nodup_start : (xs.map start).Nodup:=by
  induction xs generalizing lo with
  | nil=>exact nodup_nil
  | cons x xs ih=>
    rw [map_cons,nodup_cons]
    refine ⟨fun hm=>?_,ih h.2.2⟩
    obtain ⟨y,hy,he⟩:=mem_map.mp hm
    have:=(h.2.2.bounds.2 y hy).1
    have:=h.2.1
    omega

/-- Different elements occupy disjoint intervals. -/
theorem disjoint (hx : x∈xs) (hy : y∈xs) (hne : x≠y) : stop x ≤ start y ∨ stop y ≤ start x:=by
  induction xs generalizing lo with
  | nil=>simp at hx
  | cons z zs ih=>
    rcases mem_cons.mp hx with rfl | hx' <;> rcases mem_cons.mp hy with rfl | hy'
    · exact absurd rfl hne
    · exact .inl (h.2.2.bounds.2 y hy').1
    · exact .inr (h.2.2.bounds.2 x hx').1
    · exact ih h.2.2 hx' hy'

/-- Intervals of length at least `k` are at most a `k`-th as many as the points covered. -/
theorem length_mul_le {k : ℕ} (hk : ∀x,start x+k ≤ stop x) : lo+xs.length*k≤hi:=by
  induction xs generalizing lo with
  | nil=>simpa using Nat.le_of_eq h
  | cons x xs ih=>
    have:=ih h.2.2
    have:=hk x
    have:=h.1
    rw [length_cons,Nat.add_mul]
    omega

end

end Tiles

end Knail
