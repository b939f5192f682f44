import Mathlib.Data.List.Nodup
import Mathlib.Logic.Function.Basic
import Mathlib.Tactic.Common

/-!
# Paths through a successor field

`Path next a xs b` says that the pointer `a`, followed through the field `next`, visits exactly the nodes `xs` and
then stands at `b`. A null-terminated list is a path to `none`; a ring is a path from a node back to itself.
-/
namespace Knail

open Function List Option

variable {α : Type*} {next next' : α→Option α} {a b c : Option α} {x : α} {xs ys : List α}

/-- Starting at the pointer `a`, the successor field visits `xs` and arrives at `b`. -/
def Path (next : α→Option α) : Option α→List α→Option α→Prop
  | a, [], b=>a=b
  | a, x::xs, b=>a=some x ∧ Path next (next x) xs b

namespace Path

@[simp] theorem nil_iff : Path next a [] b↔a=b:=Iff.rfl

@[simp] theorem cons_iff : Path next a (x::xs) b↔a=some x ∧ Path next (next x) xs b:=Iff.rfl

theorem append_iff : Path next a (xs++ys) c↔∃b,Path next a xs b ∧ Path next b ys c:=by
  induction xs generalizing a with
  | nil=>simp
  | cons x xs ih=>simp [ih,and_assoc]

theorem append (h : Path next a xs b) (h' : Path next b ys c) : Path next a (xs++ys) c:=
  append_iff.mpr ⟨b,h,h'⟩

/-- A path only reads the successor field of the nodes it visits. -/
theorem congr (h : Path next a xs b) (hn : ∀x∈xs,next' x=next x) : Path next' a xs b:=by
  induction xs generalizing a with
  | nil=>exact h
  | cons x xs ih=>
    obtain ⟨hx,hr⟩:=h
    refine ⟨hx,?_⟩
    rw [hn x mem_cons_self]
    exact ih hr (fun y hy=>hn y (mem_cons_of_mem _ hy))

theorem snoc_iff : Path next a (xs++[x]) b↔Path next a xs (some x) ∧ next x=b:=by
  rw [append_iff]
  constructor
  · rintro ⟨c,hxs,rfl,hb⟩
    exact ⟨hxs,hb⟩
  · rintro ⟨hxs,hb⟩
    exact ⟨_,hxs,rfl,hb⟩

theorem split (h : Path next a (xs++x::ys) b) : Path next a xs (some x) ∧ Path next (next x) ys b:=by
  obtain ⟨c,hxs,rfl,hys⟩:=append_iff.mp h
  exact ⟨hxs,hys⟩

theorem join (h : Path next a xs (some x)) (h' : Path next (next x) ys b) :
    Path next a (xs++x::ys) b:=h.append ⟨rfl,h'⟩

/-- Two null-terminated paths from one pointer visit the same nodes. -/
theorem eq_nil_of_none (h : Path next none xs none) : xs=[]:=by
  cases xs with
  | nil=>rfl
  | cons x xs=>cases h.1

section

variable (h : Path next a xs none)
include h

theorem unique_of_none (h' : Path next a ys none) : xs=ys:=by
  induction xs generalizing a ys with
  | nil=>
    cases ys with
    | nil=>rfl
    | cons y ys=>exact absurd (h.symm.trans h'.1) (by simp)
  | cons x xs ih=>
    cases ys with
    | nil=>exact absurd (h'.symm.trans h.1) (by simp)
    | cons y ys=>
      have hxy : x=y:=some.inj (h.1.symm.trans h'.1)
      subst hxy
      rw [ih h.2 h'.2]

/-- A null-terminated path never revisits a node. -/
theorem nodup_of_none : xs.Nodup:=by
  induction xs generalizing a with
  | nil=>exact nodup_nil
  | cons x xs ih=>
    refine nodup_cons.mpr ⟨?_,ih h.2⟩
    intro hx
    obtain ⟨l,r,rfl⟩:=append_of_mem hx
    have he:=unique_of_none h.2 (h.2.split.2)
    have hl:=congrArg List.length he
    simp at hl
    omega

/-- A pointer that leads to the end of a list does not lead back to itself. -/
theorem eq_nil_of_cycle (h' : Path next a ys a) : ys=[]:=by
  have hlen:=congrArg List.length (unique_of_none (h'.append h) h)
  rw [length_append] at hlen
  exact length_eq_zero_iff.mp (by omega)

/-- The successor of a node on a null-terminated path is on the path. -/
theorem next_mem {y : α} (hx : x∈xs) (hy : next x=some y) : y∈xs:=by
  obtain ⟨l,r,rfl⟩:=append_of_mem hx
  obtain ⟨-,hr⟩:=h.split
  rw [hy] at hr
  cases r with
  | nil=>cases hr
  | cons z r=>
    obtain rfl:=some.inj hr.1
    simp

end

/-- What holds at the start of a path and is handed on holds along the path. -/
theorem forall_mem {P : α→Prop} (h : Path next a xs b) (hstart : ∀x∈a,P x)
    (hnext : ∀x y,P x→next x=some y→P y) : ∀x∈xs,P x:=by
  induction xs generalizing a with
  | nil=>simp
  | cons x xs ih=>
    have hx : P x:=hstart x h.1
    exact forall_mem_cons.mpr ⟨hx,ih h.2 fun y hy=>hnext x y hx hy⟩

/-- Updating the field of a node off the path keeps the path. -/
theorem update_of_notMem [DecidableEq α] (h : Path next a xs b) (hx : x∉xs) (v : Option α) :
    Path (update next x v) a xs b:=
  h.congr (fun _ hy=>update_of_ne (ne_of_mem_of_not_mem hy hx) v next)

/-- Redirecting the last node's field redirects the end of the path. -/
theorem update_last [DecidableEq α] (h : Path next a (xs++[x]) b) (hx : x∉xs) (c : Option α) :
    Path (update next x c) a (xs++[x]) c:=by
  rw [snoc_iff] at h ⊢
  exact ⟨h.1.update_of_notMem hx c,update_self ..⟩

/-- A ring may be entered at any of its nodes. -/
theorem rotate (h : Path next a (xs++x::ys) a) : Path next (some x) (x::ys++xs) (some x):=by
  obtain ⟨hxs,hys⟩:=h.split
  exact (show Path next (some x) (x::ys) a from ⟨rfl,hys⟩).append hxs

theorem head?_eq (h : Path next a xs b) (hne : xs≠[]) : xs.head? = a:=by
  cases xs with
  | nil=>exact absurd rfl hne
  | cons x xs=>exact h.1.symm

end Path

/-- Follow the successor field to the first node that satisfies `stop`. The outer `none`
is a loop that outlives its fuel, `some none` a loop that reached the null pointer. -/
def walk (next : α→Option α) (stop : α→Bool) : ℕ→Option α→Option (Option α)
  | 0, _=>none
  | _+1, none=>some none
  | n+1, some x=>if stop x then some (some x) else walk next stop n (next x)

variable {stop : α→Bool} {n : ℕ}

/-- On a null-terminated path the loop ends at the first match, or at the end. -/
theorem walk_eq_find? (h : Path next a xs none) (hn : xs.length<n) : walk next stop n a=some (xs.find? stop):=by
  induction xs generalizing a n with
  | nil=>
    obtain ⟨n,rfl⟩:=Nat.exists_eq_add_one_of_ne_zero (Nat.ne_zero_of_lt hn)
    rw [Path.nil_iff.mp h]
    rfl
  | cons x xs ih=>
    obtain ⟨n,rfl⟩:=Nat.exists_eq_add_one_of_ne_zero (Nat.ne_zero_of_lt hn)
    rw [h.1,walk,find?_cons]
    cases hx : stop x with
    | true=>rfl
    | false=>exact ih h.2 (by simpa using hn)

/-- The loop ends at the first match on a path, wherever the path leads. -/
theorem walk_eq_of_find? (h : Path next a xs b) (hx : xs.find? stop=some x) (hn : xs.length≤n) :
    walk next stop n a=some (some x):=by
  induction xs generalizing a n with
  | nil=>simp at hx
  | cons y ys ih=>
    obtain ⟨n,rfl⟩:=Nat.exists_eq_add_one_of_ne_zero (Nat.ne_zero_of_lt hn)
    rw [h.1,walk]
    rw [find?_cons] at hx
    cases hy : stop y with
    | true=>
      rw [hy] at hx
      simpa using hx
    | false=>
      rw [hy] at hx
      exact ih h.2 hx (by simpa using hn)

/-- A ring that contains the pointer's own node stops a loop that looks for it. -/
theorem Path.exists_find?_of_last (h : Path next a xs b) (hne : xs≠[])
    (hstop : ∀x,next x=b→stop x=true) : ∃x∈xs,xs.find? stop=some x:=by
  have hl : stop (xs.getLast hne)=true:=by
    apply hstop
    rw [←dropLast_append_getLast hne] at h
    exact (Path.snoc_iff.mp h).2
  have hs:=find?_isSome.mpr ⟨_,getLast_mem hne,hl⟩
  obtain ⟨x,hx⟩:=isSome_iff_exists.mp hs
  exact ⟨x,mem_of_find?_eq_some hx,hx⟩

/-- The first node of a null-terminated list without a successor is its last one. -/
theorem Path.find?_isNone (h : Path next a (xs++[x]) none) : (xs++[x]).find? (fun y=>(next y).isNone)=some x:=by
  induction xs generalizing a with
  | nil=>
    have hx : next x=none:=h.2
    simp [hx]
  | cons y ys ih=>
    have hy : next y=(ys++[x]).head?:=(h.2.head?_eq (by simp)).symm
    have hs : (next y).isNone=false:=by
      rw [hy]
      cases ys <;> rfl
    rw [cons_append,find?_cons,hs]
    exact ih h.2

/-- The first node whose successor is a given node of the path is the one before it. -/
theorem Path.find?_pred [DecidableEq α] {y : α} (h : Path next a (xs++x::y::ys) none) :
    (xs++x::y::ys).find? (fun z=>decide (next z=some y))=some x:=by
  have hnext : next x=some y:=h.split.2.1
  have hnodup:=h.nodup_of_none
  induction xs generalizing a with
  | nil=>simp [hnext]
  | cons z zs ih=>
    have hz : next z≠some y:=by
      intro hz
      have hrest:=h.2
      rw [hz] at hrest
      -- the successor of `z` would be `y` as well as a node before it
      cases zs with
      | nil=>
        obtain rfl:=some.inj hrest.1
        simp at hnodup
      | cons w zs=>
        obtain rfl:=some.inj hrest.1
        simp at hnodup
    rw [cons_append,find?_cons,decide_eq_false hz]
    exact ih h.2 (nodup_cons.mp hnodup).2

/-- Skipping a node takes it out of the path. -/
theorem Path.skip [DecidableEq α] {y : α} (h : Path next a (xs++x::y::ys) none) :
    Path (update next x (next y)) a (xs++x::ys) none:=by
  have hnodup:=h.nodup_of_none
  obtain ⟨hxs,hx⟩:=h.split
  have hnx : x∉xs:=by
    intro hmem
    exact (nodup_append.mp hnodup).2.2 x hmem x mem_cons_self rfl
  have hny : x∉ys:=by
    intro hmem
    have:=(nodup_append.mp hnodup).2.1
    simp [hmem] at this
  refine (hxs.update_of_notMem hnx _).join ?_
  rw [update_self]
  exact hx.2.update_of_notMem hny _

end Knail
