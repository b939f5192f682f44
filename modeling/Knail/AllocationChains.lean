import Mathlib.Data.List.Nodup
import Mathlib.Logic.Function.Basic
import Mathlib.Tactic.Common

/-!
# Chains in an allocation table

A table gives every cell a link: the cell is free, it is the last of its chain, or the chain
goes on at another cell. Chains grow at their end by cells that were free, so chains that
have no cell in common never get one.
-/
namespace Knail

open Function List

inductive Link (α : Type*)
  | free
  | last
  | next (c : α)
  deriving DecidableEq, Repr

variable {α : Type*} {T T' T'' : α→Link α} {x y c d : α} {xs xs' xs'' ys : List α}

/-- The cells are linked in order and the last one ends the chain. -/
def Linked (T : α→Link α) : List α→Prop
  | []=>True
  | [x]=>T x = .last
  | x::y::zs=>T x = .next y ∧ Linked T (y::zs)

theorem Linked.tail (h : Linked T (x::xs)) : Linked T xs:=by
  cases xs with
  | nil=>trivial
  | cons y ys=>exact h.2

theorem Linked.ne_free (h : Linked T xs) (hx : x∈xs) : T x≠.free:=by
  induction xs with
  | nil=>simp at hx
  | cons y ys ih=>
    rcases mem_cons.mp hx with rfl | hx
    · cases ys with
      | nil=>
        have hl : T x = .last:=h
        simp [hl]
      | cons z zs=>simp [h.1]
    · exact ih h.tail hx

theorem Linked.getLast (h : Linked T xs) (hne : xs≠[]) : T (xs.getLast hne) = .last:=by
  induction xs with
  | nil=>exact absurd rfl hne
  | cons x xs ih=>
    cases xs with
    | nil=>exact h
    | cons y ys=>
      exact ih h.2 (cons_ne_nil y ys)

theorem Linked.congr (h : Linked T xs) (hT : ∀x∈xs,T' x=T x) : Linked T' xs:=by
  induction xs with
  | nil=>trivial
  | cons x xs ih=>
    have htail:=ih h.tail fun y hy=>hT y (mem_cons_of_mem _ hy)
    cases xs with
    | nil=>exact (hT x mem_cons_self).trans h
    | cons y ys=>exact ⟨(hT x mem_cons_self).trans h.1,htail⟩

/-- A cell begins one chain at most. -/
theorem Linked.unique (h : Linked T xs) (h' : Linked T ys) (hhead : xs.head? = ys.head?) : xs=ys:=by
  induction xs generalizing ys with
  | nil=>exact (head?_eq_none_iff.mp hhead.symm).symm
  | cons x xs ih=>
    obtain ⟨ys,rfl⟩:=head?_eq_some_iff.mp hhead.symm
    have htail : xs.head? = ys.head?:=by
      cases xs with
      | nil=>
        have hlast : T x = .last:=h
        cases ys with
        | nil=>rfl
        | cons z zs=>exact absurd (hlast.symm.trans h'.1) (by simp)
      | cons y xs=>
        cases ys with
        | nil=>
          have hlast : T x = .last:=h'
          exact absurd (hlast.symm.trans h.1) (by simp)
        | cons z zs=>simpa using h.1.symm.trans h'.1
    rw [ih h.tail h'.tail htail]

/-- The last cell of a chain. -/
theorem Linked.last_eq (h : Linked T (xs++[x])) : T x = .last:=by
  induction xs with
  | nil=>exact h
  | cons y ys ih=>exact ih h.tail

theorem Linked.next_eq (h : Linked T (xs++x::y::ys)) : T x = .next y:=by
  induction xs with
  | nil=>exact h.1
  | cons z zs ih=>exact ih h.tail

/-- A chain is extended by a cell that ends it. -/
theorem Linked.snoc (h : Linked T (xs++[x])) (hT : ∀y∈xs,T' y=T y) (hx : T' x = .next d)
    (hd : T' d = .last) : Linked T' (xs++[x,d]):=by
  induction xs with
  | nil=>exact ⟨hx,hd⟩
  | cons y ys ih=>
    have htail:=ih h.tail fun z hz=>hT z (mem_cons_of_mem _ hz)
    have hy:=hT y mem_cons_self
    cases ys with
    | nil=>exact ⟨hy.trans h.1,htail⟩
    | cons z zs=>exact ⟨hy.trans h.1,htail⟩

/-- A chain became longer by cells that were free, and no cell in use outside of it has a
new link. -/
structure Grows (T T' : α→Link α) (xs xs' : List α) : Prop where
  linked : Linked T' xs'
  nodup : xs'.Nodup
  extend : ∃ds,xs'=xs++ds ∧ ∀d∈ds,T d = .free
  other : ∀y,y∉xs→T y≠.free→T' y=T y

theorem Grows.refl (h : Linked T xs) (hn : xs.Nodup) : Grows T T xs xs:=
  ⟨h,hn,⟨[],by simp,by simp⟩,fun _ _ _=>rfl⟩

theorem Grows.notMem (h : Grows T T' xs xs') (hy : y∉xs) (hT : T y≠.free) : y∉xs':=by
  obtain ⟨ds,rfl,hds⟩:=h.extend
  intro hm
  rcases mem_append.mp hm with hm | hm
  · exact hy hm
  · exact hT (hds y hm)

/-- Free cells are the only ones that a table can lose to chains. -/
theorem Grows.free_of_free (h : Grows T T' xs xs') (hx : y∉xs) (hy : T' y = .free) : T y = .free:=by
  by_contra hT
  exact hT ((h.other y hx hT).symm.trans hy)

theorem Grows.trans (h : Grows T T' xs xs') (h' : Grows T' T'' xs' xs'') : Grows T T'' xs xs'':=by
  refine ⟨h'.linked,h'.nodup,?_,fun y hy hT=>?_⟩
  · obtain ⟨ds,rfl,hds⟩:=h.extend
    obtain ⟨es,rfl,hes⟩:=h'.extend
    refine ⟨ds++es,append_assoc ..,fun d hd=>?_⟩
    rcases mem_append.mp hd with hd | hd
    · exact hds d hd
    have hdx : d∉xs:=by
      intro hm
      exact h.linked.ne_free (mem_append_left _ hm) (hes d hd)
    exact h.free_of_free hdx (hes d hd)
  · have hT':=h.other y hy hT
    rw [h'.other y (h.notMem hy hT) (hT'▸hT),hT']

/-- A free cell is put at the end of a chain. -/
theorem Grows.snoc (h : Linked T (xs++[x])) (hn : (xs++[x]).Nodup) (hfree : T d = .free)
    (hx : T' x = .next d) (hd : T' d = .last) (hother : ∀y,y≠x→y≠d→T' y=T y) :
    Grows T T' (xs++[x]) (xs++[x,d]):=by
  have hdx : d∉xs++[x]:=fun hm=>h.ne_free hm hfree
  have hxs : ∀y∈xs,T' y=T y:=by
    intro y hy
    refine hother y ?_ (ne_of_mem_of_not_mem (mem_append_left _ hy) hdx)
    rintro rfl
    exact (nodup_append.mp hn).2.2 y hy y (mem_singleton_self y) rfl
  refine ⟨h.snoc hxs hx hd,?_,⟨[d],by simp,by simpa using hfree⟩,fun y hy hT=>?_⟩
  · have he : xs++[x,d]=(xs++[x])++[d]:=by simp
    rw [he,nodup_append]
    refine ⟨hn,by simp,?_⟩
    rintro a ha b hb rfl
    rw [mem_singleton.mp hb] at ha
    exact hdx ha
  · refine hother y ?_ ?_
    · rintro rfl
      exact hy (by simp)
    · rintro rfl
      exact hT hfree

/-- A free cell becomes a chain of its own. -/
theorem Grows.single (hfree : T d = .free) (hd : T' d = .last) (hother : ∀y,y≠d→T' y=T y) : Grows T T' [] [d]:=by
  refine ⟨hd,by simp,⟨[d],rfl,by simpa using hfree⟩,fun y _ hT=>hother y ?_⟩
  rintro rfl
  exact hT hfree

/-- The chains of the members of a family have no cell in common. -/
structure Apart {ι : Type*} (T : α→Link α) (S : ι→Prop) (chain : ι→List α) : Prop where
  linked : ∀i,S i→Linked T (chain i)
  nodup : ∀i,S i→(chain i).Nodup
  disjoint : ∀i j,S i→S j→i≠j→∀c∈chain i,c∉chain j

namespace Apart

variable {ι : Type*} {S S' : ι→Prop} {chain : ι→List α} {i j : ι}

theorem mono (h : Apart T S chain) (hS : ∀i,S' i→S i) : Apart T S' chain:=
  ⟨fun i hi=>h.linked i (hS i hi),fun i hi=>h.nodup i (hS i hi),
    fun i j hi hj=>h.disjoint i j (hS i hi) (hS j hj)⟩

/-- A chain does not touch the cells of another one. -/
theorem other (h : Apart T S chain) (hi : S i) (hj : S j) (hne : j≠i) (hy : y∈chain j) : y∉chain i ∧ T y≠.free:=
  ⟨h.disjoint j i hj hi hne y hy,(h.linked j hj).ne_free hy⟩

/-- The cells of one member are given back. -/
theorem remove (h : Apart T S chain) (hi : S i) (hT : ∀y,y∉chain i→T' y=T y) :
    Apart T' (fun j=>S j ∧ j≠i) chain:=by
  refine ⟨fun j hj=>?_,fun j hj=>h.nodup j hj.1,fun j k hj hk=>h.disjoint j k hj.1 hk.1⟩
  exact (h.linked j hj.1).congr fun y hy=>hT y (h.other hi hj.1 hj.2 hy).1

variable [DecidableEq ι]

theorem grow (h : Apart T S chain) (hi : S i) (hg : Grows T T' (chain i) xs) : Apart T' S (update chain i xs):=by
  refine ⟨fun j hj=>?_,fun j hj=>?_,fun j k hj hk hne y hy=>?_⟩
  · by_cases he : j=i
    · subst he
      rw [update_self]
      exact hg.linked
    · rw [update_of_ne he]
      exact (h.linked j hj).congr fun y hy=>hg.other y (h.other hi hj he hy).1 (h.other hi hj he hy).2
  · by_cases he : j=i
    · subst he
      rw [update_self]
      exact hg.nodup
    · rw [update_of_ne he]
      exact h.nodup j hj
  · have happart {l : ι} (hl : S l) (he : l≠i) (hy : y∈chain l) : y∉xs:=
      hg.notMem (h.other hi hl he hy).1 (h.other hi hl he hy).2
    by_cases hji : j=i
    · subst hji
      rw [update_self] at hy
      rw [update_of_ne (Ne.symm hne)]
      exact fun hyk=>happart hk (Ne.symm hne) hyk hy
    · rw [update_of_ne hji] at hy
      by_cases hki : k=i
      · subst hki
        rw [update_self]
        exact happart hj hji hy
      · rw [update_of_ne hki]
        exact h.disjoint j k hj hk hne y hy

/-- Free cells make the chain of a new member. -/
theorem add (h : Apart T S chain) (hi : ¬S i) (hg : Grows T T' [] xs) :
    Apart T' (fun j=>S j ∨ j=i) (update chain i xs):=by
  have hne {j : ι} (hj : S j) : j≠i:=fun he=>hi (he▸hj)
  have hempty : Apart T (fun j=>S j ∨ j=i) (update chain i []):=by
    refine ⟨?_,?_,?_⟩
    · rintro j (hj | rfl)
      · rw [update_of_ne (hne hj)]
        exact h.linked j hj
      · rw [update_self]
        trivial
    · rintro j (hj | rfl)
      · rw [update_of_ne (hne hj)]
        exact h.nodup j hj
      · rw [update_self]
        exact nodup_nil
    · rintro j k (hj | rfl) (hk | rfl) hjk y hy
      · rw [update_of_ne (hne hj)] at hy
        rw [update_of_ne (hne hk)]
        exact h.disjoint j k hj hk hjk y hy
      · simp
      · simp at hy
      · exact absurd rfl hjk
  have hg' : Grows T T' (update chain i [] i) xs:=by rwa [update_self]
  have hgrown:=hempty.grow (.inr rfl) hg'
  rwa [update_idem] at hgrown

end Apart

end Knail
