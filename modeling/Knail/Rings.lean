import Mathlib.Logic.Function.Basic
import Mathlib.Data.List.Basic
import Mathlib.Tactic.Common

/-!
# Ring buffers

A ring of capacity `c` is a function on slots; its contents are the slots from a start position
on, counted around the ring. Putting an element behind the last one and taking the first one out
are the operations of a queue on the contents.
-/
namespace Knail

open List

variable {α : Type*} {c start count n : ℕ} {buf : ℕ→α} {a : α}

def ringContents (c : ℕ) (buf : ℕ→α) (start count : ℕ) : List α:=
  (List.range count).map fun i=>buf ((start+i)%c)

@[simp] theorem length_ringContents : (ringContents c buf start count).length=count:=by
  simp [ringContents]

@[simp] theorem ringContents_zero : ringContents c buf start 0=[]:=rfl

/-- Different places in the ring are different slots. -/
theorem ring_slot_ne {i j : ℕ} (hij : i<j) (hj : j<c) : (start+i)%c≠(start+j)%c:=by
  intro h
  have hdvd:=Nat.dvd_of_mod_eq_zero (Nat.sub_mod_eq_zero_of_mod_eq h.symm)
  have:=Nat.le_of_dvd (by omega) hdvd
  omega

theorem ringContents_push (hc : count<c) : ringContents c (Function.update buf ((start+count)%c) a) start (count+1) =
    ringContents c buf start count++[a]:=by
  rw [ringContents,range_succ,map_append,map_singleton,Function.update_self,ringContents]
  congr 1
  refine map_congr_left fun i hi=>Function.update_of_ne ?_ _ _
  exact ring_slot_ne (mem_range.mp hi) hc

theorem ringContents_append : ringContents c buf start (n+count) =
    ringContents c buf start n++ringContents c buf ((start+n)%c) count:=by
  rw [ringContents,range_add,map_append,map_map,ringContents]
  congr 1
  refine map_congr_left fun i _=>?_
  rw [Function.comp_apply,Nat.mod_add_mod,Nat.add_assoc]

theorem ringContents_pop :
    ringContents c buf start (count+1)=buf (start%c)::ringContents c buf ((start+1)%c) count:=by
  rw [Nat.add_comm,ringContents_append]
  rfl

end Knail
