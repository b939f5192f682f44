import Mathlib.Data.Finset.Range
import Mathlib.Data.Finset.Card
import Mathlib.Tactic.Common

/-! # Sets of natural numbers packed into bytes -/
namespace Knail

open Function

/-- A number `f` is a member if bit `f % 8` of byte `f / 8` is set. -/
abbrev Bitmap:=ℕ→BitVec 8

namespace Bitmap

variable (b : Bitmap) (f g n : ℕ)

def test : Bool:=(b (f/8) >>> (f%8))&&&1#8 != 0#8

def insert : Bitmap:=update b (f/8) (b (f/8)|||1#8 <<< (f%8))

def erase : Bitmap:=update b (f/8) (b (f/8) &&& ~~~(1#8 <<< (f%8)))

theorem test_eq_getLsbD : b.test f=(b (f/8)).getLsbD (f%8):=by
  rw [test,Bool.eq_iff_iff,bne_iff_ne,ne_eq,BitVec.eq_of_getLsbD_eq_iff]
  constructor
  · intro h
    by_contra hf
    refine h fun i hi=>?_
    rcases Nat.eq_zero_or_pos i with rfl | hpos
    · simpa using hf
    · simp [Nat.ne_of_gt hpos]
  · intro h hz
    simpa [h] using hz 0 (by decide)

theorem getLsbD_bit (i k : ℕ) (hi : i<8) : (1#8 <<< k).getLsbD i=decide (i=k):=by
  rcases Nat.lt_trichotomy i k with h | rfl | h
  · simp [h,Nat.ne_of_lt h]
  · simp [hi]
  · have : i-k≠0:=by omega
    simp [this,Nat.ne_of_gt h]

/-- Byte and bit determine a number. -/
theorem eq_iff_byte_bit : g=f↔g/8=f/8 ∧ g%8=f%8:=by omega

@[simp] theorem test_insert : (b.insert f).test g=(b.test g || decide (g=f)):=by
  rw [test_eq_getLsbD,test_eq_getLsbD,insert]
  by_cases hbyte : g/8=f/8
  · rw [hbyte,update_self,BitVec.getLsbD_or,getLsbD_bit _ _ (Nat.mod_lt g (by decide))]
    simp [eq_iff_byte_bit f g,hbyte]
  · simp [eq_iff_byte_bit f g,hbyte]

@[simp] theorem test_erase : (b.erase f).test g=(b.test g && decide (g≠f)):=by
  rw [test_eq_getLsbD,test_eq_getLsbD,erase]
  have hlt : g%8<8:=Nat.mod_lt g (by decide)
  by_cases hbyte : g/8=f/8
  · rw [hbyte,update_self,BitVec.getLsbD_and,BitVec.getLsbD_not,getLsbD_bit _ _ hlt]
    simp [eq_iff_byte_bit f g,hbyte,hlt]
  · simp [eq_iff_byte_bit f g,hbyte]

@[simp] theorem test_foldl_insert (l : List ℕ) : (l.foldl insert b).test g=(b.test g || decide (g∈l)):=by
  induction l generalizing b with
  | nil=>simp
  | cons x l ih=>simp [ih,Bool.or_assoc]

@[simp] theorem test_foldl_erase (l : List ℕ) : (l.foldl erase b).test g=(b.test g && decide (g∉l)):=by
  induction l generalizing b with
  | nil=>simp
  | cons x l ih=>simp [ih,Bool.and_assoc]

theorem test_full : test (fun _=>0xFF) f=true:=by
  have hbits : ∀i : Fin 8,(0xFF : BitVec 8).getLsbD i=true:=by decide
  rw [test_eq_getLsbD]
  exact hbits ⟨f%8,Nat.mod_lt f (by decide)⟩

def members : Finset ℕ:=(Finset.range n).filter fun f=>b.test f

theorem mem_members : g∈b.members n↔g<n ∧ b.test g=true:=by
  simp [members]

theorem card_members_le : (b.members n).card≤n:=
  (Finset.card_filter_le _ _).trans_eq (Finset.card_range n)

theorem card_members_succ : (b.members (n+1)).card=(b.members n).card+if b.test n then 1 else 0:=by
  rw [members,Finset.range_add_one,Finset.filter_insert]
  split
  · rw [Finset.card_insert_of_notMem (by simp),members]
  · rfl

variable {f n}

theorem card_members_insert (hf : f<n) (ht : b.test f=false) : ((b.insert f).members n).card=(b.members n).card+1:=by
  have hset : (b.insert f).members n=Insert.insert f (b.members n):=by
    ext g
    simp only [mem_members,test_insert,Finset.mem_insert,Bool.or_eq_true,decide_eq_true_eq]
    grind
  rw [hset,Finset.card_insert_of_notMem (by simp [mem_members,ht])]

theorem card_members_erase (hf : f<n) (ht : b.test f=true) : ((b.erase f).members n).card+1=(b.members n).card:=by
  have hset : (b.erase f).members n=(b.members n).erase f:=by
    ext g
    simp only [mem_members,test_erase,Finset.mem_erase,Bool.and_eq_true,decide_eq_true_eq]
    grind
  rw [hset,Finset.card_erase_add_one ((mem_members b f n).mpr ⟨hf,ht⟩)]

end Bitmap

end Knail
