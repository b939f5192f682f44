import Mathlib.Algebra.Group.Nat.Defs
import Mathlib.Data.List.GetD
import Mathlib.Logic.Function.Basic
import Mathlib.Tactic.Common

/-!
# Words in a block of bytes

A block is a function from offsets to bytes. Words are little-endian; a word that is stored
is read back, and bytes outside of it are unchanged.
-/
namespace Knail

open Function

def getLE (s : ℕ→UInt8) : ℕ→ℕ→ℕ
  | 0, _=>0
  | k+1, off=>(s off).toNat+256*getLE s k (off+1)

/-- Store the lowest `k` bytes of a value at an offset. -/
def putLE (s : ℕ→UInt8) : ℕ→ℕ→ℕ→ℕ→UInt8
  | 0, _, _=>s
  | k+1, off, v=>update (putLE s k (off+1) (v/256)) off (UInt8.ofNat v)

def putBytes (s : ℕ→UInt8) (off : ℕ) (bs : List UInt8) (j : ℕ) : UInt8:=
  if off≤j then bs.getD (j-off) (s j) else s j

/-- What holds of 256 numbers holds of every byte. -/
theorem forall_byte {P : UInt8→Prop} (h : ∀n<256,P (UInt8.ofNat n)) (b : UInt8) : P b:=by
  have hb:=h b.toNat b.toNat_lt
  rwa [UInt8.ofNat_toNat] at hb

variable {s s' : ℕ→UInt8} {k off off' v j : ℕ} {bs : List UInt8}

theorem getLE_lt (s : ℕ→UInt8) (k off : ℕ) : getLE s k off<256^k:=by
  induction k generalizing off with
  | zero=>simp [getLE]
  | succ k ih=>
    have hb : (s off).toNat<256:=(s off).toNat_lt
    have:=ih (off+1)
    rw [getLE,Nat.pow_succ]
    omega

/-- A word depends on its own bytes. -/
theorem getLE_congr (h : ∀j,off≤j→j<off+k→s' j=s j) : getLE s' k off=getLE s k off:=by
  induction k generalizing off with
  | zero=>rfl
  | succ k ih=>
    rw [getLE,getLE,h off (Nat.le_refl _) (by omega),ih fun j h1 h2=>h j (by omega) (by omega)]

theorem getLE_shift (s : ℕ→UInt8) (k off j : ℕ) : getLE (fun i=>s (off+i)) k j=getLE s k (off+j):=by
  induction k generalizing j with
  | zero=>rfl
  | succ k ih=>rw [getLE,getLE,ih,Nat.add_assoc]

theorem putLE_of_lt (h : j<off) : putLE s k off v j=s j:=by
  induction k generalizing off v with
  | zero=>rfl
  | succ k ih=>
    rw [putLE,update_of_ne (Nat.ne_of_lt h)]
    exact ih (Nat.lt_succ_of_lt h)

theorem putLE_of_le (h : off+k≤j) : putLE s k off v j=s j:=by
  induction k generalizing off v with
  | zero=>rfl
  | succ k ih=>
    rw [putLE,update_of_ne (by omega)]
    exact ih (by omega)

theorem getLE_putLE (s : ℕ→UInt8) (k off v : ℕ) : getLE (putLE s k off v) k off=v%256^k:=by
  induction k generalizing off v with
  | zero=>simp [getLE,Nat.mod_one]
  | succ k ih=>
    have htail : getLE (putLE s (k+1) off v) k (off+1)=getLE (putLE s k (off+1) (v/256)) k (off+1):=by
      refine getLE_congr fun j hj _=>?_
      rw [putLE,update_of_ne (by omega)]
    have hpow : 256^(k+1)=256*256^k:=Nat.pow_succ'
    rw [hpow,Nat.mod_mul,getLE,htail,ih,putLE,update_self,UInt8.toNat_ofNat']

/-- A byte of a word that was stored. -/
theorem putLE_add (s : ℕ→UInt8) {k i : ℕ} (off v : ℕ) (hi : i<k) :
    putLE s k off v (off+i)=UInt8.ofNat (v/256^i):=by
  induction k generalizing off v i with
  | zero=>omega
  | succ k ih=>
    cases i with
    | zero=>
      rw [Nat.pow_zero,Nat.div_one,putLE]
      exact update_self ..
    | succ i=>
      rw [putLE,update_of_ne (by omega),Nat.pow_succ',←Nat.div_div_eq_div_mul,←ih (off+1) (v/256) (by omega)]
      congr 1
      omega

/-- A word is known from its bytes. -/
theorem getLE_of_bytes {v : ℕ} (h : ∀j<k,s (off+j)=UInt8.ofNat (v/256^j)) : getLE s k off=v%256^k:=by
  rw [←getLE_putLE s k off v]
  refine (getLE_congr fun j h1 h2=>?_)
  obtain ⟨i,rfl⟩:=Nat.exists_eq_add_of_le h1
  rw [putLE_add s off v (by omega),h i (by omega)]

/-- A byte of a word. -/
theorem getLE_div (s : ℕ→UInt8) {k i : ℕ} (off : ℕ) (hi : i<k) : UInt8.ofNat (getLE s k off/256^i)=s (off+i):=by
  induction k generalizing off i with
  | zero=>omega
  | succ k ih=>
    cases i with
    | zero=>
      apply UInt8.toNat_inj.mp
      have hb:=(s off).toNat_lt
      rw [Nat.pow_zero,Nat.div_one,getLE,UInt8.toNat_ofNat']
      change _=(s off).toNat
      omega
    | succ i=>
      have hdiv : getLE s (k+1) off/256=getLE s k (off+1):=by
        have hb:=(s off).toNat_lt
        rw [getLE]
        omega
      rw [Nat.pow_succ',←Nat.div_div_eq_div_mul,hdiv,ih (off+1) (by omega)]
      congr 1
      omega

theorem putLE_getLE (s : ℕ→UInt8) (k off j : ℕ) : putLE s k off (getLE s k off) j=s j:=by
  by_cases h : off≤j ∧ j<off+k
  · obtain ⟨i,rfl⟩:=Nat.exists_eq_add_of_le h.1
    rw [putLE_add s off _ (by omega),getLE_div s off (by omega)]
  by_cases hlt : j<off
  · exact putLE_of_lt hlt
  · exact putLE_of_le (by omega)

/-- Storing a word leaves the words beside it alone. -/
theorem getLE_putLE_of_disjoint {n : ℕ} (h : off'+n≤off ∨ off+k≤off') :
    getLE (putLE s k off v) n off'=getLE s n off':=by
  refine getLE_congr fun j h1 h2=>?_
  rcases h with h | h
  · exact putLE_of_lt (by omega)
  · exact putLE_of_le (by omega)

theorem putBytes_of_lt (h : j<off) : putBytes s off bs j=s j:=if_neg (by omega)

theorem putBytes_of_le (h : off+bs.length≤j) : putBytes s off bs j=s j:=by
  unfold putBytes
  split
  · rw [List.getD_eq_default _ _ (by omega)]
  · rfl

theorem putBytes_of_mem (h : off≤j) (h' : j<off+bs.length) : putBytes s off bs j=bs.getD (j-off) 0:=by
  rw [putBytes,if_pos h,List.getD_eq_getElem _ _ (by omega),List.getD_eq_getElem _ _ (by omega)]

end Knail
