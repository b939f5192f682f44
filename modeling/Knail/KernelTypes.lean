import Mathlib.Data.Int.Notation
import Mathlib.Tactic.Common

/-! # Error codes and fixed-width arithmetic shared by the kernel models -/
namespace Knail

inductive KError
  | invalidArgument | nullPointer | outOfMemory | notImplemented | overflow
  | ioError | timeout | deviceNotReady | deviceError
  | notFound | notADirectory | notAFile | endOfFile | filesystemCorrupt | readOnly
  | alreadyExists | noSpace | isDirectory | badFileDescriptor | outOfFileDescriptors
  | permissionDenied | busy
  deriving DecidableEq, Repr

def u32 (n : ℕ) : ℕ:=n%4294967296

def u64 (n : ℕ) : ℕ:=n%18446744073709551616

def usub64 (a b : ℕ) : ℕ:=u64 (a+18446744073709551616-b)

theorem u64_of_lt {n : ℕ} (h : n<18446744073709551616) : u64 n=n:=Nat.mod_eq_of_lt h

theorem usub64_of_le {a b : ℕ} (ha : a<18446744073709551616) (h : b≤a) : usub64 a b=a-b:=by
  unfold usub64 u64
  omega

end Knail
