import Knail.CriticalSections
import Knail.HeapIntegrity

/-!
# The heap lock and `kcalloc`

Every heap call holds `heap_lock` from its first line to its return. `kcalloc` calls `kmalloc`
under the lock, which waits for the lock that its own caller holds.
-/
namespace Knail.KernelHeap

open CriticalSections (Cpu)

variable {α β : Type} {B : Backing β} {n : ℕ} {c c' : Cpu}

/-- `n` rounds of the loop in `Spinlock::acquire`. Whoever else runs while the loop waits can
only wait for the lock, too. -/
def spin (c : Cpu) : (n : ℕ)→Option Cpu
  | 0=>none
  | n+1=>
    if c.heapLock then spin {c with interrupts:=true} n
    else some {c with interrupts:=false,heapLock:=true}

theorem spin_held (hc : c.heapLock=true) (n : ℕ) : spin c n=none:=by
  induction n generalizing c with
  | zero=>rfl
  | succ n ih=>
    rw [spin,if_pos hc]
    exact ih hc

theorem spin_eq_acquire : (∃n,spin c n=some c')↔c.acquire=some c':=by
  rw [Cpu.acquire]
  by_cases hc : c.heapLock=true
  · simp [spin_held hc,hc]
  rw [if_neg hc]
  constructor
  · rintro ⟨_ | n,hn⟩
    · cases hn
    · rwa [spin,if_neg hc] at hn
  · intro h
    exact ⟨1,by rw [spin,if_neg hc,h]⟩

structure LockedHeap (β : Type) where
  heap : Heap β
  cpu : Cpu

/-- A body under `ScopeLock`; `n` bounds the rounds of the wait. -/
def scopeLock (n : ℕ) (body : LockedHeap β→Option (α×LockedHeap β)) (s : LockedHeap β) :
    Option (α×LockedHeap β):=
  (spin s.cpu n).bind fun c=>(body {s with cpu:=c}).map fun e=>(e.1,{e.2 with cpu:=e.2.cpu.release})

def lockedKmalloc (B : Backing β) (n size : ℕ) : LockedHeap β→Option (Option ℕ×LockedHeap β):=
  scopeLock n fun s=>(kmalloc B size s.heap).map fun e=>(e.1,{s with heap:=e.2})

/-- `for (i = 0; i < total; i++) p[i] = 0`, from index `i` on. -/
def zeroBytes (p : ℕ) : (total i : ℕ)→(ℕ→UInt8)→ℕ→UInt8
  | 0, _, m=>m
  | total+1, i, m=>zeroBytes p total (i+1) (Function.update m (u64 (p+i)) 0)

def kcalloc (B : Backing β) (n count size : ℕ) : LockedHeap β→Option (Option ℕ×LockedHeap β):=
  scopeLock n fun s=>
    let total:=u64 (count*size)
    (lockedKmalloc B n total s).map fun e=>e.1.elim (none,e.2) fun p=>
      (some p,{ e.2 with heap:={e.2.heap with byte:=zeroBytes p total 0 e.2.heap.byte} })

/-- `kcalloc` returns with the lock free, and with null or a block of enough zeros. -/
def Completes (B : Backing β) (count size : ℕ) (s : LockedHeap β) : Prop:=
  ∃n q s',kcalloc B n count size s=some (q,s') ∧ s'.cpu.heapLock=false ∧ ∀p,q=some p →
    count*size≤(s'.heap.header (usub64 p headerSize)).size ∧ ∀i,i<count*size→s'.heap.byte (p+i)=0

theorem lockedKmalloc_held {s : LockedHeap β} (hs : s.cpu.heapLock=true) (n size : ℕ) :
    lockedKmalloc B n size s=none:=by
  rw [lockedKmalloc,scopeLock,spin_held hs,Option.bind_none]

theorem spin_lock (h : spin c n=some c') : c'.heapLock=true:=by
  have ha:=spin_eq_acquire.mp ⟨n,h⟩
  unfold Cpu.acquire at ha
  split at ha
  · cases ha
  · cases ha
    rfl

theorem kcalloc_eq_none (B : Backing β) (n count size : ℕ) (s : LockedHeap β) : kcalloc B n count size s=none:=by
  rw [kcalloc,scopeLock]
  cases hc : spin s.cpu n with
  | none=>rfl
  | some c=>
    simp only [Option.bind_some]
    rw [lockedKmalloc_held (spin_lock hc)]
    rfl

/-- Whatever is asked for and whatever the heap, `kcalloc` does not come back. -/
theorem kcalloc_never_completes (B : Backing β) (count size : ℕ) (s : LockedHeap β) : ¬Completes B count size s:=by
  rintro ⟨n,q,s',hk,-⟩
  rw [kcalloc_eq_none] at hk
  cases hk

/-- One byte from a heap with a free page, the lock free. -/
theorem kcalloc_one_byte : ∃h₀,init endless (fun _=>⟨0,false,none,none,0⟩) (fun _=>0) ()=some h₀ ∧
    (⟨true,false,0,fun _=>none⟩ : Cpu).heapLock=false ∧
    ∀n,kcalloc endless n 1 1 ⟨h₀,⟨true,false,0,fun _=>none⟩⟩=none:=by
  obtain ⟨h₀,bs,hinit,-⟩:=init_spec endless (fun _=>⟨0,false,none,none,0⟩) (fun _=>0) ()
  exact ⟨h₀,hinit,rfl,fun n=>kcalloc_eq_none endless n 1 1 _⟩

end Knail.KernelHeap
