import Knail.FreeFrames
import Knail.IdentityAccess

/-!
# What a new process can read

`spawn_user` maps frames as they come from `alloc_frame` and copies the arguments to the top of
the stack. Nothing is written to the pages below, so a process finds there what the frames held
before.
-/
namespace Knail.Spawn

open PageTables Elf List

variable {m m₁ m₂ m' : Machine} {level level' : ℕ→Option ℕ} {home : ℕ→Option ℕ×ℕ} {g : ℕ→ℕ} {pages : List ℕ}
  {r k f va a p : ℕ}
  {s : Kernel} {al : Allocations} {u tid : ℕ} {before after : List ℕ} {image : Image} {args : Args} {mem : ℕ→UInt8}

def byteAt (p : ℕ) (m : Machine) : ℕ:=m.mem (p/4096*4096) (p%4096/8)/256^(p%8)%256

def Kernel.withFrame (f : ℕ) (g : ℕ→ℕ) (s : Kernel) : Kernel:=s.withMachine (s.machine.withFrame f g)

def IsData (k f : ℕ) (m : Machine) : Prop:=
  ∃level home,Tables m level home ∧ level k=some 3 ∧ f∈m.used ∧ level f=none

theorem IsData.grow (h : IsData k f m) (vs : List ℕ) (g : ℕ→ℕ) :
    IsData k f (grow k vs m) ∧ grow k vs (m.withFrame f g)=(grow k vs m).withFrame f g:=by
  obtain ⟨level,home,ht,hk,hu,hl⟩:=h
  obtain ⟨level',hm⟩:=remaps_grow vs ht hk
  obtain ⟨home',ht'⟩:=hm.tables
  obtain ⟨hu',hl'⟩:=hm.keeps.data hu hl
  exact ⟨⟨level',home',ht',hm.keeps.level_eq hk,hu',hl'⟩,grow_withFrame vs ht hk hu hl g⟩

theorem IsData.kmalloc (h : IsData k f s.machine) (b : Kmalloc) (g : ℕ→ℕ) :
    IsData k f (s.kmalloc k b).machine ∧ (s.withFrame f g).kmalloc k b=(s.kmalloc k b).withFrame f g:=by
  obtain ⟨h1,h2⟩:=h.grow b.grown g
  refine ⟨h1,?_⟩
  change Kernel.mk (Spawn.grow k b.grown (s.machine.withFrame f g)) _ _ _=_
  rw [h2]
  rfl

theorem IsData.finishTask (h : IsData k f s.machine) (r quantum t kstack scstack fdt : ℕ) (al : Allocations)
    (g : ℕ→ℕ) : finishTask k r quantum t kstack scstack fdt al (s.withFrame f g) =
    ((finishTask k r quantum t kstack scstack fdt al s).1,
    (finishTask k r quantum t kstack scstack fdt al s).2.withFrame f g):=by
  obtain ⟨-,hg⟩:=h.grow al.grown g
  change (_,Kernel.mk (Spawn.grow k al.grown (s.machine.withFrame f g)) _ _ _)=_
  rw [hg]
  rfl

theorem IsData.makeTask (h : IsData k f s.machine) (r quantum : ℕ) (al : Allocations) (g : ℕ→ℕ) :
    makeTask k r quantum al (s.withFrame f g) =
    ((makeTask k r quantum al s).1,(makeTask k r quantum al s).2.withFrame f g):=by
  obtain ⟨h1,e1⟩:=h.kmalloc al.task g
  unfold Spawn.makeTask
  simp only [e1]
  split
  · rfl
  obtain ⟨h2,e2⟩:=h1.kmalloc al.kstack g
  simp only [e2]
  split
  · rfl
  obtain ⟨h3,e3⟩:=h2.kmalloc al.scstack g
  simp only [e3]
  split
  · rfl
  obtain ⟨h4,e4⟩:=h3.kmalloc al.fdTable g
  simp only [e4]
  split
  · rfl
  · exact h4.finishTask ..

/-- What is asked of segments in the upper half: that the space is complete, and that the segment
does not wrap around. -/
def Bounded (k : ℕ) (image : Image) (m : Machine) : Prop:=
  ∀seg∈image.segments,0<seg.memsz → 2^64-2^47 ≤ seg.vaddr →
    (createUserSpace k m).2.1=true ∧ seg.vaddr+seg.memsz+0xFFF<wordSize

end Knail.Spawn
