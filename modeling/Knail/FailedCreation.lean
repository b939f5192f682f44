import Knail.DescriptorCopies
import Knail.SpawnLedger

/-!
# Failed creation of a process

When `spawn_elf` or `fork_current` returns an error, heap blocks, descriptors, vnode counts and the run queue are what
they were, and the tables of the new space are given back. The frames of its pages stay in use.
-/
namespace Knail.Spawn

open PageTables Elf List

variable {m m₀ m' : Machine} {level owner : ℕ→Option ℕ} {taken : ℕ→Prop} {pages : List ℕ} {k r : ℕ}
  {s : Kernel} {al : Allocations} {full : Bool} {image : Image} {e : KError} {quantum entry p : ℕ} {args : Args} {mem : ℕ→UInt8} {lost : List ℕ} {m₁ m₂ : Machine}

namespace Tracked

/-- `spawn_user` once the stack is mapped: the space is filled and the heap grows. -/
theorem startUser (h : Tracked k m₀ r s.machine level owner taken stackPages)
    (hheap : m₀.mem k 288&&&flagPresent≠0) (entry quantum : ℕ) (args : Args) (hg : InHeap al.heapPages) :
    ∃level' owner',Tracked k m₀ r (startUser k r entry quantum args al s).2.machine level' owner'
    (fun u=>u∉s.machine.used ∨ taken u) []:=by
  have hstack (va : ℕ) (hva : va∈stackPages) : va<2^47:=(stackPages_lt hva).trans (by decide)
  obtain ⟨level1,owner1,h1,e1⟩:=h.grow hheap hstack al.stackBuf.grown
    fun g hg'=>hg g (by simp [Allocations.heapPages,hg'])
  unfold Spawn.startUser
  dsimp only
  split
  · exact ⟨level1,owner1,h1.mono (fun _=>id) (nil_subset _)⟩
  rename_i buf hb
  have hpres : (Spawn.grow k al.stackBuf.grown s.machine).mem r 0&&&flagPresent≠0:=by
    exact h1.space.present stack_mem
  have h2:=h1.activate hpres hstack
  obtain ⟨m3,hrun,hw⟩:=h2.space.runStores
    (buildStack (buf+stackBufSize) args.argv args.argc args.envp args.envc entry).stores fun st hst=>by
      obtain ⟨hlt,va,hva,hpage⟩:=stackStores_covered (depth_buildStack ..) hst
      exact ⟨.inl hlt,va,hva,sameWalk_of_page hpage⟩
  have hmachine : (s.kmalloc k al.stackBuf).machine=Spawn.grow k al.stackBuf.grown s.machine:=rfl
  rw [hmachine,hrun]
  obtain ⟨gs,hgs,hmk⟩:=makeTask_machine k r quantum al
    (((s.kmalloc k al.stackBuf).withMachine (PageTables.activate k k m3)).kfree buf)
  have h3:=h2.dataWrites hw
  obtain ⟨level4,owner4,h4,-⟩:=h3.grow hheap hstack gs fun g hg'=>hg g (hgs hg')
  rw [hmk]
  refine ⟨level4,owner4,?_⟩
  rw [activate_self]
  refine h4.mono (fun u hu=>?_) (nil_subset _)
  rcases hu with hu | hu
  · refine .inl fun hu'=>hu ?_
    rw [hw.used,activate_used]
    exact e1.used hu'
  · exact hu

theorem spawnUser (h : Tracked k m₀ r s.machine level owner taken pages)
    (hlow : m₀.mem k 0&&&flagPresent≠0) (hheap : m₀.mem k 288&&&flagPresent≠0) (entry quantum : ℕ) (args : Args) (hg : InHeap al.heapPages) :
    ∃level' owner',Tracked k m₀ r (spawnUser k r entry quantum args al s).2.machine level' owner'
    (fun u=>u∉(Spawn.mapPages r stackPages s.machine).2.used ∨ u∈pageFrames r stackPages s.machine ∨ taken u)
    []:=by
  obtain ⟨level1,owner1,h1,-⟩:=h.mapPages hlow stackPages fun pre va post he _=>
    (stackPages_lt (by simp [he])).trans (by decide)
  unfold Spawn.spawnUser
  rcases hmap : Spawn.mapPages r stackPages s.machine with ⟨_ | _,m₁⟩
  · rw [hmap] at h1
    exact ⟨level1,owner1,h1.mono (fun _=>.inr) (nil_subset _)⟩
  rw [hmap] at h1
  have hs1:=h1.mono (fun _=>id) (subset_append_left ..)
  exact hs1.startUser hheap entry quantum args hg

end Tracked

/-- No frame is lost, and a frame that is left was handed out for a page or taken by the heap. -/
structure Leaves (handed : List ℕ×Machine) (m m' : Machine) : Prop where
  kept : ∀u∈m.used,u∈m'.used
  left : ∀u∈m'.used,u∈m.used ∨ u∈handed.1 ∨ u∉handed.2.used

theorem Tracked.leaves {handed : List ℕ×Machine} (h : Tracked k m₀ r m level owner taken pages)
    (ht : ∀u,taken u→u∈handed.1 ∨ u∉handed.2.used) : Leaves handed m₀ (destroyUserSpace r m):=by
  obtain ⟨hold,hnew⟩:=h.ledger.destroy h.low
  exact ⟨hold,fun u hu=>(hnew u hu).imp_right (ht u)⟩

/-- All pages by which the heap grows during `fork_current`. -/
def ForkAllocations.heapPages (al : ForkAllocations) : List ℕ:=
  al.task.grown++al.kstack.grown++al.scstack.grown++al.fdTable.grown++al.grown

end Knail.Spawn
