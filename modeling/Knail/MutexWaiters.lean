import Knail.Mutex

/-!
# The wait list under other wakeups

A task blocked in `lock` may be woken by others. Its node then is still on the list when it tries again: if the mutex
is locked the node is linked a second time, which closes a cycle, and otherwise the task leaves `lock` with its node
on the list.
-/
namespace Knail.Mutex

open List

variable {s s' : System} {l : List Addr}

/-- The waiters are a finite list without cycles, with one node for each of its tasks, in frames of `lock`. -/
def WellFormed (s : System) : Prop:=
  ∃l,Path s.next s.waiters l none ∧ l.Nodup ∧ (l.map fun a=>(s.node a).task).Nodup ∧
    ∀a∈l,(s.node a).task=some a.1 ∧ s.InLock a

def System.Listed (s : System) (a : Addr) : Prop:=∃l,Path s.next s.waiters l none ∧ a∈l

/-- A task that was woken does not try again while its node is on the list. -/
def Op.Tidy (s : System) : Op→Prop
  | .guarded=>∀frame,s.place s.current = .retrying frame→¬s.Listed (s.current,frame)
  | _=>True

section

variable (h : Linked s.node s.waiters s.place l)
include h

theorem Linked.wellFormed : WellFormed s:=by
  have htasks : (l.map fun a=>(s.node a).task)=(l.map Prod.fst).map some:=by
    rw [map_map]
    exact map_congr_left fun a ha=>h.task a ha
  refine ⟨l,h.path,h.path.nodup_of_none,?_,fun a ha=>⟨h.task a ha,.inr (h.place a ha)⟩⟩
  rw [htasks]
  exact h.nodup.map fun _ _=>Option.some.inj

theorem Linked.tryOnce {frame : ℕ} (hnew : ∀frame,(s.current,frame)∉l) :
    ∃l',Linked (tryOnce frame s).node (tryOnce frame s).waiters (tryOnce frame s).place l':=by
  unfold Mutex.tryOnce
  dsimp only
  split
  · exact ⟨_,h.push hnew⟩
  · exact ⟨l,h.moveTo fun f hf=>(hnew f hf).elim⟩

theorem Linked.unlock : ∃l',Linked (unlock s).node (unlock s).waiters (unlock s).place l':=by
  unfold Mutex.unlock
  dsimp only
  split
  · exact ⟨l,h⟩
  rename_i w hw
  rw [hw] at h
  obtain ⟨l',-,hl'⟩:=h.pop
  split <;> exact ⟨l',hl'⟩

theorem linked_doSwitch {next : ℕ} :
    Linked (doSwitch next s).node (doSwitch next s).waiters (doSwitch next s).place l:=by
  obtain ⟨state,he,-⟩:=doSwitch_spec next s
  rw [he]
  exact h

/-- Every other step keeps the list. -/
theorem Linked.step {op : Op} (ht : op.Tidy s) (hs : step s op=some s') :
    ∃l',Linked s'.node s'.waiters s'.place l':=by
  cases op with
  | call frame=>
    obtain ⟨hp,hs⟩:=Option.ite_none_right_eq_some.mp hs
    cases hs
    exact ⟨l,h.moveTo fun f hf=>(h.notMem_of (.inl hp) f hf).elim⟩
  | guarded=>
    simp only [Mutex.step] at hs
    split at hs
    · rename_i frame hp
      cases hs
      exact h.tryOnce (h.notMem_of (.inr ⟨_,hp⟩))
    · rename_i frame hp
      cases hs
      exact h.tryOnce (h.notMem hp fun hm=>ht frame hp ⟨l,h.path,hm⟩)
    · cases hs
  | yield next=>
    simp only [Mutex.step] at hs
    split at hs
    · rename_i frame hp
      obtain ⟨-,hs⟩:=Option.ite_none_right_eq_some.mp hs
      cases hs
      refine ⟨l,linked_doSwitch (h.moveTo fun f hf=>.inr ?_)⟩
      rcases h.place _ hf with hf | hf
      · cases hp.symm.trans hf
        rfl
      · cases hp.symm.trans hf
    · cases hs
  | unlock=>
    obtain ⟨-,hs⟩:=Option.ite_none_right_eq_some.mp hs
    cases hs
    exact h.unlock
  | tryLock=>
    obtain ⟨-,hs⟩:=Option.ite_none_right_eq_some.mp hs
    cases hs
    unfold Mutex.tryLock
    split <;> exact ⟨l,h⟩
  | tick next=>
    obtain ⟨-,hs⟩:=Option.ite_none_right_eq_some.mp hs
    cases hs
    exact ⟨l,linked_doSwitch h⟩
  | block next=>
    obtain ⟨-,hs⟩:=Option.ite_none_right_eq_some.mp hs
    cases hs
    exact ⟨l,linked_doSwitch (s:=s.setState s.current .blocked) h⟩
  | wake t=>
    obtain ⟨-,hs⟩:=Option.ite_none_right_eq_some.mp hs
    cases hs
    exact ⟨l,h⟩
  | reuse a n=>
    simp only [Mutex.step] at hs
    split at hs
    · cases hs
    rename_i hlock
    cases hs
    exact ⟨l,h.reuse (fun hp=>hlock (.inr hp)) n⟩

theorem Linked.not_wellFormed {frame : ℕ} (hm : (s.current,frame)∈l) : ¬WellFormed (Mutex.tryOnce frame s):=by
  rintro ⟨l',hpath,-,-,hin⟩
  unfold Mutex.tryOnce at hpath hin
  dsimp only at hpath hin
  split at hpath
  · obtain ⟨pre,post,rfl⟩:=append_of_mem hm
    have hnot : (s.current,frame)∉pre:=fun hpre=>
      (nodup_append.mp h.path.nodup_of_none).2.2 _ hpre _ mem_cons_self rfl
    have hback : Path (fun a=>(Function.update s.node (s.current,frame) ⟨some s.current,s.waiters⟩ a).next)
        (some (s.current,frame)) ((s.current,frame)::pre) (some (s.current,frame)):=by
      refine ⟨rfl,?_⟩
      dsimp only
      rw [Function.update_self]
      refine h.path.split.1.congr fun a ha=>?_
      rw [Function.update_of_ne (ne_of_mem_of_not_mem ha hnot)]
    exact cons_ne_nil _ _ (hpath.eq_nil_of_cycle hback)
  · obtain rfl:=hpath.unique_of_none h.path
    rename_i hl
    rw [if_neg hl] at hin
    have:=(hin _ hm).2
    simp [System.InLock,System.moveTo] at this

end

theorem reach_linked (h : Reach Fresh step (fun op s=>op.Tidy s) s) : ∃l,Linked s.node s.waiters s.place l:=by
  refine h.invariant (I:=fun s=>∃l,Linked s.node s.waiters s.place l) (fun s h=>⟨[],h.safe.linked⟩)
    fun s s' op hi ht hs=>?_
  obtain ⟨l,hl⟩:=hi
  exact hl.step ht hs

/-- The list stays well formed just as long as no task tries again with its node on the list. -/
theorem waiters_wellFormed (h : Reach Fresh step (fun op s=>op.Tidy s) s) :
    WellFormed s ∧ ∀op s',step s op=some s'→(WellFormed s'↔op.Tidy s):=by
  obtain ⟨l,hl⟩:=reach_linked h
  refine ⟨hl.wellFormed,fun op s' hs=>⟨fun hw=>?_,fun ht=>?_⟩⟩
  · cases op with
    | guarded=>
      intro frame hp hlisted
      obtain ⟨l',hpath,hm⟩:=hlisted
      obtain rfl:=hpath.unique_of_none hl.path
      simp only [Mutex.step,hp,Option.some.injEq] at hs
      exact hl.not_wellFormed hm (hs▸hw)
    | _=>trivial
  · obtain ⟨l',hl'⟩:=hl.step ht hs
    exact hl'.wellFormed

/-- Task 2 waits and is woken by others, but its node is taken off before it tries again. -/
theorem waiters_wellFormed_handed : ∃s : System,s.holds 2=true ∧ WellFormed s:=by
  have h₀ : Reach Fresh step (fun op s=>op.Tidy s) newMutex:=.start fresh_newMutex
  have h₂:=(h₀.step (Op.call 8) trivial rfl).step Op.guarded (fun _ hp=>nomatch hp) rfl
  have h₄:=(h₂.step (Op.tick 2) trivial rfl).step (Op.call 16) trivial rfl
  have h₆:=(h₄.step Op.guarded (fun _ hp=>nomatch hp) rfl).step (Op.yield 1) trivial rfl
  have h₉:=((h₆.step (Op.wake 2) trivial rfl).step Op.unlock trivial rfl).step (Op.tick 2) trivial rfl
  have h:=h₉.step Op.guarded (fun _ _ ⟨_,hpath,hm⟩=>by cases hpath.eq_nil_of_none; cases hm) rfl
  exact ⟨_,rfl,(waiters_wellFormed h).1⟩

/-- Task 2 waits, is woken by the exit of a child and tries again: its node becomes its own successor. -/
theorem woken_waiter_links_itself : ∃s : System,Reach Fresh step (fun _ _=>True) s ∧ ¬WellFormed s:=by
  have hstart : Reach Fresh step (fun _ _=>True) newMutex:=.start fresh_newMutex
  obtain ⟨s,hs,hw,hnext⟩:=hstart.exists_replay
    [.call 8,.guarded,.tick 2,.call 16,.guarded,.yield 1,.wake 2,.tick 2,.guarded]
    (fun s=>s.waiters=some (2,16) ∧ s.next (2,16)=some (2,16)) (by decide)
  refine ⟨s,hs,?_⟩
  rintro ⟨l,hpath,-⟩
  rw [hw] at hpath
  exact cons_ne_nil _ _ (hpath.eq_nil_of_cycle (show Path s.next _ [(2,16)] _ from ⟨rfl,hnext⟩))

end Knail.Mutex
