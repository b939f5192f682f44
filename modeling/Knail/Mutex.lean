import Knail.LinkedPaths
import Knail.Scheduler
import Knail.Transitions

/-!
# The sleeping mutex

Tasks call `lock`, `unlock` and `try_lock`; a section under the guard is one step. A task that finds the mutex locked
links a wait node from its own stack, marks itself blocked and yields. The timer may switch tasks before every step.
-/
namespace Knail.Mutex

open Function List
open Scheduler (State idleTask)

abbrev Addr:=ℕ×ℕ

structure WaitNode where
  task : Option ℕ
  next : Option Addr
  deriving DecidableEq, Repr

/-- Where a task is in `lock`, with the place of its wait node: not in it, before its first try,
linked and about to yield, or past the yield and before the next try. -/
inductive Place
  | outside
  | entering (frame : ℕ)
  | queued (frame : ℕ)
  | retrying (frame : ℕ)
  deriving DecidableEq, Repr

/-- The mutex, the wait nodes in memory and the tasks. Two fields record the past: who is between a
successful `lock` or `try_lock` and its `unlock`, and who was taken off the list and has not tried again. -/
structure System where
  locked : Bool
  owner : ℕ
  waiters : Option Addr
  node : Addr→WaitNode
  state : ℕ→State
  place : ℕ→Place
  current : ℕ
  holds : ℕ→Bool
  woken : ℕ→Bool

namespace System

def next (s : System) (a : Addr) : Option Addr:=(s.node a).next

/-- The task has linked its node in this call of `lock` and not got the mutex yet. -/
def Waiting (s : System) (t : ℕ) : Prop:=∃frame,s.place t = .queued frame ∨ s.place t = .retrying frame

def InLock (s : System) (a : Addr) : Prop:=
  s.place a.1 = .entering a.2 ∨ s.place a.1 = .queued a.2 ∨ s.place a.1 = .retrying a.2

instance (s : System) (a : Addr) : Decidable (s.InLock a):=inferInstanceAs (Decidable (_ ∨ _))

def moveTo (s : System) (t : ℕ) (p : Place) : System:={s with place:=update s.place t p}

def setState (s : System) (t : ℕ) (st : State) : System:={s with state:=update s.state t st}

/-- What `pick_next` may return: a task that can run, or the idle task when there is none. -/
def MayRun (s : System) (t : ℕ) : Prop:=s.state t = .ready ∨ s.state t = .running ∨ t=idleTask

instance (s : System) (t : ℕ) : Decidable (s.MayRun t):=inferInstanceAs (Decidable (_ ∨ _))

end System

def doSwitch (next : ℕ) (s : System) : System:=
  if next=s.current then s
  else
    let s':=if s.state s.current = .running then s.setState s.current .ready else s
    {s'.setState next .running with current:=next}

def take (s : System) : System:=
  {s with locked:=true,owner:=s.current,holds:=update s.holds s.current true}

/-- The section of `lock` under the guard. -/
def tryOnce (frame : ℕ) (s : System) : System:=
  let s:={s with woken:=update s.woken s.current false}
  if s.locked then
    let s:={ s with node:=update s.node (s.current,frame) ⟨some s.current,s.waiters⟩,
                      waiters:=some (s.current,frame) }
    (s.setState s.current .blocked).moveTo s.current (.queued frame)
  else (take s).moveTo s.current .outside

def unlock (s : System) : System:=
  let s:={s with locked:=false,owner:=0,holds:=update s.holds s.current false}
  match s.waiters with
  | none=>s
  | some w=>
    let s:={s with waiters:=s.next w}
    match (s.node w).task with
    | none=>s
    | some t=>{s.setState t .ready with woken:=update s.woken t true}

def tryLock (s : System) : System:=if s.locked then s else take s

/-- Steps of the current task, a timer tick, and what else happens to tasks and stacks. -/
inductive Op
  | call (frame : ℕ)
  | guarded
  | yield (next : ℕ)
  | unlock
  | tryLock
  | tick (next : ℕ)
  | block (next : ℕ)
  | wake (t : ℕ)
  | reuse (a : Addr) (n : WaitNode)
  deriving DecidableEq, Repr

def step (s : System) : Op→Option System
  | .call frame=>if s.place s.current = .outside then some (s.moveTo s.current (.entering frame)) else none
  | .guarded=>
    match s.place s.current with
    | .entering frame=>some (tryOnce frame s)
    | .retrying frame=>some (tryOnce frame s)
    | _=>none
  | .yield next=>
    match s.place s.current with
    | .queued frame=>if s.MayRun next then some (doSwitch next (s.moveTo s.current (.retrying frame))) else none
    | _=>none
  | .unlock=>if s.place s.current = .outside ∧ s.holds s.current=true then some (unlock s) else none
  | .tryLock=>if s.place s.current = .outside then some (tryLock s) else none
  | .tick next=>if s.MayRun next then some (doSwitch next s) else none
  | .block next=>
    if s.place s.current = .outside ∧ s.MayRun next then some (doSwitch next (s.setState s.current .blocked)) else none
  | .wake t=>if s.state t = .blocked then some (s.setState t .ready) else none
  | .reuse a n=>if s.InLock a then none else some {s with node:=update s.node a n}

/-- The mutex is new and no task is in `lock`. -/
structure Fresh (s : System) : Prop where
  locked : s.locked=false
  waiters : s.waiters=none
  place : ∀t,s.place t = .outside
  holds : ∀t,s.holds t=false
  woken : ∀t,s.woken t=false

/-- The task is among those that `pick_next` looks for. -/
def Runs (st : State) : Prop:=st = .ready ∨ st = .running

theorem doSwitch_spec (next : ℕ) (s : System) : ∃state,doSwitch next s={s with state:=state,current:=next} ∧
    (∀t,Runs (s.state t)→Runs (state t)) ∧ (∀t,t≠next→s.state t = .blocked→state t = .blocked) ∧
    (state next = .running ∨ next=s.current ∧ state=s.state):=by
  unfold doSwitch
  split
  · subst next
    exact ⟨s.state,rfl,fun _=>id,fun _ _=>id,.inr ⟨rfl,rfl⟩⟩
  split
  · rename_i hrun
    refine ⟨_,rfl,fun t ht=>?_,fun t ht hb=>?_,.inl (update_self ..)⟩
    · simp only [update_apply,System.setState]
      split
      · exact .inr rfl
      split
      · exact .inl rfl
      · exact ht
    · have hne : t≠s.current:=by
        rintro rfl
        rw [hrun] at hb
        cases hb
      simp [System.setState,ht,hne,hb]
  · refine ⟨_,rfl,fun t ht=>?_,fun t ht hb=>?_,.inl (update_self ..)⟩
    · simp only [update_apply,System.setState]
      split
      · exact .inr rfl
      · exact ht
    · simp [System.setState,ht,hb]

section Linked

variable {node : Addr→WaitNode} {waiters : Option Addr} {place : ℕ→Place} {l : List Addr} {t frame : ℕ}

/-- The waiters are a list of nodes of tasks that wait in `lock`, each with one node. -/
structure Linked (node : Addr→WaitNode) (waiters : Option Addr) (place : ℕ→Place) (l : List Addr) : Prop where
  path : Path (fun a=>(node a).next) waiters l none
  task : ∀a∈l,(node a).task=some a.1
  place : ∀a∈l,place a.1 = .queued a.2 ∨ place a.1 = .retrying a.2
  nodup : (l.map Prod.fst).Nodup

theorem Linked.moveTo (h : Linked node waiters place l) {p : Place}
    (hp : ∀frame,(t,frame)∈l→p = .queued frame ∨ p = .retrying frame) :
    Linked node waiters (update place t p) l:=by
  refine ⟨h.path,h.task,fun a ha=>?_,h.nodup⟩
  rw [update_apply]
  split
  · rename_i hat
    exact hp a.2 (hat▸ha)
  · exact h.place a ha

theorem Linked.push (h : Linked node waiters place l) (hnew : ∀frame,(t,frame)∉l) :
    Linked (update node (t,frame) ⟨some t,waiters⟩) (some (t,frame))
    (update place t (.queued frame)) ((t,frame)::l) where
  path:=by
    refine ⟨rfl,?_⟩
    dsimp only
    rw [update_self]
    refine h.path.congr fun a ha=>?_
    rw [update_of_ne (ne_of_mem_of_not_mem ha (hnew frame))]
  task a ha:=by
    rcases mem_cons.mp ha with rfl | ha
    · rw [update_self]
    · rw [update_of_ne (ne_of_mem_of_not_mem ha (hnew frame))]
      exact h.task a ha
  place a ha:=by
    rcases mem_cons.mp ha with rfl | hal
    · exact .inl (update_self ..)
    have hne : a.1≠t:=fun he=>hnew a.2 (he▸hal)
    rw [update_of_ne hne]
    exact h.place a hal
  nodup:=by
    refine nodup_cons.mpr ⟨?_,h.nodup⟩
    intro hm
    obtain ⟨⟨t',frame'⟩,ha,rfl⟩:=mem_map.mp hm
    exact hnew frame' ha

theorem Linked.pop {w : Addr} (h : Linked node (some w) place l) :
    ∃l',l=w::l' ∧ Linked node (node w).next place l':=by
  obtain ⟨hpath,htask,hplace,hnodup⟩:=h
  cases l with
  | nil=>cases hpath
  | cons a l=>
    obtain ⟨he,hpath⟩:=hpath
    cases he
    exact ⟨l,rfl,hpath,fun b hb=>htask b (mem_cons_of_mem _ hb),
      fun b hb=>hplace b (mem_cons_of_mem _ hb),(nodup_cons.mp hnodup).2⟩

section

variable (h : Linked node waiters place l)
include h

theorem Linked.reuse {a : Addr} (ha : ¬(place a.1 = .queued a.2 ∨ place a.1 = .retrying a.2)) (n : WaitNode) :
    Linked (update node a n) waiters place l:=by
  have hne (b : Addr) (hb : b∈l) : b≠a:=by
    rintro rfl
    exact ha (h.place b hb)
  refine ⟨h.path.congr fun b hb=>?_,fun b hb=>?_,h.place,h.nodup⟩
  · rw [update_of_ne (hne b hb)]
  · rw [update_of_ne (hne b hb)]
    exact h.task b hb

theorem Linked.notMem (hp : place t = .retrying frame) (hm : (t,frame)∉l) (frame' : ℕ) : (t,frame')∉l:=by
  intro hm'
  rcases h.place _ hm' with hp' | hp'
  · cases hp.symm.trans hp'
  · cases hp.symm.trans hp'
    exact hm hm'

theorem Linked.notMem_of (hp : place t = .outside ∨ ∃frame,place t = .entering frame) (frame' : ℕ) : (t,frame')∉l:=by
  intro hm
  rcases h.place _ hm with hp' | hp' <;> rcases hp with hp | ⟨_,hp⟩ <;> cases hp.symm.trans hp'

end

end Linked

/-- Outside `unlock`, tasks blocked in `lock` stay blocked: nothing else wakes them, and `pick_next` does
not fall back to an idle task that is blocked there. -/
def Op.Quiet (s : System) : Op→Prop
  | .wake t=>¬s.Waiting t
  | .yield next | .tick next | .block next=>s.state next = .blocked→¬s.Waiting next
  | _=>True

structure Safe (s : System) (l : List Addr) : Prop where
  linked : Linked s.node s.waiters s.place l
  /-- A task on the list sleeps. -/
  asleep : ∀a∈l,s.state a.1 = .blocked ∧ s.woken a.1=false
  /-- A waiting task that is not on the list was taken off. -/
  waiting : ∀t frame,s.place t = .queued frame ∨ s.place t = .retrying frame →
    (t,frame)∈l ∨ s.woken t=true ∧ Runs (s.state t)
  woken : ∀t,s.woken t=true→s.Waiting t
  unique : ∀t t',s.holds t=true→s.holds t'=true→t=t'
  locked : s.locked=true↔∃t,s.holds t=true
  popped : s.locked=false→l≠[]→∃t,s.woken t=true

def Awake (s : System) : Prop:=∀frame,s.place s.current = .retrying frame→s.state s.current≠.blocked

variable {s s' : System} {l : List Addr}

theorem Fresh.safe (h : Fresh s) : Safe s [] where
  linked:=⟨h.waiters,fun _ ha=>(not_mem_nil ha).elim,fun _ ha=>(not_mem_nil ha).elim,nodup_nil⟩
  asleep _ ha:=(not_mem_nil ha).elim
  waiting t frame ht:=by simp [h.place] at ht
  woken t ht:=by simp [h.woken] at ht
  unique t _ ht:=by simp [h.holds] at ht
  locked:=by simp [h.locked,h.holds]
  popped _ hl:=absurd rfl hl

section

variable (h : Safe s l)
include h

theorem Safe.notMem (ha : Awake s)
    (hp : s.place s.current = .entering frame ∨ s.place s.current = .retrying frame) (frame' : ℕ) :
    (s.current,frame')∉l:=by
  rcases hp with hp | hp
  · exact h.linked.notMem_of (.inr ⟨_,hp⟩) frame'
  · exact h.linked.notMem hp (fun hm=>ha frame hp (h.asleep _ hm).1) frame'

theorem Safe.free (hl : s.locked=false) (t : ℕ) : s.holds t=false:=by
  cases ht : s.holds t with
  | false=>rfl
  | true=>exact absurd (h.locked.mpr ⟨t,ht⟩) (by simp [hl])

theorem Safe.take (hl : s.locked=false) : (∀t t',(take s).holds t=true→(take s).holds t'=true→t=t') ∧
    ((take s).locked=true↔∃t,(take s).holds t=true):=by
  have hcur (t : ℕ) (ht : (Mutex.take s).holds t=true) : t=s.current:=by
    by_contra hne
    simp only [Mutex.take,update_of_ne hne,h.free hl] at ht
    cases ht
  exact ⟨fun t t' ht ht'=>(hcur t ht).trans (hcur t' ht').symm,fun _=>⟨s.current,update_self ..⟩,fun _=>rfl⟩

/-- The section of `lock` keeps the invariant. -/
theorem Safe.tryOnce (ha : Awake s) (hp : s.place s.current = .entering frame ∨ s.place s.current = .retrying frame) :
    ∃l',Safe (tryOnce frame s) l':=by
  have hnew:=h.notMem ha hp
  have hne (a : Addr) (ha : a∈l) : a.1≠s.current:=fun he=>hnew a.2 (he▸ha)
  -- nothing changes for the other tasks
  have hother {t : ℕ} (ht : t≠s.current) (p : Place) : update s.place s.current p t=s.place t ∧
      update s.woken s.current false t=s.woken t:=
    ⟨update_of_ne ht ..,update_of_ne ht ..⟩
  have hwoken {t : ℕ} (ht : update s.woken s.current false t=true) : t≠s.current ∧ s.Waiting t:=by
    have hne : t≠s.current:=by
      rintro rfl
      rw [update_self] at ht
      cases ht
    rw [update_of_ne hne] at ht
    exact ⟨hne,h.woken t ht⟩
  unfold Mutex.tryOnce
  dsimp only
  split
  · rename_i hl
    refine ⟨(s.current,frame)::l,?_⟩
    constructor
    case linked => exact h.linked.push hnew
    case asleep =>
      intro a ha
      rcases mem_cons.mp ha with rfl | ha
      · exact ⟨update_self ..,update_self ..⟩
      · refine ⟨(update_of_ne (hne a ha) ..).trans (h.asleep a ha).1,?_⟩
        exact (update_of_ne (hne a ha) ..).trans (h.asleep a ha).2
    case waiting =>
      intro t f ht
      by_cases hc : t=s.current
      · subst hc
        simp only [System.moveTo,System.setState,update_self] at ht
        rcases ht with ht | ht
        · cases ht
          exact .inl mem_cons_self
        · cases ht
      · simp only [System.moveTo,System.setState,update_of_ne hc] at ht ⊢
        rcases h.waiting t f ht with hm | hm
        · exact .inl (mem_cons_of_mem _ hm)
        · exact .inr hm
    case woken =>
      intro t ht
      obtain ⟨hc,f,hw⟩:=hwoken ht
      exact ⟨f,by simpa only [System.moveTo,System.setState,update_of_ne hc] using hw⟩
    case unique => exact h.unique
    case locked => exact h.locked
    case popped =>
      intro hf
      exact absurd (hf.symm.trans hl) (by decide)
  · rename_i hl
    have hl : s.locked=false:=by simpa using hl
    refine ⟨l,?_⟩
    constructor
    case linked => exact h.linked.moveTo fun f hf=>(hnew f hf).elim
    case asleep => exact fun a ha=>⟨(h.asleep a ha).1,(hother (hne a ha) .outside).2.trans (h.asleep a ha).2⟩
    case waiting =>
      intro t f ht
      by_cases hc : t=s.current
      · subst hc
        simp [System.moveTo,Mutex.take] at ht
      · simp only [System.moveTo,Mutex.take,update_of_ne hc] at ht ⊢
        exact h.waiting t f ht
    case woken =>
      intro t ht
      obtain ⟨hc,f,hw⟩:=hwoken ht
      exact ⟨f,by simpa only [System.moveTo,Mutex.take,update_of_ne hc] using hw⟩
    case unique => exact (h.take hl).1
    case locked => exact (h.take hl).2
    case popped =>
      intro hf
      cases hf

theorem Safe.unlock (hc : s.holds s.current=true) : ∃l',Safe (unlock s) l':=by
  have hholds (t : ℕ) : update s.holds s.current false t=false:=by
    rw [update_apply]
    split
    · rfl
    rename_i hne
    cases ht : s.holds t with
    | false=>rfl
    | true=>exact absurd (h.unique t s.current ht hc) hne
  have hunique (t t' : ℕ) (ht : update s.holds s.current false t=true)
      (_ : update s.holds s.current false t'=true) : t=t':=by
    rw [hholds] at ht
    cases ht
  have hlocked : false=true↔∃t,update s.holds s.current false t=true:=by simp [hholds]
  unfold Mutex.unlock
  dsimp only
  split
  · rename_i hw
    have hl:=h.linked
    rw [hw] at hl
    obtain rfl:=hl.path.eq_nil_of_none
    exact ⟨[],h.linked,h.asleep,h.waiting,h.woken,hunique,hlocked,fun _ hne=>absurd rfl hne⟩
  · rename_i w hw
    have hl:=h.linked
    rw [hw] at hl
    obtain ⟨l',rfl,hl'⟩:=hl.pop
    have hne (a : Addr) (ha : a∈l') : a.1≠w.1:=by
      intro he
      exact (nodup_cons.mp hl.nodup).1 (he▸mem_map_of_mem ha)
    simp only [hl.task w mem_cons_self]
    refine ⟨l',?_⟩
    constructor
    case linked => exact hl'
    case asleep =>
      intro a ha
      have hs:=h.asleep a (mem_cons_of_mem _ ha)
      exact ⟨(update_of_ne (hne a ha) ..).trans hs.1,(update_of_ne (hne a ha) ..).trans hs.2⟩
    case waiting =>
      intro t f ht
      by_cases htw : t=w.1
      · subst htw
        exact .inr ⟨update_self ..,.inl (update_self ..)⟩
      simp only [System.setState,update_of_ne htw]
      refine (h.waiting t f ht).imp_left fun hm=>?_
      rcases mem_cons.mp hm with rfl | hm
      · exact absurd rfl htw
      · exact hm
    case woken =>
      intro t ht
      by_cases htw : t=w.1
      · subst htw
        exact ⟨w.2,hl.place w mem_cons_self⟩
      · exact h.woken t ((update_of_ne htw ..).symm.trans ht)
    case unique => exact hunique
    case locked => exact hlocked
    case popped => exact fun _ _=>⟨w.1,update_self ..⟩

theorem Safe.call (hp : s.place s.current = .outside) (frame : ℕ) : Safe (s.moveTo s.current (.entering frame)) l:=by
  have hnew:=h.linked.notMem_of (.inl hp)
  have hne {t f : ℕ} (ht : update s.place s.current (.entering frame) t = .queued f ∨
      update s.place s.current (.entering frame) t = .retrying f) : t≠s.current:=by
    rintro rfl
    simp at ht
  constructor
  case linked => exact h.linked.moveTo fun f hf=>(hnew f hf).elim
  case asleep => exact h.asleep
  case waiting =>
    intro t f ht
    have:=hne ht
    simp only [System.moveTo,update_of_ne this] at ht
    exact h.waiting t f ht
  case woken =>
    intro t ht
    obtain ⟨f,hf⟩:=h.woken t ht
    have hc : t≠s.current:=by
      rintro rfl
      rcases hf with hf | hf <;> cases hp.symm.trans hf
    exact ⟨f,by simpa only [System.moveTo,update_of_ne hc] using hf⟩
  case unique => exact h.unique
  case locked => exact h.locked
  case popped => exact h.popped

theorem Safe.yield (hp : s.place s.current = .queued frame) : Safe (s.moveTo s.current (.retrying frame)) l:=by
  constructor
  case linked =>
    refine h.linked.moveTo fun f hf=>.inr ?_
    rcases h.linked.place _ hf with hf | hf
    · cases hp.symm.trans hf
      rfl
    · cases hp.symm.trans hf
  case asleep => exact h.asleep
  case waiting =>
    intro t f ht
    by_cases hc : t=s.current
    · subst hc
      simp only [System.moveTo,update_self] at ht
      rcases ht with ht | ht <;> cases ht
      exact h.waiting s.current frame (.inl hp)
    · simp only [System.moveTo,update_of_ne hc] at ht
      exact h.waiting t f ht
  case woken =>
    intro t ht
    by_cases hc : t=s.current
    · subst hc
      exact ⟨frame,.inr (update_self ..)⟩
    · obtain ⟨f,hf⟩:=h.woken t ht
      exact ⟨f,by simpa only [System.moveTo,update_of_ne hc] using hf⟩
  case unique => exact h.unique
  case locked => exact h.locked
  case popped => exact h.popped

theorem Safe.states {state : ℕ→State} (current : ℕ)
    (hruns : ∀t,s.woken t=true→Runs (s.state t)→Runs (state t)) (hasleep : ∀a∈l,state a.1 = .blocked) :
    Safe {s with state:=state,current:=current} l where
  linked:=h.linked
  asleep a ha:=⟨hasleep a ha,(h.asleep a ha).2⟩
  waiting t f ht:=(h.waiting t f ht).imp_right fun hw=>⟨hw.1,hruns t hw.1 hw.2⟩
  woken:=h.woken
  unique:=h.unique
  locked:=h.locked
  popped:=h.popped

theorem Safe.doSwitch {next : ℕ} (hq : s.state next = .blocked→¬s.Waiting next) :
    Safe (doSwitch next s) l ∧ Awake (doSwitch next s):=by
  obtain ⟨state,he,hruns,hblocked,hnext⟩:=doSwitch_spec next s
  rw [he]
  constructor
  · refine h.states next (fun t _=>hruns t) fun a ha=>hblocked _ ?_ (h.asleep a ha).1
    rintro rfl
    exact hq (h.asleep a ha).1 ⟨a.2,h.linked.place a ha⟩
  intro frame hf hb
  rcases hnext with hr | ⟨-,hs⟩
  · cases hr.symm.trans hb
  · exact hq (hs▸hb) ⟨frame,.inr hf⟩

end

theorem notWaiting_of_outside (hp : s.place t = .outside) : ¬s.Waiting t:=by
  rintro ⟨f,hf | hf⟩ <;> cases hp.symm.trans hf

theorem Safe.tryLock (h : Safe s l) : Safe (tryLock s) l:=by
  unfold Mutex.tryLock
  split
  · exact h
  rename_i hl
  have hl : s.locked=false:=by simpa using hl
  exact {h with unique:=(h.take hl).1,locked:=(h.take hl).2,popped:=fun hf=>by cases hf}

/-- Each step keeps the invariant. -/
theorem Safe.step (h : Safe s l) (ha : Awake s) {op : Op} (hq : op.Quiet s) (hs : step s op=some s') :
    ∃l',Safe s' l' ∧ Awake s':=by
  cases op with
  | call frame=>
    obtain ⟨hp,hs⟩:=Option.ite_none_right_eq_some.mp hs
    cases hs
    refine ⟨l,h.call hp frame,fun f hf=>?_⟩
    simp [System.moveTo] at hf
  | guarded=>
    have htry {frame : ℕ} (hp : s.place s.current = .entering frame ∨ s.place s.current = .retrying frame) :
        ∃l',Safe (Mutex.tryOnce frame s) l' ∧ Awake (Mutex.tryOnce frame s):=by
      obtain ⟨l',hl'⟩:=h.tryOnce ha hp
      refine ⟨l',hl',fun f hf=>?_⟩
      unfold Mutex.tryOnce at hf
      dsimp only at hf
      split at hf <;> simp [System.moveTo,System.setState,Mutex.take] at hf
    simp only [Mutex.step] at hs
    split at hs
    · cases hs
      exact htry (.inl ‹_›)
    · cases hs
      exact htry (.inr ‹_›)
    · cases hs
  | yield next=>
    simp only [Mutex.step] at hs
    split at hs
    · rename_i frame hp
      obtain ⟨-,hs⟩:=Option.ite_none_right_eq_some.mp hs
      cases hs
      refine ⟨l,(h.yield hp).doSwitch fun hb hw=>hq hb ?_⟩
      by_cases hc : next=s.current
      · exact ⟨frame,.inl (hc▸hp)⟩
      · obtain ⟨f,hf⟩:=hw
        exact ⟨f,by simpa only [System.moveTo,update_of_ne hc] using hf⟩
    · cases hs
  | unlock=>
    obtain ⟨⟨hp,hc⟩,hs⟩:=Option.ite_none_right_eq_some.mp hs
    cases hs
    obtain ⟨l',hl'⟩:=h.unlock hc
    refine ⟨l',hl',fun f hf=>?_⟩
    unfold Mutex.unlock at hf
    dsimp only at hf
    split at hf
    · cases hp.symm.trans hf
    · split at hf <;> cases hp.symm.trans hf
  | tryLock=>
    obtain ⟨hp,hs⟩:=Option.ite_none_right_eq_some.mp hs
    cases hs
    refine ⟨l,h.tryLock,fun f hf=>?_⟩
    unfold Mutex.tryLock at hf
    split at hf <;> cases hp.symm.trans hf
  | tick next=>
    obtain ⟨-,hs⟩:=Option.ite_none_right_eq_some.mp hs
    cases hs
    exact ⟨l,h.doSwitch hq⟩
  | block next=>
    obtain ⟨⟨hp,-⟩,hs⟩:=Option.ite_none_right_eq_some.mp hs
    cases hs
    have hblock : Safe (s.setState s.current .blocked) l:=by
      refine h.states s.current (fun t hw hr=>?_) fun a ha=>?_
      · rw [update_of_ne]
        · exact hr
        · rintro rfl
          exact notWaiting_of_outside hp (h.woken _ hw)
      · rw [update_apply]
        split
        · rfl
        · exact (h.asleep a ha).1
    refine ⟨l,hblock.doSwitch fun hb=>?_⟩
    by_cases hc : next=s.current
    · rw [hc]
      exact notWaiting_of_outside hp
    · exact hq ((update_of_ne hc ..).symm.trans hb)
  | wake t=>
    obtain ⟨-,hs⟩:=Option.ite_none_right_eq_some.mp hs
    cases hs
    refine ⟨l,h.states s.current (fun u _ hr=>?_) (fun a ha=>?_),fun f hf=>?_⟩
    · rw [update_apply]
      split
      · exact .inl rfl
      · exact hr
    · rw [update_of_ne]
      · exact (h.asleep a ha).1
      · rintro rfl
        exact hq ⟨a.2,h.linked.place a ha⟩
    · simp only [System.setState,update_apply]
      split
      · decide
      · exact ha f hf
  | reuse a n=>
    simp only [Mutex.step] at hs
    split at hs
    · cases hs
    rename_i hlock
    cases hs
    exact ⟨l,{h with linked:=h.linked.reuse (fun hp=>hlock (.inr hp)) n},ha⟩

theorem reach_safe (h : Reach Fresh step (fun op s=>op.Quiet s) s) : ∃l,Safe s l ∧ Awake s:=by
  refine h.invariant (I:=fun s=>∃l,Safe s l ∧ Awake s) (fun s h=>⟨[],h.safe,fun f hf=>?_⟩)
    fun s s' op hi hq hs=>?_
  · cases (h.place _).symm.trans hf
  · obtain ⟨l,hl,ha⟩:=hi
    exact hl.step ha hq hs

/-- At most one task holds the mutex, and no waiting task is lost. -/
theorem mutex_safe (h : Reach Fresh step (fun op s=>op.Quiet s) s) :
    (∀t t',s.holds t=true→s.holds t'=true→t=t') ∧ (s.locked=true↔∃t,s.holds t=true) ∧
    ∃l,Path s.next s.waiters l none ∧ (∀t,s.Waiting t→(l.map fun a=>(s.node a).task).count (some t)=1 ∨
    some t∉(l.map fun a=>(s.node a).task) ∧ s.woken t=true ∧ Runs (s.state t)) ∧ (s.locked=false→l≠[] →
    ∃t,s.Waiting t ∧ some t∉(l.map fun a=>(s.node a).task) ∧ s.woken t=true ∧ Runs (s.state t)):=by
  obtain ⟨l,hl,-⟩:=reach_safe h
  have htasks : (l.map fun a=>(s.node a).task)=(l.map Prod.fst).map some:=by
    rw [map_map]
    exact map_congr_left fun a ha=>hl.linked.task a ha
  have hoff (t : ℕ) (ht : s.woken t=true) : t∉l.map Prod.fst:=by
    intro hm
    obtain ⟨a,ha,rfl⟩:=mem_map.mp hm
    exact absurd (ht.symm.trans (hl.asleep a ha).2) (by decide)
  have hruns (t : ℕ) (ht : s.woken t=true) : Runs (s.state t):=by
    obtain ⟨f,hf⟩:=hl.woken t ht
    rcases hl.waiting t f hf with hm | hm
    · exact absurd (mem_map_of_mem hm) (hoff t ht)
    · exact hm.2
  refine ⟨hl.unique,hl.locked,l,hl.linked.path,fun t ht=>?_,fun hf hne=>?_⟩
  · rw [htasks]
    obtain ⟨f,hf⟩:=ht
    rcases hl.waiting t f hf with hm | hm
    · left
      exact count_eq_one_of_mem (hl.linked.nodup.map fun _ _=>Option.some.inj)
        (mem_map_of_mem (mem_map_of_mem hm))
    · exact .inr ⟨by simpa using hoff t hm.1,hm⟩
  · obtain ⟨t,ht⟩:=hl.popped hf hne
    exact ⟨t,hl.woken t ht,by simpa [htasks] using hoff t ht,ht,hruns t ht⟩

instance (s : System) (t : ℕ) : Decidable (s.Waiting t):=
  match h : s.place t with
  | .queued f=>.isTrue ⟨f,.inl h⟩
  | .retrying f=>.isTrue ⟨f,.inr h⟩
  | .outside=>.isFalse (notWaiting_of_outside h)
  | .entering _=>.isFalse fun ⟨_,hf⟩=>by rcases hf with hf | hf <;> cases h.symm.trans hf

instance (s : System) : ∀op : Op,Decidable (op.Quiet s)
  | .wake t=>inferInstanceAs (Decidable (¬s.Waiting t))
  | .yield next | .tick next | .block next=>inferInstanceAs (Decidable (s.state next = .blocked→¬s.Waiting next))
  | .call _ | .guarded | .unlock | .tryLock | .reuse _ _=>.isTrue trivial

/-- Task 1 runs, tasks 0 and 2 are ready, and the mutex is new. -/
def newMutex : System where
  locked:=false
  owner:=0
  waiters:=none
  node:=fun _=>⟨none,none⟩
  state:=fun t=>if t=1 then .running else .ready
  place:=fun _=>.outside
  current:=1
  holds:=fun _=>false
  woken:=fun _=>false

theorem fresh_newMutex : Fresh newMutex:=⟨rfl,rfl,fun _=>rfl,fun _=>rfl,fun _=>rfl⟩

/-- Task 1 has the mutex, task 2 waits for it and is woken. -/
theorem mutex_safe_handed : ∃s : System,(s.woken 2=true ∧ s.locked=false) ∧
    ∀t t',s.holds t=true→s.holds t'=true→t=t':=by
  have hstart : Reach Fresh step (fun op s=>op.Quiet s) newMutex:=.start fresh_newMutex
  obtain ⟨s,hs,hw⟩:=hstart.exists_replay [.call 8,.guarded,.tick 2,.call 16,.guarded,.yield 1,.unlock]
    (fun s=>s.woken 2=true ∧ s.locked=false) (by decide)
  exact ⟨s,hw,(mutex_safe hs).1⟩

end Knail.Mutex
