import Knail.SchedulerShape
import Knail.Transitions

/-!
# Waiting for key presses

The interrupt handler puts key events into a ring and wakes the registered reader; `read_event` takes an event out or
registers and blocks. Between two steps of a task the keyboard and the timer may interrupt it.
-/
namespace Knail.Keyboard
open Function Scheduler Option

structure KeyEvent where
  ascii : UInt8
  scancode : UInt8
  pressed : Bool
  shift : Bool
  ctrl : Bool
  alt : Bool
  deriving DecidableEq, Repr

def bufSize : ℕ:=64

/-- The ring of events and the reader that asked to be woken. -/
structure Driver where
  buf : ℕ→KeyEvent
  head : ℕ
  tail : ℕ
  waitingTask : Option ℕ

def Driver.hasEvent (k : Driver) : Bool:=k.head≠k.tail

def Driver.popEvent (k : Driver) : KeyEvent×Driver:=
  (k.buf k.tail,{k with tail:=(k.tail+1)%bufSize})

/-- Where a task is in `read_event`: not in it, at the head of its loop, registered with
interrupts enabled again, or inside `block_current`. -/
inductive Place
  | outside | top | registered | sleeping
  deriving DecidableEq, Repr

/-- The driver, the scheduler, and for every task its place and the events it was given. -/
structure System where
  keyboard : Driver
  sched : Sched
  place : ℕ→Place
  given : ℕ→List KeyEvent

/-- The handler's part that stores an event. A full ring drops it. -/
def pushEvent (e : KeyEvent) (s : System) : Option System:=
  let k:=s.keyboard
  let nxt:=(k.head+1)%bufSize
  if nxt=k.tail then some s
  else
    let k:={k with buf:=update k.buf k.head e,head:=nxt}
    match k.waitingTask with
    | none=>some {s with keyboard:=k}
    | some t=>(wake (some t) s.sched).map fun (sched,_)=>
      { s with keyboard:={k with waitingTask:=none},sched:=sched }

def System.moveTo (s : System) (p : ℕ) (l : Place) : System:={s with place:=update s.place p l}

/-- The next step of task `p` in `read_event`, which is the current task. -/
def readEvent (p : ℕ) (s : System) : Option System:=
  match s.place p with
  | .outside=>none
  | .top=>
    if s.keyboard.hasEvent then
      let (e,k):=s.keyboard.popEvent
      some {s.moveTo p .outside with keyboard:=k,given:=update s.given p (s.given p++[e])}
    else some { s.moveTo p .registered with keyboard:={s.keyboard with waitingTask:=some p} }
  | .registered=>(blockCurrent s.sched).map fun (sched,_)=>{s.moveTo p .sleeping with sched:=sched}
  | .sleeping=>some { s.moveTo p .top with keyboard:={s.keyboard with waitingTask:=none} }

/-- The current task calls `read_event`, or goes on in it; or an interrupt arrives. -/
inductive Op
  | call
  | read
  | irq1 (e : KeyEvent)
  | timer

/-- The idle task never reads. The result `none` is a step that is not possible. -/
def step (s : System) : Op→Option System
  | .call=>s.sched.currentTask.bind fun p=>
    if p=idleTask ∨ s.place p≠.outside then none else some (s.moveTo p .top)
  | .read=>s.sched.currentTask.bind fun p=>readEvent p s
  | .irq1 e=>pushEvent e s
  | .timer=>(tick s.sched).map fun (sched,_)=>{s with sched:=sched}

/-- The driver after `keyboard::init`, with every task elsewhere. -/
structure Fresh (s : System) : Prop where
  empty : s.keyboard.head=0 ∧ s.keyboard.tail=0
  waiting : s.keyboard.waitingTask=none
  outside : ∀t,s.place t = .outside

/-- A task sleeps in `read_event` and no push will wake it. -/
def Lost (s : System) (t : ℕ) : Prop:=
  s.place t = .sleeping ∧ (s.sched.task t).state = .blocked ∧ s.keyboard.waitingTask≠some t

instance (s : System) (t : ℕ) : Decidable (Lost s t):=inferInstanceAs (Decidable (_ ∧ _))

/-- Two things do not happen: a push while the registered task is not yet asleep, and a
step of `read_event` that overwrites or clears the registration of another task. -/
def Op.Careful : Op→System→Prop
  | .irq1 _, s=>∀t∈s.keyboard.waitingTask,s.place t≠.registered
  | .read, s=>∀p∈s.sched.currentTask,∀t∈s.keyboard.waitingTask,
    (s.place p = .top ∧ s.keyboard.hasEvent=false ∨ s.place p = .sleeping)→t=p
  | _, _=>True

instance (op : Op) (s : System) : Decidable (op.Careful s):=by
  cases op <;> unfold Op.Careful <;> infer_instance

/-- No task becomes blocked except those that the predicate allows. -/
def Blocks (P : ℕ→Prop) (s s' : Sched) : Prop:=
  ∀t,(s'.task t).state = .blocked→(s.task t).state = .blocked ∨ P t

variable {P : ℕ→Prop} {s s' : Sched} {ev : List Event}

theorem Blocks.trans {s'' : Sched} (h : Blocks P s s') (h' : Blocks P s' s'') : Blocks P s s'':=
  fun t ht=>(h' t ht).elim (h t) .inr

theorem blocks_modify (s : Sched) (p : ℕ) {f : Task→Task}
    (hf : (f (s.task p)).state = .blocked→(s.task p).state = .blocked ∨ P p) : Blocks P s (s.modify p f):=by
  intro t ht
  by_cases htp : t=p
  · subst htp
    rw [Sched.task_modify_self] at ht
    exact hf ht
  · rw [Sched.task_modify_of_ne s f htp] at ht
    exact .inl ht

theorem doSwitch_blocks {nxt : ℕ} (h : doSwitch nxt s=some (s',ev)) : Blocks P s s':=by
  obtain ⟨prev,-,h⟩:=bind_eq_some_iff.mp h
  split at h
  · cases h
    exact fun _=>.inl
  cases h
  have h1 : Blocks P s (if (s.task prev).state = .running then s.modify prev ({· with state:=.ready}) else s):=by
    split
    · exact blocks_modify _ _ (by simp)
    · exact fun _=>.inl
  generalize (if (s.task prev).state = .running then s.modify prev ({· with state:=.ready}) else s)=s1 at h1 ⊢
  have h2 : Blocks P s1 (s1.modify nxt fun t=>{t with state:=.running,timeslice:=t.quantum}):=
    blocks_modify _ _ (by simp)
  exact fun t ht=>h1.trans h2 t ht

theorem reapZombies_task {n : ℕ} (h : reapZombies n s=some (s',ev)) : s'.task=s.task:=by
  induction n generalizing s ev with
  | zero=>cases h
  | succ n ih=>
    simp only [reapZombies] at h
    split at h
    · cases h
      rfl
    obtain ⟨⟨s1,ev1⟩,h1,h2⟩:=bind_eq_some_iff.mp h
    cases h2
    exact (ih h1).trans rfl

theorem tick_blocks (h : tick s=some (s',ev)) : Blocks P s s':=by
  simp only [tick,bind_eq_bind] at h
  obtain ⟨⟨s1,ev1⟩,h1,h⟩:=bind_eq_some_iff.mp h
  have hreap : Blocks P s s1:=by
    intro t ht
    rw [reapZombies_task h1] at ht
    exact .inl ht
  split at h
  · cases h
    exact hreap
  rename_i cur hcur
  have h2 : Blocks P s (if 0<(s1.task cur).timeslice then
      s1.modify cur (fun t=>{t with timeslice:=t.timeslice-1}) else s1):=by
    refine hreap.trans ?_
    split
    · exact blocks_modify _ _ .inl
    · exact fun _=>.inl
  generalize (if 0<(s1.task cur).timeslice then
    s1.modify cur (fun t=>{t with timeslice:=t.timeslice-1}) else s1)=s2 at h h2
  split at h
  · obtain ⟨nxt,-,h⟩:=bind_eq_some_iff.mp h
    obtain ⟨⟨s3,ev3⟩,h3,h⟩:=bind_eq_some_iff.mp h
    cases h
    exact h2.trans (doSwitch_blocks h3)
  · cases h
    exact h2

theorem blockCurrent_blocks {cur : ℕ} (hc : s.currentTask=some cur) (h : blockCurrent s=some (s',ev)) :
    Blocks (· = cur) s s':=by
  simp only [blockCurrent,bind_eq_bind,hc,bind_some] at h
  obtain ⟨nxt,-,h⟩:=bind_eq_some_iff.mp h
  obtain ⟨⟨s3,ev3⟩,h3,h⟩:=bind_eq_some_iff.mp h
  cases h
  have h1 : Blocks (· = cur) s (s.modify cur ({· with state:=.blocked})):=blocks_modify _ _ fun _=>.inr rfl
  exact h1.trans (doSwitch_blocks h3)

theorem wake_blocks {p : ℕ} (h : wake (some p) s=some (s',ev)) : Blocks P s s' ∧ (s'.task p).state≠.blocked:=by
  simp only [wake] at h
  split at h
  · rename_i hp
    cases h
    exact ⟨fun _=>.inl,hp⟩
  have h1 : Blocks P s (s.modify p ({· with state:=.ready})):=blocks_modify _ _ (by simp)
  have hp : ((s.modify p ({· with state:=.ready})).task p).state≠.blocked:=by simp
  split at h
  · have h2 : Blocks (fun _=>False) (s.modify p ({· with state:=.ready})) s':=doSwitch_blocks h
    exact ⟨h1.trans (doSwitch_blocks h),fun hb=>(h2 p hb).elim hp id⟩
  · cases h
    exact ⟨h1,hp⟩

/-- Every reader that is about to sleep or asleep is the registered one. -/
structure Registered (s : System) : Prop where
  registered : ∀t,s.place t = .registered→s.keyboard.waitingTask=some t
  sleeping : ∀t,s.place t = .sleeping→(s.sched.task t).state = .blocked→s.keyboard.waitingTask=some t

variable {S S' : System}

theorem Registered.push (h : Registered S) {e : KeyEvent} (hok : (Op.irq1 e).Careful S) (hs : pushEvent e S=some S') :
    Registered S':=by
  simp only [pushEvent] at hs
  split at hs
  · cases hs
    exact h
  split at hs
  · cases hs
    exact ⟨h.registered,h.sleeping⟩
  rename_i t hw
  obtain ⟨⟨sched,ev⟩,hwake,he⟩:=map_eq_some_iff.mp hs
  cases he
  obtain ⟨hb,ht⟩:=wake_blocks hwake
  -- the registered task is the only candidate, and it is awake now
  refine ⟨fun u hu=>?_,fun u hu hub=>?_⟩
  · have hut:=h.registered u hu
    exact absurd hu (hok u hut)
  have hut:=h.sleeping u hu ((hb u hub).resolve_right id)
  obtain rfl:=some.inj (hw.symm.trans hut)
  exact absurd hub ht

theorem Registered.alone (h : Registered S) {p t : ℕ} (hne : t≠p) (hw : ∀u,S.keyboard.waitingTask=some u→u=p) :
    S.place t≠.registered ∧ (S.place t = .sleeping→(S.sched.task t).state≠.blocked):=
  ⟨fun ht=>hne (hw t (h.registered t ht)),fun ht hb=>hne (hw t (h.sleeping t ht hb))⟩

theorem registered_moveTo {p : ℕ} {l : Place} (hplace : S'.place=update S.place p l)
    (hp : l = .registered ∨ l = .sleeping→S'.keyboard.waitingTask=some p)
    (hreg : ∀t,t≠p→S.place t = .registered→S'.keyboard.waitingTask=some t)
    (hsleep : ∀t,t≠p→S.place t = .sleeping→(S'.sched.task t).state = .blocked →
    S'.keyboard.waitingTask=some t) : Registered S':=by
  have hcases {t : ℕ} {l' : Place} (ht : S'.place t=l') : t=p ∧ l=l' ∨ t≠p ∧ S.place t=l':=by
    rw [hplace] at ht
    by_cases htp : t=p
    · rw [htp,update_self] at ht
      exact .inl ⟨htp,ht⟩
    · rw [update_of_ne htp] at ht
      exact .inr ⟨htp,ht⟩
  refine ⟨fun t ht=>?_,fun t ht hb=>?_⟩
  · rcases hcases ht with ⟨rfl,hl⟩ | ⟨htp,ht⟩
    · exact hp (.inl hl)
    · exact hreg t htp ht
  rcases hcases ht with ⟨rfl,hl⟩ | ⟨htp,ht⟩
  · exact hp (.inr hl)
  · exact hsleep t htp ht hb

theorem Registered.read (h : Registered S) {p : ℕ} (hp : S.sched.currentTask=some p) (hok : Op.read.Careful S)
    (hs : readEvent p S=some S') : Registered S':=by
  cases hl : S.place p with
  | outside=>simp [readEvent,hl] at hs
  | top=>
    simp only [readEvent,hl] at hs
    split at hs
    · cases hs
      exact registered_moveTo rfl (by simp) (fun t _=>h.registered t) fun t _=>h.sleeping t
    rename_i hempty
    cases hs
    have hw u (hu : S.keyboard.waitingTask=some u):=hok p hp u hu (.inl ⟨hl,by simpa using hempty⟩)
    refine registered_moveTo rfl (fun _=>rfl) (fun t htp ht=>?_) fun t htp ht hb=>?_
    · exact absurd ht (h.alone htp hw).1
    · exact absurd hb ((h.alone htp hw).2 ht)
  | registered=>
    simp only [readEvent,hl] at hs
    obtain ⟨⟨sched,ev⟩,hblock,he⟩:=map_eq_some_iff.mp hs
    cases he
    have hb:=blockCurrent_blocks hp hblock
    refine registered_moveTo rfl (fun _=>h.registered p hl) (fun t _=>h.registered t) fun t htp ht htb=>?_
    exact h.sleeping t ht ((hb t htb).resolve_right htp)
  | sleeping=>
    simp only [readEvent,hl] at hs
    cases hs
    have hw u (hu : S.keyboard.waitingTask=some u):=hok p hp u hu (.inr hl)
    refine registered_moveTo rfl (by simp) (fun t htp ht=>?_) fun t htp ht hb=>?_
    · exact absurd ht (h.alone htp hw).1
    · exact absurd hb ((h.alone htp hw).2 ht)

theorem Registered.step (h : Registered S) {op : Op} (hok : op.Careful S) (hs : step S op=some S') : Registered S':=by
  cases op with
  | call=>
    obtain ⟨p,-,hs⟩:=bind_eq_some_iff.mp hs
    split at hs
    · cases hs
    · cases hs
      exact registered_moveTo rfl (by simp) (fun t _=>h.registered t) fun t _=>h.sleeping t
  | read=>
    obtain ⟨p,hp,hs⟩:=bind_eq_some_iff.mp hs
    exact h.read hp hok hs
  | irq1 e=>exact h.push hok hs
  | timer=>
    obtain ⟨⟨sched,ev⟩,htick,he⟩:=map_eq_some_iff.mp hs
    cases he
    refine ⟨h.registered,fun t ht hb=>h.sleeping t ht ?_⟩
    exact (tick_blocks (P:=fun _=>False) htick t hb).resolve_right id

/-- In careful runs no wakeup is lost: a reader that sleeps while the ring holds an event is
the registered one. -/
theorem no_lost_wakeup (h : Reach Fresh step Op.Careful S) : ¬(S.keyboard.hasEvent=true ∧ ∃t,Lost S t):=by
  have hreg : Registered S:=by
    refine h.invariant (fun s hf=>?_) fun s s' op hi hok hs=>hi.step hok hs
    exact ⟨fun t ht=>by simp [hf.outside] at ht,fun t ht=>by simp [hf.outside] at ht⟩
  rintro ⟨-,t,hl,hb,hw⟩
  exact hw (hreg.sleeping t hl hb)

/-- Two tasks besides the idle task, the first one running. -/
def twoReaders : Sched:=
  let blank : Task:=⟨none,0,none,.ready,0,0,0,0,0,none,none,none⟩
  let s:=(spawn (some 1) (some 0x100) 64 1 (init (fun _=>blank) 0)).1
  let s:=(spawn (some 2) (some 0x200) 64 1 s).1
  ((tick s).getD (s,[])).1

def started : System:=⟨⟨fun _=>⟨0,0,false,false,false,false⟩,0,0,none⟩,twoReaders,fun _=>.outside,fun _=>[]⟩

theorem started_fresh : Fresh started:=⟨⟨rfl,rfl⟩,rfl,fun _=>rfl⟩

def keyA : KeyEvent:=⟨97,0x1E,true,false,false,false⟩

/-- A reader sleeps, is woken by the key and is given it. -/
theorem no_lost_wakeup_given : ∃s,Reach Fresh step Op.Careful s ∧ s.given 2=[keyA] ∧
    ¬(s.keyboard.hasEvent=true ∧ ∃t,Lost s t):=by
  have h₀ : Reach Fresh step Op.Careful started:=.start started_fresh
  obtain ⟨s,hs,hg⟩:=h₀.exists_replay [.call,.read,.read,.irq1 keyA,.timer,.timer,.read,.read]
    (fun s=>s.given 2=[keyA]) (by decide)
  exact ⟨s,hs,hg,no_lost_wakeup hs⟩

/-- The key arrives between the registration and `block_current`: the wakeup finds a running
task, and the task goes to sleep unregistered with its key in the ring. -/
theorem wakeup_lost : ∃s,Reach Fresh step (fun _ _=>True) s ∧ s.keyboard.hasEvent=true ∧ Lost s 2:=by
  have h₀ : Reach Fresh step (fun _ _=>True) started:=.start started_fresh
  exact h₀.exists_replay [.call,.read,.irq1 keyA,.read] (fun s=>s.keyboard.hasEvent=true ∧ Lost s 2) (by decide)

end Knail.Keyboard
