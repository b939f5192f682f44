import Knail.Keyboard

/-!
# Scancodes and modifier keys

The part of the interrupt handler before `push_event`: the prefix byte, the modifier flags, and
the event of every other key. Each flag stands for two physical keys. What those keys do is read
off the bytes alone, by cutting them into codes.
-/
namespace Knail.Keyboard

open List Option

/-- US layout, lower case; all further entries are zero. -/
def scancodeMap : List Char:=
  "\x00\x001234567890-=\x08".toList ++ "\tqwertyuiop[]\n".toList ++ "\x00asdfghjkl;'\x60".toList ++
    "\x00\\zxcvbnm,./\x00".toList ++ "*\x00 ".toList

def scancodeShift : List Char:=
  "\x00\x00!@#$%^&*()_+\x08".toList ++ "\tQWERTYUIOP\x7b\x7d\n".toList ++ "\x00ASDFGHJKL:\"~".toList ++
    "\x00|ZXCVBNM<>?\x00".toList ++ "*\x00 ".toList

structure Flags where
  shiftHeld : Bool
  ctrlHeld : Bool
  altHeld : Bool
  capsLock : Bool
  e0Prefix : Bool
  deriving DecidableEq, Repr

def Flags.initial : Flags:=⟨false,false,false,false,false⟩

/-- The keys behind the prefix that give an event: arrows, home, end, page up and down, delete, insert. -/
def extendedKeys : List UInt8:=[0x48,0x50,0x4B,0x4D,0x47,0x4F,0x49,0x51,0x53,0x52]

/-- `keyboard_handler` for a byte: the flags, and the event that it pushes. -/
def keyboardHandler (sc : UInt8) (d : Flags) : Flags×Option KeyEvent:=
  if sc=0xE0 then ({d with e0Prefix:=true},none)
  else
    let released : Bool:=sc&&&0x80≠0
    let key:=sc&&&0x7F
    if d.e0Prefix then
      let d:={d with e0Prefix:=false}
      if key∈extendedKeys then (d,some ⟨0,0x80|||key,!released,d.shiftHeld,d.ctrlHeld,d.altHeld⟩)
      else if key=0x1D then ({d with ctrlHeld:=!released},none)
      else if key=0x38 then ({d with altHeld:=!released},none)
      else (d,none)
    else if key=0x2A ∨ key=0x36 then ({d with shiftHeld:=!released},none)
    else if key=0x1D then ({d with ctrlHeld:=!released},none)
    else if key=0x38 then ({d with altHeld:=!released},none)
    else if key=0x3A ∧ released=false then ({d with capsLock:=!d.capsLock},none)
    else
      let table:=if d.shiftHeld ^^ d.capsLock then scancodeShift else scancodeMap
      let ascii:=(table.getD key.toNat '\x00').toNat.toUInt8
      (d,some ⟨ascii,key,!released,d.shiftHeld,d.ctrlHeld,d.altHeld⟩)

def handled (d : Flags) : List UInt8→Flags
  | []=>d
  | sc::bytes=>handled (keyboardHandler sc d).1 bytes

/-- A make or break code, with or without the prefix. -/
structure Code where
  extended : Bool
  byte : UInt8
  deriving DecidableEq, Repr

def Code.released (c : Code) : Bool:=c.byte&&&0x80≠0
def Code.key (c : Code) : UInt8:=c.byte&&&0x7F

/-- Cut a sequence of bytes into codes; the flag says that a prefix precedes it. -/
def codes (extended : Bool) : List UInt8→List Code
  | []=>[]
  | sc::bytes=>if sc=0xE0 then codes true bytes else ⟨extended,sc⟩::codes false bytes

inductive ModKey
  | leftShift | rightShift | leftCtrl | rightCtrl | leftAlt | rightAlt
  deriving DecidableEq, Repr

def Code.isOf (c : Code) : ModKey→Bool
  | .leftShift=>c.extended=false ∧ c.key=0x2A
  | .rightShift=>c.extended=false ∧ c.key=0x36
  | .leftCtrl=>c.extended=false ∧ c.key=0x1D
  | .rightCtrl=>c.extended=true ∧ c.key=0x1D
  | .leftAlt=>c.extended=false ∧ c.key=0x38
  | .rightAlt=>c.extended=true ∧ c.key=0x38

inductive Modifier
  | shift | ctrl | alt
  deriving DecidableEq, Repr

def Modifier.keys : Modifier→List ModKey
  | .shift=>[.leftShift,.rightShift]
  | .ctrl=>[.leftCtrl,.rightCtrl]
  | .alt=>[.leftAlt,.rightAlt]

def Flags.held (d : Flags) : Modifier→Bool
  | .shift=>d.shiftHeld
  | .ctrl=>d.ctrlHeld
  | .alt=>d.altHeld

def lastCode (p : Code→Bool) (cs : List Code) : Option Code:=cs.reverse.find? p

/-- A key is down if its most recent code is a make code. -/
def Down (bytes : List UInt8) (k : ModKey) : Prop:=∃c∈lastCode (Code.isOf · k) (codes false bytes),c.released=false

/-- The most recent code of the keys of a modifier. -/
def Modifier.lastCode (m : Modifier) (cs : List Code) : Option Code:=
  Keyboard.lastCode (fun c=>m.keys.any c.isOf) cs

/-- One key of the modifier was released last, and another one is still down. -/
def OneReleased (bytes : List UInt8) (m : Modifier) : Prop:=
  ∃c∈m.lastCode (codes false bytes),c.released=true ∧ ∃k∈m.keys,c.isOf k=false ∧ Down bytes k

theorem lastCode_cons (p : Code→Bool) (c : Code) (cs : List Code) :
    lastCode p (c::cs)=(lastCode p cs).or (if p c then some c else none):=by
  rw [lastCode,reverse_cons,find?_append,lastCode,find?_singleton]

theorem lastCode_of_imp {p q : Code→Bool} {c : Code} {cs : List Code} (h : lastCode q cs=some c) (hc : p c=true)
    (hpq : ∀c,p c=true→q c=true) : lastCode p cs=some c:=by
  obtain ⟨-,as,bs,hcs,has⟩:=find?_eq_some_iff_append.mp h
  refine find?_eq_some_iff_append.mpr ⟨hc,as,bs,hcs,fun a ha=>?_⟩
  have hq:=has a ha
  cases hp : p a with
  | false=>rfl
  | true=>simp [hpq a hp] at hq

theorem ne_of_mem_extendedKeys {key : UInt8} (h : key∈extendedKeys) : key≠0x1D ∧ key≠0x38:=by
  constructor <;> rintro rfl <;> revert h <;> decide

theorem held_keyboardHandler {sc : UInt8} (hsc : sc≠0xE0) (d : Flags) (m : Modifier) :
    (keyboardHandler sc d).1.e0Prefix=false ∧ (keyboardHandler sc d).1.held m =
    if m.keys.any (Code.isOf ⟨d.e0Prefix,sc⟩) then !(Code.released ⟨d.e0Prefix,sc⟩) else d.held m:=by
  obtain ⟨shift,ctrl,alt,caps,e0⟩:=d
  rw [keyboardHandler,if_neg hsc]
  cases e0 with
  | true=>
    rw [if_pos rfl]
    split
    case isTrue hkey =>
      obtain ⟨hctrl,halt⟩:=ne_of_mem_extendedKeys hkey
      cases m <;> simp [Modifier.keys,Code.isOf,Code.key,Flags.held,hctrl,halt]
    case isFalse =>
      split_ifs <;> cases m <;> simp_all [Modifier.keys,Code.isOf,Code.key,Code.released,Flags.held]
  | false=>
    rw [if_neg Bool.false_ne_true]
    split_ifs <;> cases m <;> simp_all [Modifier.keys,Code.isOf,Code.key,Code.released,Flags.held]

theorem held_handled (d : Flags) (bytes : List UInt8) (m : Modifier) :
    (handled d bytes).held m=((m.lastCode (codes d.e0Prefix bytes)).map (!·.released)).getD (d.held m):=by
  induction bytes generalizing d with
  | nil=>rfl
  | cons sc bytes ih=>
    rw [handled,ih,codes]
    split
    case isTrue hsc =>
      subst hsc
      rfl
    case isFalse hsc =>
      obtain ⟨he0,hheld⟩:=held_keyboardHandler hsc d m
      rw [he0,hheld]
      simp only [Modifier.lastCode,lastCode_cons]
      cases lastCode (fun c=>m.keys.any c.isOf) (codes false bytes) with
      | some c=>rfl
      | none=>split <;> rfl

theorem exists_lastCode {bytes : List UInt8} {m : Modifier} {c : Code} (hc : m.lastCode (codes false bytes)=some c) :
    ∃k∈m.keys,c.isOf k=true ∧ lastCode (Code.isOf · k) (codes false bytes)=some c:=by
  have hany:=find?_some hc
  obtain ⟨k,hk,hck⟩:=any_eq_true.mp hany
  exact ⟨k,hk,hck,lastCode_of_imp hc hck fun c h=>any_eq_true.mpr ⟨k,hk,h⟩⟩

/-- The flag of a modifier says whether one of its keys is down, unless one of the two keys was
released while the other one is down. -/
theorem held_iff_down (bytes : List UInt8) :
    (∀m : Modifier,(handled .initial bytes).held m=true↔∃k∈m.keys,Down bytes k) ↔
    ∀m : Modifier,¬OneReleased bytes m:=by
  refine forall_congr' fun m=>?_
  rw [held_handled,show Flags.initial.e0Prefix=false from rfl]
  cases hc : m.lastCode (codes false bytes) with
  | none=>
    have hup (k : ModKey) (hk : k∈m.keys) : ¬Down bytes k:=by
      rintro ⟨c,hlast,-⟩
      have hmem:=mem_of_find?_eq_some hlast
      have hof : c.isOf k=true:=find?_some (p:=(Code.isOf · k)) hlast
      exact find?_eq_none.mp hc c hmem (any_eq_true.mpr ⟨k,hk,hof⟩)
    have hfalse : Flags.initial.held m=false:=by cases m <;> rfl
    simp only [OneReleased,hc,map_none,getD_none,hfalse]
    simpa using hup
  | some c=>
    obtain ⟨k,hk,hck,hlast⟩:=exists_lastCode hc
    simp only [OneReleased,hc,map_some,getD_some,Bool.not_eq_true',mem_some_iff,exists_eq_left']
    cases hr : c.released with
    | false=>
      have hdown : ∃k∈m.keys,Down bytes k:=⟨k,hk,c,hlast,hr⟩
      simpa using hdown
    | true=>
      -- a key that is down is not the one that was released
      have hother (k' : ModKey) (hk' : k'∈m.keys) (hdown : Down bytes k') : c.isOf k'=false:=by
        by_contra hck'
        obtain ⟨c',hc',hr'⟩:=hdown
        have hlast':=lastCode_of_imp hc (by simpa using hck')
          fun c h=>any_eq_true.mpr ⟨k',hk',h⟩
        obtain rfl:=some.inj (hlast'.symm.trans hc')
        simp [hr] at hr'
      simp only [Bool.true_eq_false,false_iff,true_and,not_iff_not]
      exact ⟨fun ⟨k',hk',hd⟩=>⟨k',hk',hother k' hk' hd,hd⟩,fun ⟨k',hk',_,hd⟩=>⟨k',hk',hd⟩⟩

/-- Both shift keys are pressed and the left one is released. -/
theorem shift_released_early : (handled .initial [0x2A,0x36,0xAA]).held .shift=false ∧
    Down [0x2A,0x36,0xAA] .rightShift:=by
  refine ⟨by decide,⟨false,0x36⟩,by decide,by decide⟩

end Knail.Keyboard
