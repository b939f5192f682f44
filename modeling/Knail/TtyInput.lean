import Knail.Keyboard
import Knail.Rings

/-!
# Reading from the terminal

`tty_read` turns key events into bytes. A key may stand for several bytes; they go through a ring
of eight, from which this read and later ones take them. The events are those that `read_event`
returns, and a call that needs one more than there are waits.
-/
namespace Knail.Tty

open Keyboard List Option

def pushbackSize : ℕ:=8

/-- `tty_pushback`, `tty_pb_len` and `tty_pb_head`. -/
structure Pushback where
  buf : ℕ→UInt8
  len : ℕ
  head : ℕ

namespace Pushback

def initial : Pushback:=⟨fun _=>0,0,0⟩

/-- `tty_push_seq`. What does not fit is dropped. -/
def pushSeq : List UInt8→Pushback→Pushback
  | [], p=>p
  | c::seq, p=>
    if p.len<pushbackSize then
      pushSeq seq {p with buf:=Function.update p.buf ((p.head+p.len)%pushbackSize) c,len:=p.len+1}
    else p

/-- `tty_pb_pop`. -/
def pop (p : Pushback) : UInt8×Pushback:=
  (p.buf p.head,{p with head:=(p.head+1)%pushbackSize,len:=p.len-1})

/-- The inner loop of `tty_read`, with room for `n` bytes. -/
def drain : ℕ→Pushback→List UInt8×Pushback
  | 0, p=>([],p)
  | n+1, p=>
    if 0<p.len then
      match drain n p.pop.2 with
      | (bytes,p')=>(p.pop.1::bytes,p')
    else ([],p)

end Pushback

def escape (rest : List UInt8) : List UInt8:=0x1B::0x5B::rest

/-- The sequence of a key without a character. The key `KEY_INS` has none. -/
def sequence (scancode : UInt8) : Option (List UInt8):=
  if scancode=0xC8 then some (escape [0x41]) -- up
  else if scancode=0xD0 then some (escape [0x42]) -- down
  else if scancode=0xCD then some (escape [0x43]) -- right
  else if scancode=0xCB then some (escape [0x44]) -- left
  else if scancode=0xC7 then some (escape [0x48]) -- home
  else if scancode=0xCF then some (escape [0x46]) -- end
  else if scancode=0xD3 then some (escape [0x33,0x7E]) -- delete
  else if scancode=0xC9 then some (escape [0x35,0x7E]) -- page up
  else if scancode=0xD1 then some (escape [0x36,0x7E]) -- page down
  else none

/-- A call has returned, with the events that it has left, or it waits for an event. -/
inductive Reading
  | returned (bytes : List UInt8) (p : Pushback) (events : List KeyEvent)
  | waiting (bytes : List UInt8) (p : Pushback)

/-- The loop of `tty_read` with the bytes stored so far. -/
def readLoop (len : ℕ) : List KeyEvent→List UInt8→Pushback→Reading
  | [], dst, p=>
    match p.drain (len-dst.length) with
    | (bytes,p)=>if (dst++bytes).length=len then .returned (dst++bytes) p [] else .waiting (dst++bytes) p
  | e::events, dst, p=>
    match p.drain (len-dst.length) with
    | (bytes,p)=>
      if (dst++bytes).length=len then .returned (dst++bytes) p (e::events)
      else if e.pressed=false then readLoop len events (dst++bytes) p
      else if e.ascii≠0 then
        if e.ascii=0x0A ∨ e.ascii=0x0D then .returned (dst++bytes++[e.ascii]) p events
        else readLoop len events (dst++bytes++[e.ascii]) p
      else readLoop len events (dst++bytes) (p.pushSeq ((sequence e.scancode).getD []))

/-- `tty_read`; `buf` tells whether the pointer is not null. -/
def ttyRead (buf : Bool) (len : ℕ) (events : List KeyEvent) (p : Pushback) : Except KError Reading:=
  if buf=false ∨ len=0 then .error .invalidArgument else .ok (readLoop len events [] p)

/-- The only reader: the bytes that its calls have returned, the bytes that a waiting call has
stored, and the events to come. -/
structure Reader where
  pushback : Pushback
  returned : List UInt8
  waiting : Option (List UInt8)
  events : List KeyEvent

/-- Calls one after the other. After a call that waits there is no other one. -/
def Reader.reads : List (Bool×ℕ)→Reader→Reader
  | [], r=>r
  | (buf,len)::calls, r=>
    match ttyRead buf len r.events r.pushback with
    | .error _=>reads calls r
    | .ok (.returned bytes p events)=>reads calls {r with pushback:=p,returned:=r.returned++bytes,events:=events}
    | .ok (.waiting bytes p)=>{r with pushback:=p,waiting:=some bytes,events:=[]}

/-- What an event stands for: the character of a pressed key, or its sequence. -/
def translation (e : KeyEvent) : List UInt8:=
  if e.pressed=false then [] else if e.ascii≠0 then [e.ascii] else (sequence e.scancode).getD []

namespace Pushback

variable {p : Pushback}

def contents (p : Pushback) : List UInt8:=ringContents pushbackSize p.buf p.head p.len

structure WellFormed (p : Pushback) : Prop where
  head : p.head<pushbackSize
  len : p.len≤pushbackSize

theorem initial_wellFormed : initial.WellFormed:=⟨by decide,by decide⟩

theorem pushSeq_spec {seq : List UInt8} (h : p.WellFormed) (hfit : p.len+seq.length≤pushbackSize) :
    (p.pushSeq seq).WellFormed ∧ (p.pushSeq seq).contents=p.contents++seq:=by
  induction seq generalizing p with
  | nil=>simpa [pushSeq] using h
  | cons c seq ih=>
    rw [length_cons] at hfit
    rw [pushSeq,if_pos (by omega)]
    obtain ⟨hwf,hcontents⟩:=ih (p:={ p with
      buf:=Function.update p.buf ((p.head+p.len)%pushbackSize) c,len:=p.len+1 })
      ⟨h.head,by dsimp only; omega⟩ (by dsimp only; omega)
    refine ⟨hwf,hcontents.trans ?_⟩
    rw [contents,ringContents_push (by omega),contents,append_assoc]
    rfl

theorem pop_spec (h : p.WellFormed) (hlen : 0<p.len) : p.pop.2.WellFormed ∧ p.contents=p.pop.1::p.pop.2.contents:=by
  refine ⟨⟨Nat.mod_lt _ (by decide),Nat.le_trans (Nat.sub_le ..) h.len⟩,?_⟩
  obtain ⟨n,hn⟩ : ∃n,p.len=n+1:=⟨p.len-1,by omega⟩
  rw [contents,hn,ringContents_pop,Nat.mod_eq_of_lt h.head,contents,pop,hn]
  rfl

theorem drain_spec (h : p.WellFormed) (n : ℕ) :
    (p.drain n).2.WellFormed ∧ p.contents=(p.drain n).1++(p.drain n).2.contents ∧
    (p.drain n).1.length≤n ∧ ((p.drain n).1.length=n ∨ (p.drain n).2.len=0):=by
  induction n generalizing p with
  | zero=>exact ⟨h,rfl,Nat.le_refl _,.inl rfl⟩
  | succ n ih=>
    rw [drain]
    split
    case isTrue hlen =>
      obtain ⟨hwf,hpop⟩:=pop_spec h hlen
      obtain ⟨hwf',hcontents,hle,hend⟩:=ih hwf
      refine ⟨hwf',?_,?_,?_⟩
      · rw [hpop,hcontents]
        rfl
      · simpa using hle
      · simpa using hend
    case isFalse hlen => exact ⟨h,rfl,Nat.zero_le _,.inr (by dsimp only; omega)⟩

end Pushback

theorem length_sequence (scancode : UInt8) : ((sequence scancode).getD []).length≤4:=by
  unfold sequence
  split_ifs <;> decide

/-- A reading stands for the bytes in the ring at its start, after those in `dst`, and the
translations of the events that it has taken. -/
def Reading.Delivers (start : List UInt8) (events : List KeyEvent) : Reading→Prop
  | .returned bytes p rest=>
    p.WellFormed ∧ ∃taken,events=taken++rest ∧ bytes++p.contents=start++taken.flatMap translation
  | .waiting bytes p=>p.WellFormed ∧ bytes++p.contents=start++events.flatMap translation

theorem Reading.Delivers.cons {start start' : List UInt8} {e : KeyEvent} {events : List KeyEvent} {r : Reading}
    (h : r.Delivers start' events) (hstart : start'=start++translation e) : r.Delivers start (e::events):=by
  subst hstart
  cases r with
  | returned bytes p rest=>
    obtain ⟨hwf,taken,rfl,hbytes⟩:=h
    refine ⟨hwf,e::taken,rfl,?_⟩
    rw [hbytes,flatMap_cons,append_assoc]
  | waiting bytes p=>
    refine ⟨h.1,?_⟩
    rw [h.2,flatMap_cons,append_assoc]

/-- The ring is empty whenever an event is read, so that every sequence fits. -/
theorem readLoop_delivers {len : ℕ} (events : List KeyEvent) (dst : List UInt8) (p : Pushback) (h : p.WellFormed)
    (hlen : dst.length≤len) : (readLoop len events dst p).Delivers (dst++p.contents) events:=by
  induction events generalizing dst p with
  | nil=>
    obtain ⟨hwf,hcontents,hle,hend⟩:=p.drain_spec h (len-dst.length)
    rw [readLoop]
    dsimp only
    rw [hcontents,←append_assoc]
    split
    · exact ⟨hwf,[],rfl,(append_nil _).symm⟩
    · exact ⟨hwf,(append_nil _).symm⟩
  | cons e events ih=>
    obtain ⟨hwf,hcontents,hle,hend⟩:=p.drain_spec h (len-dst.length)
    rw [readLoop]
    dsimp only
    rw [hcontents,←append_assoc]
    generalize (p.drain (len-dst.length)).1=bytes at *
    generalize (p.drain (len-dst.length)).2=p' at *
    have hroom : (dst++bytes).length≤len:=by
      rw [length_append]
      omega
    split
    case isTrue => exact ⟨hwf,[],rfl,(append_nil _).symm⟩
    case isFalse hfull =>
      have hempty : p'.len=0:=by
        rw [length_append] at hfull
        omega
      have hnil : p'.contents=[]:=by rw [Pushback.contents,hempty,ringContents_zero]
      have hmore (c : UInt8) : (dst++bytes++[c]).length≤len:=by
        rw [length_append,length_singleton]
        omega
      rw [hnil,append_nil]
      split
      case isTrue hpressed =>
        refine (ih _ _ hwf hroom).cons ?_
        rw [hnil,translation,if_pos hpressed]
      case isFalse hpressed =>
        split
        case isTrue hascii =>
          have htrans : translation e=[e.ascii]:=by rw [translation,if_neg hpressed,if_pos hascii]
          split
          case isTrue =>
            refine ⟨hwf,[e],rfl,?_⟩
            rw [hnil,append_nil,flatMap_singleton,htrans]
          case isFalse =>
            refine (ih _ _ hwf (hmore _)).cons ?_
            rw [hnil,append_nil,htrans]
        case isFalse hascii =>
          have hfit : p'.len+((sequence e.scancode).getD []).length≤pushbackSize:=by
            rw [hempty,Nat.zero_add]
            exact Nat.le_trans (length_sequence _) (by decide)
          obtain ⟨hwf',hpush⟩:=p'.pushSeq_spec hwf hfit
          refine (ih _ _ hwf' hroom).cons ?_
          rw [hpush,hnil,nil_append,translation,if_neg hpressed,if_neg hascii]

/-- The events taken so far stand for the bytes returned, stored and pushed back. -/
def Reader.Faithful (all : List KeyEvent) (r : Reader) : Prop:=
  r.pushback.WellFormed ∧ ∃taken,all=taken++r.events ∧
    r.returned++r.waiting.getD []++r.pushback.contents=taken.flatMap translation

theorem Reader.Faithful.reads {all : List KeyEvent} {r : Reader} (h : r.Faithful all) (hw : r.waiting=none)
    (calls : List (Bool×ℕ)) : (Reader.reads calls r).Faithful all:=by
  induction calls generalizing r with
  | nil=>exact h
  | cons call calls ih=>
    obtain ⟨hwf,taken,hall,hbytes⟩:=h
    rw [hw,getD_none,append_nil] at hbytes
    rw [Reader.reads,ttyRead]
    by_cases hcall : call.1=false ∨ call.2=0
    · rw [if_pos hcall]
      exact ih ⟨hwf,taken,hall,by rw [hw,getD_none,append_nil,hbytes]⟩ hw
    rw [if_neg hcall]
    have hloop:=readLoop_delivers r.events [] r.pushback hwf (Nat.zero_le call.2)
    cases hr : readLoop call.2 r.events [] r.pushback with
    | returned bytes p events=>
      rw [hr] at hloop
      obtain ⟨hwf',new,hnew,hnewBytes⟩:=hloop
      refine ih ⟨hwf',taken++new,?_,?_⟩ hw
      · rw [hall,hnew,append_assoc]
      · rw [hw,getD_none,append_nil,append_assoc,hnewBytes,nil_append,←append_assoc,hbytes,flatMap_append]
    | waiting bytes p=>
      rw [hr] at hloop
      refine ⟨hloop.1,all,(append_nil _).symm,?_⟩
      rw [getD_some,append_assoc,hloop.2,nil_append,←append_assoc,hbytes,hall,flatMap_append]

/-- The terminal with no byte pushed back, before the first event. -/
def Reader.new (events : List KeyEvent) : Reader:=⟨.initial,[],none,events⟩

/-- For any calls and any events, the bytes returned and those pushed back are the translations of
the events taken. Bytes that a waiting call has stored stand between them. -/
theorem tty_delivers (calls : List (Bool×ℕ)) (events : List KeyEvent) :
    ∃taken,events=taken++(Reader.reads calls (.new events)).events ∧
    (Reader.reads calls (.new events)).returned++(Reader.reads calls (.new events)).waiting.getD [] ++
    (Reader.reads calls (.new events)).pushback.contents=taken.flatMap translation:=by
  have hnew : (Reader.new events).Faithful events:=⟨Pushback.initial_wellFormed,[],rfl,rfl⟩
  exact (hnew.reads rfl calls).2

/-- The up arrow read with a buffer of two bytes: the third byte stays in the ring. -/
example : (Reader.reads [(true,2)] (.new [⟨0,0xC8,true,false,false,false⟩])).returned=[0x1B,0x5B]:=by
  decide

end Knail.Tty
