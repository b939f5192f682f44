import Knail.ShellLine

/-!
# The line that the editor returns

A line editor on lists, fed byte by byte, says what the keys are for. `read_line` reads the bytes
of an escape sequence inside one iteration and moves the characters in its buffer.
-/
namespace Knail.Shell
open Function List

inductive Mode
  | text | escape | bracket | digit (d : UInt8)
  deriving DecidableEq

/-- The text, the cursor in it and the sequence that has begun. -/
structure Ideal where
  text : List UInt8
  cur : ℕ
  mode : Mode

namespace Ideal

def move (r : Ideal) (key : UInt8) : Ideal:=
  if key=0x43 then {r with cur:=min (r.cur+1) r.text.length,mode:=.text}
  else if key=0x44 then {r with cur:=r.cur-1,mode:=.text}
  else if key=0x48 then {r with cur:=0,mode:=.text}
  else if key=0x46 then {r with cur:=r.text.length,mode:=.text}
  else {r with mode:=.text}

def feed (max : ℕ) (r : Ideal) (b : UInt8) : Ideal:=
  match r.mode with
  | .text=>
    if b=0x08 ∨ b=127 then
      if 0 < r.cur then {r with text:=r.text.eraseIdx (r.cur-1),cur:=r.cur-1} else r
    else if b=0x1B then {r with mode:=.escape}
    else if 32≤b ∧ b≤126 ∧ r.text.length < max-1 then
      {r with text:=r.text.insertIdx r.cur b,cur:=r.cur+1}
    else r
  | .escape=>{r with mode:=if b=0x5B then .bracket else .text}
  | .bracket=>if 0x30≤b ∧ b≤0x39 then {r with mode:=.digit b} else r.move b
  | .digit d=>{r with text:=if d=0x33 ∧ b=0x7E then r.text.eraseIdx r.cur else r.text,mode:=.text}

/-- The line, if a line end outside of a sequence arrives. -/
def run (max : ℕ) : Ideal→List UInt8→Option (List UInt8)
  | _, []=>none
  | r, b::bytes=>if r.mode = .text ∧ (b=0x0D ∨ b=0x0A) then some r.text else run max (r.feed max b) bytes

end Ideal

/-- `read_line` from a state of its locals on: the buffer and the length that it returns. -/
def readLine (max : ℤ) : ℕ→Editor→List Read→Option Editor
  | 0, _, _=>none
  | fuel+1, e, input=>
    match iterate max e input with
    | none=>none
    | some (.more e _ input)=>readLine max fuel e input
    | some (.done ..)=>some {e with buf:=update e.buf e.len 0}

/-- The states at the beginnings of the iterations. -/
inductive Reached (max : ℤ) (e₀ : Editor) (input₀ : List Read) : Editor→List Read→Prop
  | start : Reached max e₀ input₀ e₀ input₀
  | step {e e' : Editor} {input input' : List Read} {output : List UInt8} (h : Reached max e₀ input₀ e input)
      (hs : iterate max e input=some (.more e' output input')) : Reached max e₀ input₀ e' input'

/-- The elements of the buffer that are read or written from `a` to `b` by a loop that moves them by one. -/
def moved (a b : ℕ) : List ℕ:=(List.range' a (b-a)).flatMap fun i=>[i,i+1]

/-- A line is written from the buffer unless the cursor is at its end. -/
def shown (cur len : ℕ) : List ℕ:=if cur=len then [] else List.range len

/-- The indices at which an iteration reads or writes the buffer. -/
def accesses (max : ℤ) (e : Editor) : List Read→List ℕ
  | .byte c::rest=>
    if c=0x0D ∨ c=0x0A then [e.len]
    else if c=0x08 ∨ c=127 then
      if 0<e.cur then moved (e.cur-1) (e.len-1)++shown (e.cur-1) (e.len-1) else []
    else if c=0x1B then
      match rest with
      | .byte 0x5B :: .byte 0x33::tmp::_=>
        if tmp.value=0x7E ∧ e.cur<e.len then moved e.cur (e.len-1)++List.range (e.len-1) else []
      | _=>[]
    else if c<32 ∨ 0x80 ≤ c then []
    else if (e.len : ℤ) < max-1 then moved e.cur e.len++[e.cur]++shown (e.cur+1) (e.len+1)
    else []
  | _=>[]

/-- The editor holds the text, with room for the end of the string. -/
structure Holds (max : ℕ) (e : Editor) (r : Ideal) : Prop where
  text : e.text=r.text
  cur : e.cur=r.cur
  mode : r.mode = .text
  cur_le : e.cur≤e.len
  len_lt : e.len < max

variable {max : ℕ} {e : Editor} {r : Ideal} {bytes : List UInt8}

theorem getElem?_text (e : Editor) (i : ℕ) : e.text[i]? = if i<e.len then some (e.buf i) else none:=by
  rw [Editor.text,getElem?_map]
  split
  · next h => rw [getElem?_range h,Option.map_some]
  · next h => rw [getElem?_eq_none (by rw [length_range]; omega),Option.map_none]

theorem length_text (e : Editor) : e.text.length=e.len:=by simp [Editor.text]

theorem text_shiftDown {a : ℕ} (ha : a<e.len) (cur : ℕ) :
    Editor.text ⟨shiftDown a (e.len-1) e.buf,e.len-1,cur⟩=e.text.eraseIdx a:=by
  refine ext_getElem? fun i=>?_
  rw [getElem?_eraseIdx,getElem?_text,getElem?_text,getElem?_text]
  dsimp only
  rw [shiftDown_apply]
  split_ifs <;> first | rfl | omega

theorem text_shiftUp {a : ℕ} (ha : a≤e.len) (c : UInt8) (cur : ℕ) :
    Editor.text ⟨update (shiftUp a e.len e.buf) a c,e.len+1,cur⟩=e.text.insertIdx a c:=by
  refine ext_getElem? fun i=>?_
  rw [getElem?_insertIdx,getElem?_text,getElem?_text,getElem?_text,length_text]
  dsimp only
  rw [update_apply,shiftUp_apply]
  split_ifs <;> first | rfl | omega

theorem lt_of_mem_moved {a b i : ℕ} (hi : i∈moved a b) (hb : b < max) : i < max:=by
  simp only [moved,mem_flatMap,mem_range'_1,mem_cons,not_mem_nil,or_false] at hi
  omega

theorem lt_of_mem_shown {cur len i : ℕ} (hi : i∈shown cur len) : i<len:=by
  unfold shown at hi
  split at hi
  · cases hi
  · exact mem_range.mp hi

theorem Holds.accesses_lt (h : Holds max e r) {input : List Read} {i : ℕ} (hi : i∈accesses max e input) : i < max:=by
  have hcur:=h.cur_le
  have hlen:=h.len_lt
  unfold accesses at hi
  split at hi
  · split at hi
    · rw [mem_singleton.mp hi]
      exact hlen
    split at hi
    · split at hi
      · rcases mem_append.mp hi with hi | hi
        · exact lt_of_mem_moved hi (by omega)
        · have:=lt_of_mem_shown hi
          omega
      · cases hi
    · split at hi
      · split at hi
        · split at hi
          · rcases mem_append.mp hi with hi | hi
            · exact lt_of_mem_moved hi (by omega)
            · have:=mem_range.mp hi
              omega
          · cases hi
        · cases hi
      · split at hi
        · cases hi
        split at hi
        · rcases mem_append.mp hi with hi | hi
          · rcases mem_append.mp hi with hi | hi
            · exact lt_of_mem_moved hi hlen
            · rw [mem_singleton.mp hi]
              omega
          · have:=lt_of_mem_shown hi
            omega
        · cases hi
  · cases hi

/-- The iteration goes on with a line that the ideal editor holds as well, and the ideal editor gets
from there to the same result. -/
def Advances (max : ℕ) (result : Option (List UInt8)) (bytes : List UInt8) (o : Outcome) : Prop:=
  ∃e out bytes' r,o = .more e out (bytes'.map .byte) ∧ bytes'.length≤bytes.length ∧ Holds max e r ∧
    result=r.run max bytes'

theorem feed_printable {b : UInt8} (hb : Printable b) (hr : r.mode = .text) : r.feed max b =
    if r.text.length < max-1 then {r with text:=r.text.insertIdx r.cur b,cur:=r.cur+1} else r:=by
  have hne {c : UInt8} (hc : c<0x20 ∨ 0x7F ≤ c) : b≠c:=by
    rintro rfl
    exact hc.elim (UInt8.not_lt.mpr hb.1) (UInt8.not_le.mpr hb.2)
  have hle : b≤126:=Nat.le_of_lt_succ hb.2
  rw [Ideal.feed,hr]
  rw [if_neg (not_or.mpr ⟨hne (.inl (by decide)),hne (.inr (by decide))⟩),if_neg (hne (.inl (by decide)))]
  simp only [show 32≤b from hb.1,hle,true_and]

theorem run_cons {b : UInt8} (hb : r.mode = .text→¬(b=0x0D ∨ b=0x0A)) :
    r.run max (b::bytes)=(r.feed max b).run max bytes:=if_neg fun h=>hb h.1 h.2

section

variable (h : Holds max e r)
include h

theorem Holds.backspace {b : UInt8} (hb : b=0x08 ∨ b=127) :
    Advances max ((r.feed max b).run max bytes) bytes (backspace e (bytes.map .byte)):=by
  have hfeed : r.feed max b=if 0 < r.cur then {r with text:=r.text.eraseIdx (r.cur-1),cur:=r.cur-1} else r:=by
    rw [Ideal.feed,h.mode]
    exact if_pos hb
  have hcur:=h.cur_le
  have hlen:=h.len_lt
  rw [hfeed,←h.cur]
  unfold Shell.backspace
  split
  · refine ⟨_,_,bytes,_,rfl,Nat.le_refl _,?_,rfl⟩
    refine ⟨?_,rfl,h.mode,?_,?_⟩
    · rw [text_shiftDown (by omega),h.text]
    · dsimp only
      omega
    · dsimp only
      omega
  · exact ⟨_,_,bytes,_,rfl,Nat.le_refl _,h,rfl⟩

theorem Holds.insert {b : UInt8} (hb : Printable b) :
    Advances max ((r.feed max b).run max bytes) bytes (insert max e b (bytes.map .byte)):=by
  have hcur:=h.cur_le
  rw [feed_printable hb h.mode,←h.cur,←h.text,length_text]
  unfold Shell.insert
  split
  · rw [if_pos (by omega)]
    refine ⟨_,_,bytes,_,rfl,Nat.le_refl _,?_,rfl⟩
    refine ⟨text_shiftUp hcur b _,rfl,h.mode,?_,?_⟩
    · dsimp only
      omega
    · dsimp only
      omega
  · rw [if_neg (by omega)]
    exact ⟨_,_,bytes,_,rfl,Nat.le_refl _,h,rfl⟩

theorem Holds.delete (key tmp : UInt8) :
    Holds max (delete e key tmp).1 (Ideal.feed max {r with mode:=.digit key} tmp):=by
  have hcur:=h.cur_le
  have hlen:=h.len_lt
  unfold Shell.delete
  dsimp only [Ideal.feed]
  split
  · next hk =>
    rw [if_pos ⟨hk.1,hk.2.1⟩]
    refine ⟨?_,h.cur,rfl,?_,?_⟩
    · rw [text_shiftDown hk.2.2,h.text,h.cur]
    · dsimp only
      omega
    · dsimp only
      omega
  · next hk =>
    refine ⟨?_,h.cur,rfl,hcur,hlen⟩
    split
    · next hk' =>
      -- at the end of the line there is nothing to delete
      have hend : e.len≤e.cur:=Nat.le_of_not_lt fun hlt=>hk ⟨hk'.1,hk'.2,hlt⟩
      rw [eraseIdx_of_length_le (by rwa [←h.text,length_text,←h.cur]),h.text]
    · exact h.text

theorem Holds.arrow (key : UInt8) : Holds max (arrow e key).1 (Ideal.move {r with mode:=.bracket} key):=by
  have hcur:=h.cur_le
  have hlen:=h.len_lt
  have htext : r.text.length=e.len:=by rw [←h.text,length_text]
  have hmoved {cur : ℕ} (hc : cur≤e.len) : Holds max {e with cur:=cur} ⟨r.text,cur,.text⟩:=⟨h.text,rfl,rfl,hc,hlen⟩
  have hsame {cur : ℕ} (hc : e.cur=cur) : Holds max e ⟨r.text,cur,.text⟩:=⟨h.text,hc,rfl,hcur,hlen⟩
  unfold Shell.arrow
  split
  · change Holds max _ ⟨r.text,min (r.cur+1) r.text.length,.text⟩
    rw [htext,←h.cur]
    split
    · rw [Nat.min_eq_left (by omega)]
      exact hmoved (by omega)
    · exact hsame (by omega)
  · change Holds max _ ⟨r.text,r.cur-1,.text⟩
    rw [←h.cur]
    split
    · exact hmoved (by omega)
    · exact hsame (by omega)
  · split
    · exact hmoved (Nat.zero_le _)
    · exact hsame (by omega)
  · change Holds max _ ⟨r.text,r.text.length,.text⟩
    rw [htext]
    split
    · exact hmoved (Nat.le_refl _)
    · exact hsame (by omega)
  · next h1 h2 h3 h4 =>
    rw [Ideal.move,if_neg h1,if_neg h2,if_neg h3,if_neg h4]
    exact hsame h.cur

theorem Holds.escape (bytes : List UInt8) :
    escape e (bytes.map .byte)=none ∧ Ideal.run max {r with mode:=.escape} bytes=none ∨
      ∃o,escape e (bytes.map .byte)=some o ∧ Advances max (Ideal.run max {r with mode:=.escape} bytes) bytes o:=by
  have hr : ({r with mode:=.text} : Ideal)=r:=by
    rw [←h.mode]
  have hnot {m : Mode} (hm : m≠.text) (b : UInt8) : m = .text→¬(b=0x0D ∨ b=0x0A):=fun h=>absurd h hm
  rcases bytes with _ | ⟨x,bytes⟩
  · exact .inl ⟨rfl,rfl⟩
  rw [run_cons (hnot (by simp) x)]
  by_cases hx : x=0x5B
  · subst hx
    change _ ∧ Ideal.run max {r with mode:=.bracket} bytes=none ∨
      ∃o,_ ∧ Advances max (Ideal.run max {r with mode:=.bracket} bytes) _ o
    rcases bytes with _ | ⟨key,bytes⟩
    · exact .inl ⟨rfl,rfl⟩
    rw [run_cons (hnot (by simp) key)]
    by_cases hd : 0x30≤key ∧ key≤0x39
    · rw [show Ideal.feed max {r with mode:=.bracket} key={r with mode:=.digit key} from if_pos hd]
      rcases bytes with _ | ⟨tmp,bytes⟩
      · exact .inl ⟨if_pos hd,rfl⟩
      exact .inr ⟨_,if_pos hd,_,_,bytes,_,rfl,by simp only [length_cons]; omega,h.delete key tmp,rfl⟩
    · rw [show Ideal.feed max {r with mode:=.bracket} key=Ideal.move {r with mode:=.bracket} key from if_neg hd]
      exact .inr ⟨_,if_neg hd,_,_,bytes,_,rfl,by simp only [length_cons]; omega,h.arrow key,rfl⟩
  · refine .inr ⟨.more e [] (bytes.map .byte),?_,e,[],bytes,r,rfl,by simp,h,?_⟩
    · unfold Shell.escape
      split <;> simp_all
    rw [Ideal.feed]
    rw [if_neg hx,hr]

/-- One iteration of `read_line` and the ideal editor on the bytes that it reads. -/
theorem Holds.iterate (bytes : List UInt8) : iterate max e (bytes.map .byte)=none ∧ r.run max bytes=none ∨
    (∃line out,iterate max e (bytes.map .byte)=some (.done line out) ∧ r.run max bytes=some e.text) ∨
    ∃o b rest,bytes=b::rest ∧ iterate max e (bytes.map .byte)=some o ∧ Advances max (r.run max bytes) rest o:=by
  rcases bytes with _ | ⟨b,bytes⟩
  · exact .inl ⟨rfl,rfl⟩
  rw [map_cons]
  unfold Shell.iterate
  dsimp only
  by_cases hend : b=0x0D ∨ b=0x0A
  · rw [if_pos hend]
    refine .inr (.inl ⟨_,_,rfl,?_⟩)
    rw [h.text]
    exact if_pos ⟨h.mode,hend⟩
  rw [if_neg hend,run_cons fun _=>hend]
  by_cases hback : b=0x08 ∨ b=127
  · rw [if_pos hback]
    exact .inr (.inr ⟨_,b,bytes,rfl,rfl,h.backspace hback⟩)
  rw [if_neg hback]
  by_cases hesc : b=0x1B
  · rw [if_pos hesc,show r.feed max b={r with mode:=.escape} by
      rw [Ideal.feed,h.mode]
      rw [if_neg hback,if_pos hesc]]
    rcases h.escape bytes with hnone | ⟨o,ho,hadv⟩
    · exact .inl hnone
    · exact .inr (.inr ⟨o,b,bytes,rfl,ho,hadv⟩)
  rw [if_neg hesc]
  refine .inr (.inr ?_)
  by_cases hctl : b<32 ∨ 0x80≤b
  · rw [if_pos hctl]
    have hfeed : r.feed max b=r:=by
      rw [Ideal.feed,h.mode]
      rw [if_neg hback,if_neg hesc,if_neg]
      rintro ⟨h1,h2,-⟩
      exact hctl.elim (UInt8.not_lt.mpr h1) fun h3=>absurd (UInt8.le_trans h3 h2) (by decide)
    rw [hfeed]
    exact ⟨_,b,bytes,rfl,rfl,e,[],bytes,r,rfl,Nat.le_refl _,h,rfl⟩
  · rw [if_neg hctl]
    exact ⟨_,b,bytes,rfl,rfl,h.insert (printable_of_not hback hctl)⟩

end

theorem Reached.holds {e0 : Editor} {input : List Read} (h : Reached max e0 (bytes.map .byte) e input)
    (h0 : Holds max e0 r) : ∃(bytes' : List UInt8) (r' : Ideal),input=bytes'.map .byte ∧ Holds max e r':=by
  induction h with
  | start=>exact ⟨bytes,r,rfl,h0⟩
  | step _ hs ih=>
    obtain ⟨bytes1,r1,rfl,h1⟩:=ih
    rcases h1.iterate bytes1 with ⟨hnone,-⟩ | ⟨line,out,hdone,-⟩ | ⟨o,b,rest,-,ho,e2,out,bytes2,r2,rfl,-,h2,-⟩
    · cases hnone.symm.trans hs
    · cases hdone.symm.trans hs
    · cases ho.symm.trans hs
      exact ⟨bytes2,r2,rfl,h2⟩

theorem Holds.readLine (h : Holds max e r) {fuel : ℕ} (hfuel : bytes.length<fuel) :
    (readLine max fuel e (bytes.map .byte)).map Editor.text=r.run max bytes ∧
    ∀e'∈readLine max fuel e (bytes.map .byte),e'.buf e'.len=0:=by
  induction fuel generalizing e r bytes with
  | zero=>cases hfuel
  | succ fuel ih=>
    rw [Shell.readLine]
    rcases h.iterate bytes with ⟨hi,hrun⟩ | ⟨line,out,hi,hrun⟩ | ⟨o,b,rest,rfl,hi,e2,out,bytes2,r2,rfl,hlen,h2,hrun⟩
    · rw [hi,hrun]
      exact ⟨rfl,fun _ h=>by cases h⟩
    · rw [hi,hrun]
      refine ⟨congrArg some (map_congr_left fun i hmem=>update_of_ne (Nat.ne_of_lt (mem_range.mp hmem)) _ _),?_⟩
      rintro _ ⟨⟩
      exact update_self ..
    · rw [hi,hrun]
      simp only [length_cons] at hfuel
      exact ih h2 (by omega)

/-- What `read_line` returns on a stream is the line of the ideal editor, and it keeps to its buffer. -/
theorem read_line_correct (max : ℕ) (hmax : 1 ≤ max) (buf : ℕ→UInt8) (bytes : List UInt8) :
    (readLine max (bytes.length+1) ⟨buf,0,0⟩ (bytes.map .byte)).map Editor.text=Ideal.run max ⟨[],0,.text⟩ bytes ∧
    (∀e∈readLine max (bytes.length+1) ⟨buf,0,0⟩ (bytes.map .byte),e.buf e.len=0) ∧
    ∀e input,Reached max ⟨buf,0,0⟩ (bytes.map .byte) e input →
    e.cur≤e.len ∧ e.len ≤ max-1 ∧ ∀i∈accesses max e input,i < max:=by
  have h₀ : Holds max ⟨buf,0,0⟩ ⟨[],0,.text⟩:=⟨rfl,rfl,rfl,Nat.le_refl _,hmax⟩
  refine ⟨(h₀.readLine (Nat.lt_succ_self _)).1,(h₀.readLine (Nat.lt_succ_self _)).2,fun e input hr=>?_⟩
  obtain ⟨bytes',r,-,h⟩:=hr.holds h₀
  exact ⟨h.cur_le,Nat.le_sub_one_of_lt h.len_lt,fun i hi=>h.accesses_lt hi⟩

/-- The keys `a`, `c`, left, `b`, end, `d`, left, delete and return. -/
theorem read_line_correct_keys : (readLine 80 19 ⟨fun _=>0,0,0⟩ ([0x61,0x63,0x1B,0x5B,0x44,0x62,0x1B,0x5B,0x46,0x64,0x1B,
    0x5B,0x44,0x1B,0x5B,0x33,0x7E,0x0D].map .byte)).map Editor.text=some [0x61,0x62,0x63]:=
  (read_line_correct 80 (by decide) (fun _=>0) [0x61,0x63,0x1B,0x5B,0x44,0x62,0x1B,0x5B,0x46,0x64,0x1B,0x5B,0x44,0x1B,0x5B,
    0x33,0x7E,0x0D]).1.trans (by decide)

end Knail.Shell
