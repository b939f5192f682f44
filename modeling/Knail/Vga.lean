import Mathlib.Algebra.Group.Nat.Defs
import Mathlib.Data.List.Range
import Mathlib.Logic.Function.Basic
import Mathlib.Tactic.Common

/-!
# The VGA text console

The driver's globals and the words of the text buffer. Output arrives byte by byte and goes
through the parser of escape sequences. The indices that the driver stored to are recorded,
the latest first.
-/
namespace Knail.Vga

open List

def width : ℕ:=80

def height : ℕ:=25

inductive Color
  | black | blue | green | cyan | red | magenta | brown | lightGray
  | darkGray | lightBlue | lightGreen | lightCyan | lightRed | pink | yellow | white
  deriving DecidableEq, Repr

def Color.all : List Color:=
  [.black,.blue,.green,.cyan,.red,.magenta,.brown,.lightGray,
    .darkGray,.lightBlue,.lightGreen,.lightCyan,.lightRed,.pink,.yellow,.white]

def Color.code (c : Color) : UInt8:=UInt8.ofNat (Color.all.idxOf c)

def Color.ofCode (n : UInt8) : Color:=Color.all.getD n.toNat .white

def makeColor (fg bg : Color) : UInt8:=fg.code|||bg.code <<< 4

inductive EscState
  | normal | esc | bracket | params
  deriving DecidableEq, Repr

structure Console where
  buffer : ℕ→UInt16
  stores : List ℕ
  row : ℕ
  col : ℕ
  color : UInt8
  savedRow : ℕ
  savedCol : ℕ
  escState : EscState
  escParams : ℕ→UInt8
  escParamCount : ℕ
  /-- The position in the registers 0x0E and 0x0F of the CRT controller. -/
  cursor : ℕ

def ansiToVgaFg (code : UInt8) : Color:=
  match code with
  | 30=>.black
  | 31=>.red
  | 32=>.green
  | 33=>.brown
  | 34=>.blue
  | 35=>.magenta
  | 36=>.cyan
  | 37=>.lightGray
  | 90=>.darkGray
  | 91=>.lightRed
  | 92=>.lightGreen
  | 93=>.yellow
  | 94=>.lightBlue
  | 95=>.pink
  | 96=>.lightCyan
  | 97=>.white
  | _=>.lightGray

def ansiToVgaBg (code : UInt8) : Color:=ansiToVgaFg (code-10)

/-- The local variables of `apply_sgr`. -/
structure Rendition where
  fg : Color
  bg : Color
  bright : Bool
  deriving DecidableEq, Repr

def Rendition.apply (r : Rendition) (p : UInt8) : Rendition:=
  if p=0 then ⟨.lightGray,.black,false⟩
  else if p=1 then {r with bright:=true}
  else if 30≤p ∧ p≤37 then {r with fg:=ansiToVgaFg p}
  else if 90≤p ∧ p≤97 then {r with fg:=ansiToVgaFg p}
  else if 40≤p ∧ p≤47 then {r with bg:=ansiToVgaBg p}
  else if 100≤p ∧ p≤107 then {r with bg:=ansiToVgaFg (p-60)}
  else r

def Rendition.ofColor (color : UInt8) : Rendition:=
  ⟨.ofCode (color&&&0x0F),.ofCode ((color >>> 4)&&&0x0F),false⟩

/-- Bold shifts a dark foreground to its bright variant. -/
def Rendition.color (r : Rendition) : UInt8:=
  if r.bright ∧ r.fg.code<8 then makeColor (.ofCode (r.fg.code+8)) r.bg else makeColor r.fg r.bg

def applySgr (s : Console) : Console:=
  if s.escParamCount=0 then {s with color:=makeColor .lightGray .black}
  else { s with color:=
    (((List.range s.escParamCount).map s.escParams).foldl Rendition.apply (.ofColor s.color)).color }

def updateCursor (s : Console) : Console:={s with cursor:=(s.row*width+s.col)%2^16}

def store (i : ℕ) (v : UInt16) (s : Console) : Console:=
  {s with buffer:=Function.update s.buffer i v,stores:=i::s.stores}

def clear (s : Console) : Console:=
  updateCursor { (List.range (width*height)).foldl
    (fun t i=>store i (s.color.toUInt16 <<< 8|||0x20) t) s with row:=0,col:=0 }

/-- The conversion of a `char`, which is signed, to `uint16_t`. -/
def charToU16 (c : UInt8) : UInt16:=if c<0x80 then c.toUInt16 else 0xFF00|||c.toUInt16

def packEntry (c color : UInt8) : UInt16:=charToU16 c|||color.toUInt16 <<< 8

def putEntry (c color : UInt8) (x y : ℕ) (s : Console) : Console:=store (y*width+x) (packEntry c color) s

/-- Blanks in row `y` from column `a` up to column `b`. -/
def blankRow (a b y : ℕ) (s : Console) : Console:=
  (List.range' a (b-a)).foldl (fun t x=>putEntry 0x20 t.color x y t) s

def init (s : Console) : Console:=
  updateCursor ((List.range height).foldl (fun t y=>blankRow 0 width y t)
    {s with col:=0,row:=0,color:=makeColor .lightGray .black})

def copyRow (y : ℕ) (s : Console) : Console:=
  (List.range width).foldl (fun t x=>store ((y-1)*width+x) (t.buffer (y*width+x)) t) s

def scroll (s : Console) : Console:=
  { blankRow 0 width (height-1) ((List.range' 1 (height-1)).foldl (fun t y=>copyRow y t) s) with
    row:=height-1 }

/-- `if (++row >= HEIGHT) scroll();` -/
def nextRow (s : Console) : Console:=
  if height ≤ s.row+1 then scroll {s with row:=s.row+1} else {s with row:=s.row+1}

/-- The rendering of a byte outside an escape sequence. -/
def render (c : UInt8) (s : Console) : Console:=
  if c=0x0A then updateCursor (nextRow {s with col:=0})
  else if c=0x0D then updateCursor {s with col:=0}
  else if c=0x08 then
    let s:=if 0<s.col then {s with col:=s.col-1}
      else if 0<s.row then {s with row:=s.row-1,col:=width-1} else s
    updateCursor (putEntry 0x20 s.color s.col s.row s)
  else
    let s:=putEntry c s.color s.col s.row s
    updateCursor (if width ≤ s.col+1 then nextRow {s with col:=0} else {s with col:=s.col+1})

def count (s : Console) : ℕ:=if s.escParams 0≠0 then (s.escParams 0).toNat else 1

def command (c : UInt8) (s : Console) : Console:=
  match c with
  | 0x6D=>applySgr s                                             -- m
  | 0x4A=>if s.escParams 0=2 then clear s else s                -- J
  | 0x41=>updateCursor {s with row:=if count s ≤ s.row then s.row-count s else 0}                    -- A
  | 0x42=>updateCursor {s with row:=if s.row+count s<height then s.row+count s else height-1}  -- B
  | 0x43=>updateCursor {s with col:=if s.col+count s<width then s.col+count s else width-1}    -- C
  | 0x44=>updateCursor {s with col:=if count s ≤ s.col then s.col-count s else 0}                    -- D
  | 0x48 | 0x66 =>                                                  -- H, f
    let row:=if s.escParams 0≠0 then (s.escParams 0).toNat-1 else 0
    let col:=if s.escParams 1≠0 then (s.escParams 1).toNat-1 else 0
    {s with row:=if height ≤ row then height-1 else row,col:=if width ≤ col then width-1 else col}
  | 0x4B =>                                                         -- K
    if s.escParams 0=0 then blankRow s.col width s.row s
    else if s.escParams 0=1 then blankRow 0 (s.col+1) s.row s
    else if s.escParams 0=2 then blankRow 0 width s.row s else s
  | 0x73=>updateCursor {s with savedRow:=s.row,savedCol:=s.col}   -- s
  | 0x75=>updateCursor {s with row:=s.savedRow,col:=s.savedCol}   -- u
  | _=>s

/-- A byte after the opening bracket: a digit, a semicolon or the final byte. -/
def parameter (c : UInt8) (s : Console) : Console:=
  if 0x30 ≤ c ∧ c≤0x39 then
    if s.escParamCount<8 then
      { s with escParams:=Function.update s.escParams s.escParamCount
                 (s.escParams s.escParamCount*10+(c-0x30)) }
    else s
  else if c=0x3B then
    if s.escParamCount<7 then {s with escParamCount:=s.escParamCount+1} else s
  else
    { command c (if s.escParamCount<8 then {s with escParamCount:=s.escParamCount+1} else s) with
      escState:=.normal }

def putChar (s : Console) (c : UInt8) : Console:=
  match s.escState with
  | .normal=>if c=0x1B then {s with escState:=.esc} else render c s
  | .esc=>
    if c=0x5B then {s with escState:=.bracket,escParamCount:=0,escParams:=fun _=>0}
    else {s with escState:=.normal}
  | .bracket=>parameter c {s with escState:=.params}
  | .params=>parameter c s

def write (s : Console) : List UInt8 → Console
  | []=>s
  | c::str=>if c=0 then s else write (putChar s c) str

def writeLine (s : Console) (str : List UInt8) : Console:=putChar (write s str) 0x0A

/-- `tty_write` hands over every byte of the buffer. -/
def ttyWrite (s : Console) (buf : List UInt8) : Console:=buf.foldl putChar s

/-- The globals before the first call; the text buffer holds anything. -/
def load (buffer : ℕ→UInt16) : Console where
  buffer:=buffer
  stores:=[]
  row:=0
  col:=0
  color:=makeColor .lightGray .black
  savedRow:=0
  savedCol:=0
  escState:=.normal
  escParams:=fun _=>0
  escParamCount:=0
  cursor:=0

/-- Calls of the public interface that print bytes. -/
inductive Call
  | putChar (c : UInt8)
  | write (str : List UInt8)
  | writeLine (str : List UInt8)
  deriving DecidableEq, Repr

def Call.run (s : Console) : Call → Console
  | .putChar c=>Vga.putChar s c
  | .write str=>Vga.write s str
  | .writeLine str=>Vga.writeLine s str

def Call.bytes : Call→List UInt8
  | .putChar c=>[c]
  | .write str=>str.takeWhile (· ≠ 0)
  | .writeLine str=>str.takeWhile (· ≠ 0)++[0x0A]

theorem write_eq (s : Console) (str : List UInt8) : write s str=(str.takeWhile (· ≠ 0)).foldl putChar s:=by
  induction str generalizing s with
  | nil=>rfl
  | cons c str ih=>
    by_cases hc : c=0
    · simp [write,hc]
    · simp [write,hc,ih]

theorem Call.run_eq (s : Console) (call : Call) : call.run s=call.bytes.foldl Vga.putChar s:=by
  cases call with
  | putChar c=>rfl
  | write str=>exact write_eq s str
  | writeLine str=>simp [Call.run,Call.bytes,Vga.writeLine,write_eq]

theorem runCalls_eq (s : Console) (calls : List Call) :
    calls.foldl Call.run s=(calls.flatMap Call.bytes).foldl putChar s:=by
  induction calls generalizing s with
  | nil=>rfl
  | cons call calls ih=>rw [foldl_cons,ih,Call.run_eq,flatMap_cons,foldl_append]

/-- Words of the text buffer were stored and nothing else changed. -/
def Drawn (s s' : Console) : Prop:=
  ∃buffer stores,s'={s with buffer:=buffer,stores:=stores} ∧
    ∀i∈stores,i∈s.stores ∨ i<width*height

variable {s s' s'' : Console} {y a b n : ℕ}

theorem Drawn.refl (s : Console) : Drawn s s:=⟨s.buffer,s.stores,rfl,fun _=>.inl⟩

theorem Drawn.trans (h : Drawn s s') (h' : Drawn s' s'') : Drawn s s'':=by
  obtain ⟨b,l,rfl,hl⟩:=h
  obtain ⟨b',l',rfl,hl'⟩:=h'
  refine ⟨b',l',rfl,fun i hi=>?_⟩
  rcases hl' i hi with hi | hi
  · exact hl i hi
  · exact .inr hi

theorem Drawn.store {i : ℕ} (hi : i<width*height) (v : UInt16) (s : Console) : Drawn s (store i v s):=by
  refine ⟨_,_,rfl,fun j hj=>?_⟩
  rcases mem_cons.mp hj with rfl | hj
  · exact .inr hi
  · exact .inl hj

theorem Drawn.foldl {ι : Type} {f : Console→ι → Console} {l : List ι} (hf : ∀s,∀i∈l,Drawn s (f s i))
    (s : Console) : Drawn s (l.foldl f s):=by
  induction l generalizing s with
  | nil=>exact .refl s
  | cons i l ih=>
    exact (hf s i mem_cons_self).trans (ih (fun s j hj=>hf s j (mem_cons_of_mem _ hj)) _)

theorem index_lt {x : ℕ} (hx : x<width) (hy : y<height) : y*width+x<width*height:=by
  unfold width height at *
  omega

theorem Drawn.blankRow (hb : b≤width) (hy : y<height) (s : Console) : Drawn s (blankRow a b y s):=by
  refine Drawn.foldl (fun s x hx=>.store (index_lt ?_ hy) _ s) s
  have:=mem_range'_1.mp hx
  omega

theorem Drawn.copyRow (hy : y<height) (s : Console) : Drawn s (copyRow y s):=by
  refine Drawn.foldl (fun s x hx=>.store (index_lt (mem_range.mp hx) ?_) _ s) s
  omega

theorem drawn_rows (s : Console) :
    Drawn s (Vga.blankRow 0 width (height-1) ((List.range' 1 (height-1)).foldl (fun t y=>copyRow y t) s)):=by
  refine (Drawn.foldl (fun s y hy=>.copyRow ?_ s) s).trans (.blankRow le_rfl (by decide) _)
  have:=(mem_range'_1.mp hy).2
  have : 1+(height-1)=height:=rfl
  omega

/-- The cursor and the saved position are on the screen, and so was every store. -/
structure InBounds (s : Console) : Prop where
  row : s.row<height
  col : s.col<width
  savedRow : s.savedRow<height
  savedCol : s.savedCol<width
  count : s.escParamCount≤8
  stores : ∀i∈s.stores,i<width*height

section

variable (h : InBounds s)
include h

theorem InBounds.drawn (hd : Drawn s s') : InBounds s':=by
  obtain ⟨b,l,rfl,hl⟩:=hd
  refine ⟨h.row,h.col,h.savedRow,h.savedCol,h.count,fun i hi=>?_⟩
  rcases hl i hi with hi | hi
  · exact h.stores i hi
  · exact hi

theorem InBounds.updateCursor : InBounds (updateCursor s):=
  ⟨h.row,h.col,h.savedRow,h.savedCol,h.count,h.stores⟩

theorem InBounds.move {row col : ℕ} (hrow : row<height) (hcol : col<width) :
    InBounds {s with row:=row,col:=col}:=
  ⟨hrow,hcol,h.savedRow,h.savedCol,h.count,h.stores⟩

theorem InBounds.parse (state : EscState) (params : ℕ→UInt8) (hn : n≤8) :
    InBounds {s with escState:=state,escParams:=params,escParamCount:=n}:=
  ⟨h.row,h.col,h.savedRow,h.savedCol,hn,h.stores⟩

theorem InBounds.clear : InBounds (clear s):=by
  have hd : Drawn s ((List.range (width*height)).foldl
      (fun t i=>Vga.store i (s.color.toUInt16 <<< 8|||0x20) t) s):=
    Drawn.foldl (fun s i hi=>.store (mem_range.mp hi) _ s) s
  exact ((h.drawn hd).move (by decide) (by decide)).updateCursor

theorem InBounds.nextRow : InBounds (nextRow s):=by
  unfold Vga.nextRow
  split
  · obtain ⟨b,l,he,hl⟩:=drawn_rows {s with row:=s.row+1}
    rw [scroll,he]
    exact ((h.drawn ⟨b,l,rfl,hl⟩).move (by decide) h.col)
  · exact h.move (by omega) h.col

theorem InBounds.putEntry (c color : UInt8) : InBounds (putEntry c color s.col s.row s):=
  h.drawn (.store (index_lt h.col h.row) _ s)

theorem InBounds.render (c : UInt8) : InBounds (render c s):=by
  have hwidth : 0<width:=by decide
  unfold Vga.render
  split
  · exact (h.move h.row hwidth).nextRow.updateCursor
  split
  · exact (h.move h.row hwidth).updateCursor
  split
  · refine (InBounds.putEntry ?_ _ _).updateCursor
    split
    · exact h.move h.row (by have:=h.col; omega)
    split
    · exact h.move (by have:=h.row; omega) (by decide)
    · exact h
  · have hp:=h.putEntry c s.color
    refine InBounds.updateCursor ?_
    split
    · exact (hp.move hp.row hwidth).nextRow
    · exact hp.move hp.row (by omega)

theorem InBounds.blankRow (hb : b≤width) : InBounds (blankRow a b s.row s):=
  h.drawn (.blankRow hb h.row s)

theorem InBounds.applySgr : InBounds (applySgr s):=by
  unfold Vga.applySgr
  split <;> exact ⟨h.row,h.col,h.savedRow,h.savedCol,h.count,h.stores⟩

end

theorem clamp_lt {m : ℕ} (h : 0 < m) : (if m≤n then m-1 else n) < m:=by
  split <;> omega

theorem InBounds.command (h : InBounds s) (c : UInt8) : InBounds (command c s):=by
  have hrow:=h.row
  have hcol:=h.col
  have hheight : 0<height:=by decide
  have hwidth : 0<width:=by decide
  unfold Vga.command
  split
  · exact h.applySgr
  · split
    · exact h.clear
    · exact h
  · exact (h.move (by split <;> omega) hcol).updateCursor
  · exact (h.move (by split <;> omega) hcol).updateCursor
  · exact (h.move hrow (by split <;> omega)).updateCursor
  · exact (h.move hrow (by split <;> omega)).updateCursor
  · exact h.move (clamp_lt hheight) (clamp_lt hwidth)
  · exact h.move (clamp_lt hheight) (clamp_lt hwidth)
  · split
    · exact h.blankRow le_rfl
    split
    · exact h.blankRow hcol
    split
    · exact h.blankRow le_rfl
    · exact h
  · exact ⟨hrow,hcol,hrow,hcol,h.count,h.stores⟩
  · exact (h.move h.savedRow h.savedCol).updateCursor
  · exact h

theorem InBounds.parameter (h : InBounds s) (c : UInt8) : InBounds (parameter c s):=by
  have hn:=h.count
  unfold Vga.parameter
  split
  · split
    · exact h.parse _ _ hn
    · exact h
  split
  · split
    · exact h.parse _ _ (by omega)
    · exact h
  have hc : InBounds (if s.escParamCount<8 then {s with escParamCount:=s.escParamCount+1} else s):=by
    split
    · exact h.parse _ _ (by omega)
    · exact h
  exact (hc.command c).parse _ _ (hc.command c).count

theorem InBounds.putChar (h : InBounds s) (c : UInt8) : InBounds (putChar s c):=by
  unfold Vga.putChar
  split
  · split
    · exact h.parse _ _ h.count
    · exact h.render c
  · split
    · exact h.parse _ _ (Nat.zero_le 8)
    · exact h.parse _ _ h.count
  · exact (h.parse .params s.escParams h.count).parameter c
  · exact h.parameter c

theorem InBounds.foldl (h : InBounds s) (bytes : List UInt8) : InBounds (bytes.foldl Vga.putChar s):=by
  induction bytes generalizing s with
  | nil=>exact h
  | cons c bytes ih=>exact ih (h.putChar c)

theorem inBounds_load (buffer : ℕ→UInt16) : InBounds (load buffer):=by
  constructor <;> simp [load,width,height]

theorem InBounds.init (h : InBounds s) : InBounds (init s):=by
  have h0 : InBounds {s with col:=0,row:=0,color:=makeColor .lightGray .black}:=
    ⟨Nat.zero_lt_succ _,Nat.zero_lt_succ _,h.savedRow,h.savedCol,h.count,h.stores⟩
  exact (h0.drawn (Drawn.foldl (fun s y hy=>.blankRow le_rfl (mem_range.mp hy) s) _)).updateCursor

/-- The state before the first byte is printed: the driver's static data, before or after `init`. -/
def Initial (s : Console) : Prop:=∃buffer,s=load buffer ∨ s=init (load buffer)

/-- Whatever is printed, the driver stays on the screen after every byte. -/
theorem console_inBounds (h : Initial s) (calls : List Call) :
    calls.foldl Call.run s=(calls.flatMap Call.bytes).foldl putChar s ∧
    ∀bytes,bytes <+: calls.flatMap Call.bytes→InBounds (bytes.foldl putChar s):=by
  refine ⟨runCalls_eq s calls,fun bytes _=>InBounds.foldl ?_ bytes⟩
  obtain ⟨buffer,rfl | rfl⟩:=h
  · exact inBounds_load buffer
  · exact (inBounds_load buffer).init

/-- The cursor is moved down too far and a truncated sequence follows. -/
theorem console_inBounds_far : InBounds ([0x1B,0x5B,0x39,0x39,0x42,0x1B,0x5B].foldl putChar (load fun _=>0)):=
  (console_inBounds ⟨_,.inl rfl⟩ [.write [0x1B,0x5B,0x39,0x39,0x42,0x1B,0x5B,0x31]]).2 _ (by decide)

end Knail.Vga
