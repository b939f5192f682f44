import Knail.Transitions
import Knail.VgaCells

/-!
# The line editor of the shell

`read_line` keeps the line and a position in it and writes to the console what each key
changes: one character, an erase triple, a cursor movement, or the whole line again from the
saved position. The console is the VGA driver behind `tty_write`.
-/
namespace Knail.Shell
open Function Vga List

/-- A `read` of one byte. When it fails, the variable holds whatever it held. -/
inductive Read
  | byte (b : UInt8)
  | fail (junk : UInt8)
  deriving DecidableEq, Repr

def Read.value : Read→UInt8
  | .byte b=>b
  | .fail junk=>junk

/-- The line buffer and the locals of `read_line`. -/
structure Editor where
  buf : ℕ→UInt8
  len : ℕ
  cur : ℕ

def Editor.text (e : Editor) : List UInt8:=(List.range e.len).map e.buf

def itoaBack (n : ℕ) : List UInt8:=
  (if 100≤n then [UInt8.ofNat (0x30+n/100)] else []) ++
    (if 10≤n then [UInt8.ofNat (0x30+n/10%10)] else [])++[UInt8.ofNat (0x30+n%10)]

def moveCursor (n : ℕ) (dir : UInt8) : List UInt8:=if n=0 then [] else [0x1B,0x5B]++itoaBack n++[dir]

def redraw (e : Editor) : List UInt8:=
  [0x1B,0x5B,0x75]++[0x1B,0x5B,0x4B]++(if 0<e.len then e.text else []) ++
    (if e.cur<e.len then moveCursor (e.len-e.cur) 0x44 else [])

/-- `for (int i = a; i < b; i++) buf[i] = buf[i + 1];` -/
def shiftDown (a b : ℕ) (buf : ℕ→UInt8) : ℕ→UInt8:=
  (List.range' a (b-a)).foldl (fun buf i=>update buf i (buf (i+1))) buf

/-- `for (int i = b; i > a; i--) buf[i] = buf[i - 1];` -/
def shiftUp (a b : ℕ) (buf : ℕ→UInt8) : ℕ→UInt8:=
  (List.range' (a+1) (b-a)).reverse.foldl (fun buf i=>update buf i (buf (i-1))) buf

/-- An iteration of the loop ends with a longer or shorter line, or with the line itself. -/
inductive Outcome
  | more (editor : Editor) (output : List UInt8) (input : List Read)
  | done (line : List UInt8) (output : List UInt8)

def backspace (e : Editor) (rest : List Read) : Outcome:=
  if 0<e.cur then
    let e':={buf:=shiftDown (e.cur-1) (e.len-1) e.buf,len:=e.len-1,cur:=e.cur-1 : Editor}
    .more e' (if e'.cur=e'.len then [0x08,0x20,0x08] else redraw e') rest
  else .more e [] rest

/-- The keys that arrive as an escape sequence with a letter. -/
def arrow (e : Editor) (key : UInt8) : Editor×List UInt8:=
  match key with
  | 0x43=>if e.cur<e.len then ({e with cur:=e.cur+1},moveCursor 1 0x43) else (e,[])
  | 0x44=>if 0<e.cur then ({e with cur:=e.cur-1},moveCursor 1 0x44) else (e,[])
  | 0x48=>if 0<e.cur then ({e with cur:=0},moveCursor e.cur 0x44) else (e,[])
  | 0x46=>if e.cur<e.len then ({e with cur:=e.len},moveCursor (e.len-e.cur) 0x43) else (e,[])
  | _=>(e,[])

def delete (e : Editor) (key tmp : UInt8) : Editor×List UInt8:=
  if key=0x33 ∧ tmp=0x7E ∧ e.cur<e.len then
    let e':={e with buf:=shiftDown e.cur (e.len-1) e.buf,len:=e.len-1}
    (e',redraw e')
  else (e,[])

/-- The bytes after ESC. There is no outcome as long as the next one has not arrived. -/
def escape (e : Editor) : List Read→Option Outcome
  | .byte 0x5B :: .byte key::rest=>
    if 0x30≤key ∧ key≤0x39 then
      match rest with
      | []=>none
      | tmp::rest=>some (.more (delete e key tmp.value).1 (delete e key tmp.value).2 rest)
    else some (.more (arrow e key).1 (arrow e key).2 rest)
  | .byte 0x5B :: .fail _::rest=>some (.more e [] rest)
  | [.byte 0x5B]=>none
  | _::rest=>some (.more e [] rest)
  | []=>none

def insert (max : ℤ) (e : Editor) (c : UInt8) (rest : List Read) : Outcome:=
  if (e.len : ℤ) < max-1 then
    let e':={buf:=update (shiftUp e.cur e.len e.buf) e.cur c,len:=e.len+1,cur:=e.cur+1 : Editor}
    .more e' (if e'.cur=e'.len then [c] else redraw e') rest
  else .more e [] rest

/-- One iteration of `read_line`. A `char` is signed: bytes from 0x80 on are below 32. -/
def iterate (max : ℤ) (e : Editor) : List Read→Option Outcome
  | []=>none
  | .fail _::rest=>some (.more e [] rest)
  | .byte c::rest=>
    if c=0x0D ∨ c=0x0A then some (.done e.text [0x0D,0x0A])
    else if c=0x08 ∨ c=127 then some (backspace e rest)
    else if c=0x1B then escape e rest
    else if c<32 ∨ 0x80 ≤ c then some (.more e [] rest)
    else some (insert max e c rest)

/-- The editor, the console it writes to and the input that is still to come. -/
structure Session where
  editor : Editor
  console : Console
  input : List Read

def keystroke (max : ℤ) (s : Session) : Option Session:=
  match iterate max s.editor s.input with
  | some (.more e output input)=>some ⟨e,ttyWrite s.console output,input⟩
  | _=>none

/-- The console as a terminal that keeps characters only. -/
def type (r : Reference UInt8) (bytes : List UInt8) : Reference UInt8:=bytes.foldl (Reference.feed fun c _=>c) r

theorem type_cons (r : Reference UInt8) (b : UInt8) (bytes : List UInt8) :
    type r (b::bytes)=type (r.feed (fun c _=>c) b) bytes:=
  rfl

theorem type_append (r : Reference UInt8) (bytes bytes' : List UInt8) :
    type r (bytes++bytes')=type (type r bytes) bytes':=
  foldl_append

section Sequences

variable {r : Reference UInt8} {digits : List UInt8} {c : UInt8} {n : ℕ} {b : UInt8} {e' : Editor}
  {output : List UInt8} {s : Session}

def digitsValue (digits : List UInt8) (v : UInt8) : UInt8:=digits.foldl (fun v d=>v*10+(d-0x30)) v

theorem type_digits {before : List UInt8} {v : UInt8} (hr : r.parser = .args before v)
    (hd : ∀d∈digits,0x30≤d ∧ d≤0x39) : type r digits=⟨r.screen,.args before (digitsValue digits v)⟩:=by
  induction digits generalizing r v with
  | nil=>
    obtain ⟨t,p⟩:=r
    cases hr
    rfl
  | cons d digits ih=>
    have hfeed : r.feed (fun c _=>c) d=⟨r.screen,.args before (v*10+(d-0x30))⟩:=by
      rw [Reference.feed,hr,Parser.feed,if_pos (hd d mem_cons_self)]
      rfl
    rw [type_cons,hfeed]
    exact ih rfl fun d' h'=>hd d' (mem_cons_of_mem _ h')

theorem type_sequence (hr : r.parser = .text)
    (hd : ∀d∈digits,0x30≤d ∧ d≤0x39) (hc : ¬(0x30 ≤ c ∧ c≤0x39)) (hc' : c≠0x3B) :
    type r ([0x1B,0x5B]++digits++[c]) =
    ⟨(final r.screen.pen [digitsValue digits 0] c).elim r.screen (r.screen.exec (fun c _=>c) 0x20),.text⟩:=by
  have hstart : type r [0x1B,0x5B]=⟨r.screen,.args [] 0⟩:=by
    obtain ⟨t,p⟩:=r
    cases hr
    rfl
  rw [type_append,type_append,hstart,type_digits rfl hd,type_cons,Reference.feed,Parser.feed,if_neg hc,if_neg hc']
  rfl

theorem digit_spec {k : ℕ} (hk : k<10) :
    (0x30≤UInt8.ofNat (0x30+k) ∧ UInt8.ofNat (0x30+k)≤0x39) ∧ UInt8.ofNat (0x30+k)-0x30=UInt8.ofNat k:=by
  revert k
  decide

theorem ofNat_digit {q k : ℕ} (h : n=q*10+k) : UInt8.ofNat q*10+UInt8.ofNat k=UInt8.ofNat n:=by
  rw [h,UInt8.ofNat_add,UInt8.ofNat_mul]
  rfl

theorem itoaBack_spec (h : n<256) :
    (∀d∈itoaBack n,0x30≤d ∧ d≤0x39) ∧ digitsValue (itoaBack n) 0=UInt8.ofNat n:=by
  obtain ⟨h1,v1⟩:=digit_spec (k:=n/100) (by omega)
  obtain ⟨h2,v2⟩:=digit_spec (k:=n/10%10) (by omega)
  obtain ⟨h3,v3⟩:=digit_spec (k:=n%10) (by omega)
  have hunits : UInt8.ofNat (n/10)*10+UInt8.ofNat (n%10)=UInt8.ofNat n:=ofNat_digit (by omega)
  have htens : UInt8.ofNat (n/100)*10+UInt8.ofNat (n/10%10)=UInt8.ofNat (n/10):=ofNat_digit (by omega)
  have hlead2 : n<100→UInt8.ofNat (n/10%10)=UInt8.ofNat (n/10):=fun h=>by rw [show n/10%10=n/10 by omega]
  have hlead3 : n<10→UInt8.ofNat (n%10)=UInt8.ofNat n:=fun h=>by rw [Nat.mod_eq_of_lt h]
  unfold itoaBack
  generalize UInt8.ofNat (0x30+n/100)=c1 at *
  generalize UInt8.ofNat (0x30+n/10%10)=c2 at *
  generalize UInt8.ofNat (0x30+n%10)=c3 at *
  by_cases h100 : 100≤n
  · rw [if_pos h100,if_pos (by omega : 10≤n)]
    exact ⟨by simp [h1,h2,h3],by simp [digitsValue,v1,v2,v3,htens,hunits]⟩
  by_cases h10 : 10≤n
  · rw [if_neg h100,if_pos h10]
    exact ⟨by simp [h2,h3],by simp [digitsValue,v2,v3,hlead2 (by omega),hunits]⟩
  · rw [if_neg h100,if_neg h10]
    exact ⟨by simp [h3],by simp [digitsValue,v3,hlead3 (by omega)]⟩

end Sequences

/-- The cursor is in row `y` at column `col`, the saved position is at column `start` of that row, and
from there on the row shows the given characters. -/
structure Line (r : Reference UInt8) (y : Fin height) (start col : ℕ) (shown : ℕ→UInt8) : Prop where
  parser : r.parser = .text
  row : r.screen.row=y
  col : r.screen.col.val=col
  savedRow : r.screen.savedRow=y
  savedCol : r.screen.savedCol.val=start
  cells : ∀x : Fin width,start≤x.val → r.screen.cells y x=shown x

variable {r : Reference UInt8} {y : Fin height} {start col : ℕ} {shown : ℕ→UInt8}

theorem Line.congr {shown' : ℕ→UInt8} (h : Line r y start col shown)
    (he : ∀x,start≤x→x<width→shown x=shown' x) : Line r y start col shown':=
  {h with cells:=fun x hx=>(h.cells x hx).trans (he x hx x.isLt)}

def Printable (b : UInt8) : Prop:=0x20≤b ∧ b<0x7F

theorem Printable.control (h : Printable b) : b≠0x1B ∧ control b = .print b:=by
  have hne (c : UInt8) (hc : c<0x20) : b≠c:=by
    rintro rfl
    exact absurd h.1 (UInt8.not_le.mpr hc)
  refine ⟨hne _ (by decide),?_⟩
  unfold Vga.control
  split
  · exact absurd rfl (hne _ (by decide))
  · exact absurd rfl (hne _ (by decide))
  · exact absurd rfl (hne _ (by decide))
  · rfl

theorem feed_control (hr : r.parser = .text) (hb : b≠0x1B) :
    r.feed (fun c _=>c) b=⟨r.screen.exec (fun c _=>c) 0x20 (control b),.text⟩:=by
  rw [Reference.feed,hr,Parser.feed,if_neg hb]
  rfl

section

variable (h : Line r y start col shown)
include h

theorem Line.print (hb : Printable b) (hcol : col+1<width) :
    Line (type r [b]) y start (col+1) (update shown col b):=by
  have hx : r.screen.col.val+1<width:=h.col▸hcol
  rw [type_cons,feed_control h.parser hb.control.1,hb.control.2]
  rw [Terminal.exec,Terminal.advance,dif_pos (show (r.screen.put b).col.val+1<width from hx)]
  refine ⟨rfl,h.row,congrArg (· + 1) h.col,h.savedRow,h.savedCol,fun x hs=>?_⟩
  rw [update_apply,←h.cells x hs,←h.col,←h.row]
  exact if_congr (by simp [Fin.ext_iff]) rfl rfl

theorem Line.write {text : List UInt8} (ht : ∀b∈text,Printable b)
    (hcol : col+text.length<width) : Line (type r text) y start (col+text.length)
    (fun x=>if col≤x ∧ x<col+text.length then text.getD (x-col) 0 else shown x):=by
  induction text generalizing r col shown with
  | nil=>exact h.congr fun x _ _=>(if_neg (by simp)).symm
  | cons b text ih=>
    rw [length_cons] at hcol
    have h1:=ih (h.print (ht b mem_cons_self) (by omega)) (fun c hc=>ht c (mem_cons_of_mem _ hc))
      (by omega)
    rw [length_cons,Nat.add_comm text.length,←Nat.add_assoc]
    refine h1.congr fun x hs hx=>?_
    rw [update_apply]
    by_cases hxc : x=col
    · subst hxc
      rw [if_neg (by omega),if_pos rfl,if_pos (by omega),Nat.sub_self,getD_cons_zero]
    by_cases hin : col+1≤x ∧ x<col+1+text.length
    · rw [if_pos hin,if_pos (by omega),show x-col=x-(col+1)+1 by omega,getD_cons_succ]
    · rw [if_neg hin,if_neg hxc,if_neg (by omega)]

theorem Line.backspace (hcol : 0<col) : Line (type r [0x08]) y start (col-1) (update shown (col-1) 0x20):=by
  have hx : 0 < r.screen.col.val:=h.col▸hcol
  rw [type_cons,feed_control h.parser (by decide)]
  rw [show control 0x08 = .backspace from rfl,Terminal.exec,Terminal.stepBack,if_pos hx]
  refine ⟨rfl,h.row,congrArg (· - 1) h.col,h.savedRow,h.savedCol,fun x hs=>?_⟩
  rw [update_apply,←h.cells x hs,←h.col,←h.row]
  exact if_congr (by simp [Fin.ext_iff,Terminal.moveTo]) rfl rfl

theorem Line.restore : Line (type r [0x1B,0x5B,0x75]) y start start shown:=by
  rw [show ([0x1B,0x5B,0x75] : List UInt8)=[0x1B,0x5B]++[]++[0x75] from rfl]
  rw [type_sequence h.parser (by simp) (by decide) (by decide)]
  exact ⟨rfl,h.savedRow,h.savedCol,h.savedRow,h.savedCol,h.cells⟩

theorem Line.eraseEnd : Line (type r [0x1B,0x5B,0x4B]) y start col (fun x=>if col≤x then 0x20 else shown x):=by
  rw [show ([0x1B,0x5B,0x4B] : List UInt8)=[0x1B,0x5B]++[]++[0x4B] from rfl]
  rw [type_sequence h.parser (by simp) (by decide) (by decide)]
  refine ⟨rfl,h.row,h.col,h.savedRow,h.savedCol,fun x hs=>?_⟩
  rw [←h.cells x hs,←h.col,←h.row]
  exact if_congr (by simp [x.isLt]) rfl rfl

end

theorem amount_ofNat (hn : 0<n) (hlt : n<256) : amount [UInt8.ofNat n]=n:=by
  have hmod:=UInt8.toNat_ofNat_of_lt' hlt
  have hne : UInt8.ofNat n≠0:=by
    intro h
    rw [h] at hmod
    exact hn.ne hmod
  rw [amount,getD_cons_zero,if_pos hne,hmod]

theorem type_moveCursor {dir : UInt8} (hr : r.parser = .text) (hn : 0<n) (hlt : n<256)
    (hd : ¬(0x30≤dir ∧ dir≤0x39)) (hd' : dir≠0x3B) : type r (moveCursor n dir) =
    ⟨(final r.screen.pen [UInt8.ofNat n] dir).elim r.screen (r.screen.exec (fun c _=>c) 0x20),.text⟩:=by
  have hspec:=itoaBack_spec hlt
  rw [moveCursor,if_neg hn.ne',type_sequence hr hspec.1 hd hd',hspec.2]

section

variable (h : Line r y start col shown)
include h

theorem Line.jump {x : ℕ} (hx : x<width) : Line ⟨r.screen.jump r.screen.row x,.text⟩ y start x shown:=by
  have hrow : min r.screen.row.val (height-1)=r.screen.row:=by
    omega
  refine ⟨rfl,?_,show min x (width-1)=x by omega,h.savedRow,h.savedCol,h.cells⟩
  rw [←h.row]
  exact Fin.ext hrow

theorem Line.back (hn : 0<n) (hle : n ≤ col) : Line (type r (moveCursor n 0x44)) y start (col-n) shown:=by
  have hcol:=h.col
  have hlt : col<width:=hcol▸r.screen.col.isLt
  have h256 : n<256:=by
    unfold width at hlt
    omega
  rw [type_moveCursor h.parser hn h256 (by decide) (by decide)]
  rw [show final r.screen.pen [UInt8.ofNat n] 0x44=some (.back (amount [UInt8.ofNat n])) from rfl]
  rw [amount_ofNat hn h256,←hcol]
  exact h.jump (by omega)

theorem Line.forward (hn : 0<n) (hlt : col+n<width) : Line (type r (moveCursor n 0x43)) y start (col+n) shown:=by
  have h256 : n<256:=by
    unfold width at hlt
    omega
  rw [type_moveCursor h.parser hn h256 (by decide) (by decide)]
  rw [show final r.screen.pen [UInt8.ofNat n] 0x43=some (.forward (amount [UInt8.ofNat n])) from rfl]
  rw [amount_ofNat hn h256,←h.col]
  exact h.jump (by rw [h.col]; exact hlt)

end

def lineChar (e : Editor) (start x : ℕ) : UInt8:=if x<start+e.len then e.buf (x-start) else 0x20

/-- The line fits into the row and consists of characters. -/
structure Editor.Fits (e : Editor) (start : ℕ) : Prop where
  cur : e.cur≤e.len
  len : start+e.len≤79
  text : ∀i<e.len,Printable (e.buf i)

variable {e : Editor}

theorem Line.redraw (h : Line r y start col shown) (he : e.Fits start) :
    Line (type r (redraw e)) y start (start+e.cur) (lineChar e start):=by
  have hlen : (if 0<e.len then e.text else [])=e.text:=by
    split
    · rfl
    · rw [Editor.text,show e.len=0 by omega]
      rfl
  have hlt : start+e.text.length<width:=by
    have:=he.len
    simp only [Editor.text,length_map,length_range]
    unfold width
    omega
  have htext (b : UInt8) (hb : b∈e.text) : Printable b:=by
    obtain ⟨i,hi,rfl⟩:=mem_map.mp hb
    exact he.text i (mem_range.mp hi)
  rw [Shell.redraw,hlen,type_append,type_append,type_append]
  have h1:=h.restore.eraseEnd.write htext hlt
  have hline : Line (type (type (type r [0x1B,0x5B,0x75]) [0x1B,0x5B,0x4B]) e.text) y start (start+e.len)
      (lineChar e start):=by
    simp only [Editor.text,length_map,length_range] at h1
    refine h1.congr fun x hs hx=>?_
    unfold lineChar
    by_cases hxl : x<start+e.len
    · rw [if_pos ⟨hs,hxl⟩,if_pos hxl,getD_eq_getElem _ _ (by simp; omega)]
      simp
    · rw [if_neg (by omega),if_neg hxl,if_pos hs]
  have hcur:=he.cur
  split
  · have hback:=hline.back (n:=e.len-e.cur) (by omega) (by omega)
    rwa [show start+e.len-(e.len-e.cur)=start+e.cur by omega] at hback
  · rwa [show e.cur=e.len by omega]

theorem shiftDown_apply (a b : ℕ) (buf : ℕ→UInt8) (i : ℕ) :
    shiftDown a b buf i=if a ≤ i ∧ i<b then buf (i+1) else buf i:=by
  unfold shiftDown
  induction h : b-a generalizing a buf with
  | zero=>
    rw [if_neg (by omega)]
    rfl
  | succ n ih=>
    rw [range'_succ,foldl_cons,ih _ _ (by omega),update_apply,update_apply]
    by_cases hi : i=a
    · subst hi
      rw [if_neg (by omega),if_pos rfl,if_pos (by omega)]
    by_cases hin : a+1 ≤ i ∧ i<b
    · rw [if_pos hin,if_neg (by omega),if_pos (by omega)]
    · rw [if_neg hin,if_neg hi,if_neg (by omega)]

theorem shiftUp_apply (a b : ℕ) (buf : ℕ→UInt8) (i : ℕ) :
    shiftUp a b buf i=if a < i ∧ i≤b then buf (i-1) else buf i:=by
  unfold shiftUp
  induction h : b-a generalizing b buf with
  | zero=>
    rw [if_neg (by omega)]
    rfl
  | succ n ih=>
    rw [range'_concat,reverse_append,reverse_singleton,singleton_append,foldl_cons]
    have hb:=ih (b-1) (update buf b (buf (b-1))) (by omega)
    rw [Nat.one_mul,show a+1+n=b by omega]
    rw [hb,update_apply,update_apply]
    by_cases hi : i=b
    · subst hi
      rw [if_neg (by omega),if_pos rfl,if_pos (by omega)]
    by_cases hin : a < i ∧ i≤b-1
    · rw [if_pos hin,if_neg (by omega),if_pos (by omega)]
    · rw [if_neg hin,if_neg hi,if_neg (by omega)]

structure Echoes (e : Editor) (r : Reference UInt8) (y : Fin height) (start : ℕ) : Prop where
  fits : e.Fits start
  line : Line r y start (start+e.cur) (lineChar e start)

section

variable (h : Echoes e r y start)
include h

theorem Echoes.erased (hcur : 0<e.cur)
    (he : e'={buf:=shiftDown (e.cur-1) (e.len-1) e.buf,len:=e.len-1,cur:=e.cur-1}) :
    Echoes e' (type r (if e'.cur=e'.len then [0x08,0x20,0x08] else redraw e')) y start:=by
  obtain ⟨⟨hle,hlen,htext⟩,hline⟩:=h
  have hfits : e'.Fits start:=by
    subst he
    refine ⟨by dsimp only; omega,by dsimp only; omega,fun i hi=>?_⟩
    dsimp only at hi ⊢
    rw [shiftDown_apply]
    split
    · exact htext _ (by omega)
    · exact htext _ (by omega)
  refine ⟨hfits,?_⟩
  split
  · rename_i hend
    subst he
    dsimp only at hend ⊢
    have hspace : Printable 0x20:=by unfold Printable; decide
    have h1:=((hline.backspace (by omega)).print hspace (by unfold width; omega)).backspace (by omega)
    rw [Nat.add_sub_cancel] at h1
    rw [show start+e.cur-1=start+(e.cur-1) by omega] at h1
    refine Line.congr h1 fun x hs hx=>?_
    simp only [update_apply,lineChar,shiftDown_apply]
    split
    · rw [if_neg (by omega)]
    split
    · rw [if_pos (by omega),if_neg (by omega)]
    · rw [if_neg (by omega)]
  · exact hline.redraw hfits

theorem Echoes.deleted (key tmp : UInt8) : Echoes (delete e key tmp).1 (type r (delete e key tmp).2) y start:=by
  obtain ⟨⟨hle,hlen,htext⟩,hline⟩:=h
  unfold delete
  split
  · have hfits : Editor.Fits {e with buf:=shiftDown e.cur (e.len-1) e.buf,len:=e.len-1} start:=by
      refine ⟨by dsimp only; omega,by dsimp only; omega,fun i hi=>?_⟩
      dsimp only at hi ⊢
      rw [shiftDown_apply]
      split
      · exact htext _ (by omega)
      · exact htext _ (by omega)
    exact ⟨hfits,hline.redraw hfits⟩
  · exact ⟨⟨hle,hlen,htext⟩,hline⟩

theorem Echoes.moved {cur : ℕ} (hcur : cur≤e.len)
    (hline : Line (type r output) y start (start+cur) (lineChar e start)) :
    Echoes {e with cur:=cur} (type r output) y start:=
  ⟨⟨hcur,h.fits.len,h.fits.text⟩,hline⟩

theorem Echoes.arrow (key : UInt8) : Echoes (arrow e key).1 (type r (arrow e key).2) y start:=by
  have hcur:=h.fits.cur
  have hlen:=h.fits.len
  have hline:=h.line
  have hwidth : width=80:=rfl
  unfold Shell.arrow
  split
  · split
    · exact h.moved (by omega) (hline.forward (n:=1) (by decide) (by omega))
    · exact h
  · split
    · have hback:=hline.back (n:=1) (by decide) (by omega)
      exact h.moved (by omega) (by rwa [Nat.add_sub_assoc (by omega)] at hback)
    · exact h
  · split
    · have hback:=hline.back (by omega) (by omega)
      exact h.moved (by omega) (by rwa [Nat.add_sub_cancel] at hback)
    · exact h
  · split
    · have hforward:=hline.forward (n:=e.len-e.cur) (by omega) (by omega)
      exact h.moved le_rfl (by rwa [show start+e.cur+(e.len-e.cur)=start+e.len by omega] at hforward)
    · exact h
  · exact h

theorem Echoes.inserted (hc : Printable c) (hlen : start+(e.len+1)≤79)
    (he : e'={buf:=update (shiftUp e.cur e.len e.buf) e.cur c,len:=e.len+1,cur:=e.cur+1}) :
    Echoes e' (type r (if e'.cur=e'.len then [c] else redraw e')) y start:=by
  obtain ⟨⟨hle,-,htext⟩,hline⟩:=h
  have hfits : e'.Fits start:=by
    subst he
    refine ⟨by dsimp only; omega,hlen,fun i hi=>?_⟩
    dsimp only at hi ⊢
    rw [update_apply,shiftUp_apply]
    split
    · exact hc
    split
    · exact htext _ (by omega)
    · exact htext _ (by omega)
  refine ⟨hfits,?_⟩
  split
  · rename_i hend
    subst he
    dsimp only at hend ⊢
    refine (hline.print hc (by unfold width; omega)).congr fun x hs hx=>?_
    simp only [update_apply,lineChar,shiftUp_apply]
    by_cases hxc : x=start+e.cur
    · rw [if_pos hxc,if_pos (by omega),if_pos (by omega)]
    rw [if_neg hxc]
    by_cases hxl : x<start+e.len
    · rw [if_pos hxl,if_pos (by omega),if_neg (by omega),if_neg (by omega)]
    · rw [if_neg hxl,if_neg (by omega)]
  · exact hline.redraw hfits

theorem Echoes.escape {input rest : List Read}
    (hi : escape e input=some (.more e' output rest)) : Echoes e' (type r output) y start:=by
  unfold Shell.escape at hi
  split at hi
  · split at hi
    · split at hi
      · cases hi
      · cases hi
        exact h.deleted _ _
    · cases hi
      exact h.arrow _
  · cases hi
    exact h
  · cases hi
  · cases hi
    exact h
  · cases hi

end

theorem printable_of_not (hdel : ¬(c=0x08 ∨ c=127)) (hctl : ¬(c<32 ∨ 0x80 ≤ c)) : Printable c:=by
  have h127 : c.toNat≠127:=fun h=>hdel (.inr (UInt8.toNat_inj.mp h))
  have h32 : ¬c.toNat<32:=fun h=>hctl (.inl h)
  have h128 : ¬128 ≤ c.toNat:=fun h=>hctl (.inr h)
  exact ⟨show 32 ≤ c.toNat by omega,show c.toNat<127 by omega⟩

theorem Echoes.iterate (h : Echoes e r y start) {max : ℤ} {input rest : List Read}
    (hi : iterate max e input=some (.more e' output rest)) (hlen : start+e'.len≤79) :
    Echoes e' (type r output) y start:=by
  unfold Shell.iterate at hi
  split at hi
  · cases hi
  · cases hi
    exact h
  split at hi
  · cases hi
  split at hi
  · unfold backspace at hi
    split at hi
    · cases hi
      exact h.erased ‹_› rfl
    · cases hi
      exact h
  split at hi
  · exact h.escape hi
  split at hi
  · cases hi
    exact h
  rename_i c _ _ hdel _ hctl
  have hc : Printable c:=printable_of_not hdel hctl
  unfold insert at hi
  split at hi
  · cases hi
    exact h.inserted hc hlen rfl
  · cases hi
    exact h

/-- The console before the first key: the cursor and the saved position are in a row that is blank
from there on. -/
structure Ready (c : Console) (y start : ℕ) : Prop where
  rowOnScreen : y<height
  colOnScreen : start<width
  row : c.row=y
  col : c.col=start
  savedRow : c.savedRow=y
  savedCol : c.savedCol=start
  normal : c.escState = .normal
  blank : ∀x,start≤x→x<width→(cellOf (c.buffer (y*width+x))).char=0x20

/-- The row shows the line followed by blanks, with the cursor at the editor's position. -/
structure InStep (s : Session) (y start : ℕ) : Prop where
  cells : ∀x,start≤x→x<width→(cellOf (s.console.buffer (y*width+x))).char =
    if x<start+s.editor.len then s.editor.buf (x-start) else 0x20
  row : s.console.row=y
  col : s.console.col=start+s.editor.cur

/-- Where the driver's words are seen as characters only. -/
def Mirrors (s : Session) (y : Fin height) (start : ℕ) : Prop:=
  ∃r : Reference UInt16,Displays s.console r ∧ Echoes s.editor (r.map fun v=>(cellOf v).char) y start

theorem Mirrors.keystroke {s' : Session} {max : ℤ} (h : Mirrors s y start) (hs : keystroke max s=some s')
    (hlen : start+s'.editor.len≤79) : Mirrors s' y start:=by
  obtain ⟨r,hd,he⟩:=h
  unfold Shell.keystroke at hs
  split at hs
  · rename_i e' output rest hi
    cases hs
    refine ⟨output.foldl (Reference.feed packEntry) r,hd.foldl output,?_⟩
    have hmap:=Reference.map_foldl (f:=fun v=>(cellOf v).char) char_packEntry r output
    rw [hmap]
    exact he.iterate hi hlen
  · cases hs

theorem Mirrors.inStep (h : Mirrors s y start) : InStep s y start:=by
  obtain ⟨r,hd,he⟩:=h
  have hline:=he.line
  refine ⟨fun x hs hx=>?_,hd.screen.row.trans (congrArg Fin.val hline.row),hd.screen.col.trans hline.col⟩
  rw [hd.screen.cells y ⟨x,hx⟩]
  exact hline.cells ⟨x,hx⟩ hs

theorem Ready.mirrors {y start : ℕ} (h : Ready s.console y start) (hlen : s.editor.len=0)
    (hcur : s.editor.cur=0) (hstart : start≤79) : Mirrors s ⟨y,h.rowOnScreen⟩ start:=by
  let t : Screen UInt16:=
    { cells:=fun y x=>s.console.buffer (y*width+x)
      row:=⟨y,h.rowOnScreen⟩
      col:=⟨start,h.colOnScreen⟩
      savedRow:=⟨y,h.rowOnScreen⟩
      savedCol:=⟨start,h.colOnScreen⟩
      pen:=s.console.color }
  refine ⟨⟨t,.text⟩,⟨⟨fun _ _=>rfl,h.row,h.col,h.savedRow,h.savedCol,rfl⟩,h.normal⟩,?_⟩
  refine ⟨⟨by omega,by omega,fun i hi=>by omega⟩,⟨rfl,rfl,by rw [hcur]; rfl,rfl,rfl,fun x hs=>?_⟩⟩
  rw [lineChar,hlen,if_neg (by omega)]
  exact h.blank x hs x.isLt

/-- As long as the line stays within 79 columns, the console shows it after every keystroke. -/
theorem echo_inStep {max : ℤ} {y start : ℕ} {s : Session}
    (h : Reach (fun s=>s.editor.len=0 ∧ s.editor.cur=0 ∧ Ready s.console y start)
    (fun s (_ : Unit)=>keystroke max s) (fun _ s=>start+s.editor.len≤79) s)
    (hlen : start+s.editor.len≤79) : InStep s y start:=by
  suffices hm : ∃hy : y<height,Mirrors s ⟨y,hy⟩ start from hm.choose_spec.inStep
  induction h with
  | start h=>
    obtain ⟨h₁,h₂,hready⟩:=h
    exact ⟨hready.rowOnScreen,hready.mirrors h₁ h₂ (by omega)⟩
  | step op _ hok hs ih=>
    obtain ⟨hy,hm⟩:=ih hok
    exact ⟨hy,hm.keystroke hs hlen⟩

def freshConsole : Console:=init (load fun _=>0)

theorem ready_freshConsole : Ready freshConsole 0 0:=by
  have hd:=displays_init fun _=>0
  refine ⟨by decide,by decide,hd.screen.row,hd.screen.col,hd.screen.savedRow,hd.screen.savedCol,hd.parser,
    fun x _ hx=>?_⟩
  rw [show freshConsole=init (load fun _=>0) from rfl,hd.screen.cells ⟨0,by decide⟩ ⟨x,hx⟩]
  exact char_packEntry _ _

/-- Two letters, the left arrow and a third letter in between. -/
def someKeys : List Read:=[.byte 0x61,.byte 0x63,.byte 0x1B,.byte 0x5B,.byte 0x44,.byte 0x62]

theorem echo_inStep_middle : ∃s : Session,s.editor.text=[0x61,0x62,0x63] ∧ s.editor.cur=2 ∧ InStep s 0 0:=by
  have hstart : Reach (fun s=>s.editor.len=0 ∧ s.editor.cur=0 ∧ Ready s.console 0 0)
      (fun s (_ : Unit)=>keystroke 256 s) (fun _ s=>0+s.editor.len≤79)
      ⟨⟨fun _=>0,0,0⟩,freshConsole,someKeys⟩:=
    .start ⟨rfl,rfl,ready_freshConsole⟩
  have h₁:=hstart.step () (by decide) rfl
  have h₂:=h₁.step () (by decide) rfl
  have h₃:=h₂.step () (by decide) rfl
  have h₄:=h₃.step () (by decide) rfl
  exact ⟨_,rfl,rfl,echo_inStep h₄ (by decide)⟩

end Knail.Shell
