import Mathlib.Data.Fin.Basic
import Mathlib.Logic.Function.Basic
import Mathlib.Tactic.Common

/-!
# Text terminals

A screen of `h` rows and `w` columns with a cursor, a saved position and a pen. A cell holds
what `glyph` makes of a character and the pen; terminals with different cells do the same when
one kind of cell is a picture of the other.
-/
namespace Knail

@[ext] structure Terminal (h w : ℕ) (α κ : Type) where
  cells : Fin h→Fin w→α
  row : Fin h
  col : Fin w
  savedRow : Fin h
  savedCol : Fin w
  pen : κ

namespace Terminal

inductive Command (γ κ : Type)
  | print (c : γ)
  | lineFeed
  | carriageReturn
  /-- Step back over one cell and blank it. -/
  | backspace
  | up (n : ℕ)
  | down (n : ℕ)
  | forward (n : ℕ)
  | back (n : ℕ)
  | goto (row col : ℕ)
  | eraseEnd
  | eraseStart
  | eraseLine
  | clear
  | pen (k : κ)
  | save
  | restore

variable {h w : ℕ} {α β γ κ : Type}

def put (a : α) (t : Terminal h w α κ) : Terminal h w α κ:=
  {t with cells:=fun y x=>if y=t.row ∧ x=t.col then a else t.cells y x}

/-- Blank the cells of the cursor's row from column `i` up to column `j`. -/
def erase (blank : α) (i j : ℕ) (t : Terminal h w α κ) : Terminal h w α κ:=
  {t with cells:=fun y x=>if y=t.row ∧ i≤x ∧ x<j then blank else t.cells y x}

/-- Every row moves up by one; the last one is new. -/
def scroll (blank : α) (t : Terminal h w α κ) : Terminal h w α κ:=
  {t with cells:=fun y x=>if hy : y+1<h then t.cells ⟨y+1,hy⟩ x else blank}

def moveTo (y : Fin h) (x : Fin w) (t : Terminal h w α κ) : Terminal h w α κ:={t with row:=y,col:=x}

def lineDown (blank : α) (t : Terminal h w α κ) : Terminal h w α κ:=
  if hy : t.row+1<h then t.moveTo ⟨t.row+1,hy⟩ t.col else t.scroll blank

def home (t : Terminal h w α κ) : Terminal h w α κ:=t.moveTo t.row ⟨0,t.col.pos⟩

def advance (blank : α) (t : Terminal h w α κ) : Terminal h w α κ:=
  if hx : t.col+1<w then t.moveTo t.row ⟨t.col+1,hx⟩ else t.home.lineDown blank

def stepBack (t : Terminal h w α κ) : Terminal h w α κ:=
  if 0<t.col.val then t.moveTo t.row ⟨t.col-1,by omega⟩
  else if 0<t.row.val then t.moveTo ⟨t.row-1,by omega⟩ ⟨w-1,by have:=t.col.pos; omega⟩
  else t

/-- The place in row `y` and column `x`, or the nearest one on the screen. -/
def jump (y x : ℕ) (t : Terminal h w α κ) : Terminal h w α κ:=
  t.moveTo ⟨min y (h-1),by have:=t.row.pos; omega⟩ ⟨min x (w-1),by have:=t.col.pos; omega⟩

def exec (glyph : γ→κ→α) (space : γ) (t : Terminal h w α κ) : Command γ κ→Terminal h w α κ
  | .print c=>(t.put (glyph c t.pen)).advance (glyph space t.pen)
  | .lineFeed=>t.home.lineDown (glyph space t.pen)
  | .carriageReturn=>t.home
  | .backspace=>t.stepBack.put (glyph space t.pen)
  | .up n=>t.jump (t.row-n) t.col
  | .down n=>t.jump (t.row+n) t.col
  | .forward n=>t.jump t.row (t.col+n)
  | .back n=>t.jump t.row (t.col-n)
  | .goto y x=>t.jump y x
  | .eraseEnd=>t.erase (glyph space t.pen) t.col w
  | .eraseStart=>t.erase (glyph space t.pen) 0 (t.col+1)
  | .eraseLine=>t.erase (glyph space t.pen) 0 w
  | .clear=>{t.jump 0 0 with cells:=fun _ _=>glyph space t.pen}
  | .pen k=>{t with pen:=k}
  | .save=>{t with savedRow:=t.row,savedCol:=t.col}
  | .restore=>t.moveTo t.savedRow t.savedCol

section CellProperties

variable {P : α→Prop} {a : α} {t : Terminal h w α κ}

section

variable (ht : ∀y x,P (t.cells y x))
include ht

theorem put_cells (ha : P a) (y : Fin h) (x : Fin w) : P ((t.put a).cells y x):=by
  rw [put]
  dsimp only
  split
  · exact ha
  · exact ht y x

theorem erase_cells (ha : P a) (i j : ℕ) (y : Fin h) (x : Fin w) : P ((t.erase a i j).cells y x):=by
  rw [erase]
  dsimp only
  split
  · exact ha
  · exact ht y x

theorem lineDown_cells (ha : P a) (y : Fin h) (x : Fin w) : P ((t.lineDown a).cells y x):=by
  rw [lineDown]
  split
  · exact ht y x
  rw [scroll]
  dsimp only
  split
  · exact ht _ x
  · exact ha

theorem advance_cells (ha : P a) (y : Fin h) (x : Fin w) : P ((t.advance a).cells y x):=by
  rw [advance]
  split
  · exact ht y x
  · exact lineDown_cells (t:=t.home) ht ha y x

end

theorem stepBack_cells (t : Terminal h w α κ) : t.stepBack.cells=t.cells:=by
  rw [stepBack]
  split
  · rfl
  split <;> rfl

/-- A property of cells is kept when what is printed and the blanks have it. -/
theorem exec_cells {glyph : γ→κ→α} {space : γ} {cmd : Command γ κ} (ht : ∀y x,P (t.cells y x))
    (hspace : P (glyph space t.pen)) (hprint : ∀c,cmd = .print c→P (glyph c t.pen)) (y : Fin h) (x : Fin w) :
    P ((t.exec glyph space cmd).cells y x):=by
  cases cmd with
  | print c=>exact advance_cells (put_cells ht (hprint c rfl)) hspace y x
  | lineFeed=>exact lineDown_cells (t:=t.home) ht hspace y x
  | backspace=>exact put_cells (fun y x=>by rw [stepBack_cells]; exact ht y x) hspace y x
  | eraseEnd | eraseStart | eraseLine=>exact erase_cells ht hspace _ _ y x
  | clear=>exact hspace
  | carriageReturn | up n | down n | forward n | back n | goto i j | pen k | save | restore=>exact ht y x

end CellProperties

/-- What is printed is on the screen, also when its row has moved up. -/
theorem exec_print (hh : 1<h) (glyph : γ→κ→α) (space c : γ) (t : Terminal h w α κ) :
    ∃y x,(t.exec glyph space (.print c)).cells y x=glyph c t.pen:=by
  have hput : (t.put (glyph c t.pen)).cells t.row t.col=glyph c t.pen:=if_pos ⟨rfl,rfl⟩
  rw [exec,advance]
  split
  · exact ⟨t.row,t.col,hput⟩
  rw [lineDown]
  split
  · exact ⟨t.row,t.col,hput⟩
  rename_i hlast
  have hlast : ¬t.row.val+1<h:=hlast
  have hrow : t.row.val-1+1=t.row:=by omega
  refine ⟨⟨t.row-1,by omega⟩,t.col,?_⟩
  rw [scroll]
  dsimp only
  rw [dif_pos (by omega)]
  simp only [hrow]
  exact hput

theorem lineDown_pen (a : α) (t : Terminal h w α κ) : (t.lineDown a).pen=t.pen:=by
  rw [lineDown]
  split <;> rfl

theorem stepBack_pen (t : Terminal h w α κ) : t.stepBack.pen=t.pen:=by
  rw [stepBack]
  split
  · rfl
  split <;> rfl

theorem exec_pen (glyph : γ→κ→α) (space : γ) (t : Terminal h w α κ) (cmd : Command γ κ) :
    (t.exec glyph space cmd).pen=t.pen ∨ cmd = .pen (t.exec glyph space cmd).pen:=by
  cases cmd with
  | pen k=>exact .inr rfl
  | print c=>
    rw [exec,advance]
    split
    · exact .inl rfl
    · exact .inl (lineDown_pen _ _)
  | lineFeed=>exact .inl (lineDown_pen _ _)
  | backspace=>exact .inl (stepBack_pen t)
  | carriageReturn | up n | down n | forward n | back n | goto y x | eraseEnd | eraseStart | eraseLine | clear
  | save | restore=>exact .inl rfl

def map (f : α→β) (t : Terminal h w α κ) : Terminal h w β κ:={t with cells:=fun y x=>f (t.cells y x)}

section

variable (f : α→β)
include f

theorem map_put (a : α) (t : Terminal h w α κ) : (t.put a).map f=(t.map f).put (f a):=by
  ext1 <;> try rfl
  funext y x
  exact apply_ite f _ _ _

theorem map_erase (a : α) (i j : ℕ) (t : Terminal h w α κ) : (t.erase a i j).map f=(t.map f).erase (f a) i j:=by
  ext1 <;> try rfl
  funext y x
  exact apply_ite f _ _ _

theorem map_scroll (a : α) (t : Terminal h w α κ) : (t.scroll a).map f=(t.map f).scroll (f a):=by
  ext1 <;> try rfl
  funext y x
  exact apply_dite f _ _ _

theorem map_lineDown (a : α) (t : Terminal h w α κ) : (t.lineDown a).map f=(t.map f).lineDown (f a):=by
  unfold lineDown
  by_cases hy : t.row+1<h
  · rw [dif_pos hy,dif_pos (show (t.map f).row+1<h from hy)]
    rfl
  · rw [dif_neg hy,dif_neg (show ¬(t.map f).row+1<h from hy),map_scroll]

theorem map_advance (a : α) (t : Terminal h w α κ) : (t.advance a).map f=(t.map f).advance (f a):=by
  unfold advance
  by_cases hx : t.col+1<w
  · rw [dif_pos hx,dif_pos (show (t.map f).col+1<w from hx)]
    rfl
  · rw [dif_neg hx,dif_neg (show ¬(t.map f).col+1<w from hx),map_lineDown]
    rfl

theorem map_stepBack (t : Terminal h w α κ) : t.stepBack.map f=(t.map f).stepBack:=by
  unfold stepBack
  by_cases hx : 0<t.col.val
  · rw [if_pos hx,if_pos (show 0<(t.map f).col.val from hx)]
    rfl
  · rw [if_neg hx,if_neg (show ¬0<(t.map f).col.val from hx)]
    exact apply_ite (map f) _ _ _

end

/-- A terminal whose cells are pictures of another one's does the same. -/
theorem map_exec {f : α→β} {glyph : γ→κ→α} {glyph' : γ→κ→β} (space : γ)
    (hf : ∀c k,f (glyph c k)=glyph' c k) (t : Terminal h w α κ) (cmd : Command γ κ) :
    (t.exec glyph space cmd).map f=(t.map f).exec glyph' space cmd:=by
  have hpen : (t.map f).pen=t.pen:=rfl
  cases cmd with
  | print c=>rw [exec,exec,map_advance,map_put,hf,hf,hpen]
  | lineFeed=>
    rw [exec,exec,map_lineDown,hf,hpen]
    rfl
  | backspace=>rw [exec,exec,map_put,map_stepBack,hf,hpen]
  | eraseEnd | eraseStart=>rw [exec,exec,map_erase,hf,hpen]; rfl
  | eraseLine=>rw [exec,exec,map_erase,hf,hpen]
  | clear=>
    simp only [exec,hpen,←hf]
    rfl
  | carriageReturn | up n | down n | forward n | back n | goto y x | pen k | save | restore=>rfl

end Terminal

end Knail
