import Knail.Terminals
import Knail.Vga
import Mathlib.Data.List.GetD

/-!
# The console as a terminal

The reference terminal reads escape sequences into lists of parameters and executes them on a
screen with cells of any kind. The driver does what this terminal does when its cells are the
words that `put_entry` packs.
-/
namespace Knail.Vga
open Terminal (Command)

abbrev Screen (α : Type):=Terminal height width α UInt8

/-- Where the reference terminal is in an escape sequence. -/
inductive Parser
  | text
  | escape
  /-- The parameters before the present one, and the present one. -/
  | args (before : List UInt8) (last : UInt8)
  deriving DecidableEq, Repr

def control (b : UInt8) : Command UInt8 UInt8:=
  match b with
  | 0x0A=>.lineFeed
  | 0x0D=>.carriageReturn
  | 0x08=>.backspace
  | _=>.print b

def sgr (args : List UInt8) (color : UInt8) : UInt8:=(args.foldl Rendition.apply (.ofColor color)).color

def amount (args : List UInt8) : ℕ:=if args.getD 0 0≠0 then (args.getD 0 0).toNat else 1

/-- What the final byte of an escape sequence asks for. -/
def final (pen : UInt8) (args : List UInt8) (b : UInt8) : Option (Command UInt8 UInt8):=
  match b with
  | 0x6D=>some (.pen (sgr args pen))
  | 0x4A=>if args.getD 0 0=2 then some .clear else none
  | 0x41=>some (.up (amount args))
  | 0x42=>some (.down (amount args))
  | 0x43=>some (.forward (amount args))
  | 0x44=>some (.back (amount args))
  | 0x48 | 0x66=>some (.goto ((args.getD 0 0).toNat-1) ((args.getD 1 0).toNat-1))
  | 0x4B=>
    if args.getD 0 0=0 then some .eraseEnd
    else if args.getD 0 0=1 then some .eraseStart
    else if args.getD 0 0=2 then some .eraseLine else none
  | 0x73=>some .save
  | 0x75=>some .restore
  | _=>none

def Parser.feed (pen b : UInt8) : Parser→Parser×Option (Command UInt8 UInt8)
  | .text=>if b=0x1B then (.escape,none) else (.text,some (control b))
  | .escape=>(if b=0x5B then .args [] 0 else .text,none)
  | .args before last=>
    if 0x30≤b ∧ b≤0x39 then (.args before (last*10+(b-0x30)),none)
    else if b=0x3B then (if before.length<7 then .args (before++[last]) 0 else .args before last,none)
    else (.text,final pen (before++[last]) b)

structure Reference (α : Type) where
  screen : Screen α
  parser : Parser

variable {α β : Type}
  {glyph : UInt8→UInt8→α} {r : Reference α} {b : UInt8} {f : α→β} {glyph' : UInt8→UInt8→β} {row col y x : ℕ} {s' : Console} {args : List UInt8}

def Reference.feed (glyph : UInt8→UInt8→α) (r : Reference α) (b : UInt8) : Reference α where
  screen:=(r.parser.feed r.screen.pen b).2.elim r.screen (r.screen.exec glyph 0x20)
  parser:=(r.parser.feed r.screen.pen b).1

theorem Reference.feed_none (h : (r.parser.feed r.screen.pen b).2=none) : (r.feed glyph b).screen=r.screen:=by
  rw [feed,h]
  rfl

theorem Reference.feed_some {cmd : Command UInt8 UInt8} (h : (r.parser.feed r.screen.pen b).2=some cmd) :
    (r.feed glyph b).screen=r.screen.exec glyph 0x20 cmd:=by
  rw [feed,h]
  rfl

def Reference.map (f : α→β) (r : Reference α) : Reference β:=⟨r.screen.map f,r.parser⟩

theorem Reference.map_feed (hf : ∀c k,f (glyph c k)=glyph' c k) (r : Reference α) (b : UInt8) :
    (r.feed glyph b).map f=(r.map f).feed glyph' b:=by
  unfold Reference.feed Reference.map
  congr 1
  rw [show (r.screen.map f).pen=r.screen.pen from rfl]
  cases (r.parser.feed r.screen.pen b).2 with
  | none=>rfl
  | some cmd=>exact Terminal.map_exec 0x20 hf r.screen cmd

theorem Reference.map_foldl (hf : ∀c k,f (glyph c k)=glyph' c k) (r : Reference α) (bytes : List UInt8) :
    (bytes.foldl (feed glyph) r).map f=bytes.foldl (feed glyph') (r.map f):=by
  induction bytes generalizing r with
  | nil=>rfl
  | cons b bytes ih=>rw [List.foldl_cons,ih,map_feed hf,List.foldl_cons]

theorem packEntry_blank (color : UInt8) : packEntry 0x20 color=color.toUInt16 <<< 8|||0x20:=by
  rw [packEntry,charToU16,if_pos (by decide),UInt16.or_comm]
  rfl

section Loops

variable (s : Console)

theorem blankRow_color (a b y : ℕ) : (blankRow a b y s).color=s.color:=by
  unfold blankRow
  induction List.range' a (b-a) generalizing s with
  | nil=>rfl
  | cons x l ih=>exact ih _

theorem store_buffer (i j : ℕ) (v : UInt16) : (store i v s).buffer j=if j=i then v else s.buffer j:=
  Function.update_apply ..

theorem blankRow_buffer (a b y i : ℕ) : (blankRow a b y s).buffer i =
    if y*width+a ≤ i ∧ i<y*width+b then packEntry 0x20 s.color else s.buffer i:=by
  unfold blankRow
  induction h : b-a generalizing a s with
  | zero=>
    rw [if_neg (by omega)]
    rfl
  | succ n ih=>
    rw [List.range'_succ,List.foldl_cons,ih _ _ (by omega),putEntry,store_buffer]
    split <;> split <;> first | rfl | omega | (split <;> first | rfl | omega)

theorem copyRow_buffer (y i : ℕ) : (copyRow (y+1) s).buffer i =
    if y*width ≤ i ∧ i<(y+1)*width then s.buffer (i+width) else s.buffer i:=by
  -- the first `n` words of the row above have been replaced
  have hloop (n : ℕ) (hn : n≤width) (i : ℕ) :
      ((List.range n).foldl (fun t x=>store (y*width+x) (t.buffer ((y+1)*width+x)) t) s).buffer i =
        if y*width ≤ i ∧ i<y*width+n then s.buffer (i+width) else s.buffer i:=by
    induction n generalizing i with
    | zero=>
      rw [if_neg (by omega)]
      rfl
    | succ n ih=>
      simp only [List.range_succ,List.foldl_append,List.foldl_cons,List.foldl_nil,store_buffer,ih (by omega)]
      rw [Nat.add_mul,Nat.one_mul]
      by_cases hi : i=y*width+n
      · subst hi
        rw [if_pos rfl,if_neg (by omega),if_pos (by omega),Nat.add_right_comm]
      · rw [if_neg hi]
        simp only [show y*width ≤ i ∧ i<y*width+(n+1)↔y*width ≤ i ∧ i<y*width+n by omega]
  rw [copyRow,Nat.add_sub_cancel,hloop width le_rfl,Nat.add_mul,Nat.one_mul]

theorem copyRow_color (y : ℕ) : (copyRow y s).color=s.color:=by
  induction List.range width generalizing s with
  | nil=>rfl
  | cons x l ih=>exact ih _

theorem copyRows_color (l : List ℕ) : (l.foldl (fun t y=>copyRow y t) s).color=s.color:=by
  induction l generalizing s with
  | nil=>rfl
  | cons y l ih=>rw [List.foldl_cons,ih,copyRow_color]

theorem copyRows_buffer (n i : ℕ) : ((List.range' 1 n).foldl (fun t y=>copyRow y t) s).buffer i =
    if i<n*width then s.buffer (i+width) else s.buffer i:=by
  induction n generalizing i with
  | zero=>simp
  | succ n ih=>
    simp only [List.range'_concat,List.foldl_append,List.foldl_cons,List.foldl_nil,Nat.one_mul,
      Nat.add_comm 1 n,copyRow_buffer,ih,Nat.add_mul]
    split <;> split <;> first | rfl | omega | (split <;> first | rfl | omega)

theorem fill_buffer {i n : ℕ} (hi : i<n) (v : UInt16) :
    ((List.range n).foldl (fun t i=>store i v t) s).buffer i=v:=by
  induction n with
  | zero=>omega
  | succ n ih=>
    rw [List.range_succ,List.foldl_append,List.foldl_cons,List.foldl_nil,store_buffer]
    by_cases hin : i=n
    · rw [if_pos hin]
    · rw [if_neg hin,ih (by omega)]

end Loops

/-- The words of the text buffer and the driver's globals are those of a terminal. -/
structure Shows (s : Console) (t : Screen UInt16) : Prop where
  cells : ∀(y : Fin height) (x : Fin width),s.buffer (y*width+x)=t.cells y x
  row : s.row=t.row
  col : s.col=t.col
  savedRow : s.savedRow=t.savedRow
  savedCol : s.savedCol=t.savedCol
  color : s.color=t.pen

variable {s : Console} {t : Screen UInt16}

theorem Shows.updateCursor (h : Shows s t) : Shows (updateCursor s) t:=
  ⟨h.cells,h.row,h.col,h.savedRow,h.savedCol,h.color⟩

theorem Shows.parse (h : Shows s t) (state : EscState) (params : ℕ→UInt8) (n : ℕ) :
    Shows {s with escState:=state,escParams:=params,escParamCount:=n} t:=
  ⟨h.cells,h.row,h.col,h.savedRow,h.savedCol,h.color⟩

theorem Shows.move (h : Shows s t) {y : Fin height} {x : Fin width} (hy : row=y) (hx : col=x) :
    Shows {s with row:=row,col:=col} (t.moveTo y x):=
  ⟨h.cells,hy,hx,h.savedRow,h.savedCol,h.color⟩

theorem Shows.drawn (h : Shows s t) (hd : Drawn s s') {cells : Fin height→Fin width→UInt16}
    (hc : ∀(y : Fin height) (x : Fin width),s'.buffer (y*width+x)=cells y x) : Shows s' {t with cells:=cells}:=by
  obtain ⟨b,l,rfl,-⟩:=hd
  exact ⟨hc,h.row,h.col,h.savedRow,h.savedCol,h.color⟩

theorem index_inj {y' : ℕ} {x' : ℕ} (hx : x<width) (hx' : x'<width) : y*width+x=y'*width+x'↔y=y' ∧ x=x':=by
  unfold width at *
  omega

section

variable (h : Shows s t)
include h

theorem Shows.putEntry (c : UInt8) : Shows (putEntry c s.color s.col s.row s) (t.put (packEntry c t.pen)):=by
  refine h.drawn (.store (index_lt (h.col▸t.col.isLt) (h.row▸t.row.isLt)) _ s) fun y x=>?_
  rw [store_buffer,h.cells,h.color,h.row,h.col]
  simp only [index_inj x.isLt t.col.isLt,Fin.ext_iff]

theorem Shows.blankRow {a b : ℕ} (hb : b≤width) :
    Shows (blankRow a b s.row s) (t.erase (packEntry 0x20 t.pen) a b):=by
  refine h.drawn (.blankRow hb (h.row▸t.row.isLt) s) fun y x=>?_
  have hx:=x.isLt
  have hyx : y.val*width+x=t.row*width+x↔y=t.row:=by
    rw [index_inj hx hx,Fin.ext_iff]
    simp
  rw [blankRow_buffer,h.cells,h.color,h.row]
  refine if_congr ?_ rfl rfl
  constructor
  · rintro ⟨h1,h2⟩
    have : y=t.row:=by
      unfold width at *
      omega
    subst this
    exact ⟨rfl,by omega,by omega⟩
  · omega

theorem Shows.clear : Shows (clear s) (t.exec packEntry 0x20 .clear):=by
  unfold Vga.clear
  generalize hloop : (List.range (width*height)).foldl
    (fun t i=>Vga.store i (s.color.toUInt16 <<< 8|||0x20) t) s=s'
  have hd : Drawn s s':=hloop▸Drawn.foldl (fun s i hi=>.store (List.mem_range.mp hi) _ s) s
  have hc (y : Fin height) (x : Fin width) : s'.buffer (y*width+x)=packEntry 0x20 t.pen:=by
    rw [←hloop,fill_buffer s (index_lt x.isLt y.isLt),←packEntry_blank,h.color]
  have hs:=h.drawn hd hc
  exact Shows.updateCursor ⟨hs.cells,rfl,rfl,hs.savedRow,hs.savedCol,hs.color⟩

theorem Shows.nextRow : Shows (nextRow s) (t.lineDown (packEntry 0x20 t.pen)):=by
  have hrow:=h.row
  unfold Vga.nextRow Terminal.lineDown
  by_cases hlast : t.row+1<height
  · rw [if_neg (by omega),dif_pos hlast]
    exact h.move (by simp [hrow]) h.col
  rw [if_pos (by omega),dif_neg hlast,scroll]
  obtain ⟨b,l,he,hl⟩:=drawn_rows {s with row:=s.row+1}
  have hbuf (i : ℕ):=congrArg (fun s=>s.buffer i) he
  simp only [blankRow_buffer,copyRows_buffer,copyRows_color,h.color] at hbuf
  rw [he]
  have hcells (y : Fin height) (x : Fin width) :
      b (y*width+x)=(t.scroll (packEntry 0x20 t.pen)).cells y x:=by
    rw [←hbuf,Terminal.scroll]
    dsimp only
    by_cases hy' : y.val+1<height
    · rw [dif_pos hy',←h.cells,if_neg (by unfold width height at *; omega),
        if_pos (by unfold width height at *; omega)]
      congr 1
      dsimp only
      unfold width
      omega
    · rw [dif_neg hy',if_pos (by unfold width height at *; omega)]
  have hs:=h.drawn ⟨b,l,rfl,hl⟩ hcells
  refine ⟨hs.cells,?_,hs.col,hs.savedRow,hs.savedCol,hs.color⟩
  show height-1=t.row.val
  omega

theorem Shows.home : Shows {s with col:=0} t.home:=h.move h.row rfl

theorem Shows.stepBack : Shows (if 0<s.col then {s with col:=s.col-1}
      else if 0<s.row then {s with row:=s.row-1,col:=width-1} else s) t.stepBack:=by
  have hrow:=h.row
  have hcol:=h.col
  unfold Terminal.stepBack
  by_cases hx : 0<t.col.val
  · rw [if_pos (by omega),if_pos hx]
    exact h.move hrow (by simp [hcol])
  rw [if_neg (by omega),if_neg hx]
  by_cases hy : 0<t.row.val
  · rw [if_pos (by omega),if_pos hy]
    exact h.move (by simp [hrow]) rfl
  · rw [if_neg (by omega),if_neg hy]
    exact h

theorem Shows.advance : Shows (if width ≤ s.col+1 then Vga.nextRow {s with col:=0} else {s with col:=s.col+1})
      (t.advance (packEntry 0x20 t.pen)):=by
  unfold Terminal.advance
  rw [h.col]
  by_cases hx : t.col+1<width
  · rw [if_neg (by omega),dif_pos hx]
    exact h.move h.row rfl
  · rw [if_pos (by omega),dif_neg hx]
    exact h.home.nextRow

theorem Shows.render (c : UInt8) : Shows (render c s) (t.exec packEntry 0x20 (control c)):=by
  unfold Vga.render control
  split
  · subst c
    exact h.home.nextRow.updateCursor
  split
  · subst c
    exact h.home.updateCursor
  split
  · subst c
    have hb:=h.stepBack.putEntry 0x20
    rw [Terminal.stepBack_pen] at hb
    exact hb.updateCursor
  · split
    · contradiction
    · contradiction
    · contradiction
    · exact (h.putEntry c).advance.updateCursor

end

/-- The driver's parameters are those of the list. -/
structure Holds (s : Console) (args : List UInt8) : Prop where
  count : s.escParamCount=args.length
  params : ∀i,s.escParams i=args.getD i 0

theorem Holds.map_range (h : Holds s args) : (List.range s.escParamCount).map s.escParams=args:=by
  refine List.ext_getElem (by simp [h.count]) fun i h1 h2=>?_
  simp [h.params,h2]

theorem Holds.count_eq (h : Holds s args) : Vga.count s=amount args:=by
  simp only [Vga.count,amount,h.params]

theorem position_eq (p : UInt8) {m : ℕ} (hm : 0 < m) :
    (if m≤(if p≠0 then p.toNat-1 else 0) then m-1 else if p≠0 then p.toNat-1 else 0) =
    min (p.toNat-1) (m-1):=by
  have hp : (if p≠0 then p.toNat-1 else 0)=p.toNat-1:=by
    split
    · rfl
    · simp_all
  rw [hp]
  split <;> omega

theorem Shows.applySgr (h : Shows s t) (ha : Holds s args) (hne : args≠[]) :
    Shows (applySgr s) (t.exec packEntry 0x20 (.pen (sgr args t.pen))):=by
  have hcount : s.escParamCount≠0:=by
    rw [ha.count]
    exact fun h=>hne (List.length_eq_zero_iff.mp h)
  unfold Vga.applySgr
  rw [if_neg hcount,ha.map_range,h.color]
  exact ⟨h.cells,h.row,h.col,h.savedRow,h.savedCol,rfl⟩

theorem Shows.jump (h : Shows s t) (hy : row=min y (height-1)) (hx : col=min x (width-1)) :
    Shows {s with row:=row,col:=col} (t.jump y x):=
  h.move hy hx

theorem Shows.command (h : Shows s t) (ha : Holds s args) (hne : args≠[]) (c : UInt8) :
    Shows (command c s) ((final t.pen args c).elim t (t.exec packEntry 0x20)):=by
  have hrow:=h.row
  have hcol:=h.col
  have hx:=t.col.isLt
  unfold Vga.command final
  split
  · exact h.applySgr ha hne
  · rw [ha.params]
    split
    · exact h.clear
    · exact h
  · exact (h.jump (by rw [ha.count_eq,hrow]; split <;> omega) (by omega)).updateCursor
  · exact (h.jump (by rw [ha.count_eq,hrow]; split <;> omega) (by omega)).updateCursor
  · exact (h.jump (by omega) (by rw [ha.count_eq,hcol]; split <;> omega)).updateCursor
  · exact (h.jump (by omega) (by rw [ha.count_eq,hcol]; split <;> omega)).updateCursor
  · exact h.jump (by rw [ha.params]; exact position_eq _ (by decide)) (by rw [ha.params]; exact position_eq _ (by decide))
  · exact h.jump (by rw [ha.params]; exact position_eq _ (by decide)) (by rw [ha.params]; exact position_eq _ (by decide))
  · rw [ha.params,hcol]
    split
    · exact h.blankRow le_rfl
    split
    · exact h.blankRow hx
    split
    · exact h.blankRow le_rfl
    · exact h
  · exact ⟨h.cells,hrow,hcol,hrow,hcol,h.color⟩
  · exact (h.move h.savedRow h.savedCol).updateCursor
  · try split
    all_goals first | contradiction | exact h

theorem Drawn.escState (h : Drawn s s') : s'.escState=s.escState:=by
  obtain ⟨_,_,rfl,-⟩:=h
  rfl

theorem nextRow_escState (s : Console) : (nextRow s).escState=s.escState:=by
  unfold nextRow
  split
  · rw [scroll,(drawn_rows {s with row:=s.row+1}).escState]
  · rfl

theorem render_escState (c : UInt8) (s : Console) : (render c s).escState=s.escState:=by
  unfold render
  split
  · exact nextRow_escState _
  split
  · rfl
  split
  · split
    · rfl
    split <;> rfl
  · dsimp only [updateCursor]
    split
    · exact nextRow_escState _
    · rfl

def Parses (s : Console) : Parser→Prop
  | .text=>s.escState = .normal
  | .escape=>s.escState = .esc
  | .args before last=>(s.escState = .bracket ∨ s.escState = .params) ∧ s.escParamCount=before.length ∧
      before.length≤7 ∧ ∀i,s.escParams i=(before++[last]).getD i 0

structure Displays (s : Console) (r : Reference UInt16) : Prop where
  screen : Shows s r.screen
  parser : Parses s r.parser

theorem getD_concat (l : List UInt8) (a : UInt8) (i : ℕ) :
    (l++[a]).getD i 0=if i<l.length then l.getD i 0 else if i=l.length then a else 0:=by
  split
  · rw [List.getD_append _ _ _ _ ‹_›]
  split
  · simp_all
  rw [List.getD_eq_default]
  simp
  omega

theorem Displays.parameter {before : List UInt8} {last : UInt8} (h : Shows s t)
    (hp : s.escState = .params ∧ s.escParamCount=before.length ∧ before.length≤7 ∧
    ∀i,s.escParams i=(before++[last]).getD i 0) (c : UInt8) :
    Displays (parameter c s) (Reference.feed packEntry ⟨t,.args before last⟩ c):=by
  obtain ⟨hstate,hcount,hle,hparams⟩:=hp
  unfold Vga.parameter Reference.feed Parser.feed
  split
  · rw [if_pos (by omega)]
    refine ⟨h.parse _ _ _,.inr hstate,hcount,hle,fun i=>?_⟩
    simp only [Function.update_apply,hparams,hcount,getD_concat]
    split
    · subst i
      simp
    · simp [*]
  split
  · by_cases hlt : before.length<7
    · rw [if_pos (by omega)]
      simp only [hlt,if_true]
      refine ⟨h.parse _ _ _,.inr hstate,by simp [hcount],by simp; omega,fun i=>?_⟩
      rw [hparams,getD_concat (before++[last])]
      split
      · rfl
      · rw [List.getD_eq_default _ _ (by omega),ite_self]
    · rw [if_neg (by omega)]
      simp only [hlt,if_false]
      exact ⟨h,.inr hstate,hcount,hle,hparams⟩
  · rw [if_pos (by omega)]
    have ha : Holds {s with escParamCount:=s.escParamCount+1} (before++[last]):=
      ⟨by simp [hcount],hparams⟩
    exact ⟨((h.parse _ _ _).command ha (by simp) c).parse _ _ _,rfl⟩

theorem Displays.putChar {r : Reference UInt16} (h : Displays s r) (c : UInt8) :
    Displays (putChar s c) (r.feed packEntry c):=by
  obtain ⟨t,p⟩:=r
  obtain ⟨hs,hp⟩:=h
  cases p with
  | text=>
    rw [Vga.putChar,show s.escState = .normal from hp]
    unfold Reference.feed Parser.feed
    dsimp only
    split
    · exact ⟨hs.parse _ _ _,rfl⟩
    · exact ⟨hs.render c,(render_escState c s).trans hp⟩
  | escape=>
    rw [Vga.putChar,show s.escState = .esc from hp]
    unfold Reference.feed Parser.feed
    dsimp only
    split
    · refine ⟨hs.parse _ _ _,.inl rfl,rfl,by decide,fun i=>?_⟩
      simp
    · exact ⟨hs.parse _ _ _,rfl⟩
  | args before last=>
    obtain ⟨hstate | hstate,hrest⟩:=hp
    · rw [Vga.putChar,hstate]
      exact Displays.parameter (hs.parse .params s.escParams s.escParamCount) ⟨rfl,hrest⟩ c
    · rw [Vga.putChar,hstate]
      exact Displays.parameter hs ⟨hstate,hrest⟩ c

theorem Displays.foldl {r : Reference UInt16} (h : Displays s r) (bytes : List UInt8) :
    Displays (bytes.foldl Vga.putChar s) (bytes.foldl (Reference.feed packEntry) r):=by
  induction bytes generalizing s r with
  | nil=>exact h
  | cons c bytes ih=>exact ih (h.putChar c)

end Knail.Vga
