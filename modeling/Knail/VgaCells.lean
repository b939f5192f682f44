import Knail.ByteWords
import Knail.VgaTerminal
import Mathlib.Tactic.IntervalCases

/-!
# What the screen shows

The reference terminal whose cells are a character and its colours, against the words of the
driver. A character outside ASCII is sign extended when it is packed, and its word then shows
other colours; no colour command can make that word right.
-/
namespace Knail.Vga
open Terminal (Command)

variable {α : Type} {c pen b : UInt8} {cmd : Command UInt8 UInt8} {bytes : List UInt8}

@[ext] structure Cell where
  char : UInt8
  colour : UInt8
  deriving DecidableEq, Repr

/-- The hardware shows the low byte of a word in the colours of its high byte. -/
def cellOf (v : UInt16) : Cell:=⟨v.toUInt8,(v >>> 8).toUInt8⟩

def Reference.start (glyph : UInt8→UInt8→α) : Reference α where
  screen:=
    { cells:=fun _ _=>glyph 0x20 (makeColor .lightGray .black)
      row:=⟨0,by decide⟩
      col:=⟨0,by decide⟩
      savedRow:=⟨0,by decide⟩
      savedCol:=⟨0,by decide⟩
      pen:=makeColor .lightGray .black }
  parser:=.text

/-- The terminal that keeps characters and colours, after these bytes. -/
def reference (bytes : List UInt8) : Reference Cell:=bytes.foldl (Reference.feed Cell.mk) (.start Cell.mk)

theorem reference_concat (pre : List UInt8) (b : UInt8) : reference (pre++[b])=(reference pre).feed Cell.mk b:=by
  rw [reference,List.foldl_append]
  rfl

theorem char_packEntry (c k : UInt8) : (cellOf (packEntry c k)).char=c:=by
  apply UInt8.eq_of_toBitVec_eq
  unfold cellOf packEntry charToU16
  split <;> simp

theorem colour_packEntry (hc : c<0x80) (k : UInt8) : (cellOf (packEntry c k)).colour=k:=by
  apply UInt8.eq_of_toBitVec_eq
  ext i hi
  rw [cellOf,packEntry,charToU16,if_pos hc]
  simp [show 8+i<16 by omega,show i<16 by omega,hi]

theorem colour_packEntry_of_not (hc : ¬c<0x80) (k : UInt8) : (cellOf (packEntry c k)).colour=0xFF:=by
  apply UInt8.eq_of_toBitVec_eq
  ext i hi
  rw [cellOf,packEntry,charToU16,if_neg hc]
  interval_cases i <;> simp

theorem cellOf_packEntry {cell : Cell} (hk : cell.colour<0x80) :
    cellOf (packEntry cell.char cell.colour)=cell↔cell.char<0x80:=by
  constructor
  · intro h
    by_contra hc
    have hcolour:=congrArg Cell.colour h
    rw [colour_packEntry_of_not hc] at hcolour
    rw [←hcolour] at hk
    exact absurd hk (by decide)
  · intro hc
    exact Cell.ext (char_packEntry _ _) (colour_packEntry hc _)

theorem blankRows_buffer (n : ℕ) {i : ℕ} (hi : i<n*width) (s : Console) :
    ((List.range n).foldl (fun t y=>blankRow 0 width y t) s).buffer i=packEntry 0x20 s.color:=by
  have hcolor (m : ℕ) : ((List.range m).foldl (fun t y=>blankRow 0 width y t) s).color=s.color:=by
    induction m with
    | zero=>rfl
    | succ m ih=>rw [List.range_succ,List.foldl_append,List.foldl_cons,List.foldl_nil,blankRow_color,ih]
  induction n with
  | zero=>omega
  | succ n ih=>
    rw [List.range_succ,List.foldl_append,List.foldl_cons,List.foldl_nil,blankRow_buffer,hcolor]
    split
    · rfl
    refine ih ?_
    rw [Nat.add_mul] at hi
    omega

theorem displays_init (buffer : ℕ→UInt16) : Displays (init (load buffer)) (.start packEntry):=by
  unfold init
  generalize hs : ({load buffer with col:=0,row:=0,color:=makeColor .lightGray .black} : Console)=s0
  generalize hloop : (List.range height).foldl (fun t y=>blankRow 0 width y t) s0=s'
  have hd : Drawn s0 s':=hloop▸Drawn.foldl (fun s y hy=>.blankRow le_rfl (List.mem_range.mp hy) s) s0
  have hc (y : Fin height) (x : Fin width) :
      s'.buffer (y*width+x)=packEntry 0x20 (makeColor .lightGray .black):=by
    have hlt:=index_lt x.isLt y.isLt
    rw [←hloop,blankRows_buffer height hlt,←hs]
  obtain ⟨b,l,rfl,-⟩:=hd
  subst hs
  exact ⟨Shows.updateCursor ⟨hc,rfl,rfl,rfl,rfl,rfl⟩,rfl⟩

theorem bg_dark (p : UInt8) : 40≤p ∧ p≤47→(ansiToVgaBg p).code<8:=
  forall_byte (P:=fun p=>40≤p ∧ p≤47→(ansiToVgaBg p).code<8) (by decide +kernel) p

theorem bg_bright (p : UInt8) : 100≤p ∧ p≤107→ansiToVgaFg (p-60) = .lightGray:=
  forall_byte (P:=fun p=>100≤p ∧ p≤107→ansiToVgaFg (p-60) = .lightGray) (by decide +kernel) p

theorem bg_apply {r : Rendition} (h : r.bg.code<8) (p : UInt8) : (r.apply p).bg.code<8:=by
  unfold Rendition.apply
  split
  · decide
  split
  · exact h
  split
  · exact h
  split
  · exact h
  split
  · exact bg_dark p ‹_›
  split
  · dsimp only
    rw [bg_bright p ‹_›]
    decide
  · exact h

theorem makeColor_lt {fg bg : Color} (h : bg.code<8) : makeColor fg bg<0x80:=by
  cases bg <;> first | exact absurd h (by decide) | (cases fg <;> decide)

theorem ofColor_bg (k : UInt8) : k<0x80→(Rendition.ofColor k).bg.code<8:=
  forall_byte (P:=fun k=>k<0x80→(Rendition.ofColor k).bg.code<8) (by decide +kernel) k

theorem sgr_lt {k : UInt8} (h : k<0x80) (args : List UInt8) : sgr args k<0x80:=by
  have hfold (r : Rendition) (hr : r.bg.code<8) : (args.foldl Rendition.apply r).bg.code<8:=by
    induction args generalizing r with
    | nil=>exact hr
    | cons p args ih=>exact ih _ (bg_apply hr p)
  unfold sgr Rendition.color
  split <;> exact makeColor_lt (hfold _ (ofColor_bg k h))

theorem final_spec {args : List UInt8} (h : final pen args b=some cmd) :
    (∀c,cmd≠.print c) ∧ ∀k,cmd = .pen k→k=sgr args pen:=by
  unfold final at h
  constructor
  · rintro c rfl
    repeat' split at h
    all_goals cases h
  · rintro k rfl
    split at h
    · cases h
      rfl
    repeat' split at h
    all_goals cases h

theorem control_spec (b : UInt8) : (∀c,control b = .print c→c=b) ∧ ∀k,control b≠.pen k:=by
  unfold control
  split <;> simp [eq_comm]

theorem feed_spec {p : Parser} (h : (p.feed pen b).2=some cmd) :
    (∀c,cmd = .print c→p = .text ∧ c=b) ∧ ∀k,cmd = .pen k→∃args,k=sgr args pen:=by
  cases p with
  | text=>
    simp only [Parser.feed] at h
    split at h
    · cases h
    · cases h
      exact ⟨fun c hc=>⟨rfl,(control_spec b).1 c hc⟩,fun k hk=>absurd hk ((control_spec b).2 k)⟩
  | escape=>cases h
  | args before last=>
    simp only [Parser.feed] at h
    split at h
    · cases h
    split at h
    · cases h
    · obtain ⟨hprint,hpen⟩:=final_spec h
      exact ⟨fun c hc=>absurd hc (hprint c),fun k hk=>⟨_,hpen k hk⟩⟩

variable {r : Reference Cell}

/-- Every colour on the screen, and the one in force, has a dark background. -/
structure Dim (r : Reference Cell) : Prop where
  cells : ∀y x,(r.screen.cells y x).colour<0x80
  pen : r.screen.pen<0x80

theorem Dim.feed (h : Dim r) (b : UInt8) : Dim (r.feed Cell.mk b):=by
  cases hcmd : (r.parser.feed r.screen.pen b).2 with
  | none=>exact ⟨Reference.feed_none hcmd▸h.cells,Reference.feed_none hcmd▸h.pen⟩
  | some cmd=>
    have hcells (y : Fin height) (x : Fin width) : ((r.screen.exec Cell.mk 0x20 cmd).cells y x).colour<0x80:=
      Terminal.exec_cells (P:=fun c : Cell=>c.colour<0x80) h.cells h.pen (fun _ _=>h.pen) y x
    refine ⟨Reference.feed_some hcmd▸hcells,?_⟩
    rw [Reference.feed_some hcmd]
    rcases Terminal.exec_pen Cell.mk 0x20 r.screen cmd with hpen | hpen
    · rw [hpen]
      exact h.pen
    obtain ⟨args,hk⟩:=(feed_spec hcmd).2 _ hpen
    rw [hk]
    exact sgr_lt h.pen args

theorem Dim.foldl (h : Dim r) (bytes : List UInt8) : Dim (bytes.foldl (Reference.feed Cell.mk) r):=by
  induction bytes generalizing r with
  | nil=>exact h
  | cons b bytes ih=>exact ih (h.feed b)

theorem dim_reference (bytes : List UInt8) : Dim (reference bytes):=
  Dim.foldl (r:=.start Cell.mk) ⟨fun _ _=>show makeColor .lightGray .black<0x80 by decide,by decide⟩ bytes

def printed : Parser→List UInt8→List UInt8
  | _, []=>[]
  | p, b::bytes=>if p = .text then b::printed (p.feed 0 b).1 bytes else printed (p.feed 0 b).1 bytes

theorem parser_feed (p : Parser) (pen b : UInt8) : (p.feed pen b).1=(p.feed 0 b).1:=by
  cases p with
  | text=>simp only [Parser.feed]
  | escape=>rfl
  | args before last=>
    simp only [Parser.feed]
    split
    · rfl
    split <;> rfl

def Ascii (r : Reference Cell) : Prop:=∀y x,(r.screen.cells y x).char<0x80

theorem Ascii.foldl (h : Ascii r) (hb : ∀b∈printed r.parser bytes,b<0x80) :
    Ascii (bytes.foldl (Reference.feed Cell.mk) r):=by
  induction bytes generalizing r with
  | nil=>exact h
  | cons b bytes ih=>
    have hstep : Ascii (r.feed Cell.mk b):=by
      unfold Ascii
      cases hcmd : (r.parser.feed r.screen.pen b).2 with
      | none=>
        rw [Reference.feed_none hcmd]
        exact h
      | some cmd=>
        rw [Reference.feed_some hcmd]
        refine Terminal.exec_cells (P:=fun c : Cell=>c.char<0x80) h (show (0x20 : UInt8)<0x80 by decide) fun c hc=>?_
        obtain ⟨htext,rfl⟩:=(feed_spec hcmd).1 c hc
        refine hb c ?_
        rw [printed,if_pos htext]
        exact List.mem_cons_self
    refine ih hstep fun c hc=>hb c ?_
    have hc : c∈printed (r.parser.feed 0 b).1 bytes:=parser_feed r.parser r.screen.pen b▸hc
    rw [printed]
    split
    · exact List.mem_cons_of_mem _ hc
    · exact hc

theorem mem_printed (hb : b∈printed r.parser bytes) :
    ∃pre post,bytes=pre++b::post ∧ (pre.foldl (Reference.feed Cell.mk) r).parser = .text:=by
  induction bytes generalizing r with
  | nil=>cases hb
  | cons c bytes ih=>
    have hrest (hb : b∈printed (r.parser.feed 0 c).1 bytes) :
        ∃pre post,c::bytes=pre++b::post ∧ (pre.foldl (Reference.feed Cell.mk) r).parser = .text:=by
      rw [←parser_feed r.parser r.screen.pen c] at hb
      obtain ⟨pre,post,rfl,hpre⟩:=ih (r:=r.feed Cell.mk c) hb
      exact ⟨c::pre,post,rfl,hpre⟩
    rw [printed] at hb
    split at hb
    · rename_i htext
      rcases List.mem_cons.mp hb with rfl | hb
      · exact ⟨[],bytes,rfl,htext⟩
      · exact hrest hb
    · exact hrest hb

/-- The screen shows what the reference terminal does. -/
def Agrees (s : Console) (r : Reference Cell) : Prop:=
  ∀(y : Fin height) (x : Fin width),cellOf (s.buffer (y*width+x))=r.screen.cells y x

theorem agrees_iff (buffer : ℕ→UInt16) (bytes : List UInt8) :
    Agrees (ttyWrite (init (load buffer)) bytes) (reference bytes)↔Ascii (reference bytes):=by
  have hshow:=(displays_init buffer).foldl bytes
  have hmap : (reference bytes).map (fun c=>packEntry c.char c.colour) =
      bytes.foldl (Reference.feed packEntry) (.start packEntry):=
    Reference.map_foldl (fun _ _=>rfl) _ bytes
  rw [←hmap] at hshow
  refine forall_congr' fun y=>forall_congr' fun x=>?_
  rw [ttyWrite,hshow.screen.cells]
  exact cellOf_packEntry ((dim_reference bytes).cells y x)

theorem ascii_of_prefixes (h : ∀pre,pre <+: bytes→Ascii (reference pre)) (hb : b∈printed .text bytes) : b<0x80:=by
  obtain ⟨pre,post,rfl,htext⟩:=mem_printed (r:=.start Cell.mk) hb
  have hascii:=h (pre++[b]) ⟨post,by simp⟩
  by_contra hc
  have hprint : (Parser.feed (reference pre).screen.pen b (reference pre).parser).2=some (.print b):=by
    rw [show (reference pre).parser = .text from htext,Parser.feed,if_neg (by rintro rfl; exact hc (by decide))]
    unfold control
    split <;> first | rfl | exact absurd (by decide) hc
  obtain ⟨y,x,hyx⟩:=Terminal.exec_print (by decide) Cell.mk 0x20 b (reference pre).screen
  have hchar:=hascii y x
  rw [reference_concat,Reference.feed_some hprint,hyx] at hchar
  exact hc hchar

theorem printed_append (p : Parser) (pre post : List UInt8) : ∀b∈printed p pre,b∈printed p (pre++post):=by
  induction pre generalizing p with
  | nil=>exact fun b hb=>absurd hb List.not_mem_nil
  | cons c pre ih=>
    intro b hb
    rw [printed] at hb
    rw [List.cons_append,printed]
    split at hb
    · rw [if_pos ‹_›]
      rcases List.mem_cons.mp hb with rfl | hb
      · exact List.mem_cons_self
      · exact List.mem_cons_of_mem _ (ih _ b hb)
    · rw [if_neg ‹_›]
      exact ih _ b hb

/-- The screen is that of the reference terminal as long as no character outside ASCII is on
it, and so after every byte just when none is printed. -/
theorem screen_agrees_iff (buffer : ℕ→UInt16) (bytes : List UInt8) :
    (Agrees (ttyWrite (init (load buffer)) bytes) (reference bytes)↔Ascii (reference bytes)) ∧
    ((∀pre,pre <+: bytes→Agrees (ttyWrite (init (load buffer)) pre) (reference pre)) ↔
    ∀b∈printed .text bytes,b<0x80):=by
  refine ⟨agrees_iff buffer bytes,fun h b hb=>?_,fun h pre hpre=>?_⟩
  · exact ascii_of_prefixes (fun pre hpre=>(agrees_iff buffer pre).mp (h pre hpre)) hb
  obtain ⟨post,rfl⟩:=hpre
  refine (agrees_iff buffer pre).mpr (Ascii.foldl (fun _ _=>?_) fun b hb=>?_)
  · exact show (0x20 : UInt8)<0x80 by decide
  · exact h b (printed_append .text pre post b hb)

/-- A single byte outside ASCII gets the wrong colours. -/
theorem accented_letter_recoloured : ¬Agrees (ttyWrite (init (load fun _=>0)) [0x82]) (reference [0x82]):=by
  rw [agrees_iff]
  intro h
  exact absurd (h ⟨0,by decide⟩ ⟨0,by decide⟩) (by decide)

end Knail.Vga
