import Knail.Bitmaps
import Knail.ByteWords
import Knail.KernelTypes

/-!
# The physical memory manager

One bit per 4 KiB frame, set if the frame is in use. `init` reads the memory map of the boot loader; a result `none`
is a loop that does not end, or a store past the bitmap.
-/
namespace Knail.FrameAllocator

def pageSize : ℕ:=4096
def maxFrames : ℕ:=1024*1024
def identityMapLimitFrames : ℕ:=1073741824/pageSize

structure Pmm where
  bitmap : Bitmap
  totalFrames : ℕ
  usedFrames : ℕ

def isUsed (p : Pmm) (f : ℕ) : Bool:=p.bitmap.test f

/-- The search loop of `alloc_frame`, with `n` frames left from frame `f` on. -/
def allocLoop (p : Pmm) : ℕ→ℕ→ℕ×Pmm
  | 0, _=>(0,p)
  | n+1, f=>
    if isUsed p f then allocLoop p n (f+1)
    else (u64 (f*pageSize),{p with bitmap:=p.bitmap.insert f,usedFrames:=u64 (p.usedFrames+1)})

def allocFrame (p : Pmm) : ℕ×Pmm:=allocLoop p (p.totalFrames-1) 1

def freeFrame (phys : ℕ) (p : Pmm) : Pmm:=
  let f:=phys/pageSize
  if f=0 ∨ p.totalFrames≤f ∨ isUsed p f=false then p
  else {p with bitmap:=p.bitmap.erase f,usedFrames:=u64 (18446744073709551615+p.usedFrames)}

/-- The frames from `fs` up to `fe` that the bitmap covers become free. -/
def freeRange (b : Bitmap) (fs fe : ℕ) : Bitmap:=
  (List.range' fs (min fe maxFrames-fs)).foldl Bitmap.erase b

/-- One entry of the memory map, with the highest end of an entry so far. -/
def mmapEntry (mem : ℕ→UInt8) (ep : ℕ) (acc : ℕ×Bitmap) : ℕ×Bitmap:=
  let base:=getLE mem 8 ep
  let stop:=u64 (base+getLE mem 8 (ep+8))
  (if acc.1<stop then stop else acc.1,
    if getLE mem 4 (ep+16)=1 then freeRange acc.2 (u64 (base+(pageSize-1))/pageSize) (stop/pageSize)
    else acc.2)

def mmapLoop (mem : ℕ→UInt8) (ee entrySize : ℕ) : ℕ→ℕ→ℕ×Bitmap→Option (ℕ×Bitmap)
  | 0, _, _=>none
  | n+1, ep, acc=>
    if ep+24≤ee then mmapLoop mem ee entrySize n (ep+entrySize) (mmapEntry mem ep acc) else some acc

/-- What one tag contributes. An entry size of zero is never left. -/
def visitTag (mem : ℕ→UInt8) (tptr : ℕ) (acc : ℕ×Bitmap) : Option (ℕ×Bitmap):=
  let tagSize:=getLE mem 4 (tptr+4)
  if getLE mem 4 tptr=6 then
    mmapLoop mem (tptr+tagSize) (getLE mem 4 (tptr+8)) (tagSize+1) (tptr+16) acc
  else some acc

def tagLoop (mem : ℕ→UInt8) (tend : ℕ) : ℕ→ℕ→ℕ×Bitmap→Option (ℕ×Bitmap)
  | 0, _, _=>none
  | n+1, tptr, acc=>
    if tptr<tend then
      let tagSize:=getLE mem 4 (tptr+4)
      if getLE mem 4 tptr=0 ∨ tagSize=0 then some acc
      else
        match visitTag mem tptr acc with
        | none=>none
        | some acc=>tagLoop mem tend n (tptr+u32 (tagSize+7)/8*8) acc
    else some acc

def tally (b : Bitmap) (n : ℕ) : ℕ:=
  (List.range n).foldl (fun used f=>if b.test f then u64 (used+1) else used) 0

/-- The end of `init`: the frames up to the kernel's end stay in use. -/
def reserve (topAddr kernelEnd : ℕ) (b : Bitmap) : Option Pmm:=
  let total:=min (min (topAddr/pageSize) maxFrames) identityMapLimitFrames
  let reserveEnd:=u64 (kernelEnd+(pageSize-1))/pageSize
  if maxFrames < reserveEnd then none
  else
    let b:=(List.range reserveEnd).foldl Bitmap.insert b
    some ⟨b,total,tally b total⟩

def init (mem : ℕ→UInt8) (mb2InfoPhys kernelEnd : ℕ) : Option Pmm:=
  let kernelEnd:=u64 (kernelEnd+(pageSize-1))/pageSize*pageSize
  let mb2Addr:=u32 mb2InfoPhys
  let mb2TotalSize:=getLE mem 4 mb2Addr
  if mb2TotalSize=0 ∨ 65536 < mb2TotalSize then some ⟨fun _=>0xFF,0,0⟩
  else
    match tagLoop mem (mb2Addr+mb2TotalSize) (mb2TotalSize+1) (mb2Addr+8) (0,fun _=>0xFF) with
    | none=>none
    | some (topAddr,b)=>reserve topAddr kernelEnd b

structure Sound (p : Pmm) : Prop where
  total : p.totalFrames ≤ maxFrames
  used : p.usedFrames=(p.bitmap.members p.totalFrames).card

variable {p : Pmm} {b : Bitmap} {kernelEnd x : ℕ} {ops : List Op}

theorem tally_eq {n : ℕ} (hn : n ≤ maxFrames) : tally b n=(b.members n).card:=by
  induction n with
  | zero=>rfl
  | succ n ih=>
    have hle:=b.card_members_le n
    have htally : tally b (n+1)=if b.test n then u64 (tally b n+1) else tally b n:=by
      rw [tally,List.range_succ,List.foldl_append,tally]
      rfl
    rw [htally,ih (by omega),b.card_members_succ]
    split
    · exact u64_of_lt (by unfold maxFrames at hn; omega)
    · rfl

theorem reserve_sound {topAddr : ℕ} (h : reserve topAddr kernelEnd b=some p) : Sound p:=by
  simp only [reserve] at h
  split at h
  · cases h
  cases h
  have hle : min (min (topAddr/pageSize) maxFrames) identityMapLimitFrames ≤ maxFrames:=
    (min_le_left _ _).trans (min_le_right _ _)
  exact ⟨hle,tally_eq hle⟩

theorem init_sound {mem : ℕ→UInt8} {info : ℕ} (h : init mem info kernelEnd=some p) : Sound p:=by
  simp only [init] at h
  split at h
  · cases h
    exact ⟨Nat.zero_le _,rfl⟩
  split at h
  · cases h
  · exact reserve_sound h

theorem allocLoop_spec (n f : ℕ) : (allocLoop p n f=(0,p) ∧ ∀g,f≤g → g<f+n→isUsed p g=true) ∨
    ∃x,f≤x ∧ x<f+n ∧ isUsed p x=false ∧ (∀g,f≤g → g<x→isUsed p g=true) ∧ allocLoop p n f=(u64 (x*pageSize),
    {p with bitmap:=p.bitmap.insert x,usedFrames:=u64 (p.usedFrames+1)}):=by
  induction n generalizing f with
  | zero=>exact .inl ⟨rfl,fun g h1 h2=>by omega⟩
  | succ n ih=>
    rw [allocLoop]
    split
    · rename_i hf
      have hstep {g b : ℕ} (h : ∀g,f+1≤g → g<b→isUsed p g=true) (h1 : f≤g) (h2 : g<b) :
          isUsed p g=true:=by
        rcases Nat.eq_or_lt_of_le h1 with rfl | h1
        · exact hf
        · exact h g h1 h2
      rcases ih (f+1) with ⟨he,hall⟩ | ⟨x,h1,h2,hx,hlow,he⟩
      · exact .inl ⟨he,fun g h1 h2=>hstep hall h1 (by omega)⟩
      · exact .inr ⟨x,by omega,by omega,hx,fun g h1 h2=>hstep hlow h1 h2,he⟩
    · rename_i hf
      exact .inr ⟨f,le_rfl,by omega,by simpa using hf,fun g h1 h2=>by omega,rfl⟩

/-- What `alloc_frame` does when it finds a frame. -/
structure Allocated (p p' : Pmm) (x : ℕ) : Prop where
  pos : 1≤x
  lt : x<p.totalFrames
  free : isUsed p x=false
  lowest : ∀g,1≤g → g<x→isUsed p g=true
  bits : ∀g,isUsed p' g=(isUsed p g || decide (g=x))
  total : p'.totalFrames=p.totalFrames
  used : p'.usedFrames=p.usedFrames+1

theorem Sound.allocFrame_spec (h : Sound p) : (allocFrame p=(0,p) ∧ ∀f,1≤f→f<p.totalFrames→isUsed p f=true) ∨
    ∃x p',allocFrame p=(x*pageSize,p') ∧ Allocated p p' x ∧ Sound p':=by
  have htotal : p.totalFrames≤1024*1024:=h.total
  rcases allocLoop_spec (p.totalFrames-1) 1 with ⟨he,hall⟩ | ⟨x,h1,h2,hx,hlow,he⟩
  · exact .inl ⟨he,fun f h1 h2=>hall f h1 (by omega)⟩
  have hlt : x<p.totalFrames:=by omega
  have hcard:=p.bitmap.card_members_insert hlt hx
  have hle:=p.bitmap.card_members_le p.totalFrames
  have haddr : u64 (x*pageSize)=x*pageSize:=u64_of_lt (by unfold pageSize; omega)
  have hused : u64 (p.usedFrames+1)=p.usedFrames+1:=u64_of_lt (by rw [h.used]; omega)
  rw [haddr,hused] at he
  refine .inr ⟨x,_,he,⟨h1,hlt,hx,hlow,fun g=>Bitmap.test_insert ..,rfl,rfl⟩,h.total,?_⟩
  rw [hcard,h.used]

/-- What `free_frame` does to a frame in use. -/
structure Freed (p p' : Pmm) (f : ℕ) : Prop where
  bits : ∀g,isUsed p' g=(isUsed p g && decide (g≠f))
  total : p'.totalFrames=p.totalFrames
  used : p'.usedFrames+1=p.usedFrames

def Ignored (p : Pmm) (a : ℕ) : Prop:=
  a/pageSize=0 ∨ p.totalFrames≤a/pageSize ∨ isUsed p (a/pageSize)=false

theorem Sound.freeFrame_spec (h : Sound p) (a : ℕ) : (Ignored p a ∧ freeFrame a p=p) ∨
    (¬Ignored p a ∧ Freed p (freeFrame a p) (a/pageSize) ∧ Sound (freeFrame a p)):=by
  have htotal : p.totalFrames≤1024*1024:=h.total
  by_cases hi : Ignored p a
  · exact .inl ⟨hi,if_pos hi⟩
  have he : freeFrame a p={ p with
      bitmap:=p.bitmap.erase (a/pageSize),usedFrames:=u64 (18446744073709551615+p.usedFrames) }:=if_neg hi
  have hlt:=Nat.lt_of_not_le fun h=>hi (.inr (.inl h))
  have hused : isUsed p (a/pageSize)=true:=by
    rw [←Bool.not_eq_false]
    exact fun h=>hi (.inr (.inr h))
  have hcard:=p.bitmap.card_members_erase hlt hused
  have hle:=p.bitmap.card_members_le p.totalFrames
  have hdec : u64 (18446744073709551615+p.usedFrames)+1=p.usedFrames:=by
    rw [h.used,←hcard,u64]
    omega
  refine .inr ⟨hi,?_,?_⟩
  · rw [he]
    exact ⟨fun g=>Bitmap.test_erase ..,rfl,hdec⟩
  rw [he]
  refine ⟨h.total,?_⟩
  rw [h.used] at hdec
  simp only [h.used]
  omega

inductive Op
  | alloc
  | free (phys : ℕ)

def step (p : Pmm) : Op→Pmm
  | .alloc=>(allocFrame p).2
  | .free phys=>freeFrame phys p

def run (ops : List Op) (p : Pmm) : Pmm:=ops.foldl step p

theorem Sound.step (h : Sound p) (op : Op) : Sound (step p op):=by
  cases op with
  | alloc=>
    rcases h.allocFrame_spec with ⟨he,-⟩ | ⟨x,p',he,-,hs⟩
    · simpa [FrameAllocator.step,he] using h
    · simpa [FrameAllocator.step,he] using hs
  | free a=>
    rcases h.freeFrame_spec a with ⟨-,he⟩ | ⟨-,-,hs⟩
    · simpa [FrameAllocator.step,he] using h
    · exact hs

theorem Sound.run (h : Sound p) (ops : List Op) : Sound (run ops p):=by
  induction ops generalizing p with
  | nil=>exact h
  | cons op ops ih=>exact ih (h.step op)

theorem Sound.step_used (h : Sound p) (hx : isUsed p x=true) {op : Op}
    (hop : ∀a,op = .free a→a/pageSize≠x) : isUsed (FrameAllocator.step p op) x=true:=by
  cases op with
  | alloc=>
    rcases h.allocFrame_spec with ⟨he,-⟩ | ⟨y,p',he,ha,-⟩
    · simpa [FrameAllocator.step,he] using hx
    · simp [FrameAllocator.step,he,ha.bits,hx]
  | free a=>
    have hne:=hop a rfl
    rcases h.freeFrame_spec a with ⟨-,he⟩ | ⟨-,hf,-⟩
    · simpa [FrameAllocator.step,he] using hx
    · simp [FrameAllocator.step,hf.bits,hx,hne.symm]

theorem Sound.run_used (h : Sound p) (hx : isUsed p x=true)
    (hops : ∀a,.free a∈ops→a/pageSize≠x) : isUsed (FrameAllocator.run ops p) x=true:=by
  induction ops generalizing p with
  | nil=>exact hx
  | cons op ops ih=>
    refine ih (h.step op) (h.step_used hx ?_) fun a ha=>hops a (List.mem_cons_of_mem _ ha)
    rintro a rfl
    exact hops a List.mem_cons_self

/-- What the next call of each kind does, and the state of the counter. -/
structure Correct (p : Pmm) : Prop where
  used : p.usedFrames=(p.bitmap.members p.totalFrames).card
  full : (allocFrame p).1=0↔∀f,1≤f→f<p.totalFrames→isUsed p f=true
  refused : (allocFrame p).1=0→(allocFrame p).2=p
  lowest : (allocFrame p).1≠0→∃x,(allocFrame p).1=x*pageSize ∧ Allocated p (allocFrame p).2 x
  once : (allocFrame p).1≠0→∀ops,(∀a,.free a∈ops→a/pageSize*pageSize≠(allocFrame p).1) →
    (allocFrame (run ops (allocFrame p).2)).1≠(allocFrame p).1
  ignored : ∀a,Ignored p a→freeFrame a p=p
  freed : ∀a,¬Ignored p a→Freed p (freeFrame a p) (a/pageSize)

theorem Sound.alloc_once (h : Sound p) (hne : (allocFrame p).1≠0)
    (hops : ∀a,.free a∈ops→a/pageSize*pageSize≠(allocFrame p).1) :
    (allocFrame (FrameAllocator.run ops (allocFrame p).2)).1≠(allocFrame p).1:=by
  rcases h.allocFrame_spec with ⟨he,-⟩ | ⟨x,p',he,ha,hs⟩
  · rw [he] at hne
    exact absurd rfl hne
  rw [he] at hops hne ⊢
  have hx : isUsed (FrameAllocator.run ops p') x=true:=by
    apply hs.run_used
    · simp [ha.bits]
    · rintro a hmem rfl
      exact hops a hmem rfl
  -- the frame is in use, and the search returns free frames only
  rcases (hs.run ops).allocFrame_spec with ⟨he',-⟩ | ⟨y,p'',he',ha',-⟩
  · rw [he']
    exact hne.symm
  rw [he']
  intro heq
  have : y=x:=Nat.eq_of_mul_eq_mul_right (by decide) heq
  rw [this] at ha'
  exact absurd hx (by simp [ha'.free])

theorem Sound.correct (h : Sound p) : Correct p:=by
  refine ⟨h.used,?_,?_,?_,fun hne ops=>h.alloc_once hne,?_,?_⟩
  · rcases h.allocFrame_spec with ⟨he,hall⟩ | ⟨x,p',he,ha,-⟩
    · rw [he]
      exact iff_of_true rfl hall
    have hpos : x*pageSize≠0:=Nat.mul_ne_zero (Nat.ne_of_gt ha.pos) (by decide)
    rw [he]
    refine iff_of_false hpos fun hall=>?_
    exact absurd (hall x ha.pos ha.lt) (by simp [ha.free])
  · intro h0
    rcases h.allocFrame_spec with ⟨he,-⟩ | ⟨x,p',he,ha,-⟩
    · rw [he]
    · rw [he] at h0
      exact absurd h0 (Nat.mul_ne_zero (Nat.ne_of_gt ha.pos) (by decide))
  · intro hne
    rcases h.allocFrame_spec with ⟨he,-⟩ | ⟨x,p',he,ha,-⟩
    · rw [he] at hne
      exact absurd rfl hne
    · exact ⟨x,by rw [he],by rw [he]; exact ha⟩
  · intro a ha
    rcases h.freeFrame_spec a with ⟨-,he⟩ | ⟨hn,-⟩
    · exact he
    · exact absurd ha hn
  · intro a ha
    rcases h.freeFrame_spec a with ⟨hi,-⟩ | ⟨-,hf,-⟩
    · exact absurd hi ha
    · exact hf

/-- Every call of every sequence after `init` does what the bitmap says, and the counter
is exact. -/
theorem frame_allocator_correct {mem : ℕ→UInt8} {info kernelEnd : ℕ} {p₀ : Pmm}
    (h : init mem info kernelEnd=some p₀) (ops : List Op) : Correct (run ops p₀):=
  ((init_sound h).run ops).correct

/-- Boot information with a memory map of one usable entry of eight frames. -/
def eightFrames : ℕ→UInt8:=
  putLE (putLE (putLE (putLE (putLE (putLE (fun _=>0) 4 0 56) 4 8 6) 4 12 40) 4 16 24) 8 32 0x8000) 4 40 1

theorem frame_allocator_correct_eight : ∃p₀,init eightFrames 0 0x1800=some p₀ ∧
    (allocFrame (run [.alloc,.alloc,.free 0x2123] p₀)).1=0x2000 ∧ Correct (run [.alloc,.alloc,.free 0x2123] p₀):=by
  have hsome : (init eightFrames 0 0x1800).isSome=true:=by decide
  obtain ⟨p₀,hp₀⟩:=Option.isSome_iff_exists.mp hsome
  refine ⟨p₀,hp₀,?_,frame_allocator_correct hp₀ _⟩
  have hval : (init eightFrames 0 0x1800).map
      (fun p=>(allocFrame (run [.alloc,.alloc,.free 0x2123] p)).1)=some 0x2000:=by decide
  rw [hp₀] at hval
  exact Option.some.inj hval

end Knail.FrameAllocator
