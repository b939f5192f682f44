import Knail.KernelTypes
import Mathlib.Algebra.Group.Nat.Defs
import Mathlib.Logic.Function.Basic
import Mathlib.Data.List.Basic

/-!
# Sector transfers of the ATA driver

`read_sectors` and `write_sectors` program one sector at a time and move its 256 words. The drive decodes the 28
address bits in its registers and answers as it likes; address bits above the 28th are lost, and the index into the
buffer is a 32-bit number.
-/
namespace Knail.Ata

open List Function

structure ATADrive where
  slave : ℕ
  present : Bool

/-- A drive: how many sectors it has, and what reads of its status return. -/
structure Drive (σ : Type) where
  sectors : ℕ
  status : σ→UInt8×σ

/-- The registers behind the ports of a drive, the sector of the transfer in progress with the number of words moved
so far, the contents of the drive, the buffer of the caller, and the sectors moved so far. -/
structure Machine (σ : Type) where
  dev : σ
  driveHead : ℕ
  features : ℕ
  secCount : ℕ
  lbaLo : ℕ
  lbaMid : ℕ
  lbaHi : ℕ
  command : Option ℕ
  word : ℕ
  media : ℕ→ℕ→UInt16
  buf : ℕ→UInt16
  log : List ℕ

variable {σ : Type}

namespace Machine

def address (m : Machine σ) : ℕ:=m.lbaLo+m.lbaMid*2^8+m.lbaHi*2^16+m.driveHead%16*2^24

/-- A read of the status, through either port. An aborted command has ready and error set. -/
def inb (D : Drive σ) (m : Machine σ) : UInt8×Machine σ:=
  if m.command.any (D.sectors ≤ ·) then (0x41,m) else ((D.status m.dev).1,{m with dev:=(D.status m.dev).2})

def outbCommand (c : UInt8) (m : Machine σ) : Machine σ:=
  {m with command:=if c=0x20 ∨ c=0x30 then some m.address else none,word:=0}

/-- The drive has moved a word of the sector in progress. -/
def moveWord (m : Machine σ) : Machine σ:=
  {m with word:=m.word+1,log:=if m.word=0 then m.log++[m.command.getD 0] else m.log}

/-- `dst[index] = inw(...)`. -/
def inw (index : ℕ) (m : Machine σ) : Machine σ:=
  {m.moveWord with buf:=update m.buf index (m.media (m.command.getD 0) m.word)}

/-- `outw(..., src[index])`. -/
def outw (index : ℕ) (m : Machine σ) : Machine σ:=
  { m.moveWord with
    media:=update m.media (m.command.getD 0)
      (update (m.media (m.command.getD 0)) m.word (m.buf index)) }

end Machine

section

variable (D : Drive σ)

def ataDelay (m : Machine σ) : Machine σ:=((((m.inb D).2.inb D).2.inb D).2.inb D).2

/-- Read the status up to `n` times until the test gives an answer. -/
def poll (test : UInt8→Option Bool) : ℕ→Machine σ→Bool×Machine σ
  | 0, m=>(false,m)
  | n+1, m=>
    match test (m.inb D).1 with
    | some b=>(b,(m.inb D).2)
    | none=>poll test n (m.inb D).2

def waitBsyClear (m : Machine σ) : Bool×Machine σ:=
  poll D (fun status=>if status&&&0x80=0 then some true else none) 100000 m

/-- The loop in `setup_lba28`, whose end is not looked at. -/
def settle (m : Machine σ) : Machine σ:=(poll D (fun s=>if s&&&0x88=0 then some true else none) 1000000 m).2

def setupLba28 (drv : ATADrive) (lba count : ℕ) (m : Machine σ) : Machine σ:=
  let m:={m with driveHead:=(0xE0|||drv.slave <<< 4|||(lba >>> 24&&&0x0F))%256}
  let m:=settle D (ataDelay D m)
  { m with
    features:=0,secCount:=count,lbaLo:=lba%256,lbaMid:=(lba >>> 8)%256,lbaHi:=(lba >>> 16)%256 }

def waitDrqOrErr (m : Machine σ) : Bool×Machine σ:=
  poll D (fun s=>if s&&&0x80≠0 then none else if s&&&0x21≠0 then some false
    else if s&&&0x08≠0 then some true else none) 1000000 m

def andThen (r : Bool×Machine σ) (f : Machine σ→Bool×Machine σ) : Bool×Machine σ:=if r.1 then f r.2 else r

/-- The first half of an attempt, the same in both directions: whether the drive asks for the data. -/
def request (drv : ATADrive) (c : UInt8) (lba : ℕ) (m : Machine σ) : Bool×Machine σ:=
  andThen (waitBsyClear D m) fun m=>waitDrqOrErr D (ataDelay D ((setupLba28 D drv lba 1 m).outbCommand c))

/-- The words from the `i`-th on, moved between the drive and the buffer piece of sector `s`. -/
def moveWords (move : ℕ→Machine σ→Machine σ) (s : ℕ) : ℕ→ℕ→Machine σ→Machine σ
  | 0, _, m=>m
  | n+1, i, m=>moveWords move s n (i+1) (move (u32 (u32 (s*256)+i)) m)

def finish (m : Machine σ) : Bool×Machine σ:=((m.inb D).1&&&0x21=0,(m.inb D).2)

def readAttempt (drv : ATADrive) (lba s : ℕ) (m : Machine σ) : Bool×Machine σ:=
  andThen (request D drv 0x20 (u64 (lba+s)) m) fun m=>finish D (moveWords .inw s 256 0 m)

def writeAttempt (drv : ATADrive) (lba s : ℕ) (m : Machine σ) : Bool×Machine σ:=
  andThen (request D drv 0x30 (u64 (lba+s)) m) fun m=>
    andThen (waitBsyClear D (ataDelay D (moveWords .outw s 256 0 m))) (finish D)

def attempts (f : Machine σ→Bool×Machine σ) : ℕ→Machine σ→Bool×Machine σ
  | 0, m=>(false,m)
  | n+1, m=>
    match f m with
    | (true,m)=>(true,m)
    | (false,m)=>attempts f n m

def sectorLoop (f : ℕ→Machine σ→Bool×Machine σ) : ℕ→ℕ→Machine σ→Bool×Machine σ
  | 0, _, m=>(true,m)
  | n+1, s, m=>andThen (attempts (f s) 4 m) (sectorLoop f n (s+1))

def orIoError (r : Bool×Machine σ) (f : Machine σ→Except KError ℕ×Machine σ) : Except KError ℕ×Machine σ:=
  if r.1 then f r.2 else (.error .ioError,r.2)

variable (drives : ℕ→ATADrive) (driveIdx lba count : ℕ) (m : Machine σ)

def readSectors : Except KError ℕ×Machine σ:=
  if 4≤driveIdx ∨ (drives driveIdx).present=false then (.error .deviceNotReady,m)
  else if count=0 then (.ok 0,m)
  else orIoError (sectorLoop (readAttempt D (drives driveIdx) lba) count 0 m) fun m=>(.ok count,m)

def writeSectors : Except KError ℕ×Machine σ:=
  if 4≤driveIdx ∨ (drives driveIdx).present=false then (.error .deviceNotReady,m)
  else if count=0 then (.ok 0,m)
  else orIoError (sectorLoop (writeAttempt D (drives driveIdx) lba) count 0 m) fun m=>
    orIoError (waitBsyClear D (m.outbCommand 0xE7)) fun m=>(.ok count,m)

end

inductive Dir
  | read | write
  deriving DecidableEq, Repr

/-- `read_sectors` and `write_sectors`. -/
def transfer : Dir→Drive σ→(ℕ→ATADrive)→ℕ→ℕ→ℕ→Machine σ→Except KError ℕ×Machine σ
  | .read=>readSectors
  | .write=>writeSectors

/-- The sectors from `a` on, in order. One that was tried again is there several times. -/
def InOrder : ℕ→ℕ→List ℕ→Prop
  | _, 0, l=>l=[]
  | a, n+1, l=>∃k l',1≤k ∧ l=replicate k a++l' ∧ InOrder (a+1) n l'

structure Contents where
  buf : ℕ→UInt16
  media : ℕ→ℕ→UInt16

def Machine.contents (m : Machine σ) : Contents:=⟨m.buf,m.media⟩

/-- The transfer of `n` sectors from the `s`-th of a request on. -/
def moved (lba s n : ℕ) (x : Contents) : Dir → Contents
  | .read=>
    {x with buf:=fun w=>if s≤w/256 ∧ w/256<s+n then x.media (lba+w/256) (w%256) else x.buf w}
  | .write=>
    { x with media:=fun a i=>
        if lba+s≤a ∧ a<lba+s+n ∧ i<256 then x.buf ((a-lba)*256+i) else x.media a i }

structure Exact (D : Drive σ) (dir : Dir) (lba count : ℕ) (m : Machine σ) (r : Except KError ℕ×Machine σ) :
    Prop where
  ok : ∀n,r.1 = .ok n→(∃new,r.2.log=m.log++new ∧ InOrder lba count new) ∧
    r.2.contents=moved lba 0 count m.contents dir
  requested : ∃new,r.2.log=m.log++new ∧ ∀a∈new,lba≤a ∧ a<lba+count
  beyond : 0<count→D.sectors<lba+count→∃e,r.1 = .error e

variable {D : Drive σ} {drv : ATADrive} {m m' m'' : Machine σ} {c : UInt8} {a i n p s lba count : ℕ}

def Same (m m' : Machine σ) : Prop:=∃t,m'={m with dev:=t}

theorem Same.refl (m : Machine σ) : Same m m:=⟨m.dev,rfl⟩

theorem Same.trans (h : Same m m') (h' : Same m' m'') : Same m m'':=by
  obtain ⟨t,rfl⟩:=h
  obtain ⟨t',rfl⟩:=h'
  exact ⟨t',rfl⟩

theorem inb_same (m : Machine σ) : Same m (m.inb D).2:=by
  unfold Machine.inb
  split
  · exact .refl m
  · exact ⟨_,rfl⟩

theorem ataDelay_same (m : Machine σ) : Same m (ataDelay D m):=
  (((inb_same m).trans (inb_same _)).trans (inb_same _)).trans (inb_same _)

theorem poll_same (test : UInt8→Option Bool) (n : ℕ) (m : Machine σ) : Same m (poll D test n m).2:=by
  induction n generalizing m with
  | zero=>exact .refl m
  | succ n ih=>
    rw [poll]
    split
    · exact inb_same m
    · exact (inb_same m).trans (ih _)

theorem waitBsyClear_same (m : Machine σ) : Same m (waitBsyClear D m).2:=poll_same _ _ m

theorem settle_same (m : Machine σ) : Same m (settle D m):=poll_same _ _ m

theorem waitDrqOrErr_same (m : Machine σ) : Same m (waitDrqOrErr D m).2:=poll_same _ _ m

theorem poll_answer {test : UInt8→Option Bool} {b : Bool} (n : ℕ) (ht : test (m.inb D).1=some b) :
    poll D test (n+1) m=(b,(m.inb D).2):=by
  rw [poll,ht]

/-- A drive does not ask for the data of a sector it does not have. -/
theorem waitDrqOrErr_beyond (hm : m.command=some a) (ha : D.sectors≤a) : (waitDrqOrErr D m).1=false:=by
  have hinb : m.inb D=(0x41,m):=if_pos (by simp [hm,ha])
  rw [waitDrqOrErr,poll_answer (b:=false) 999999 (by simp only [hinb]; decide)]

/-- The low four bits of the drive register. -/
theorem driveHead_mod (slave lba : ℕ) :
    (0xE0|||slave <<< 4|||(lba >>> 24&&&0x0F))%256%16=lba/2^24%16:=by
  rw [Nat.mod_mod_of_dvd _ (by decide),show (16 : ℕ)=2^4 from rfl,Nat.or_mod_two_pow,Nat.or_mod_two_pow,
    Nat.shiftLeft_eq,Nat.mul_mod_left,show (0x0F : ℕ)=2^4-1 from rfl,Nat.and_two_pow_sub_one_eq_mod,
    Nat.shiftRight_eq_div_pow]
  simp

theorem setupLba28_spec (drv : ATADrive) (lba : ℕ) (m : Machine σ) :
    (setupLba28 D drv lba 1 m).address=lba%2^28 ∧ (setupLba28 D drv lba 1 m).log=m.log ∧
    (setupLba28 D drv lba 1 m).contents=m.contents:=by
  obtain ⟨t,ht⟩:=(ataDelay_same (D:=D) { m with
    driveHead:=(0xE0|||drv.slave <<< 4|||(lba >>> 24&&&0x0F))%256 }).trans (settle_same (D:=D) _)
  simp only [setupLba28]
  rw [ht]
  refine ⟨?_,rfl,rfl⟩
  have hhead:=driveHead_mod drv.slave lba
  simp only [Machine.address,Nat.shiftRight_eq_div_pow] at hhead ⊢
  omega

theorem andThen_true (m : Machine σ) (f : Machine σ→Bool×Machine σ) : andThen (true,m) f=f m:=
  if_pos rfl

theorem andThen_same {r : Bool×Machine σ} {f : Machine σ→Bool×Machine σ} (hr : Same m r.2)
    (hf : ∀m,Same m (f m).2) : Same m (andThen r f).2:=by
  unfold andThen
  split
  · exact hr.trans (hf _)
  · exact hr

/-- The drive has been given the address, and it asks for the data only if it has the sector. -/
theorem request_spec (drv : ATADrive) (hc : c=0x20 ∨ c=0x30) (lba : ℕ) (m : Machine σ) :
    ((request D drv c lba m).2.log=m.log ∧ (request D drv c lba m).2.contents=m.contents) ∧
    ((request D drv c lba m).1=true→(request D drv c lba m).2.command=some (lba%2^28) ∧
    (request D drv c lba m).2.word=0 ∧ lba%2^28<D.sectors):=by
  unfold request andThen
  obtain ⟨t,ht⟩:=waitBsyClear_same (D:=D) m
  split
  · rw [ht]
    obtain ⟨haddr,hlog,hcont⟩:=setupLba28_spec (D:=D) drv lba {m with dev:=t}
    set m2:=setupLba28 D drv lba 1 {m with dev:=t}
    obtain ⟨t3,h3⟩:=ataDelay_same (D:=D) (m2.outbCommand c)
    have hcmd : (m2.outbCommand c).command=some (lba%2^28):=by
      rw [←haddr]
      exact if_pos hc
    obtain ⟨t4,h4⟩:=(ataDelay_same (D:=D) (m2.outbCommand c)).trans (waitDrqOrErr_same (D:=D) _)
    refine ⟨by rw [h4]; exact ⟨hlog,hcont⟩,fun hok=>⟨by rw [h4]; exact hcmd,by rw [h4]; rfl,?_⟩⟩
    by_contra hbeyond
    rw [waitDrqOrErr_beyond (by rw [h3]; exact hcmd) (Nat.le_of_not_lt hbeyond)] at hok
    cases hok
  · rename_i hno
    exact ⟨by rw [ht]; exact ⟨rfl,rfl⟩,fun hok=>absurd hok hno⟩

/-- The index into the buffer wraps around after `2 ^ 24` sectors. -/
theorem index_eq (s : ℕ) (hi : i<256) : u32 (u32 (s*256)+i)=s%2^24*256+i:=by
  unfold u32
  omega

theorem inw_words (hm : m.command=some a) (hw : m.word=i) (hn : i+n≤256) :
    (moveWords .inw s n i m).log=(if i=0 ∧ 0<n then m.log++[a] else m.log) ∧ (moveWords .inw s n i m).media=m.media ∧
    ∀w,(moveWords .inw s n i m).buf w=
    if w/256=s%2^24 ∧ i≤w%256 ∧ w%256 < i+n then m.media a (w%256) else m.buf w:=by
  induction n generalizing i m with
  | zero=>exact ⟨by simp [moveWords],rfl,fun w=>(if_neg (by omega)).symm⟩
  | succ n ih=>
    obtain ⟨hlog,hmedia,hbuf⟩:=ih (m:=m.inw (u32 (u32 (s*256)+i))) (i:=i+1) hm
      (congrArg (·+1) hw) (by omega)
    refine ⟨?_,hmedia,fun w=>?_⟩
    · rw [moveWords,hlog,if_neg (by omega)]
      by_cases hi : i=0 <;> simp [Machine.inw,Machine.moveWord,hw,hm,hi]
    rw [moveWords,hbuf,index_eq s (by omega)]
    simp only [Machine.inw,Machine.moveWord,hm,hw,Option.getD_some,update_apply]
    by_cases hwi : w=s%2^24*256+i
    · rw [if_neg (by omega),if_pos hwi,if_pos (by omega)]
      congr 1
      omega
    · rw [if_neg hwi]
      exact if_congr (by omega) rfl rfl

theorem command_inw (s n i : ℕ) (m : Machine σ) : (moveWords .inw s n i m).command=m.command:=by
  induction n generalizing i m with
  | zero=>rfl
  | succ n ih=>exact ih (i+1) _

theorem outw_words (hm : m.command=some a) (hw : m.word=i) (hn : i+n≤256) :
    (moveWords .outw s n i m).log=(if i=0 ∧ 0<n then m.log++[a] else m.log) ∧ (moveWords .outw s n i m).buf=m.buf ∧
    ∀x j,(moveWords .outw s n i m).media x j=
    if x=a ∧ i≤j ∧ j < i+n then m.buf (s%2^24*256+j) else m.media x j:=by
  induction n generalizing i m with
  | zero=>exact ⟨by simp [moveWords],rfl,fun x j=>(if_neg (by omega)).symm⟩
  | succ n ih=>
    obtain ⟨hlog,hbuf,hmedia⟩:=ih (m:=m.outw (u32 (u32 (s*256)+i))) (i:=i+1) hm
      (congrArg (·+1) hw) (by omega)
    refine ⟨?_,hbuf,fun x j=>?_⟩
    · rw [moveWords,hlog,if_neg (by omega)]
      by_cases hi : i=0 <;> simp [Machine.outw,Machine.moveWord,hw,hm,hi]
    rw [moveWords,hmedia,index_eq s (by omega)]
    simp only [Machine.outw,Machine.moveWord,hm,hw,Option.getD_some,update_apply]
    by_cases hx : x=a
    · subst hx
      by_cases hj : j=i
      · subst hj
        simp
      · rw [if_pos rfl,update_of_ne hj]
        exact if_congr (by omega) rfl rfl
    · simp [hx]

/-- The transfer of one sector to or from one piece of the buffer. -/
def piece (a p : ℕ) (x : Contents) : Dir → Contents
  | .read=>{x with buf:=fun w=>if w/256=p then x.media a (w%256) else x.buf w}
  | .write=>{x with media:=fun b i=>if b=a ∧ i<256 then x.buf (p*256+i) else x.media b i}

theorem piece_piece (a p : ℕ) (x : Contents) (dir : Dir) : piece a p (piece a p x dir) dir=piece a p x dir:=by
  cases dir with
  | read=>
    simp only [piece]
    congr 1
    funext w
    split <;> rfl
  | write=>
    simp only [piece]
    congr 1
    funext b i
    split <;> rfl

theorem moved_zero (lba s : ℕ) (x : Contents) (dir : Dir) : moved lba s 0 x dir=x:=by
  cases dir with
  | read=>
    have hbuf : (fun w=>if s≤w/256 ∧ w/256<s+0 then x.media (lba+w/256) (w%256) else x.buf w)=x.buf:=
      funext fun w=>if_neg (by omega)
    rw [moved,hbuf]
  | write=>
    have hmedia : (fun a i=>if lba+s≤a ∧ a<lba+s+0 ∧ i<256 then x.buf ((a-lba)*256+i) else x.media a i) =
        x.media:=funext fun a=>funext fun i=>if_neg (by omega)
    rw [moved,hmedia]

theorem moved_succ (lba s n : ℕ) (x : Contents) (dir : Dir) :
    moved lba (s+1) n (piece (lba+s) s x dir) dir=moved lba s (n+1) x dir:=by
  cases dir with
  | read=>
    simp only [moved,piece]
    congr 1
    funext w
    by_cases hw : w/256=s
    · rw [if_neg (by omega),if_pos hw,if_pos (by omega),hw]
    · rw [if_neg hw]
      exact if_congr (by omega) rfl rfl
  | write=>
    simp only [moved,piece]
    congr 1
    funext b i
    by_cases hb : b=lba+s ∧ i<256
    · rw [if_neg (by omega),if_pos hb,if_pos (by omega),hb.1,Nat.add_sub_cancel_left]
    · rw [if_neg hb]
      exact if_congr (by omega) rfl rfl

def attempt : Dir→Drive σ→ATADrive→ℕ→ℕ→Machine σ→Bool×Machine σ
  | .read=>readAttempt
  | .write=>writeAttempt

theorem inw_piece (hm : m.command=some a) (hw : m.word=0) : (moveWords .inw s 256 0 m).log=m.log++[a] ∧
    (moveWords .inw s 256 0 m).contents=piece a (s%2^24) m.contents .read:=by
  obtain ⟨hlog,hmedia,hbuf⟩:=inw_words (n:=256) (s:=s) hm hw (by omega)
  generalize moveWords .inw s 256 0 m=m1 at hlog hmedia hbuf ⊢
  refine ⟨hlog.trans (if_pos (by omega)),?_⟩
  rw [Machine.contents,hmedia,funext hbuf]
  simp only [piece,Machine.contents]
  congr 1
  funext w
  exact if_congr (by omega) rfl rfl

theorem outw_piece (hm : m.command=some a) (hw : m.word=0) : (moveWords .outw s 256 0 m).log=m.log++[a] ∧
    (moveWords .outw s 256 0 m).contents=piece a (s%2^24) m.contents .write:=by
  obtain ⟨hlog,hbuf,hmedia⟩:=outw_words (n:=256) (s:=s) hm hw (by omega)
  generalize moveWords .outw s 256 0 m=m1 at hlog hmedia hbuf ⊢
  refine ⟨hlog.trans (if_pos (by omega)),?_⟩
  rw [Machine.contents,hbuf,funext fun x=>funext (hmedia x)]
  simp only [piece,Machine.contents]
  congr 1
  funext x j
  exact if_congr (by omega) rfl rfl

/-- An attempt moves one sector that the drive has, or nothing. -/
def Tried (D : Drive σ) (dir : Dir) (a p : ℕ) (m : Machine σ) (r : Bool×Machine σ) : Prop:=
  r.1=false ∧ r.2.log=m.log ∧ r.2.contents=m.contents ∨
    a<D.sectors ∧ r.2.log=m.log++[a] ∧ r.2.contents=piece a p m.contents dir

/-- What follows the words of a sector moves nothing. -/
theorem tried_of_request {dir : Dir} {move : ℕ→Machine σ→Machine σ} (last : Machine σ→Bool×Machine σ)
    (hc : c=0x20 ∨ c=0x30) (hlast : ∀m,Same m (last m).2) (hmove : ∀{m : Machine σ} {a : ℕ},m.command=some a →
    m.word=0→(moveWords move s 256 0 m).log=m.log++[a] ∧
    (moveWords move s 256 0 m).contents=piece a (s%2^24) m.contents dir) :
    Tried D dir (lba%2^28) (s%2^24) m (andThen (request D drv c lba m) fun m=>last (moveWords move s 256 0 m)):=by
  obtain ⟨⟨hlog,hcont⟩,hok⟩:=request_spec (D:=D) drv hc lba m
  unfold andThen
  split
  · rename_i hr
    obtain ⟨hcmd,hword,hlt⟩:=hok hr
    obtain ⟨hlog',hcont'⟩:=hmove hcmd hword
    rw [hlog] at hlog'
    rw [hcont] at hcont'
    dsimp only
    generalize moveWords move s 256 0 (request D drv c lba m).2=m2 at hlog' hcont' ⊢
    obtain ⟨t,ht⟩:=hlast m2
    exact .inr ⟨hlt,by rw [ht]; exact hlog',by rw [ht]; exact hcont'⟩
  · rename_i hr
    exact .inl ⟨Bool.eq_false_iff.mpr hr,hlog,hcont⟩

theorem attempt_spec (dir : Dir) (drv : ATADrive) (lba s : ℕ) (m : Machine σ) :
    Tried D dir (u64 (lba+s)%2^28) (s%2^24) m (attempt dir D drv lba s m):=by
  cases dir with
  | read=>exact tried_of_request (finish D) (.inl rfl) inb_same inw_piece
  | write=>
    exact tried_of_request (fun m=>andThen (waitBsyClear D (ataDelay D m)) (finish D)) (.inr rfl)
      (fun m=>andThen_same ((ataDelay_same m).trans (waitBsyClear_same _)) inb_same) outw_piece

/-- Up to `n` attempts move the sector some number of times. -/
theorem attempts_spec {f : Machine σ→Bool×Machine σ} {dir : Dir} (h : ∀m,Tried D dir a p m (f m)) (n : ℕ)
    (m : Machine σ) : ∃k,(attempts f n m).2.log=m.log++replicate k a ∧ ((attempts f n m).1=true → 1≤k) ∧
    (k=0 ∧ (attempts f n m).2.contents=m.contents ∨
    a<D.sectors ∧ (attempts f n m).2.contents=piece a p m.contents dir):=by
  induction n generalizing m with
  | zero=>exact ⟨0,by simp [attempts],by simp [attempts],.inl ⟨rfl,rfl⟩⟩
  | succ n ih=>
    have hf:=h m
    rw [attempts]
    cases hm : f m with
    | mk b m1=>
      rw [hm] at hf
      cases b with
      | true=>
        obtain ⟨hb,-⟩ | ⟨hlt,hlog,hcont⟩:=hf
        · cases hb
        · exact ⟨1,hlog,fun _=>Nat.le_refl 1,.inr ⟨hlt,hcont⟩⟩
      | false=>
        obtain ⟨k,hk,hone,hrest⟩:=ih m1
        obtain ⟨-,hlog,hcont⟩ | ⟨hlt,hlog,hcont⟩:=hf
        · rw [hlog] at hk
          rw [hcont] at hrest
          exact ⟨k,hk,hone,hrest⟩
        refine ⟨k+1,?_,fun _=>Nat.le_add_left 1 k,.inr ⟨hlt,?_⟩⟩
        · rw [hk,hlog,append_assoc]
          rfl
        obtain ⟨-,hc⟩ | ⟨-,hc⟩:=hrest
        · rw [hc]
          exact hcont
        · rw [hc,hcont,piece_piece]

/-- A request within 28 bits of address and 32 bits of index moves its own sectors in order. -/
theorem sectorLoop_spec (dir : Dir) (drv : ATADrive) (hlba : lba+s+n≤2^28) (hs : s+n≤2^24) (m : Machine σ) :
    ∃new,(sectorLoop (attempt dir D drv lba) n s m).2.log=m.log++new ∧ (∀a∈new,lba+s≤a ∧ a<lba+s+n) ∧
    ((sectorLoop (attempt dir D drv lba) n s m).1=true→InOrder (lba+s) n new ∧
    (sectorLoop (attempt dir D drv lba) n s m).2.contents=moved lba s n m.contents dir ∧
    (0<n→lba+s+n≤D.sectors)):=by
  induction n generalizing s m with
  | zero=>
    exact ⟨[],by simp [sectorLoop],by simp,fun _=>⟨rfl,(moved_zero lba s _ dir).symm,by simp⟩⟩
  | succ n ih=>
    have ha : u64 (lba+s)%2^28=lba+s:=by
      unfold u64
      omega
    have hf:=attempt_spec (D:=D) dir drv lba s
    rw [ha,Nat.mod_eq_of_lt (by omega)] at hf
    obtain ⟨k,hlog,hone,hcont⟩:=attempts_spec hf 4 m
    rw [sectorLoop,andThen]
    generalize attempts (attempt dir D drv lba s) 4 m=r at hlog hone hcont ⊢
    split
    · rename_i hr
      have hk:=hone hr
      obtain ⟨hlt,hcont⟩:=hcont.resolve_left (by omega)
      obtain ⟨new,hnew,hin,hok⟩:=ih (s:=s+1) (by omega) (by omega) r.2
      refine ⟨replicate k (lba+s)++new,by rw [hnew,hlog,append_assoc],fun a ha=>?_,fun hr=>?_⟩
      · rcases mem_append.mp ha with ha | ha
        · obtain rfl:=eq_of_mem_replicate ha
          omega
        · have:=hin a ha
          omega
      · obtain ⟨hord,hc,hsec⟩:=hok hr
        exact ⟨⟨k,new,hk,rfl,hord⟩,by rw [hc,hcont,moved_succ],fun _=>by omega⟩
    · rename_i hr
      refine ⟨replicate k (lba+s),hlog,fun a ha=>?_,fun hok=>absurd hok hr⟩
      obtain rfl:=eq_of_mem_replicate ha
      omega

/-- What follows the loop over the sectors moves nothing, and a failed loop is reported. -/
theorem exact_of_loop (dir : Dir) {last : Machine σ→Except KError ℕ×Machine σ} (hpos : 0<count)
    (h : lba+count≤2^28 ∧ count≤2^24) (hlast : ∀m,(last m).2.log=m.log ∧ (last m).2.contents=m.contents) :
    Exact D dir lba count m (orIoError (sectorLoop (attempt dir D drv lba) count 0 m) last):=by
  obtain ⟨new,hnew,hin,hok⟩:=sectorLoop_spec (D:=D) dir drv (show lba+0+count≤2^28 by omega) (by omega) m
  generalize sectorLoop (attempt dir D drv lba) count 0 m=r at hnew hok ⊢
  unfold orIoError
  split
  · rename_i hr
    obtain ⟨hord,hc,hle⟩:=hok hr
    obtain ⟨hlog,hcont⟩:=hlast r.2
    exact ⟨fun n _=>⟨⟨new,hlog.trans hnew,hord⟩,hcont.trans hc⟩,⟨new,hlog.trans hnew,hin⟩,
      fun _ hbeyond=>absurd (hle hpos) (by omega)⟩
  · exact ⟨fun n hn=>absurd hn (by simp),⟨new,hnew,hin⟩,fun _ _=>⟨_,rfl⟩⟩

theorem transfer_exact (dir : Dir) (drives : ℕ→ATADrive) (driveIdx : ℕ) (m : Machine σ)
    (h : count=0 ∨ lba+count≤2^28 ∧ count≤2^24) :
    Exact D dir lba count m (transfer dir D drives driveIdx lba count m):=by
  by_cases hdrive : 4≤driveIdx ∨ (drives driveIdx).present=false
  · have hr : transfer dir D drives driveIdx lba count m=(.error .deviceNotReady,m):=by
      cases dir <;> exact if_pos hdrive
    rw [hr]
    exact ⟨fun n hn=>absurd hn (by simp),⟨[],by simp,by simp⟩,fun _ _=>⟨_,rfl⟩⟩
  by_cases hcount : count=0
  · have hr : transfer dir D drives driveIdx lba count m=(.ok 0,m):=by
      cases dir <;> exact (if_neg hdrive).trans (if_pos hcount)
    subst hcount
    rw [hr]
    exact ⟨fun _ _=>⟨⟨[],by simp,rfl⟩,(moved_zero lba 0 _ dir).symm⟩,⟨[],by simp,by simp⟩,fun hpos=>absurd hpos (by simp)⟩
  have h:=h.resolve_left hcount
  have hpos:=Nat.pos_of_ne_zero hcount
  cases dir with
  | read=>
    simp only [transfer,readSectors,if_neg hdrive,if_neg hcount]
    exact exact_of_loop .read hpos h fun _=>⟨rfl,rfl⟩
  | write=>
    simp only [transfer,writeSectors,if_neg hdrive,if_neg hcount]
    refine exact_of_loop .write hpos h fun m=>?_
    obtain ⟨t,ht⟩:=waitBsyClear_same (D:=D) (m.outbCommand 0xE7)
    have hlog:=congrArg Machine.log ht
    have hcont:=congrArg Machine.contents ht
    unfold orIoError
    split <;> exact ⟨hlog,hcont⟩

/-- A drive with every 28-bit address that is always ready and always asks for data. -/
def perfect : Drive Unit:=⟨2^28,fun _=>(0x48,())⟩

/-- The command in progress, if any, is for a sector that the perfect drive has. -/
def Known (m : Machine Unit) : Prop:=∀a,m.command=some a→a<2^28

section

variable {m : Machine Unit} (h : Known m)
include h

theorem perfect_inb : m.inb perfect=(0x48,m):=by
  refine if_neg fun hany=>?_
  obtain ⟨a,ha,hle⟩:=(Option.any_eq_true _ _).mp hany
  exact absurd (h a ha) (Nat.not_lt_of_le (of_decide_eq_true hle))

theorem perfect_ataDelay : ataDelay perfect m=m:=by
  simp only [ataDelay,perfect_inb h]

theorem perfect_poll {test : UInt8→Option Bool} {b : Bool} (ht : test 0x48=some b) (n : ℕ) :
    poll perfect test (n+1) m=(b,m):=by
  rw [poll_answer n (by rw [perfect_inb h]; exact ht),perfect_inb h]

theorem perfect_finish : finish perfect m=(true,m):=by
  simp only [finish,perfect_inb h]
  exact congrArg (·,m) (show decide ((0x48 : UInt8)&&&0x21=0)=true by decide)

theorem perfect_request (drv : ATADrive) (lba : ℕ) :
    request perfect drv 0x20 lba m=(true,(setupLba28 perfect drv lba 1 m).outbCommand 0x20) ∧
    Known ((setupLba28 perfect drv lba 1 m).outbCommand 0x20):=by
  have hknown : Known ((setupLba28 perfect drv lba 1 m).outbCommand 0x20):=by
    intro a ha
    obtain rfl : (setupLba28 perfect drv lba 1 m).address=a:=Option.some.inj ha
    rw [(setupLba28_spec drv lba m).1]
    exact Nat.mod_lt _ (by decide)
  have hwait : waitBsyClear perfect m=(true,m):=perfect_poll h rfl 99999
  refine ⟨?_,hknown⟩
  simp only [request,hwait,andThen_true]
  rw [perfect_ataDelay hknown]
  exact perfect_poll hknown rfl 999999

theorem perfect_readAttempt (drv : ATADrive) (lba s : ℕ) :
    ∃m',readAttempt perfect drv lba s m=(true,m') ∧ Known m':=by
  obtain ⟨hr,hknown⟩:=perfect_request h drv (u64 (lba+s))
  have hmoved : Known (moveWords .inw s 256 0 ((setupLba28 perfect drv (u64 (lba+s)) 1 m).outbCommand 0x20)):=by
    intro a ha
    rw [command_inw] at ha
    exact hknown a ha
  refine ⟨_,?_,hmoved⟩
  simp only [readAttempt,hr,andThen_true]
  exact perfect_finish hmoved

/-- The perfect drive completes every request. Once sector `lba+2 ^ 24` is moved, the first word of the buffer is no
longer one of sector `lba`. -/
theorem perfect_sectorLoop (drv : ATADrive) (lba n s : ℕ) :
    (sectorLoop (readAttempt perfect drv lba) n s m).1=true ∧ (lba+s+n≤2^28 →
    m.media=(fun a _=>if a=lba then 1 else 0)→(2^24<s→m.buf 0=0) → 2^24<s+n →
    (sectorLoop (readAttempt perfect drv lba) n s m).2.buf 0=0):=by
  induction n generalizing s m with
  | zero=>exact ⟨rfl,fun _ _ hbuf hs=>hbuf hs⟩
  | succ n ih=>
    obtain ⟨m1,hm1,hknown⟩:=perfect_readAttempt h drv lba s
    have hloop : sectorLoop (readAttempt perfect drv lba) (n+1) s m=sectorLoop (readAttempt perfect drv lba) n (s+1) m1:=by
      simp only [sectorLoop,attempts,hm1,andThen_true]
    rw [hloop]
    obtain ⟨hok,hrest⟩:=ih hknown (s+1)
    refine ⟨hok,fun hlba hmedia hbuf hs=>?_⟩
    have ha : u64 (lba+s)%2^28=lba+s:=by
      unfold u64
      omega
    have htried:=attempt_spec (D:=perfect) .read drv lba s m
    rw [ha,show attempt .read perfect drv lba s m=(true,m1) from hm1] at htried
    obtain ⟨hfalse,-⟩ | ⟨-,-,hcont⟩:=htried
    · cases hfalse
    have hmedia1 : m1.media=m.media:=congrArg Contents.media hcont
    have hbuf1 : m1.buf 0=if 0/256=s%2^24 then m.media (lba+s) 0 else m.buf 0:=
      congrFun (congrArg Contents.buf hcont) 0
    refine hrest (by omega) (hmedia1.trans hmedia) (fun hs'=>?_) (by omega)
    rw [hbuf1,hmedia]
    split
    · exact if_neg (by omega)
    · exact hbuf (by omega)

end

theorem read_completed {drives : ℕ→ATADrive} {driveIdx lba count : ℕ} {m m1 : Machine σ}
    (hd : ¬(4≤driveIdx ∨ (drives driveIdx).present=false)) (hcount : ¬count=0)
    (hl : sectorLoop (readAttempt D (drives driveIdx) lba) count 0 m=(true,m1)) :
    transfer .read D drives driveIdx lba count m=(.ok count,m1):=by
  simp only [transfer,readSectors]
  rw [if_neg hd,if_neg hcount,hl]
  rfl

/-- A transfer keeps its promise on every drive exactly when all its addresses have 28 bits and all its indices into
the buffer have 32. -/
theorem transfer_exact_iff (lba : UInt64) (count : UInt32) :
    (∀(σ : Type) (D : Drive σ) (dir : Dir) (drives : ℕ→ATADrive) (driveIdx : ℕ) (m : Machine σ),
    Exact D dir lba.toNat count.toNat m (transfer dir D drives driveIdx lba.toNat count.toNat m)) ↔
    count.toNat=0 ∨ lba.toNat+count.toNat≤2^28 ∧ count.toNat≤2^24:=by
  constructor
  · intro h
    by_contra hcond
    have hcount : ¬count.toNat=0:=fun h0=>hcond (.inl h0)
    let m : Machine Unit:=⟨(),0,0,0,0,0,0,none,0,fun a _=>if a=lba.toNat then 1 else 0,fun _=>0,[]⟩
    have hexact:=h Unit perfect .read (fun _=>⟨0,true⟩) 0 m
    obtain ⟨hok,hwrap⟩:=perfect_sectorLoop (m:=m) (fun a ha=>by cases ha) ⟨0,true⟩ lba.toNat count.toNat 0
    have hr : transfer .read perfect (fun _=>⟨0,true⟩) 0 lba.toNat count.toNat m =
        (.ok count.toNat,(sectorLoop (readAttempt perfect ⟨0,true⟩ lba.toNat) count.toNat 0 m).2):=
      read_completed (by simp) hcount (Prod.ext hok rfl)
    rw [hr] at hexact
    by_cases hlba : lba.toNat+count.toNat≤2^28
    · obtain ⟨-,hcont⟩:=hexact.ok _ rfl
      have hlost:=hwrap (by omega) rfl (fun hs=>by cases hs) (by omega)
      have hkept:=congrFun (congrArg Contents.buf hcont) 0
      simp [moved,Machine.contents,m,Nat.pos_of_ne_zero hcount] at hkept
      rw [hlost] at hkept
      cases hkept
    · obtain ⟨e,he⟩:=hexact.beyond (Nat.pos_of_ne_zero hcount) (Nat.lt_of_not_le hlba)
      cases he
  · exact fun h _ _ dir drives driveIdx m=>transfer_exact dir drives driveIdx m h

theorem sectorLoop_one {f : ℕ→Machine σ→Bool×Machine σ} (hf : f s m=(true,m1)) :
    sectorLoop f 1 s m=(true,m1):=by
  simp only [sectorLoop,attempts,hf,andThen_true]

/-- A channel that has seen no command, and an empty drive. -/
def blank : Machine Unit:=⟨(),0,0,0,0,0,0,none,0,fun _ _=>0,fun _=>0,[]⟩

/-- A sector read from the perfect drive is the one the low 28 bits of its number name. -/
theorem perfect_read_one {lba : ℕ} (hl : lba<2^64) : ∃m,
    transfer .read perfect (fun _=>⟨0,true⟩) 0 lba 1 blank=(.ok 1,m) ∧ m.log=[lba%2^28]:=by
  obtain ⟨m,hm,-⟩:=perfect_readAttempt (m:=blank) (fun a ha=>by cases ha) ⟨0,true⟩ lba 0
  have htried:=attempt_spec (D:=perfect) .read ⟨0,true⟩ lba 0 blank
  rw [show attempt .read perfect ⟨0,true⟩ lba 0 blank=(true,m) from hm] at htried
  refine ⟨m,?_,?_⟩
  · exact read_completed (by simp) (by decide) (sectorLoop_one hm)
  obtain ⟨hfalse,-⟩ | ⟨-,hlog,-⟩:=htried
  · cases hfalse
  · rw [hlog,Nat.add_zero,u64_of_lt hl]
    rfl

/-- A read of the sector behind the last one succeeds and gets the first sector. -/
theorem high_sector_aliased : ∃m,
    transfer .read perfect (fun _=>⟨0,true⟩) 0 (2^28) 1 blank=(.ok 1,m) ∧ m.log=[0] ∧ perfect.sectors≤2^28:=by
  obtain ⟨m,hm,hlog⟩:=perfect_read_one (show 2^28<2^64 by decide)
  exact ⟨m,hm,hlog.trans (by rw [Nat.mod_self]),Nat.le_refl _⟩

end Knail.Ata
