import Knail.Descriptors
import Knail.Rings

/-!
# Pipes

`pipe_read` and `pipe_write` copy byte by byte out of and into a ring of 4096 bytes, with a
position for each side and a count. Over any sequence of calls the ring is a queue.
-/
namespace Knail.Descriptors

open Vfs List

namespace PipeBuffer

/-- The copy loop of `pipe_read`. -/
def readLoop : ℕ→PipeBuffer→List UInt8×PipeBuffer
  | 0, pb=>([],pb)
  | n+1, pb=>
    match readLoop n {pb with readPos:=(pb.readPos+1)%pipeBufSize} with
    | (bytes,pb')=>(pb.buf pb.readPos::bytes,pb')

/-- The copy loop of `pipe_write`. -/
def writeLoop : List UInt8→PipeBuffer→PipeBuffer
  | [], pb=>pb
  | b::src, pb=>
    writeLoop src { pb with
      buf:=Function.update pb.buf pb.writePos b,writePos:=(pb.writePos+1)%pipeBufSize }

end PipeBuffer

/-- `pipe_read`: the bytes that it stores, as many as it returns, and the buffer behind `data`. -/
def pipeRead (len : ℕ) : Option PipeBuffer→Except KError (List UInt8)×Option PipeBuffer
  | none=>(.error .invalidArgument,none)
  | some pb=>
    if pb.used=0 then (.ok [],some pb)
    else
      match pb.readLoop (if len<pb.used then len else pb.used) with
      | (bytes,pb')=>(.ok bytes,some {pb' with used:=pb.used-if len<pb.used then len else pb.used})

/-- `pipe_write` of a buffer: the number of bytes that it accepts. -/
def pipeWrite (src : List UInt8) : Option PipeBuffer→Except KError ℕ×Option PipeBuffer
  | none=>(.error .invalidArgument,none)
  | some pb=>
    let space:=pipeBufSize-pb.used
    let toWrite:=if src.length<space then src.length else space
    if toWrite=0 then (.error .noSpace,some pb)
    else (.ok toWrite,some {pb.writeLoop (src.take toWrite) with used:=pb.used+toWrite})

inductive PipeOp
  | read (len : ℕ)
  | write (src : List UInt8)

/-- A pipe with the bytes that its writes have accepted and those that its reads have returned. -/
structure PipeRun where
  pipe : Option PipeBuffer
  accepted : List UInt8
  read : List UInt8

def PipeRun.step (r : PipeRun) : PipeOp→PipeRun
  | .read len=>
    match pipeRead len r.pipe with
    | (.error _,pb)=>{r with pipe:=pb}
    | (.ok bytes,pb)=>{r with pipe:=pb,read:=r.read++bytes}
  | .write src=>
    match pipeWrite src r.pipe with
    | (.error _,pb)=>{r with pipe:=pb}
    | (.ok n,pb)=>{r with pipe:=pb,accepted:=r.accepted++src.take n}

def PipeRun.run (ops : List PipeOp) : PipeRun:=ops.foldl step ⟨pipeNode.pipe,[],[]⟩

namespace PipeBuffer

variable {pb : PipeBuffer}

def contents (pb : PipeBuffer) : List UInt8:=ringContents pipeBufSize pb.buf pb.readPos pb.used

structure WellFormed (pb : PipeBuffer) : Prop where
  readPos : pb.readPos<pipeBufSize
  used : pb.used≤pipeBufSize
  writePos : pb.writePos=(pb.readPos+pb.used)%pipeBufSize

theorem readLoop_eq (n : ℕ) (hpos : pb.readPos<pipeBufSize) : pb.readLoop n =
    (ringContents pipeBufSize pb.buf pb.readPos n,{pb with readPos:=(pb.readPos+n)%pipeBufSize}):=by
  induction n generalizing pb with
  | zero=>simp [readLoop,Nat.mod_eq_of_lt hpos]
  | succ n ih=>
    rw [readLoop,ih (Nat.mod_lt _ (by decide))]
    simp only [ringContents_pop,Nat.mod_eq_of_lt hpos,Nat.mod_add_mod]
    rw [Nat.add_right_comm,Nat.add_assoc]

theorem writeLoop_spec {src : List UInt8} {n : ℕ} (hpos : pb.writePos=(pb.readPos+n)%pipeBufSize)
    (hn : n+src.length≤pipeBufSize) : (pb.writeLoop src).readPos=pb.readPos ∧
    (pb.writeLoop src).writePos=(pb.readPos+(n+src.length))%pipeBufSize ∧
    ringContents pipeBufSize (pb.writeLoop src).buf pb.readPos (n+src.length) =
    ringContents pipeBufSize pb.buf pb.readPos n++src:=by
  induction src generalizing pb n with
  | nil=>simpa [writeLoop] using hpos
  | cons b src ih=>
    rw [length_cons] at hn ⊢
    have hnext : (pb.writePos+1)%pipeBufSize=(pb.readPos+(n+1))%pipeBufSize:=by
      rw [hpos,Nat.mod_add_mod,Nat.add_assoc]
    obtain ⟨hread,hwrite,hcontents⟩:=@ih { pb with
      buf:=Function.update pb.buf pb.writePos b,writePos:=(pb.writePos+1)%pipeBufSize } (n+1) hnext (by omega)
    rw [writeLoop,show n+(src.length+1)=n+1+src.length by omega]
    refine ⟨hread,hwrite,hcontents.trans ?_⟩
    rw [hpos,ringContents_push (by omega),append_assoc]
    rfl

end PipeBuffer

variable {pb : PipeBuffer}

theorem pipeRead_spec (h : pb.WellFormed) (len : ℕ) :
    ∃bytes pb',pipeRead len (some pb)=(.ok bytes,some pb') ∧ pb'.WellFormed ∧ pb.contents=bytes++pb'.contents:=by
  simp only [pipeRead]
  split
  case isTrue => exact ⟨[],pb,rfl,h,rfl⟩
  case isFalse =>
    obtain ⟨n,hn,hle⟩ : ∃n,(if len<pb.used then len else pb.used)=n ∧ n≤pb.used:=by
      refine ⟨_,rfl,?_⟩
      split <;> omega
    rw [hn,PipeBuffer.readLoop_eq n h.readPos]
    refine ⟨_,_,rfl,⟨Nat.mod_lt _ (by decide),(Nat.sub_le ..).trans h.used,?_⟩,?_⟩
    · rw [h.writePos,Nat.mod_add_mod,Nat.add_assoc,Nat.add_sub_cancel' hle]
    · rw [PipeBuffer.contents,PipeBuffer.contents,←ringContents_append,Nat.add_sub_cancel' hle]

theorem pipeWrite_spec (h : pb.WellFormed) (src : List UInt8) :
    (∃n pb',pipeWrite src (some pb)=(.ok n,some pb') ∧ pb'.WellFormed ∧ pb'.contents=pb.contents++src.take n) ∨
    pipeWrite src (some pb)=(.error .noSpace,some pb) ∧ (pb.used=pipeBufSize ∨ src.length=0):=by
  have hused:=h.used
  unfold pipeWrite
  dsimp only
  obtain ⟨n,hn,hlen,hspace⟩ : ∃n,(if src.length<pipeBufSize-pb.used then src.length else pipeBufSize-pb.used)=n ∧
      n ≤ src.length ∧ n≤pipeBufSize-pb.used:=by
    refine ⟨_,rfl,?_⟩
    split <;> omega
  rw [hn]
  split
  case isTrue hzero =>
    refine .inr ⟨rfl,?_⟩
    split at hn <;> omega
  case isFalse =>
    have htake:=length_take_of_le hlen
    obtain ⟨hread,hwrite,hcontents⟩:=@PipeBuffer.writeLoop_spec pb (src.take n) _ h.writePos (by omega)
    rw [htake] at hwrite hcontents
    refine .inl ⟨n,_,rfl,⟨hread▸h.readPos,?_,?_⟩,?_⟩
    · dsimp only
      omega
    · rw [hread,hwrite]
    · rw [PipeBuffer.contents,PipeBuffer.contents,hread,hcontents]

/-- What has been accepted and not yet been read is in the ring. -/
def PipeRun.Queue (r : PipeRun) : Prop:=
  ∃pb,r.pipe=some pb ∧ pb.WellFormed ∧ r.accepted=r.read++pb.contents

theorem PipeRun.Queue.step {r : PipeRun} (h : r.Queue) (op : PipeOp) : (r.step op).Queue:=by
  obtain ⟨pb,hpb,hwf,hq⟩:=h
  cases op with
  | read len=>
    obtain ⟨bytes,pb',he,hwf',hbytes⟩:=pipeRead_spec hwf len
    rw [PipeRun.step,hpb,he]
    refine ⟨pb',rfl,hwf',?_⟩
    rw [hq,hbytes,append_assoc]
  | write src=>
    rw [PipeRun.step,hpb]
    rcases pipeWrite_spec hwf src with ⟨n,pb',he,hwf',hbytes⟩ | ⟨he,-⟩
    · rw [he]
      refine ⟨pb',rfl,hwf',?_⟩
      dsimp only
      rw [hq,hbytes,append_assoc]
    · rw [he]
      exact ⟨pb,rfl,hwf,hq⟩

theorem PipeRun.queue_run (ops : List PipeOp) : (PipeRun.run ops).Queue:=by
  refine List.foldlRecOn ops PipeRun.step ?_ fun r h op _=>h.step op
  exact ⟨_,rfl,⟨by decide,by decide,rfl⟩,rfl⟩

/-- Over any calls a pipe is a queue: the bytes read are the first of those accepted, the others
are in the ring, and a write fails only without room or without a byte. -/
theorem pipe_fifo (ops : List PipeOp) : ∃pb,(PipeRun.run ops).pipe=some pb ∧
    (PipeRun.run ops).read <+: (PipeRun.run ops).accepted ∧
    (PipeRun.run ops).accepted.length-(PipeRun.run ops).read.length=pb.used ∧ pb.used≤pipeBufSize ∧
    pb.writePos=(pb.readPos+pb.used)%pipeBufSize ∧
    ∀src e,(pipeWrite src (some pb)).1 = .error e→pb.used=pipeBufSize ∨ src.length=0:=by
  obtain ⟨pb,hpb,hwf,hq⟩:=PipeRun.queue_run ops
  refine ⟨pb,hpb,⟨pb.contents,hq.symm⟩,?_,hwf.used,hwf.writePos,fun src e he=>?_⟩
  · rw [hq,length_append,Nat.add_sub_cancel_left,PipeBuffer.contents,length_ringContents]
  rcases pipeWrite_spec hwf src with ⟨n,pb',hok,-⟩ | ⟨-,hfull⟩
  · rw [hok] at he
    cases he
  · exact hfull

end Knail.Descriptors
