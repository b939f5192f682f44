import Knail.StackCode

/-!
# Interrupt stubs

A hardware interrupt enters `irq_n`, which pushes an error code and a vector and goes on in `irq_common`. That saves
the registers, calls `irq_dispatch` and returns with `iretq`. The stub puts the vector into RAX before RAX is saved.
-/
namespace Knail.IrqStubs

open Function List

inductive Reg
  | rax | rbx | rcx | rdx | rsi | rdi | rbp | r8 | r9 | r10 | r11 | r12 | r13 | r14 | r15
  deriving DecidableEq, Repr

structure Machine where
  core : Core Reg
  rip : Word
  rflags : Word
  cs : Word
  ss : Word
  gsBase : Word
  kernelGsBase : Word
  /-- The stack for interrupts from user mode, in the TSS. -/
  rsp0 : Word

inductive Instr
  | pushImm (v : Word)
  | movImm (r : Reg) (v : Word)
  | push (r : Reg)
  | pop (r : Reg)
  /-- `test qword [rsp+24], 3`, and a `swapgs` that is jumped over if the bits are clear. -/
  | swapgsIfUser
  /-- `mov r, rsp`. -/
  | movRsp (r : Reg)
  | callDispatch
  | addRsp (n : Word)
  | iretq

/-- The order in which `irq_common` pushes. -/
def saved : List Reg:=[.rax,.rbx,.rcx,.rdx,.rsi,.rdi,.rbp,.r8,.r9,.r10,.r11,.r12,.r13,.r14,.r15]

def irqCommon : List Instr:=
  .swapgsIfUser::saved.map .push++[.movRsp .rdi,.callDispatch]++saved.reverse.map .pop ++
    [.swapgsIfUser,.addRsp 16,.iretq]

/-- The macro `IRQ n`. -/
def irqStub (n : ℕ) : List Instr:=
  [.pushImm 0,.movImm .rax (32+BitVec.ofNat 64 n),.push .rax]++irqCommon

namespace Machine

def swapgs (m : Machine) : Machine:={m with gsBase:=m.kernelGsBase,kernelGsBase:=m.gsBase}

/-- What the processor does before the first instruction of an interrupt gate. -/
def deliver (m : Machine) : Machine:=
  let c:={m.core with sp:=if m.cs&&&3≠0 then m.rsp0 else m.core.sp &&& ~~~ 15}
  { m with
    core:=((((c.push m.ss).push m.core.sp).push m.rflags).push m.cs).push m.rip
    rflags:=m.rflags &&& ~~~ 0x34300
    cs:=0x08
    ss:=if m.cs&&&3≠0 then 0 else m.ss }

def exec (dispatch : Machine→Machine) (m : Machine) : Instr→Machine
  | .pushImm v=>{m with core:=m.core.push v}
  | .movImm r v=>{m with core:=m.core.setReg r v}
  | .push r=>{m with core:=m.core.push (m.core.reg r)}
  | .pop r=>{m with core:=m.core.pop r}
  | .swapgsIfUser=>if m.core.mem (above m.core.sp 3)&&&3=0 then m else m.swapgs
  | .movRsp r=>{m with core:=m.core.setReg r m.core.sp}
  | .callDispatch=>dispatch {m with core:=m.core.push m.rip}
  | .addRsp n=>{ m with core:={m.core with sp:=m.core.sp+n} }
  | .iretq=>
    { m with
      rip:=m.core.mem m.core.sp
      cs:=m.core.mem (above m.core.sp 1)
      rflags:=m.core.mem (above m.core.sp 2)
      core:={m.core with sp:=m.core.mem (above m.core.sp 3)}
      ss:=m.core.mem (above m.core.sp 4) }

def run (dispatch : Machine→Machine) (m : Machine) (code : List Instr) : Machine:=code.foldl (exec dispatch) m

end Machine

/-- The registers that a function keeps under the System V convention. -/
def Reg.calleeSaved : Reg→Bool
  | .rbx | .rbp | .r12 | .r13 | .r14 | .r15=>true
  | _=>false

/-- A function that is entered with its return address on the stack, keeps the registers it has
to keep and the given number of words of its callers' frames, and returns to the same task. -/
structure SysV (words : ℕ) (f : Machine→Machine) : Prop where
  sp : ∀m,(f m).core.sp=m.core.sp+8
  reg : ∀m r,r.calleeSaved→(f m).core.reg r=m.core.reg r
  mem : ∀m i,i<words→(f m).core.mem (above (m.core.sp+8) i)=m.core.mem (above (m.core.sp+8) i)
  gs : ∀m,(f m).gsBase=m.gsBase ∧ (f m).kernelGsBase=m.kernelGsBase
  rsp0 : ∀m,(f m).rsp0=m.rsp0

/-- `irq_dispatch`: the handler for the vector in the frame that RDI points to, if there is one.
The rest of the function, in compiled form, leaves what it likes in the scratch registers. -/
def irqDispatch (handlers : ℕ→Option (Machine→Machine)) (rest : Machine→Machine) (m : Machine) : Machine:=
  let irq:=(m.core.mem (above (m.core.reg .rdi) 15)-32).toNat%256
  match if irq<16 then handlers irq else none with
  | some h=>rest (h {m with core:=m.core.push m.rip})
  | none=>rest m

/-- An interrupt, up to the resumption of the interrupted code. -/
def interrupt (handlers : ℕ→Option (Machine→Machine)) (rest : Machine→Machine) (n : ℕ) (m : Machine) : Machine:=
  m.deliver.run (irqDispatch handlers rest) (irqStub n)

/-- The interrupted code cannot tell that it was interrupted. -/
structure Transparent (m m' : Machine) : Prop where
  reg : ∀r,m'.core.reg r=m.core.reg r
  sp : m'.core.sp=m.core.sp
  rip : m'.rip=m.rip
  rflags : m'.rflags=m.rflags

variable {m m' : Machine} {d : Machine→Machine} {handlers : ℕ→Option (Machine→Machine)} {rest : Machine→Machine}

theorem Machine.run_append (m : Machine) (xs ys : List Instr) : m.run d (xs++ys)=(m.run d xs).run d ys:=
  foldl_append

theorem Machine.run_push (m : Machine) (rs : List Reg) :
    m.run d (rs.map .push)={m with core:=m.core.pushAll rs}:=by
  induction rs generalizing m with
  | nil=>rfl
  | cons r rs ih=>exact ih _

theorem Machine.run_pop (m : Machine) (rs : List Reg) : m.run d (rs.map .pop)={m with core:=m.core.popAll rs}:=by
  induction rs generalizing m with
  | nil=>rfl
  | cons r rs ih=>exact ih _

theorem mem_saved (r : Reg) : r∈saved:=by cases r <;> decide

/-- The words between the top of the stack and the interrupted code while `irq_dispatch` runs:
the registers, the vector, the error code and the frame of the processor. -/
def frameWords : ℕ:=22

/-- Around a handler that keeps the convention so does `irq_dispatch`. -/
theorem sysV_irqDispatch (hh : ∀i h,handlers i=some h→SysV (frameWords+1) h) (hr : SysV frameWords rest) :
    SysV frameWords (irqDispatch handlers rest):=by
  -- after the call of the handler the stack is where it was
  have hcall {h : Machine→Machine} (hs : SysV (frameWords+1) h) (m : Machine) :
      (h {m with core:=m.core.push m.rip}).core.sp=m.core.sp:=(hs.sp _).trans (sub_add_eight _)
  have hmem {h : Machine→Machine} (hs : SysV (frameWords+1) h) (m : Machine) (i : ℕ) (hi : i<frameWords) :
      (h {m with core:=m.core.push m.rip}).core.mem (above (m.core.sp+8) i)=m.core.mem (above (m.core.sp+8) i):=by
    have:=hs.mem {m with core:=m.core.push m.rip} (i+1) (by omega)
    rw [show (m.core.push m.rip).sp+8=m.core.sp from sub_add_eight _,above_succ] at this
    refine this.trans (update_of_ne ?_ _ _)
    rw [←above_succ]
    exact above_ne (by simp only [frameWords] at hi; omega) _
  have hcases (m : Machine) : irqDispatch handlers rest m=rest m ∨ ∃h,SysV (frameWords+1) h ∧
      irqDispatch handlers rest m=rest (h {m with core:=m.core.push m.rip}):=by
    unfold irqDispatch
    dsimp only
    split
    · rename_i h he
      split at he
      · exact .inr ⟨h,hh _ h he,rfl⟩
      · cases he
    · exact .inl rfl
  refine ⟨fun m=>?_,fun m r hr'=>?_,fun m i hi=>?_,fun m=>?_,fun m=>?_⟩
  all_goals rcases hcases m with he | ⟨h,hs,he⟩ <;> rw [he]
  · exact hr.sp m
  · rw [hr.sp,hcall hs]
  · exact hr.reg m r hr'
  · exact (hr.reg _ r hr').trans (hs.reg _ r hr')
  · exact hr.mem m i hi
  · have:=hr.mem (h {m with core:=m.core.push m.rip}) i hi
    rw [hcall hs] at this
    exact this.trans (hmem hs m i hi)
  · exact hr.gs m
  · exact ⟨(hr.gs _).1.trans (hs.gs _).1,(hr.gs _).2.trans (hs.gs _).2⟩
  · exact hr.rsp0 m
  · exact (hr.rsp0 _).trans (hs.rsp0 _)

def Machine.frame (m : Machine) : List Word:=[m.rip,m.cs,m.rflags,m.core.sp,m.ss]

theorem deliver_stacked (m : Machine) : m.deliver.core.Stacked m.frame:=by
  have h0 : Core.Stacked {m.core with sp:=if m.cs&&&3≠0 then m.rsp0 else m.core.sp &&& ~~~ 15} []:=trivial
  exact ((((h0.push (by simp) _).push (by simp) _).push (by simp) _).push (by simp) _).push (by simp) _

theorem dispatch_restores {d' : Machine→Machine} {vec : Word} {vs : List Word} (hd : SysV frameWords d')
    (hdd : ∀e,e.core.mem (above (e.core.reg .rdi) 15)=vec→d e=d' e) (hs : m.core.Stacked (vec::vs))
    (hl : vs.length=6) : ∃m',m.run d (saved.map .push++[.movRsp .rdi,.callDispatch]++saved.reverse.map .pop)=m' ∧
    m'.core.reg=m.core.reg ∧ m'.core.Stacked (vec::vs):=by
  refine ⟨_,rfl,?_⟩
  rw [Machine.run_append,Machine.run_append,Machine.run_push,Machine.run_pop]
  obtain ⟨hreg,hst⟩:=m.core.pushAll_spec saved hs (by rw [length_cons,hl]; decide)
  generalize m.core.pushAll saved=c at hreg hst
  let entry : Machine:={m with core:=(c.setReg .rdi c.sp).push m.rip}
  change (Core.popAll (d entry).core saved.reverse).reg=_ ∧ Core.Stacked (Core.popAll (d entry).core saved.reverse) _
  have hlen : (saved.reverse.map m.core.reg++vec::vs).length=frameWords:=by
    rw [length_append,length_cons,hl]
    rfl
  have hcall : StackAt entry.core.mem c.sp (saved.reverse.map m.core.reg++vec::vs):=by
    have:=(Core.Stacked.push (c:=c.setReg .rdi c.sp) hst (by rw [hlen]; decide) m.rip).2
    rwa [show ((c.setReg Reg.rdi c.sp).push m.rip).sp+8=c.sp from sub_add_eight _] at this
  have hdi : update c.reg .rdi c.sp .rdi=c.sp:=update_self ..
  rw [hdd entry (by rw [show entry.core.reg .rdi=c.sp from hdi]; exact hcall.get rfl)]
  -- the callee returns to the stack that it was called on and keeps its words
  have hret : (d' entry).core.Stacked (saved.reverse.map m.core.reg++vec::vs):=by
    rw [Core.Stacked,(hd.sp entry).trans (sub_add_eight _)]
    refine hcall.congr fun i hi=>?_
    have:=hd.mem entry i (hlen▸hi)
    rwa [show entry.core.sp+8=c.sp from sub_add_eight _] at this
  obtain ⟨hpop,hvs,-⟩:=(d' entry).core.popAll_spec m.core.reg saved.reverse hret
  refine ⟨funext fun r=>?_,hvs⟩
  rw [hpop,if_pos (mem_reverse.mpr (mem_saved r))]

theorem core_swapgsIfUser (d : Machine→Machine) (m : Machine) : (m.exec d .swapgsIfUser).core=m.core:=by
  simp only [Machine.exec]
  split <;> rfl

theorem exec_iretq (hs : m'.core.Stacked m.frame) : (m'.exec d .iretq).core.reg=m'.core.reg ∧
    (m'.exec d .iretq).core.sp=m.core.sp ∧ (m'.exec d .iretq).rip=m.rip ∧ (m'.exec d .iretq).rflags=m.rflags:=
  ⟨rfl,hs.get rfl,hs.1,hs.get rfl⟩

theorem irqDispatch_line (handlers : ℕ→Option (Machine→Machine)) (rest : Machine→Machine) {n : ℕ} (hn : n<16)
    (e : Machine) (he : e.core.mem (above (e.core.reg .rdi) 15)=32+BitVec.ofNat 64 n) :
    irqDispatch handlers rest e=irqDispatch (fun i=>if i=n then handlers i else none) rest e:=by
  have hirq : (32+BitVec.ofNat 64 n-32 : Word).toNat%256=n:=by bv_omega
  simp only [irqDispatch,he,hirq,↓reduceIte]

/-- What the interrupted code finds: everything as it was, and the vector in RAX. -/
theorem interrupt_spec {n : ℕ} (hn : n<16) (hh : ∀h,handlers n=some h→SysV (frameWords+1) h)
    (hr : SysV frameWords rest) (m : Machine) :
    (interrupt handlers rest n m).core.reg=update m.core.reg .rax (32+BitVec.ofNat 64 n) ∧
    (interrupt handlers rest n m).core.sp=m.core.sp ∧ (interrupt handlers rest n m).rip=m.rip ∧
    (interrupt handlers rest n m).rflags=m.rflags:=by
  have hline (e : Machine):=irqDispatch_line handlers rest hn e
  have hd : SysV frameWords (irqDispatch (fun i=>if i=n then handlers i else none) rest):=by
    refine sysV_irqDispatch (fun i h hi=>?_) hr
    split at hi
    case isTrue hin => exact hh h (hin▸hi)
    case isFalse => cases hi
  generalize hdd : irqDispatch handlers rest=d at hline
  let vec : Word:=32+BitVec.ofNat 64 n
  -- the stub leaves the vector in RAX and on the stack
  let m1:=m.deliver.run d [.pushImm 0,.movImm .rax vec,.push .rax]
  have hreg1 : m1.core.reg=update m.core.reg .rax vec:=rfl
  have hst1 : m1.core.Stacked (vec::0::m.frame):=by
    have h0:=(deliver_stacked m).push (by simp [Machine.frame]) 0
    have h1:=Core.Stacked.push h0 (by simp [Machine.frame]) vec
    exact h1
  have hrun : interrupt handlers rest n m=((m1.exec d .swapgsIfUser).run d
      (saved.map .push++[.movRsp .rdi,.callDispatch]++saved.reverse.map .pop)).run d
        [.swapgsIfUser,.addRsp 16,.iretq]:=by
    rw [interrupt,hdd,irqStub,irqCommon,Machine.run_append,←Machine.run_append]
    rfl
  have hcore2:=core_swapgsIfUser d m1
  obtain ⟨m3,he3,hreg3,hst3⟩:=dispatch_restores hd hline (hcore2▸hst1) rfl
  have hcore4:=core_swapgsIfUser d m3
  -- past the vector and the error code lies the frame that `iretq` takes
  let m5:=(m3.exec d .swapgsIfUser).exec d (.addRsp 16)
  have hst5 : m5.core.Stacked m.frame:=by
    have hst:=hst3.2.2
    rw [BitVec.add_assoc,←hcore4] at hst
    exact hst
  rw [hrun,he3]
  obtain ⟨hreg,hsp,hrip,hfl⟩:=exec_iretq (d:=d) hst5
  refine ⟨hreg.trans ?_,hsp,hrip,hfl⟩
  change (m3.exec d .swapgsIfUser).core.reg=_
  rw [hcore4,hreg3,hcore2,hreg1]

/-- An interrupt is transparent exactly where RAX holds the vector already. -/
theorem irq_transparent_iff {n : ℕ} (hn : n<16) (hh : ∀h,handlers n=some h→SysV (frameWords+1) h)
    (hr : SysV frameWords rest) (m : Machine) :
    Transparent m (interrupt handlers rest n m)↔m.core.reg .rax=32+BitVec.ofNat 64 n:=by
  obtain ⟨hreg,hsp,hrip,hfl⟩:=interrupt_spec hn hh hr m
  constructor
  · intro h
    rw [←h.reg .rax,hreg,update_self]
  intro hrax
  refine ⟨fun r=>?_,hsp,hrip,hfl⟩
  rw [hreg,←hrax,update_eq_self]

def returnOnly (m : Machine) : Machine:={ m with core:={m.core with sp:=m.core.sp+8} }

theorem sysV_returnOnly (words : ℕ) : SysV words returnOnly:=
  ⟨fun _=>rfl,fun _ _ _=>rfl,fun _ _ _=>rfl,fun _=>⟨rfl,rfl⟩,fun _=>rfl⟩

/-- User code at 4 MiB with interrupts on and the given value in RAX. -/
def userCode (rax : Word) : Machine where
  core:={reg:=fun r=>if r = .rax then rax else 0,mem:=fun _=>0,sp:=0x7FFFFFF000}
  rip:=0x400000
  rflags:=0x202
  cs:=0x2B
  ss:=0x23
  gsBase:=0
  kernelGsBase:=0xFFFFFFFF80200000
  rsp0:=0xFFFF900000010000

theorem irq_transparent_iff_timer :
    Transparent (userCode 32) (interrupt (fun _=>some returnOnly) returnOnly 0 (userCode 32)):=
  (irq_transparent_iff (by decide) (fun _ h=>by cases h; exact sysV_returnOnly _) (sysV_returnOnly _) _).mpr rfl

/-- The timer interrupts user code that holds zero in RAX, which then finds 32 there. -/
theorem irq_clobbers_rax :
    ¬Transparent (userCode 0) (interrupt (fun _=>some returnOnly) returnOnly 0 (userCode 0)):=by
  intro h
  have:=h.reg .rax
  exact absurd this (by decide +kernel)

end Knail.IrqStubs
