import Knail.IrqStubs

/-!
# The registers of a system call

`syscall_entry` saves RCX, R11 and RBP of the user program, moves the arguments and calls C++ functions around the
handler. These leave what they like in the scratch registers and in the GS block.
-/
namespace Knail.SyscallStubs

open IrqStubs (Reg)

/-- The words at `gs:0` and `gs:8`. -/
structure GsBlock where
  kernelRsp : Word
  userRsp : Word

/-- The variables that the entry code shares with `fork` and `execve`. -/
inductive Symbol
  | lastUserRip | lastUserRsp | lastUserRflags | execRip | execRsp | execRflags
  deriving DecidableEq

structure Cpu where
  reg : Reg→Word
  rsp : Word
  rip : Word
  rflags : Word
  zf : Bool
  /-- The words pushed on the kernel's stack. -/
  stack : List Word
  gs : GsBlock
  kernelGs : GsBlock
  var : Symbol→Word

inductive CFunction
  | preemptDisable | syscallHandler | preemptEnable | consumeExecPending | consumeYieldPending | doYield
  deriving DecidableEq

inductive Instr
  | swapgs
  | push (r : Reg)
  | pop (r : Reg)
  | mov (dst src : Reg)
  /-- `mov [gs:8], rsp`. -/
  | saveRsp
  /-- `mov rsp, [gs:0]`, to an empty stack. -/
  | kernelRsp
  /-- `mov rsp, [gs:8]`. -/
  | userRsp
  /-- `mov r, [gs:8]`. -/
  | loadUserRsp (r : Reg)
  /-- `mov [gs:8], r`. -/
  | storeUserRsp (r : Reg)
  | load (r : Reg) (s : Symbol)
  | store (s : Symbol) (r : Reg)
  | call (f : CFunction)
  /-- `test rax, rax`. -/
  | testRax
  | sysret

def entry : List Instr:=
  [.swapgs,.saveRsp,.kernelRsp,.push .rcx,.push .r11,.push .rbp,
    .push .rax,.store .lastUserRip .rcx,.store .lastUserRflags .r11,.loadUserRsp .rax,.store .lastUserRsp .rax,.pop .rax,
    .mov .r9 .r8,.mov .r8 .r10,.mov .rcx .rdx,.mov .rdx .rsi,.mov .rsi .rdi,.mov .rdi .rax,
    .push .rdi,.push .rsi,.push .rdx,.push .rcx,.push .r8,.push .r9,.call .preemptDisable,
    .pop .r9,.pop .r8,.pop .rcx,.pop .rdx,.pop .rsi,.pop .rdi,
    .call .syscallHandler,.push .rax,.call .preemptEnable,.pop .rax,.pop .rbp,.pop .r11,.pop .rcx,
    .push .rax,.call .consumeExecPending,.testRax,.pop .rax]

def newImage : List Instr:=
  [.load .rcx .execRip,.load .r11 .execRflags,.load .rdx .execRsp,.storeUserRsp .rdx]

def yieldTest : List Instr:=
  [.push .rax,.push .rcx,.push .r11,.call .consumeYieldPending,.testRax,.pop .r11,.pop .rcx,.pop .rax]

def yielding : List Instr:=
  [.push .rax,.push .rcx,.push .r11,.call .doYield,.pop .r11,.pop .rcx,.pop .rax]

def leaving : List Instr:=[.userRsp,.swapgs,.sysret]

/-- What a C++ function leaves where the System V convention lets it. -/
structure Left where
  reg : Reg→Word
  gs : GsBlock
  var : Symbol→Word

namespace Cpu

def set (c : Cpu) (r : Reg) (v : Word) : Cpu:={c with reg:=Function.update c.reg r v}

/-- A call keeps the stack and the registers that the callee has to keep. -/
def call (c : Cpu) (l : Left) : Cpu:=
  {c with reg:=fun r=>if r.calleeSaved then c.reg r else l.reg r,gs:=l.gs,var:=l.var}

def sysretFlags (v : Word) : Word:=v&&&0x3C7FD7|||2

def exec (left : CFunction→Left) (c : Cpu) : Instr→Cpu
  | .swapgs=>{c with gs:=c.kernelGs,kernelGs:=c.gs}
  | .push r=>{c with rsp:=c.rsp-8,stack:=c.reg r::c.stack}
  | .pop r=>{c.set r (c.stack.headD 0) with rsp:=c.rsp+8,stack:=c.stack.tail}
  | .mov dst src=>c.set dst (c.reg src)
  | .saveRsp=>{c with gs.userRsp:=c.rsp}
  | .kernelRsp=>{c with rsp:=c.gs.kernelRsp,stack:=[]}
  | .userRsp=>{c with rsp:=c.gs.userRsp}
  | .loadUserRsp r=>c.set r c.gs.userRsp
  | .storeUserRsp r=>{c with gs.userRsp:=c.reg r}
  | .load r s=>c.set r (c.var s)
  | .store s r=>{c with var:=Function.update c.var s (c.reg r)}
  | .call f=>c.call (left f)
  | .testRax=>{c with zf:=c.reg .rax=0}
  | .sysret=>{c with rip:=c.reg .rcx,rflags:=sysretFlags (c.reg .r11)}

def run (left : CFunction→Left) (c : Cpu) (code : List Instr) : Cpu:=code.foldl (exec left) c

def syscallEntry (left : CFunction→Left) (c : Cpu) : Cpu:=
  let c:=c.run left entry
  let c:=if c.zf then c else c.run left newImage
  let c:=c.run left yieldTest
  let c:=if c.zf then c else c.run left yielding
  c.run left leaving

/-- A `syscall` instruction, up to the resumption of the program. Before it RIP is the address after
the instruction. -/
def syscall (left : CFunction→Left) (lstar : Word) (c : Cpu) : Cpu:=
  syscallEntry left
    { c.set .rcx c.rip with
      reg:=Function.update (c.set .rcx c.rip).reg .r11 c.rflags,rip:=lstar,rflags:=c.rflags &&& ~~~ 0x600 }

end Cpu

def clobbered : List Reg:=[.rax,.rcx,.r11]

/-- The program goes on with the registers that it had. -/
structure Resumed (c c' : Cpu) : Prop where
  rip : c'.rip=c.rip
  rflags : c'.rflags=c.rflags
  reg : ∀r∉clobbered,c'.reg r=c.reg r
  rsp : c'.rsp=c.rsp

def last (left : CFunction→Left) : CFunction:=
  if (left .consumeYieldPending).reg .rax=0 then .consumeYieldPending else .doYield

/-- The scratch registers that a program may rely on. -/
def unsaved : List Reg:=[.rdx,.rsi,.rdi,.r8,.r9,.r10]

/-- The C++ functions leave in the scratch registers, and in the variables for a new image if there
is one, what the program had in its registers. -/
structure LeftAsFound (left : CFunction→Left) (c : Cpu) : Prop where
  rip : (if (left .consumeExecPending).reg .rax=0 then (left .consumeExecPending).reg .rcx
    else (left .consumeExecPending).var .execRip)=c.rip
  rflags : Cpu.sysretFlags (if (left .consumeExecPending).reg .rax=0 then (left .consumeExecPending).reg .r11
    else (left .consumeExecPending).var .execRflags)=c.rflags
  reg : ∀r∈unsaved,(left (last left)).reg r=c.reg r
  rsp : (left (last left)).gs.userRsp=c.rsp

variable (left : CFunction→Left) (c : Cpu)

theorem entered : let c':=if (c.run left entry).zf then c.run left entry else (c.run left entry).run left newImage
    (∀r : Reg,r.calleeSaved→c'.reg r=c.reg r) ∧
    c'.reg .rcx=(if (left .consumeExecPending).reg .rax=0 then (left .consumeExecPending).reg .rcx
      else (left .consumeExecPending).var .execRip) ∧
    c'.reg .r11=(if (left .consumeExecPending).reg .rax=0 then (left .consumeExecPending).reg .r11
      else (left .consumeExecPending).var .execRflags):=by
  have hzf : (c.run left entry).zf=decide ((left .consumeExecPending).reg .rax=0):=rfl
  rw [hzf]
  by_cases h : (left .consumeExecPending).reg .rax=0
  · rw [decide_eq_true h,if_pos rfl,if_pos h,if_pos h]
    refine ⟨fun r hr=>?_,rfl,rfl⟩
    cases r <;> first | rfl | cases hr
  rw [decide_eq_false h,if_neg Bool.false_ne_true,if_neg h,if_neg h]
  refine ⟨fun r hr=>?_,rfl,rfl⟩
  cases r <;> first | rfl | cases hr

theorem around_call {f : CFunction} {code : List Instr}
    (hcode : code=yieldTest ∧ f = .consumeYieldPending ∨ code=yielding ∧ f = .doYield) :
    (∀r : Reg,r.calleeSaved ∨ r = .rcx ∨ r = .r11→(c.run left code).reg r=c.reg r) ∧
    (∀r∈unsaved,(c.run left code).reg r=(left f).reg r) ∧ (c.run left code).gs=(left f).gs:=by
  rcases hcode with ⟨rfl,rfl⟩ | ⟨rfl,rfl⟩
  all_goals
    refine ⟨fun r hr=>?_,fun r hr=>?_,rfl⟩
    · cases r <;> first | rfl | simp [Reg.calleeSaved] at hr
    · cases r <;> first | rfl | simp [unsaved] at hr

theorem yielded : let c':=if (c.run left yieldTest).zf then c.run left yieldTest else (c.run left yieldTest).run left yielding
    (∀r : Reg,r.calleeSaved ∨ r = .rcx ∨ r = .r11→c'.reg r=c.reg r) ∧
      (∀r∈unsaved,c'.reg r=(left (last left)).reg r) ∧ c'.gs=(left (last left)).gs:=by
  have hzf : (c.run left yieldTest).zf=decide ((left .consumeYieldPending).reg .rax=0):=rfl
  obtain ⟨hkept,hscratch,hgs⟩:=around_call left c (.inl ⟨rfl,rfl⟩)
  obtain ⟨hkept',hscratch',hgs'⟩:=around_call left (c.run left yieldTest) (.inr ⟨rfl,rfl⟩)
  rw [hzf,last]
  by_cases h : (left .consumeYieldPending).reg .rax=0
  · rw [decide_eq_true h,if_pos rfl,if_pos h]
    exact ⟨hkept,hscratch,hgs⟩
  · rw [decide_eq_false h,if_neg Bool.false_ne_true,if_neg h]
    exact ⟨fun r hr=>(hkept' r hr).trans (hkept r hr),hscratch',hgs'⟩

theorem kept_or_unsaved (r : Reg) (hr : r∉clobbered) : r.calleeSaved ∨ r∈unsaved:=by
  cases r <;> revert hr <;> decide

/-- What a program finds after a system call: of the registers that it may rely on the entry code
restores RBP only, and the C++ functions keep RBX and R12 to R15. -/
theorem resumed_iff (lstar : Word) : Resumed c (c.syscall left lstar)↔LeftAsFound left c:=by
  let c₁ : Cpu:={ c.set .rcx c.rip with
    reg:=Function.update (c.set .rcx c.rip).reg .r11 c.rflags,rip:=lstar,rflags:=c.rflags &&& ~~~ 0x600 }
  have hreg₁ (r : Reg) (hr : r.calleeSaved) : c₁.reg r=c.reg r:=by cases r <;> first | rfl | cases hr
  obtain ⟨hkept₂,hrcx,hr11⟩:=entered left c₁
  generalize hc₂ : (if (c₁.run left entry).zf then c₁.run left entry else (c₁.run left entry).run left newImage)=c₂ at *
  obtain ⟨hkept₃,hscratch,hgs⟩:=yielded left c₂
  generalize hc₃ : (if (c₂.run left yieldTest).zf then c₂.run left yieldTest
    else (c₂.run left yieldTest).run left yielding)=c₃ at *
  have hrun : c.syscall left lstar=c₃.run left leaving:=by
    rw [←hc₃,←hc₂]
    rfl
  have hkept (r : Reg) (hr : r.calleeSaved) : c₃.reg r=c.reg r:=
    (hkept₃ r (.inl hr)).trans ((hkept₂ r hr).trans (hreg₁ r hr))
  have hrip : (c₃.run left leaving).rip=c₂.reg .rcx:=hkept₃ .rcx (.inr (.inl rfl))
  have hflags : (c₃.run left leaving).rflags=Cpu.sysretFlags (c₂.reg .r11):=
    congrArg Cpu.sysretFlags (hkept₃ .r11 (.inr (.inr rfl)))
  have hrsp:=congrArg GsBlock.userRsp hgs
  rw [hrun]
  constructor
  · intro h
    refine ⟨?_,?_,fun r hr=>?_,hrsp.symm.trans h.rsp⟩
    · rw [←hrcx,←hrip,h.rip]
    · rw [←hr11,←hflags,h.rflags]
    · rw [←hscratch r hr]
      exact h.reg r (by cases r <;> revert hr <;> decide)
  · intro h
    refine ⟨?_,?_,fun r hr=>?_,hrsp.trans h.rsp⟩
    · rw [hrip,hrcx,h.rip]
    · rw [hflags,hr11,h.rflags]
    rcases kept_or_unsaved r hr with hs | hu
    · exact hkept r hs
    · exact (hscratch r hu).trans (h.reg r hu)

/-- A program that asks for its thread number, 186, with 7 in RSI. -/
def asking : Cpu where
  reg:=fun r=>if r = .rax then 186 else if r = .rsi then 7 else 0
  rsp:=0x7FFFFFF000
  rip:=0x400002
  rflags:=0x202
  zf:=false
  stack:=[]
  gs:=⟨0,0⟩
  kernelGs:=⟨0xFFFFFFFF80300000,0⟩
  var:=fun _=>0

/-- C++ functions that change no register but RAX. -/
def untouched (_ : CFunction) : Left where
  reg:=fun r=>if r = .rdi then 186 else if r = .rdx then 7 else if r = .rcx then 0x400002 else if r = .r11 then 0x202 else 0
  gs:=⟨0xFFFFFFFF80300000,0x7FFFFFF000⟩
  var:=fun _=>0

/-- The arguments have moved on by one register. -/
theorem arguments_shifted : ¬Resumed asking (asking.syscall untouched 0xFFFFFFFF80001000):=by
  intro h
  exact absurd (h.reg .rdi (by decide)) (by decide)

end Knail.SyscallStubs
