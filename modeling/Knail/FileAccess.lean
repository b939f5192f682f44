import Knail.Traces
import Knail.VfsFiles

/-!
# Access modes

The flags of the caller and the access bits of the descriptor share one word, and `open` adds
bits to the flags without removing any. What a descriptor and its copies may do is decided by
that word alone, whatever the back end is.
-/
namespace Knail.Vfs

open List

variable {σ : Type} {flags : ℕ}

/-- The descriptors that come from one call of `open`, and the state of the back end. -/
structure Family (σ : Type) where
  fds : List FileDescriptor
  state : σ

inductive IoOp
  | dup (i : ℕ)
  | read (i : ℕ) (buf : Bool) (len : ℕ)
  | write (i : ℕ) (buf : Bool) (src : List UInt8)

inductive IoResult
  | none
  | read (r : Except KError (List UInt8))
  | write (r : Except KError ℕ)

/-- A call on the descriptor with a number; `dup` copies it, and so does the copy of a table in
`fork_current`. -/
def Family.step (ops : Backend σ) (op : IoOp) (s : Family σ) : IoResult×Family σ:=
  match op with
  | .dup i=>(.none,{s with fds:=s.fds++s.fds[i]?.toList})
  | .read i buf len=>
    match s.fds[i]? with
    | none=>(.none,s)
    | some d=>
      match d.read ops buf len s.state with
      | (r,d,state)=>(.read r,⟨s.fds.set i d,state⟩)
  | .write i buf src=>
    match s.fds[i]? with
    | none=>(.none,s)
    | some d=>
      match d.write ops buf src s.state with
      | (r,d,state)=>(.write r,⟨s.fds.set i d,state⟩)

/-- The descriptor that `open` returns for a vnode. -/
def Family.opened (ops : Backend σ) (flags : ℕ) (s : σ) : Family σ:=⟨[(ops.vnode s).descriptor flags],s⟩

def IoResult.Permitted (flags : ℕ) : IoResult→Prop
  | .read (.ok _)=>flags&&&3≠oWrite
  | .write (.ok _)=>flags&&&3=oWrite ∨ flags&&&3=oRdwr
  | _=>True

/-- Whatever is done with the descriptors of a file that was opened with the flags, on any back
end, only what the access mode permits succeeds. -/
def AccessKept (flags : ℕ) : Prop:=
  ∀(σ : Type) (ops : Backend σ) (s : σ) (calls : List IoOp),
    ∀r∈(trace (Family.step ops) calls (Family.opened ops flags s)).1, r.Permitted flags

theorem flags_advance (d : FileDescriptor) (n : ℕ) : (d.advance n).flags=d.flags:=by
  unfold FileDescriptor.advance
  split <;> rfl

theorem flags_seekEnd (d : FileDescriptor) (n : ℕ) : (d.seekEnd n).flags=d.flags:=by
  unfold FileDescriptor.seekEnd
  split <;> rfl

theorem read_spec (ops : Backend σ) (buf : Bool) (len : ℕ) (d : FileDescriptor) (s : σ) :
    (d.read ops buf len s).2.1.flags=d.flags ∧
    ∀bytes,(d.read ops buf len s).1 = .ok bytes→d.flags&&&vfsRead≠0:=by
  unfold FileDescriptor.read
  split_ifs with hbuf hflag
  · exact ⟨rfl,nofun⟩
  · exact ⟨rfl,nofun⟩
  · exact ⟨rfl,nofun⟩
  split
  · exact ⟨rfl,nofun⟩
  split
  · exact ⟨rfl,nofun⟩
  · exact ⟨flags_advance ..,fun _ _=>hflag⟩

theorem write_spec (ops : Backend σ) (buf : Bool) (src : List UInt8) (d : FileDescriptor) (s : σ) :
    (d.write ops buf src s).2.1.flags=d.flags ∧ ∀n,(d.write ops buf src s).1 = .ok n→d.flags&&&vfsWrite≠0:=by
  unfold FileDescriptor.write
  split_ifs with hbuf hflag
  · exact ⟨rfl,nofun⟩
  · exact ⟨rfl,nofun⟩
  · exact ⟨rfl,nofun⟩
  split
  · exact ⟨rfl,nofun⟩
  split
  · exact ⟨flags_seekEnd ..,nofun⟩
  · exact ⟨(flags_advance ..).trans (flags_seekEnd ..),fun _ _=>hflag⟩

theorem read_state (ops : Backend σ) (buf : Bool) (len : ℕ) (d : FileDescriptor) (s : σ) :
    (d.read ops buf len s).2.2=s ∨ ∃opRead,ops.read=some opRead ∧
    (d.read ops buf len s).2.2=(opRead d.offset len s).2:=by
  unfold FileDescriptor.read
  split_ifs
  · exact .inl rfl
  · exact .inl rfl
  · exact .inl rfl
  split
  · exact .inl rfl
  rename_i opRead hop
  refine .inr ⟨opRead,hop,?_⟩
  rcases opRead d.offset len s with ⟨e | bytes,s'⟩ <;> rfl

theorem write_state (ops : Backend σ) (buf : Bool) (src : List UInt8) (d : FileDescriptor) (s : σ) :
    (d.write ops buf src s).2.2=s ∨ ∃opWrite,ops.write=some opWrite ∧
    (d.write ops buf src s).2.2=(opWrite (d.seekEnd (ops.vnode s).size).offset src s).2:=by
  unfold FileDescriptor.write
  split_ifs
  · exact .inl rfl
  · exact .inl rfl
  · exact .inl rfl
  split
  · exact .inl rfl
  rename_i opWrite hop
  refine .inr ⟨opWrite,hop,?_⟩
  rcases opWrite (d.seekEnd (ops.vnode s).size).offset src s with ⟨e | n,s'⟩ <;> rfl

theorem openFlags_read (flags : ℕ) : openFlags flags&&&vfsRead≠0↔flags&&&vfsRead≠0 ∨ flags&&&3≠oWrite:=by
  unfold openFlags
  split_ifs <;> simp_all [Nat.and_or_distrib_right,vfsRead,vfsWrite,vfsAppend,oWrite,oRdwr]

theorem openFlags_write (flags : ℕ) :
    openFlags flags&&&vfsWrite≠0↔flags&&&vfsWrite≠0 ∨ flags&&&3=oWrite ∨ flags&&&3=oRdwr:=by
  unfold openFlags
  split_ifs <;> simp_all [Nat.and_or_distrib_right,vfsRead,vfsWrite,vfsAppend,oWrite,oRdwr]

/-- All descriptors have the word that `open` made. -/
def Family.Uniform (flags : ℕ) (s : Family σ) : Prop:=∀d∈s.fds,d.flags=openFlags flags

theorem Family.Uniform.set {i : ℕ} {s : Family σ} {d : FileDescriptor} (h : s.Uniform flags)
    (hd : d.flags=openFlags flags) (state : σ) : Uniform flags ⟨s.fds.set i d,state⟩:=by
  intro d' hd'
  rcases mem_or_eq_of_mem_set hd' with hd' | rfl
  · exact h d' hd'
  · exact hd

/-- The bits of the caller that stand for access agree with the mode: `O_TRUNC` is the bit for
writing, and bit 8 the one for reading. -/
def CleanFlags (flags : ℕ) : Prop:=
  (flags&&&vfsWrite≠0→flags&&&3=oWrite ∨ flags&&&3=oRdwr) ∧
    (flags&&&vfsRead≠0→flags&&&3≠oWrite)

theorem Family.Uniform.step (hclean : CleanFlags flags) (ops : Backend σ) {s : Family σ}
    (h : s.Uniform flags) (op : IoOp) :
    (Family.step ops op s).1.Permitted flags ∧ (Family.step ops op s).2.Uniform flags:=by
  cases op with
  | dup i=>
    refine ⟨trivial,fun d hd=>?_⟩
    rcases mem_append.mp hd with hd | hd
    · exact h d hd
    · exact h d (mem_of_getElem? (Option.mem_toList.mp hd))
  | read i buf len=>
    rw [Family.step]
    cases hi : s.fds[i]? with
    | none=>exact ⟨trivial,h⟩
    | some d=>
      have hd:=h d (mem_of_getElem? hi)
      obtain ⟨hkeep,hok⟩:=read_spec ops buf len d s.state
      refine ⟨?_,h.set (hkeep.trans hd) _⟩
      change IoResult.Permitted flags (.read (d.read ops buf len s.state).1)
      cases hr : (d.read ops buf len s.state).1 with
      | error e=>trivial
      | ok bytes=>
        have hbit:=(openFlags_read flags).mp (hd▸hok bytes hr)
        exact hbit.elim hclean.2 id
  | write i buf src=>
    rw [Family.step]
    cases hi : s.fds[i]? with
    | none=>exact ⟨trivial,h⟩
    | some d=>
      have hd:=h d (mem_of_getElem? hi)
      obtain ⟨hkeep,hok⟩:=write_spec ops buf src d s.state
      refine ⟨?_,h.set (hkeep.trans hd) _⟩
      change IoResult.Permitted flags (.write (d.write ops buf src s.state).1)
      cases hr : (d.write ops buf src s.state).1 with
      | error e=>trivial
      | ok n=>
        have hbit:=(openFlags_write flags).mp (hd▸hok n hr)
        exact hbit.elim hclean.1 id

def emptyFile : VNode where
  name:=[]
  type:=.file
  size:=0
  data:=none
  dataCapacity:=0
  refcount:=0
  priv:=none

theorem read_emptyFile (h : openFlags flags&&&vfsRead≠0) :
    (trace (Family.step (ramfsOps true)) [.read 0 true 0] (Family.opened (ramfsOps true) flags emptyFile)).1 =
    [.read (.ok [])]:=by
  simp [trace,Family.step,Family.opened,FileDescriptor.read,VNode.descriptor,h,ramfsOps,emptyFile,ramfsRead]

theorem write_emptyFile (h : openFlags flags&&&vfsWrite≠0) :
    (trace (Family.step (ramfsOps true)) [.write 0 true []] (Family.opened (ramfsOps true) flags emptyFile)).1 =
    [.write (.ok 0)]:=by
  simp [trace,Family.step,Family.opened,FileDescriptor.write,FileDescriptor.seekEnd,VNode.descriptor,h,ramfsOps,
    emptyFile,ramfsWrite,u64]

/-- The access mode is kept if and only if the caller sets no access bit that the mode does not
stand for. -/
theorem accessKept_iff (flags : ℕ) : AccessKept flags↔CleanFlags flags:=by
  constructor
  · intro h
    constructor
    · intro hbit
      have hrun:=write_emptyFile ((openFlags_write flags).mpr (.inl hbit))
      exact h VNode (ramfsOps true) emptyFile _ _ (hrun▸mem_singleton_self _)
    intro hbit
    have hrun:=read_emptyFile ((openFlags_read flags).mpr (.inl hbit))
    exact h VNode (ramfsOps true) emptyFile _ _ (hrun▸mem_singleton_self _)
  · intro hclean σ ops s calls
    refine trace_forall (I:=Family.Uniform flags) (fun s op h=>h.step hclean ops op) ?_ calls
    intro d hd
    rw [mem_singleton.mp hd]
    rfl

/-- A file that is opened for reading, with `O_TRUNC`, can be written. -/
theorem trunc_opens_for_writing : (trace (Family.step (ramfsOps true)) [.write 0 true [0x61]]
    (Family.opened (ramfsOps true) oTrunc emptyFile)).1=[.write (.ok 1)] ∧
    ¬IoResult.Permitted oTrunc (.write (.ok 1)):=by
  refine ⟨rfl,?_⟩
  unfold IoResult.Permitted
  decide

end Knail.Vfs
