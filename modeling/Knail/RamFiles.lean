import Knail.FileAccess
import Mathlib.Data.List.GetD

/-!
# Files of the memory file system

A file with any number of descriptors behaves like an array of bytes. The array and the positions
on it are stated in their own terms; the buffer, its capacity and the zeros behind the size are
not seen in it. `kmalloc` may fail in every write.
-/
namespace Knail.Vfs

open List Option

/-- A file and the descriptors that refer to it, by number; closed ones leave their number. -/
structure File where
  vnode : VNode
  fds : List (Option FileDescriptor)

inductive FileOp
  | openFile (flags : ℕ)
  | read (f : ℕ) (buf : Bool) (len : ℕ)
  | write (f : ℕ) (buf : Bool) (src : List UInt8) (mem : Bool)
  | seek (f : ℕ) (offset : ℤ) (whence : ℕ)
  | dup (f : ℕ)
  | close (f : ℕ)

inductive FileResult
  | opened (f : ℕ)
  | read (r : Except KError (List UInt8))
  | write (r : Except KError ℕ)
  | seek (r : Except KError ℤ)
  | closed
  /-- There is no such descriptor. -/
  | bad
  deriving DecidableEq

namespace File

def new : File:=⟨emptyFile,[]⟩

def fd (s : File) (f : ℕ) : Option FileDescriptor:=s.fds[f]?.join

def step (op : FileOp) (s : File) : FileResult×File:=
  match op with
  | .openFile flags=>
    let v:=s.vnode.truncate flags
    (.opened s.fds.length,⟨{v with refcount:=u32 (v.refcount+1)},s.fds++[some (v.descriptor flags)]⟩)
  | .read f buf len=>
    match s.fd f with
    | none=>(.bad,s)
    | some d=>
      match d.read (ramfsOps true) buf len s.vnode with
      | (r,d,v)=>(.read r,⟨v,s.fds.set f (some d)⟩)
  | .write f buf src mem=>
    match s.fd f with
    | none=>(.bad,s)
    | some d=>
      match d.write (ramfsOps mem) buf src s.vnode with
      | (r,d,v)=>(.write r,⟨v,s.fds.set f (some d)⟩)
  | .seek f offset whence=>
    match s.fd f with
    | none=>(.bad,s)
    | some d=>
      match d.seek s.vnode offset whence with
      | (r,d)=>(.seek r,⟨s.vnode,s.fds.set f (some d)⟩)
  | .dup f=>
    match s.fd f with
    | none=>(.bad,s)
    | some d=>(.opened s.fds.length,⟨{s.vnode with refcount:=u32 (s.vnode.refcount+1)},s.fds++[some d]⟩)
  | .close f=>
    match s.fd f with
    | none=>(.bad,s)
    | some _=>(.closed,⟨{s.vnode with refcount:=u32 (4294967295+s.vnode.refcount)},s.fds.set f none⟩)

end File

/-- A position in an array of bytes, with what may be done there. -/
structure Handle where
  pos : ℕ
  readable : Bool
  writable : Bool
  append : Bool
  deriving DecidableEq

structure Bytes where
  content : List UInt8
  handles : List (Option Handle)

namespace Bytes

def new : Bytes:=⟨[],[]⟩

def handle (a : Bytes) (f : ℕ) : Option Handle:=a.handles[f]?.join

def setHandle (a : Bytes) (f : ℕ) (h : Handle) : Bytes:={a with handles:=a.handles.set f (some h)}

/-- Store bytes at a position; what is left out below it reads as zero. -/
def overwrite (content : List UInt8) (o : ℕ) (src : List UInt8) : List UInt8:=
  (List.range (max content.length (o+src.length))).map fun i=>
    if o ≤ i ∧ i<o+src.length then src.getD (i-o) 0 else content.getD i 0

def seekBase (a : Bytes) (h : Handle) (whence : ℕ) : Option ℤ:=
  if whence=0 then some 0 else if whence=1 then some h.pos else if whence=2 then some a.content.length else none

def openHandle (flags size : ℕ) : Handle where
  pos:=if flags&&&oAppend≠0 then size else 0
  readable:=openFlags flags&&&vfsRead≠0
  writable:=openFlags flags&&&vfsWrite≠0
  append:=flags&&&oAppend≠0

def writePos (a : Bytes) (h : Handle) : ℕ:=if h.append then a.content.length else h.pos

/-- What the operations do to an array of bytes. A write may also run out of memory, if `kmalloc`
fails; then it changes nothing. -/
def Spec : FileOp→Bytes→FileResult→Bytes→Prop
  | .openFile flags, a, r, a'=>
    let content:=if flags&&&oTrunc≠0 then [] else a.content
    r = .opened a.handles.length ∧ a'=⟨content,a.handles++[some (openHandle flags content.length)]⟩
  | .read f buf len, a, r, a'=>
    match a.handle f with
    | none=>r = .bad ∧ a'=a
    | some h=>
      if buf=false then r = .read (.error .invalidArgument) ∧ a'=a
      else if h.readable=false then r = .read (.error .permissionDenied) ∧ a'=a
      else
        let bytes:=(a.content.drop h.pos).take len
        r = .read (.ok bytes) ∧ a'=a.setHandle f {h with pos:=h.pos+bytes.length}
  | .write f buf src mem, a, r, a'=>
    match a.handle f with
    | none=>r = .bad ∧ a'=a
    | some h=>
      if buf=false then r = .write (.error .invalidArgument) ∧ a'=a
      else if h.writable=false then r = .write (.error .permissionDenied) ∧ a'=a
      else
        r = .write (.ok src.length) ∧
            a'={ a.setHandle f {h with pos:=a.writePos h+src.length} with
                   content:=overwrite a.content (a.writePos h) src } ∨
          mem=false ∧ r = .write (.error .outOfMemory) ∧ a'=a
  | .seek f offset whence, a, r, a'=>
    match a.handle f with
    | none=>r = .bad ∧ a'=a
    | some h=>
      match a.seekBase h whence with
      | none=>r = .seek (.error .invalidArgument) ∧ a'=a
      | some base=>
        if base+offset<0 then r = .seek (.error .invalidArgument) ∧ a'=a
        else r = .seek (.ok (base+offset)) ∧ a'=a.setHandle f {h with pos:=(base+offset).toNat}
  | .dup f, a, r, a'=>
    match a.handle f with
    | none=>r = .bad ∧ a'=a
    | some h=>r = .opened a.handles.length ∧ a'={a with handles:=a.handles++[some h]}
  | .close f, a, r, a'=>
    match a.handle f with
    | none=>r = .bad ∧ a'=a
    | some _=>r = .closed ∧ a'={a with handles:=a.handles.set f none}

theorem length_overwrite (content : List UInt8) (o : ℕ) (src : List UInt8) :
    (overwrite content o src).length=max content.length (o+src.length):=by
  simp [overwrite]

theorem getD_overwrite (content : List UInt8) (o : ℕ) (src : List UInt8) (i : ℕ) : (overwrite content o src).getD i 0 =
    if o ≤ i ∧ i<o+src.length then src.getD (i-o) 0 else content.getD i 0:=by
  by_cases hi : i < max content.length (o+src.length)
  · rw [getD_eq_getElem _ _ (by rwa [length_overwrite])]
    simp [overwrite]
  · rw [getD_eq_default _ _ (by rw [length_overwrite]; omega),if_neg (by omega),getD_eq_default _ _ (by omega)]

end Bytes

/-- A vnode holds an array of bytes: below the size its buffer has them, and zeros behind. -/
structure Holds (v : VNode) (content : List UInt8) : Prop where
  type : v.type = .file
  size : v.size=content.length
  capacity : v.size≤v.dataCapacity
  unallocated : v.data=none→v.dataCapacity=0
  data : ∀i,(v.data.getD fun _=>0) i=content.getD i 0

namespace Holds

variable {v : VNode} {content src : List UInt8} {offset len : ℕ}

section

variable (h : Holds v content)
include h

theorem refcount (n : ℕ) : Holds {v with refcount:=n} content:=
  ⟨h.type,h.size,h.capacity,h.unallocated,h.data⟩

theorem truncate (flags : ℕ) : Holds (v.truncate flags) (if flags&&&oTrunc≠0 then [] else content):=by
  unfold VNode.truncate
  by_cases hf : flags&&&oTrunc≠0
  · rw [if_pos ⟨hf,h.type⟩,if_pos hf]
    exact ⟨h.type,rfl,Nat.le_refl _,fun _=>rfl,fun _=>rfl⟩
  · rw [if_neg (fun hc=>hf hc.1),if_neg hf]
    exact h

theorem read (offset len : ℕ) : ramfsRead offset len v=(.ok ((content.drop offset).take len),v):=by
  have hsize:=h.size
  have hcap:=h.capacity
  unfold ramfsRead
  cases hd : v.data with
  | none=>
    have:=h.unallocated hd
    have hnil : content=[]:=length_eq_zero_iff.mp (by omega)
    simp [hnil]
  | some data=>
    dsimp only
    split
    case isTrue hle => rw [drop_eq_nil_of_le (by omega),take_nil]
    case isFalse hlt =>
      congr 2
      refine ext_getElem ?_ fun i hi hi'=>?_
      · rw [length_map,length_range,length_take,length_drop]
        split <;> omega
      rw [length_take,length_drop] at hi'
      have hbyte:=h.data (offset+i)
      rw [hd,getD_some,getD_eq_getElem _ _ (by omega)] at hbyte
      simpa using hbyte

theorem regrow {stop : ℕ} (hstop : stop≤4611686018427387904) (hlt : v.dataCapacity<stop) :
    Holds (v.regrow stop) content ∧ stop≤(v.regrow stop).dataCapacity:=by
  have hcap:=h.capacity
  have hle : stop≤(v.regrow stop).dataCapacity:=by
    unfold VNode.regrow
    dsimp only
    rw [u64_of_lt (by omega)]
    split <;> omega
  refine ⟨⟨h.type,h.size,?_,nofun,fun i=>?_⟩,hle⟩
  · exact Nat.le_trans hcap (Nat.le_trans (Nat.le_of_lt hlt) hle)
  simp only [VNode.regrow,getD_some]
  split
  case isTrue => exact h.data i
  case isFalse hi => rw [getD_eq_default _ _ (by have:=h.size; omega)]

theorem store (hroom : offset+src.length≤v.dataCapacity) :
    Holds (v.store offset (offset+src.length) src) (Bytes.overwrite content offset src):=by
  have hsize:=h.size
  refine ⟨h.type,?_,?_,fun hd=>h.unallocated (by simpa [VNode.store] using hd),fun i=>?_⟩
  · rw [Bytes.length_overwrite,VNode.store]
    dsimp only
    split <;> omega
  · have:=h.capacity
    rw [VNode.store]
    split <;> omega
  · rw [Bytes.getD_overwrite,←h.data i,VNode.store]
    dsimp only
    cases hd : v.data with
    | some data=>rfl
    | none=>
      have:=h.unallocated hd
      rw [if_neg (by omega)]
      rfl

theorem write (hstop : offset+src.length≤4611686018427387904) (mem : Bool) :
    (∃v',ramfsWrite mem offset src v=(.ok src.length,v') ∧ Holds v' (Bytes.overwrite content offset src)) ∨
    mem=false ∧ v.dataCapacity<offset+src.length ∧ ramfsWrite mem offset src v=(.error .outOfMemory,v):=by
  unfold ramfsWrite
  rw [u64_of_lt (by omega)]
  by_cases hlt : v.dataCapacity<offset+src.length
  · rw [if_pos hlt]
    cases mem with
    | true=>
      obtain ⟨hgrown,hroom⟩:=h.regrow hstop hlt
      exact .inl ⟨_,rfl,hgrown.store hroom⟩
    | false=>exact .inr ⟨rfl,hlt,rfl⟩
  · rw [if_neg hlt]
    exact .inl ⟨_,rfl,h.store (by omega)⟩

end

end Holds

def maxOffset : ℕ:=4611686018427387904

def FileDescriptor.seekBase (d : FileDescriptor) (v : VNode) (whence : ℕ) : ℕ:=
  if whence=1 then d.offset else if whence=2 then v.size else 0

/-- The calls stay below the largest position, and the offset of a seek is a signed 64-bit number. -/
def FileOp.InRange : FileOp→File→Prop
  | .read f _ len, s=>∀d∈s.fd f,d.offset+len ≤ maxOffset
  | .write f _ src _, s=>∀d∈s.fd f,(d.seekEnd s.vnode.size).offset+src.length ≤ maxOffset
  | .seek f offset whence, s=>-9223372036854775808≤offset ∧
    ∀d∈s.fd f,whence≤2→d.seekBase s.vnode whence+offset ≤ maxOffset
  | _, _=>True

/-- A write through an appending descriptor that runs out of memory finds it at the end of the file. -/
def FileOp.AtEnd : FileOp→File→Prop
  | .write f buf src mem, s=>∀d∈s.fd f,buf=true→mem=false→d.flags&&&vfsWrite≠0 →
    d.flags&&&vfsAppend≠0→s.vnode.dataCapacity<s.vnode.size+src.length→d.offset=s.vnode.size
  | _, _=>True

instance : (op : FileOp)→(s : File)→Decidable (op.InRange s)
  | .read f _ len, s=>inferInstanceAs (Decidable (∀d∈s.fd f,d.offset+len ≤ maxOffset))
  | .write f _ src _, s=>
    inferInstanceAs (Decidable (∀d∈s.fd f,(d.seekEnd s.vnode.size).offset+src.length ≤ maxOffset))
  | .seek .., _=>inferInstanceAs (Decidable (_ ∧ _))
  | .openFile _, _ | .dup _, _ | .close _, _=>inferInstanceAs (Decidable True)

instance : (op : FileOp)→(s : File)→Decidable (op.AtEnd s)
  | .write f buf src mem, s=>
    inferInstanceAs (Decidable (∀d∈s.fd f,buf=true→mem=false→d.flags&&&vfsWrite≠0 →
      d.flags&&&vfsAppend≠0→s.vnode.dataCapacity<s.vnode.size+src.length→d.offset=s.vnode.size))
  | .openFile _, _ | .read .., _ | .seek .., _ | .dup _, _ | .close _, _=>inferInstanceAs (Decidable True)

def FileDescriptor.handle (d : FileDescriptor) : Handle where
  pos:=d.offset
  readable:=d.flags&&&vfsRead≠0
  writable:=d.flags&&&vfsWrite≠0
  append:=d.flags&&&vfsAppend≠0

theorem openFlags_append (flags : ℕ) : openFlags flags&&&vfsAppend≠0↔flags&&&oAppend≠0:=by
  unfold openFlags
  split_ifs <;> simp_all [Nat.and_or_distrib_right,vfsRead,vfsWrite,vfsAppend,oAppend]

theorem handle_descriptor (v : VNode) (flags : ℕ) : (v.descriptor flags).handle=Bytes.openHandle flags v.size:=by
  simp only [FileDescriptor.handle,VNode.descriptor,Bytes.openHandle,openFlags_append]

theorem toI64_of_lt {n : ℕ} (h : n<9223372036854775808) : toI64 n=n:=by
  unfold toI64
  rw [u64_of_lt (by omega),if_pos h]

theorem toI64_emod {z : ℤ} (hlow : -9223372036854775808≤z) (hhigh : z<9223372036854775808) :
    toI64 (z%18446744073709551616).toNat=z:=by
  unfold toI64 u64
  split <;> omega

theorem advance_eq {d : FileDescriptor} {n : ℕ} (h : d.offset+n ≤ maxOffset) :
    d.advance n={d with offset:=d.offset+n}:=by
  have hmax : maxOffset=4611686018427387904:=rfl
  unfold FileDescriptor.advance
  rw [toI64_of_lt (by omega),u64_of_lt (by omega)]
  split
  · rfl
  · obtain rfl : n=0:=by omega
    rfl

section

variable {v : VNode} {content : List UInt8} {d : FileDescriptor} {mem buf : Bool}

theorem read_ramfs (h : Holds v content) (hr : d.offset+len ≤ maxOffset) : d.read (ramfsOps mem) buf len v =
    if buf=false then (.error .invalidArgument,d,v)
    else if d.handle.readable=false then (.error .permissionDenied,d,v) else (.ok ((content.drop d.offset).take len),
    {d with offset:=d.offset+((content.drop d.offset).take len).length},v):=by
  have hlen : ((content.drop d.offset).take len).length≤len:=length_take_le ..
  have hbit : d.flags&&&vfsRead=0↔d.handle.readable=false:=by simp [FileDescriptor.handle]
  rw [FileDescriptor.read]
  simp only [hbit,ramfsOps,id,h.type,reduceCtorEq,if_false,h.read]
  rw [advance_eq (by omega)]

theorem write_ramfs (h : Holds v content) {src : List UInt8}
    (hr : (d.seekEnd v.size).offset+src.length ≤ maxOffset) (hbuf : buf=true) (hbit : d.handle.writable=true) :
    (∃v',d.write (ramfsOps mem) buf src v =
    (.ok src.length,{d with offset:=(d.seekEnd v.size).offset+src.length},v') ∧
        Holds v' (Bytes.overwrite content (d.seekEnd v.size).offset src)) ∨
      mem=false ∧ v.dataCapacity<(d.seekEnd v.size).offset+src.length ∧
        d.write (ramfsOps mem) buf src v=(.error .outOfMemory,d.seekEnd v.size,v):=by
  have hflag : d.flags&&&vfsWrite≠0:=by simpa [FileDescriptor.handle] using hbit
  rw [FileDescriptor.write]
  simp only [hbuf,hflag,ramfsOps,id,h.type,reduceCtorEq,Bool.true_eq_false,if_false]
  rcases h.write hr mem with ⟨v',he,hv'⟩ | ⟨hmem,hlt,he⟩
  · refine .inl ⟨v',?_,hv'⟩
    rw [he]
    dsimp only
    rw [advance_eq hr]
    unfold FileDescriptor.seekEnd
    split <;> rfl
  · refine .inr ⟨hmem,hlt,?_⟩
    rw [he]

end

/-- The file is the array of bytes, and every descriptor is its handle. -/
structure Refines (s : File) (a : Bytes) : Prop where
  holds : Holds s.vnode a.content
  handles : a.handles=s.fds.map (Option.map FileDescriptor.handle)
  size : s.vnode.size ≤ maxOffset
  offset : ∀d,some d∈s.fds→d.offset ≤ maxOffset

theorem File.mem_of_fd {s : File} {f : ℕ} {d : FileDescriptor} (h : s.fd f=some d) : some d∈s.fds:=
  mem_of_getElem? (join_eq_some_iff.mp h)

namespace Refines

variable {s : File} {a : Bytes} {f : ℕ} {d : FileDescriptor}

section

variable (h : Refines s a)
include h

theorem handle (f : ℕ) : a.handle f=(s.fd f).map FileDescriptor.handle:=by
  rw [Bytes.handle,h.handles,getElem?_map,File.fd]
  cases s.fds[f]? with
  | none=>rfl
  | some d=>rfl

theorem set (hv : Holds v content) (hsize : v.size ≤ maxOffset)
    {d : Option FileDescriptor} (hd : ∀e,some e=d→e.offset ≤ maxOffset) (f : ℕ) :
    Refines ⟨v,s.fds.set f d⟩ ⟨content,a.handles.set f (d.map FileDescriptor.handle)⟩:=by
  refine ⟨hv,?_,hsize,fun e he=>?_⟩
  · rw [h.handles,map_set]
  · exact (mem_or_eq_of_mem_set he).elim (h.offset e) (hd e)

theorem append (hv : Holds v content) (hsize : v.size ≤ maxOffset)
    (hd : d.offset ≤ maxOffset) : Refines ⟨v,s.fds++[some d]⟩ ⟨content,a.handles++[some d.handle]⟩:=by
  refine ⟨hv,?_,hsize,fun e he=>?_⟩
  · rw [h.handles,map_append]
    rfl
  rcases mem_append.mp he with he | he
  · exact h.offset e he
  · cases mem_singleton.mp he
    exact hd

theorem length_handles : a.handles.length=s.fds.length:=by
  rw [h.handles,length_map]

theorem openFile (flags : ℕ) : ∃a',Bytes.Spec (.openFile flags) a (File.step (.openFile flags) s).1 a' ∧
    Refines (File.step (.openFile flags) s).2 a':=by
  have hv:=h.holds.truncate flags
  have hsize : (s.vnode.truncate flags).size ≤ maxOffset:=by
    have:=h.size
    unfold VNode.truncate
    split
    · exact Nat.zero_le _
    · exact this
  refine ⟨_,⟨congrArg _ h.length_handles.symm,rfl⟩,?_⟩
  rw [←hv.size,←handle_descriptor]
  refine h.append (hv.refcount _) hsize ?_
  rw [VNode.descriptor]
  split
  · exact hsize
  · exact Nat.zero_le _

theorem keep (hfd : s.fd f=some d) : Refines ⟨s.vnode,s.fds.set f (some d)⟩ a:=by
  have hget:=join_eq_some_iff.mp hfd
  obtain ⟨hlt,hval⟩:=List.getElem?_eq_some_iff.mp hget
  rw [←hval,List.set_getElem_self]
  exact h

theorem of_error (hfd : s.fd f=some d) {r r' : FileResult} (hr : r=r') :
    ∃a',(r=r' ∧ a'=a) ∧ Refines ⟨s.vnode,s.fds.set f (some d)⟩ a':=
  ⟨a,⟨hr,rfl⟩,h.keep hfd⟩

theorem read (hr : (FileOp.read f buf len).InRange s) :
    ∃a',Bytes.Spec (.read f buf len) a (File.step (.read f buf len) s).1 a' ∧
    Refines (File.step (.read f buf len) s).2 a':=by
  cases hfd : s.fd f with
  | none=>exact ⟨a,by simp [Bytes.Spec,File.step,h.handle,hfd],by simpa [File.step,hfd] using h⟩
  | some d=>
    have hrange:=hr d hfd
    simp only [Bytes.Spec,File.step,h.handle,hfd,map_some,read_ramfs h.holds hrange]
    split_ifs
    · exact h.of_error hfd rfl
    · exact h.of_error hfd rfl
    refine ⟨_,⟨rfl,rfl⟩,h.set h.holds h.size (fun e he=>?_) f⟩
    cases he
    have:=length_take_le len (a.content.drop d.offset)
    dsimp only
    omega

theorem write {src : List UInt8} (hr : (FileOp.write f buf src mem).InRange s)
    (hend : (FileOp.write f buf src mem).AtEnd s) :
    ∃a',Bytes.Spec (.write f buf src mem) a (File.step (.write f buf src mem) s).1 a' ∧
    Refines (File.step (.write f buf src mem) s).2 a':=by
  cases hfd : s.fd f with
  | none=>exact ⟨a,by simp [Bytes.Spec,File.step,h.handle,hfd],by simpa [File.step,hfd] using h⟩
  | some d=>
    have hrange:=hr d hfd
    simp only [Bytes.Spec,File.step,h.handle,hfd,map_some]
    split_ifs with hbuf hbit
    · have he : d.write (ramfsOps mem) buf src s.vnode=(.error .invalidArgument,d,s.vnode):=if_pos hbuf
      rw [he]
      exact h.of_error hfd rfl
    · have hflag : d.flags&&&vfsWrite=0:=by simpa [FileDescriptor.handle] using hbit
      have he : d.write (ramfsOps mem) buf src s.vnode=(.error .permissionDenied,d,s.vnode):=
        (if_neg hbuf).trans (if_pos hflag)
      rw [he]
      exact h.of_error hfd rfl
    · have hpos : a.writePos d.handle=(d.seekEnd s.vnode.size).offset:=by
        by_cases happ : d.flags&&&vfsAppend=0 <;>
          simp [Bytes.writePos,FileDescriptor.handle,FileDescriptor.seekEnd,happ,h.holds.size]
      rcases @write_ramfs s.vnode a.content d mem buf h.holds src hrange (by simpa using hbuf) (by simpa using hbit) with
        ⟨v',he,hv'⟩ | ⟨hmem,hlt,he⟩
      · rw [he,hpos]
        refine ⟨_,.inl ⟨rfl,rfl⟩,h.set hv' ?_ (fun e he=>?_) f⟩
        · rw [hv'.size,Bytes.length_overwrite,←h.holds.size]
          exact Nat.max_le.mpr ⟨h.size,hrange⟩
        · cases he
          exact hrange
      · have hkeep : d.seekEnd s.vnode.size=d:=by
          unfold FileDescriptor.seekEnd at hlt ⊢
          by_cases happ : d.flags&&&vfsAppend=0
          · rw [if_neg (not_not_intro happ)]
          rw [if_pos happ] at hlt ⊢
          have hflag : d.flags&&&vfsWrite≠0:=by simpa [FileDescriptor.handle] using hbit
          rw [←hend d hfd (by simpa using hbuf) hmem hflag happ hlt]
        rw [he,hkeep]
        exact ⟨a,.inr ⟨hmem,rfl,rfl⟩,h.keep hfd⟩

theorem seek {offset : ℤ} {whence : ℕ} (hr : (FileOp.seek f offset whence).InRange s) :
    ∃a',Bytes.Spec (.seek f offset whence) a (File.step (.seek f offset whence) s).1 a' ∧
    Refines (File.step (.seek f offset whence) s).2 a':=by
  cases hfd : s.fd f with
  | none=>exact ⟨a,by simp [Bytes.Spec,File.step,h.handle,hfd],by simpa [File.step,hfd] using h⟩
  | some d=>
    obtain ⟨hlow,hr⟩:=hr
    have hmax : maxOffset=4611686018427387904:=rfl
    have hoff:=h.offset d (File.mem_of_fd hfd)
    have hsize:=h.size
    simp only [Bytes.Spec,File.step,h.handle,hfd,map_some]
    have hbase : a.seekBase d.handle whence =
        if whence=0 then some 0 else if whence=1 then some (toI64 d.offset)
        else if whence=2 then some (toI64 s.vnode.size) else none:=by
      rw [Bytes.seekBase,toI64_of_lt (by omega),toI64_of_lt (by omega),h.holds.size]
      rfl
    simp only [FileDescriptor.seek,h.holds.type,reduceCtorEq,if_false,←hbase]
    cases hb : a.seekBase d.handle whence with
    | none=>exact h.of_error hfd rfl
    | some base=>
      obtain ⟨hwhence,hval⟩ : whence≤2 ∧ base=d.seekBase s.vnode whence:=by
        unfold Bytes.seekBase at hb
        unfold FileDescriptor.seekBase
        split_ifs at hb ⊢ <;> cases hb <;> first | omega | simp_all [FileDescriptor.handle,h.holds.size]
      have hhigh:=hr d hfd hwhence
      dsimp only
      rw [toI64_emod (by omega) (by omega)]
      split
      · exact h.of_error hfd rfl
      refine ⟨_,⟨rfl,rfl⟩,h.set h.holds h.size (fun e he=>?_) f⟩
      cases he
      dsimp only
      omega

theorem dup : ∃a',Bytes.Spec (.dup f) a (File.step (.dup f) s).1 a' ∧ Refines (File.step (.dup f) s).2 a':=by
  cases hfd : s.fd f with
  | none=>exact ⟨a,by simp [Bytes.Spec,File.step,h.handle,hfd],by simpa [File.step,hfd] using h⟩
  | some d=>
    simp only [Bytes.Spec,File.step,h.handle,hfd,map_some]
    exact ⟨_,⟨congrArg _ h.length_handles.symm,rfl⟩,
      h.append (h.holds.refcount _) h.size (h.offset d (File.mem_of_fd hfd))⟩

theorem close :
    ∃a',Bytes.Spec (.close f) a (File.step (.close f) s).1 a' ∧ Refines (File.step (.close f) s).2 a':=by
  cases hfd : s.fd f with
  | none=>exact ⟨a,by simp [Bytes.Spec,File.step,h.handle,hfd],by simpa [File.step,hfd] using h⟩
  | some d=>
    simp only [Bytes.Spec,File.step,h.handle,hfd,map_some]
    exact ⟨_,⟨trivial,rfl⟩,h.set (d:=none) (h.holds.refcount (u32 (4294967295+s.vnode.refcount))) h.size nofun f⟩

theorem step {op : FileOp} (hr : op.InRange s) (hend : op.AtEnd s) :
    ∃a',Bytes.Spec op a (File.step op s).1 a' ∧ Refines (File.step op s).2 a':=by
  cases op with
  | openFile flags=>exact h.openFile flags
  | read f buf len=>exact h.read hr
  | write f buf src mem=>exact h.write hr hend
  | seek f offset whence=>exact h.seek hr
  | dup f=>exact h.dup
  | close f=>exact h.close

end

end Refines

theorem refines_new : Refines .new .new where
  holds:=⟨rfl,rfl,Nat.le_refl _,fun _=>rfl,fun _=>rfl⟩
  handles:=rfl
  size:=Nat.zero_le _
  offset:=nofun

/-- As long as no append runs out of memory away from the end of the file, the results are those
of an array of bytes, the size is at most the capacity, and the bytes behind the size are zero. -/
theorem ramfs_array_of_bytes {ops : List FileOp}
    (h : Along File.step (fun op s=>op.InRange s ∧ op.AtEnd s) ops .new) :
    ∃a,Allowed Bytes.Spec ops .new (trace File.step ops .new).1 a ∧
    (trace File.step ops .new).2.vnode.size=a.content.length ∧
    (trace File.step ops .new).2.vnode.size≤(trace File.step ops .new).2.vnode.dataCapacity ∧
    ∀data∈(trace File.step ops .new).2.vnode.data,∀i,(trace File.step ops .new).2.vnode.size ≤ i→data i=0:=by
  obtain ⟨a,hall,href⟩:=Allowed.of_simulation (fun s t op hR hok=>hR.step hok.1 hok.2) refines_new h
  refine ⟨a,hall,href.holds.size,href.holds.capacity,fun data hdata i hi=>?_⟩
  have hbyte:=href.holds.data i
  rw [hdata,getD_some,getD_eq_default _ _ (href.holds.size▸hi)] at hbyte
  exact hbyte

/-- A hole, an append that runs out of memory at the end, a second descriptor and a truncation. -/
def fileCalls : List FileOp:=
  [.openFile (oRdwr|||oAppend),.write 0 true [0x61] true,.write 0 true (.replicate 64 0x62) false,.openFile oRdwr,
    .seek 1 3 0,.write 1 true [0x63] true,.seek 1 0 0,.read 1 true 8,.openFile oTrunc,.read 1 true 8]

theorem ramfs_array_of_bytes_calls : ∃a,Allowed Bytes.Spec fileCalls .new
    [.opened 0,.write (.ok 1),.write (.error .outOfMemory),.opened 1,.seek (.ok 3),.write (.ok 1),.seek (.ok 0),
    .read (.ok [0x61,0,0,0x63]),.opened 2,.read (.ok [])] a:=by
  obtain ⟨a,hall,-⟩:=@ramfs_array_of_bytes fileCalls (by decide +kernel)
  exact ⟨a,hall⟩

/-- A file of one byte is read from its start through an appending descriptor. A write that runs
out of memory in between has moved the position to the end. -/
def appendCalls : List FileOp:=
  [.openFile (oRdwr|||oAppend),.write 0 true [0x61] true,.seek 0 0 0,.write 0 true (.replicate 64 0x62) false,
    .read 0 true 1]

theorem failed_append_moves : Along File.step FileOp.InRange appendCalls .new ∧
    ¬ ∃a,Allowed Bytes.Spec appendCalls .new (trace File.step appendCalls .new).1 a:=by
  refine ⟨by decide +kernel,?_⟩
  rintro ⟨a,h⟩
  cases h with | cons h₁ h =>
  cases h with | cons h₂ h =>
  cases h with | cons h₃ h =>
  cases h with | cons h₄ h =>
  cases h with | cons h₅ h =>
  obtain ⟨-,rfl⟩:=h₁
  obtain ⟨-,rfl⟩ | ⟨-,hne,-⟩:=h₂
  · obtain ⟨-,rfl⟩:=h₃
    obtain ⟨hne,-⟩ | ⟨-,-,rfl⟩:=h₄
    · cases hne
    · obtain ⟨hne,-⟩:=h₅
      cases hne
  · cases hne

end Knail.Vfs
