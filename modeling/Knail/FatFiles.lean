import Knail.FatReads
import Knail.RamFiles
import Knail.TidyVolumes

/-!
# Files of a volume

The calls on a file of a FAT32 volume give the same results as those on a file of the memory file system, as long as
no write leaves a gap behind the end of the file in which the chain still has old bytes.
-/
namespace Knail.Fat32

open Vfs List

variable {m : Mount} {content src : List UInt8} {xs xs' : List ℕ} {d d' : Disk} {fn : Fat32Node} {first pos len size : ℕ}

/-- A vnode, the private data to which it points, and the disk. -/
structure FatNode where
  vnode : VNode
  fn : Fat32Node
  disk : Disk

def fatOps (m : Mount) : Backend FatNode where
  vnode:=FatNode.vnode
  read:=some fun offset len n=>(.ok (fatRead m n.vnode.size n.fn offset len n.disk),n)
  write:=some fun offset src n=>
    match fatWrite m n.vnode.size n.fn offset src n.disk with
    | (r,size,fn,disk)=>(r,⟨{n.vnode with size:=size},fn,disk⟩)

/-- A file of a volume and the descriptors that refer to it. -/
structure FatFile where
  node : FatNode
  fds : List (Option FileDescriptor)

namespace FatFile

def fd (s : FatFile) (f : ℕ) : Option FileDescriptor:=s.fds[f]?.join

def withRefcount (s : FatFile) (n : ℕ) : FatNode:={ s.node with vnode:={s.node.vnode with refcount:=n} }

def step (m : Mount) (op : FileOp) (s : FatFile) : FileResult×FatFile:=
  match op with
  | .openFile flags=>
    let v:=s.node.vnode.truncate flags
    (.opened s.fds.length,
      ⟨{ s.node with vnode:={v with refcount:=u32 (v.refcount+1)} },s.fds++[some (v.descriptor flags)]⟩)
  | .read f buf len=>
    match s.fd f with
    | none=>(.bad,s)
    | some d=>
      match d.read (fatOps m) buf len s.node with
      | (r,d,n)=>(.read r,⟨n,s.fds.set f (some d)⟩)
  | .write f buf src _=>
    match s.fd f with
    | none=>(.bad,s)
    | some d=>
      match d.write (fatOps m) buf src s.node with
      | (r,d,n)=>(.write r,⟨n,s.fds.set f (some d)⟩)
  | .seek f offset whence=>
    match s.fd f with
    | none=>(.bad,s)
    | some d=>
      match d.seek s.node.vnode offset whence with
      | (r,d)=>(.seek r,⟨s.node,s.fds.set f (some d)⟩)
  | .dup f=>
    match s.fd f with
    | none=>(.bad,s)
    | some d=>(.opened s.fds.length,⟨s.withRefcount (u32 (s.node.vnode.refcount+1)),s.fds++[some d]⟩)
  | .close f=>
    match s.fd f with
    | none=>(.bad,s)
    | some _=>(.closed,⟨s.withRefcount (u32 (4294967295+s.node.vnode.refcount)),s.fds.set f none⟩)

end FatFile

theorem byteAt_congr (hpos : 0<clusterBytes m) (h : ∀y∈xs,∀b<clusterBytes m,cell m d' y b=cell m d y b) {q : ℕ}
    (hq : q<xs.length*clusterBytes m) : byteAt m d' xs q=byteAt m d xs q:=by
  have hi:=(Nat.div_lt_iff_lt_mul hpos).mpr hq
  rw [byteAt,byteAt,getD_eq_getElem _ _ hi]
  exact h _ (getElem_mem hi) _ (Nat.mod_lt _ hpos)

/-- The entry of a file is not in the file itself. -/
def EntryApart (m : Mount) (d : Disk) (fn : Fat32Node) (xs : List ℕ) : Prop:=
  fn.hasDirent=true→∃c,table m d c≠.free ∧ c∉xs ∧ (fn.direntSector,fn.direntOffset)∈clusterSlots m c

theorem Volume.updateDirent_apart (hv : Volume m d) (hl : Linked (table m d) xs) (hroot : Rooted fn.firstCluster xs)
    (hplace : EntryApart m d fn xs) (size : ℕ) :
    Kept m d (updateDirent fn size d) ∧ table m (updateDirent fn size d)=table m d ∧
    ∀y∈xs,∀b<clusterBytes m,cell m (updateDirent fn size d) y b=cell m d y b:=by
  by_cases hd : fn.hasDirent=true
  · obtain ⟨c,hused,hnot,hslot⟩:=hplace hd
    have hc : InRange m c:=inRange_of_ne_free hused
    obtain ⟨hs,-⟩:=hv.updateDirent_eq hd (hv.geometry.direntPlace_of_mem hc hslot) (hroot.lt hv.geometry hl) size
    refine ⟨hs.kept,hs.table_eq,fun y hy b hb=>?_⟩
    have hyr : InRange m y:=inRange_of_ne_free (hl.ne_free hy)
    obtain ⟨s,hs',e,-,he⟩:=mem_clusterSlots.mp hslot
    rw [hv.geometry.clusterBytes_eq] at hb
    refine hs.data _ _ (.inl fun hsector=>?_)
    rw [he] at hsector
    obtain ⟨rfl,-⟩:=cell_sector_inj hyr.1 hc.1 (by omega) hs' hsector
    exact hnot hy
  · rw [updateDirent,if_neg hd]
    exact ⟨.refl hv.mirrored,rfl,fun _ _ _ _=>rfl⟩

/-- A file of a volume holds an array of bytes in a chain. What the chain has behind the end of the
array is left open. -/
structure Stored (m : Mount) (n : FatNode) (content : List UInt8) (xs : List ℕ) : Prop where
  volume : Volume m n.disk
  type : n.vnode.type = .file
  size : n.vnode.size=content.length
  rooted : Rooted n.fn.firstCluster xs
  linked : Linked (table m n.disk) xs
  nodup : xs.Nodup
  apart : EntryApart m n.disk n.fn xs
  room : content.length≤xs.length*clusterBytes m
  data : ∀q<content.length,byteAt m n.disk xs q=content.getD q 0

namespace Stored

variable {n : FatNode}

section

variable (h : Stored m n content xs)
include h

theorem refcount (k : ℕ) : Stored m { n with vnode:={n.vnode with refcount:=k} } content xs:=
  ⟨h.volume,h.type,h.size,h.rooted,h.linked,h.nodup,h.apart,h.room,h.data⟩

theorem truncate (flags : ℕ) :
    Stored m {n with vnode:=n.vnode.truncate flags} (if flags&&&oTrunc≠0 then [] else content) xs:=by
  unfold VNode.truncate
  by_cases hf : flags&&&oTrunc≠0
  · rw [if_pos ⟨hf,h.type⟩,if_pos hf]
    exact ⟨h.volume,h.type,rfl,h.rooted,h.linked,h.nodup,h.apart,Nat.zero_le _,nofun⟩
  · rw [if_neg (fun hc=>hf hc.1),if_neg hf]
    exact h

theorem read (offset len : ℕ) : fatRead m n.vnode.size n.fn offset len n.disk=(content.drop offset).take len:=by
  rw [fatRead,h.size]
  split
  case isTrue hle => rw [drop_eq_nil_of_le hle,take_nil]
  case isFalse hlt =>
    have hroom:=h.room
    obtain ⟨-,rfl⟩ | hhead:=h.rooted
    · rw [length_nil,Nat.zero_mul] at hroom
      omega
    obtain ⟨cs,rfl⟩:=head?_eq_some_iff.mp hhead
    rw [h.volume.chainRead_spec h.linked (by omega)]
    refine ext_getElem ?_ fun i hi hi'=>?_
    · rw [length_map,length_range,length_take,length_drop]
    · rw [length_take,length_drop] at hi'
      rw [getElem_map,getElem_range,h.data _ (by omega),getD_eq_getElem _ _ (by omega),getElem_take,getElem_drop]

/-- A write stores its bytes if there are enough clusters and the gap before them is clear. -/
theorem write (hsrc : src≠[]) (hmax : pos+src.length ≤ maxOffset)
    (hroom : pos+src.length≤(xs.length+(freeClusters m n.disk).length)*clusterBytes m)
    (hclear : ∀q<pos,content.length≤q→q<xs.length*clusterBytes m→byteAt m n.disk xs q=0) :
    ∃size fn d' xs',fatWrite m n.vnode.size n.fn pos src n.disk=(.ok src.length,size,fn,d') ∧
    Stored m ⟨{n.vnode with size:=size},fn,d'⟩ (Bytes.overwrite content pos src) xs':=by
  have hcb:=h.volume.geometry.clusterBytes_pos
  have hpos:=length_pos_of_ne_nil hsrc
  obtain ⟨r,first,d1,xs',k,he,hroot,hk,hr,hw,hstop⟩:=
    h.volume.chainWrite_spec h.rooted h.linked h.nodup hsrc pos
  -- otherwise the volume would be full, and the chain too short for the bytes
  obtain rfl : k=src.length:=by
    by_contra hne
    obtain ⟨hfull,hlen⟩:=hstop (by omega)
    have hle:=Nat.mul_le_mul_right (clusterBytes m) (hw.length_le h.linked h.nodup hfull)
    omega
  obtain rfl : r=src.length:=by omega
  rw [take_length] at hw
  have hv1:=hw.kept.volume h.volume
  have hapart : EntryApart m d1 {n.fn with firstCluster:=first} xs':=by
    intro hd
    obtain ⟨c,hused,hnot,hslot⟩:=h.apart hd
    exact ⟨c,by rwa [hw.grows.other c hnot hused],hw.grows.notMem hnot hused,hslot⟩
  have hmaxOffset : maxOffset=4611686018427387904:=rfl
  have hfin : u64 (pos+((src.length : ℕ) : ℤ).toNat)=pos+src.length:=by
    exact u64_of_lt (by omega)
  have hsize : (if n.vnode.size<pos+src.length then pos+src.length else n.vnode.size) =
      max content.length (pos+src.length):=by
    rw [h.size]
    split <;> omega
  obtain ⟨hk2,ht2,hcells⟩:=hv1.updateDirent_apart hw.grows.linked hroot hapart (max content.length (pos+src.length))
  refine ⟨max content.length (pos+src.length),{n.fn with firstCluster:=first},
    updateDirent {n.fn with firstCluster:=first} (max content.length (pos+src.length)) d1,xs',?_,?_⟩
  · simp only [fatWrite,he,hfin,hsize]
    rw [if_neg (by omega),Int.toNat_natCast]
  have hold : xs.length*clusterBytes m≤xs'.length*clusterBytes m:=by
    obtain ⟨ds,rfl,-⟩:=hw.grows.extend
    exact Nat.mul_le_mul_right _ (by simp)
  have hfits:=hw.fits hsrc
  have hroom:=h.room
  refine ⟨hk2.volume hv1,h.type,(Bytes.length_overwrite ..).symm,hroot,ht2▸hw.grows.linked,hw.grows.nodup,?_,?_,?_⟩
  · intro hd
    obtain ⟨c,hused,hnot,hslot⟩:=hapart hd
    exact ⟨c,by rwa [ht2],hnot,hslot⟩
  · rw [Bytes.length_overwrite]
    omega
  intro q hq
  rw [Bytes.length_overwrite] at hq
  rw [byteAt_congr hcb hcells (by omega),hw.bytes q (by omega),Bytes.getD_overwrite]
  by_cases hin : pos≤q ∧ q<pos+src.length
  · rw [if_pos hin,if_pos hin]
  rw [if_neg hin,if_neg hin]
  by_cases hlt : q<content.length
  · rw [if_pos (by omega),h.data q hlt]
  rw [getD_eq_default _ _ (by omega)]
  split
  case isTrue hq' => exact hclear q (by omega) (by omega) hq'
  case isFalse => rfl

end

end Stored

/-- The clusters from a number on, at most `n` of them. -/
def clustersFrom (m : Mount) (d : Disk) : ℕ→ℕ→List ℕ
  | 0, _=>[]
  | n+1, c=>if isEoc c ∨ c<2 then [] else c::clustersFrom m d n (readFat m c d)

def fileChain (m : Mount) (fn : Fat32Node) (d : Disk) : List ℕ:=clustersFrom m d m.totalClusters fn.firstCluster

theorem Volume.clustersFrom_eq (hv : Volume m d) {n x : ℕ} (hl : Linked (table m d) (x::xs)) (hn : (x::xs).length≤n) :
    clustersFrom m d n x=x::xs:=by
  induction xs generalizing n x with
  | nil=>
    obtain ⟨n,rfl⟩:=Nat.exists_eq_add_of_le hn
    have hx : InRange m x:=inRange_of_ne_free (hl.ne_free mem_cons_self)
    obtain ⟨h1,h2⟩:=isEoc_of_inRange hv.geometry hx
    have hend : clustersFrom m d n (readFat m x d)=[]:=by
      cases n with
      | zero=>rfl
      | succ n=>rw [clustersFrom,if_pos (.inl (hv.readFat_last hx hl))]
    rw [length_singleton,Nat.add_comm 1 n,clustersFrom,if_neg (by simp [h1,h2]),hend]
  | cons y ys ih=>
    obtain ⟨n,rfl⟩ : ∃k,n=k+1:=⟨n-1,by rw [length_cons] at hn; omega⟩
    have hx : InRange m x:=inRange_of_ne_free (hl.ne_free mem_cons_self)
    obtain ⟨h1,h2⟩:=isEoc_of_inRange hv.geometry hx
    rw [clustersFrom,if_neg (by simp [h1,h2]),hv.readFat_next hx hl.1,ih hl.2 (by simpa using hn)]

theorem Stored.fileChain_eq {n : FatNode} (h : Stored m n content xs) : fileChain m n.fn n.disk=xs:=by
  rw [fileChain]
  obtain ⟨hlt,rfl⟩ | hhead:=h.rooted
  · cases m.totalClusters with
    | zero=>rfl
    | succ k=>rw [clustersFrom,if_pos (.inr hlt)]
  · obtain ⟨cs,rfl⟩:=head?_eq_some_iff.mp hhead
    exact h.volume.clustersFrom_eq h.linked (chain_length_le h.linked h.nodup)

def Writes (d : FileDescriptor) (buf : Bool) : Prop:=buf=true ∧ d.flags&&&vfsWrite≠0

instance (d : FileDescriptor) (buf : Bool) : Decidable (Writes d buf):=inferInstanceAs (Decidable (_ ∧ _))

/-- There is memory for the buffer and there are clusters for the chain; something is written, at
positions that are in range. -/
def Supplied (m : Mount) : FileOp→FatFile→Prop
  | .write f buf src mem, s=>∀d∈s.fd f,Writes d buf→mem=true ∧ src≠[] ∧
      (d.seekEnd s.node.vnode.size).offset+src.length ≤ maxOffset ∧
      (d.seekEnd s.node.vnode.size).offset+src.length ≤
        ((fileChain m s.node.fn s.node.disk).length+(freeClusters m s.node.disk).length)*clusterBytes m
  | _, _=>True

/-- A write that starts behind the end of the file finds zeros in between, as far as the chain goes. -/
def GapClear (m : Mount) : FileOp→FatFile→Prop
  | .write f buf _ _, s=>∀d∈s.fd f,Writes d buf→∀q<(d.seekEnd s.node.vnode.size).offset,
      s.node.vnode.size≤q→q<(fileChain m s.node.fn s.node.disk).length*clusterBytes m →
        byteAt m s.node.disk (fileChain m s.node.fn s.node.disk) q=0
  | _, _=>True

/-- The two files hold the same bytes, and have the same descriptors. -/
structure Agree (m : Mount) (s : File) (t : FatFile) (content : List UInt8) (xs : List ℕ) : Prop where
  ram : Holds s.vnode content
  fat : Stored m t.node content xs
  fds : t.fds=s.fds

namespace Agree

variable {s : File} {t : FatFile} {f : ℕ}

section

variable (h : Agree m s t content xs)
include h

theorem fd (f : ℕ) : t.fd f=s.fd f:=by rw [FatFile.fd,h.fds,File.fd]

theorem size_eq : t.node.vnode.size=s.vnode.size:=h.fat.size.trans h.ram.size.symm

theorem openFile (flags : ℕ) : (FatFile.step m (.openFile flags) t).1=(File.step (.openFile flags) s).1 ∧ ∃content xs,
    Agree m (File.step (.openFile flags) s).2 (FatFile.step m (.openFile flags) t).2 content xs:=by
  have hram:=h.ram.truncate flags
  have hfat:=h.fat.truncate flags
  refine ⟨by simp only [FatFile.step,File.step,h.fds],_,xs,hram.refcount _,hfat.refcount _,?_⟩
  have hsize : (t.node.vnode.truncate flags).size=(s.vnode.truncate flags).size:=hfat.size.trans hram.size.symm
  simp only [FatFile.step,File.step,h.fds,VNode.descriptor,hsize]

theorem read (buf : Bool) (len : ℕ) :
    (FatFile.step m (.read f buf len) t).1=(File.step (.read f buf len) s).1 ∧ ∃content xs,
    Agree m (File.step (.read f buf len) s).2 (FatFile.step m (.read f buf len) t).2 content xs:=by
  simp only [FatFile.step,File.step,h.fd]
  cases s.fd f with
  | none=>exact ⟨rfl,content,xs,h⟩
  | some d=>
    simp only [FileDescriptor.read,fatOps,ramfsOps,id,h.ram.type,h.fat.type,h.ram.read,h.fat.read,h.fds]
    split_ifs <;> exact ⟨rfl,content,xs,h.ram,h.fat,rfl⟩

theorem write {buf mem : Bool} {src : List UInt8} (hs : Supplied m (.write f buf src mem) t)
    (hc : GapClear m (.write f buf src mem) t) :
    (FatFile.step m (.write f buf src mem) t).1=(File.step (.write f buf src mem) s).1 ∧ ∃content xs,
    Agree m (File.step (.write f buf src mem) s).2 (FatFile.step m (.write f buf src mem) t).2 content xs:=by
  simp only [Supplied,GapClear,h.fat.fileChain_eq,h.fat.size,h.fd] at hs hc
  simp only [FatFile.step,File.step,h.fd,h.fds]
  cases hfd : s.fd f with
  | none=>exact ⟨rfl,content,xs,h⟩
  | some d=>
    dsimp only
    by_cases hbuf : buf=false
    · have hfat : d.write (fatOps m) buf src t.node=(.error .invalidArgument,d,t.node):=if_pos hbuf
      have hram : d.write (ramfsOps mem) buf src s.vnode=(.error .invalidArgument,d,s.vnode):=if_pos hbuf
      rw [hfat,hram]
      exact ⟨rfl,content,xs,h.ram,h.fat,rfl⟩
    by_cases hflag : d.flags&&&vfsWrite=0
    · have hfat : d.write (fatOps m) buf src t.node=(.error .permissionDenied,d,t.node):=
        (if_neg hbuf).trans (if_pos hflag)
      have hram : d.write (ramfsOps mem) buf src s.vnode=(.error .permissionDenied,d,s.vnode):=
        (if_neg hbuf).trans (if_pos hflag)
      rw [hfat,hram]
      exact ⟨rfl,content,xs,h.ram,h.fat,rfl⟩
    have hwrites : Writes d buf:=⟨by simpa using hbuf,hflag⟩
    obtain ⟨rfl,hsrc,hmax,hroom⟩:=hs d hfd hwrites
    obtain ⟨size,fn,d',xs',hfat,hstored⟩:=h.fat.write hsrc hmax hroom (hc d hfd hwrites)
    obtain ⟨v',hram,hholds⟩ | ⟨hfalse,-⟩:=h.ram.write hmax true
    · have hfile : t.node.vnode.type≠.dir:=by simp [h.fat.type]
      rw [h.fat.size] at hfat
      have hfat : d.write (fatOps m) buf src t.node=(.ok src.length,(d.seekEnd content.length).advance src.length,
          ⟨{t.node.vnode with size:=size},fn,d'⟩):=by
        simp only [FileDescriptor.write,fatOps,hbuf,hflag,hfile,h.fat.size,hfat,Bool.true_eq_false,if_false]
      have hram : d.write (ramfsOps true) buf src s.vnode =
          (.ok src.length,(d.seekEnd content.length).advance src.length,v'):=by
        simp only [FileDescriptor.write,ramfsOps,id,hbuf,hflag,h.ram.type,h.ram.size,hram,Bool.true_eq_false,reduceCtorEq,
          if_false]
      rw [hfat,hram]
      exact ⟨rfl,_,xs',hholds,hstored,rfl⟩
    · cases hfalse

theorem seek (offset : ℤ) (whence : ℕ) :
    (FatFile.step m (.seek f offset whence) t).1=(File.step (.seek f offset whence) s).1 ∧ ∃content xs,
    Agree m (File.step (.seek f offset whence) s).2 (FatFile.step m (.seek f offset whence) t).2 content xs:=by
  simp only [FatFile.step,File.step,h.fd]
  cases s.fd f with
  | none=>exact ⟨rfl,content,xs,h⟩
  | some d=>
    simp only [FileDescriptor.seek,h.ram.type,h.fat.type,h.size_eq,h.fds]
    exact ⟨trivial,content,xs,h.ram,h.fat,rfl⟩

theorem dup : (FatFile.step m (.dup f) t).1=(File.step (.dup f) s).1 ∧ ∃content xs,
    Agree m (File.step (.dup f) s).2 (FatFile.step m (.dup f) t).2 content xs:=by
  simp only [FatFile.step,File.step,h.fd,h.fds]
  cases s.fd f with
  | none=>exact ⟨rfl,content,xs,h⟩
  | some d=>exact ⟨rfl,content,xs,h.ram.refcount _,h.fat.refcount _,rfl⟩

theorem close : (FatFile.step m (.close f) t).1=(File.step (.close f) s).1 ∧ ∃content xs,
    Agree m (File.step (.close f) s).2 (FatFile.step m (.close f) t).2 content xs:=by
  simp only [FatFile.step,File.step,h.fd,h.fds]
  cases s.fd f with
  | none=>exact ⟨rfl,content,xs,h⟩
  | some d=>exact ⟨rfl,content,xs,h.ram.refcount _,h.fat.refcount _,rfl⟩

theorem step {op : FileOp} (hs : Supplied m op t) (hc : GapClear m op t) :
    (FatFile.step m op t).1=(File.step op s).1 ∧ ∃content xs,
    Agree m (File.step op s).2 (FatFile.step m op t).2 content xs:=by
  cases op with
  | openFile flags=>exact h.openFile flags
  | read f buf len=>exact h.read buf len
  | write f buf src mem=>exact h.write hs hc
  | seek f offset whence=>exact h.seek offset whence
  | dup f=>exact h.dup
  | close f=>exact h.close

end

end Agree

/-- An empty file of a volume that is not open. Its chain may have any clusters. -/
structure FatFile.Empty (m : Mount) (t : FatFile) : Prop where
  stored : ∃xs,Stored m t.node [] xs
  fds : t.fds=[]

/-- With memory and space for every write, and gaps that are clear, the calls on a file of a volume
return what the calls on a file in memory return. -/
theorem backends_agree {t : FatFile} (ht : t.Empty m) {ops : List FileOp}
    (h : Along (FatFile.step m) (fun op t=>Supplied m op t ∧ GapClear m op t) ops t) :
    (trace (FatFile.step m) ops t).1=(trace File.step ops .new).1:=by
  obtain ⟨xs,hstored⟩:=ht.stored
  have hstart : ∃content xs,Agree m .new t content xs:=⟨[],xs,refines_new.holds,hstored,ht.fds⟩
  refine trace_eq_of_simulation (R:=fun s t=>∃content xs,Agree m s t content xs) (fun s t op hst hok=>?_) hstart h
  obtain ⟨content,xs,hagree⟩:=hst
  exact hagree.step hok.1 hok.2

instance (m : Mount) : (op : FileOp)→(s : FatFile)→Decidable (Supplied m op s)
  | .write f buf src mem, s=>inferInstanceAs (Decidable (∀d∈s.fd f,Writes d buf→mem=true ∧ src≠[] ∧
      (d.seekEnd s.node.vnode.size).offset+src.length ≤ maxOffset ∧
      (d.seekEnd s.node.vnode.size).offset+src.length ≤
        ((fileChain m s.node.fn s.node.disk).length+(freeClusters m s.node.disk).length)*clusterBytes m))
  | .openFile _, _ | .read .., _ | .seek .., _ | .dup _, _ | .close _, _=>inferInstanceAs (Decidable True)

instance (m : Mount) : (op : FileOp)→(s : FatFile)→Decidable (GapClear m op s)
  | .write f buf _ _, s=>inferInstanceAs (Decidable (∀d∈s.fd f,Writes d buf →
      ∀q<(d.seekEnd s.node.vnode.size).offset,s.node.vnode.size≤q →
        q<(fileChain m s.node.fn s.node.disk).length*clusterBytes m →
          byteAt m s.node.disk (fileChain m s.node.fn s.node.disk) q=0))
  | .openFile _, _ | .read .., _ | .seek .., _ | .dup _, _ | .close _, _=>inferInstanceAs (Decidable True)

/-- An empty file of the small volume, with the first entry of the root directory. -/
def smallFile : FatFile:=⟨⟨emptyFile,⟨0,false,3,0,true⟩,smallDisk⟩,[]⟩

theorem smallFile_empty : smallFile.Empty smallMount:=by
  refine ⟨⟨[],smallDisk_volume,rfl,rfl,.inl ⟨by decide,rfl⟩,trivial,nodup_nil,fun _=>?_,Nat.zero_le _,nofun⟩,rfl⟩
  exact ⟨2,by decide,by simp,by decide⟩

/-- A file of three bytes is truncated, and a byte is written at offset 2. -/
def staleCalls : List FileOp:=
  [.openFile oRdwr,.write 0 true [1,2,3] true,.openFile (oRdwr|||oTrunc),.seek 1 2 0,.write 1 true [9] true,
    .seek 1 0 0,.read 1 true 3]

/-- The gap is read as zeros from memory, and as the old bytes from the volume. -/
theorem truncated_bytes_return : smallFile.Empty smallMount ∧
    Along (FatFile.step smallMount) (Supplied smallMount) staleCalls smallFile ∧ (trace File.step staleCalls .new).1 =
    [.opened 0,.write (.ok 3),.opened 1,.seek (.ok 2),.write (.ok 1),.seek (.ok 0),.read (.ok [0,0,9])] ∧
    (trace (FatFile.step smallMount) staleCalls smallFile).1 =
    [.opened 0,.write (.ok 3),.opened 1,.seek (.ok 2),.write (.ok 1),.seek (.ok 0),.read (.ok [1,2,9])]:=by
  exact ⟨smallFile_empty,by decide +kernel,by decide +kernel,by decide +kernel⟩

/-- A gap over two clusters, an append and a second descriptor. -/
theorem backends_agree_small : (trace (FatFile.step smallMount)
    [.openFile oRdwr,.seek 0 600 0,.write 0 true [7,8] true,.openFile (oWrite|||oAppend),.write 1 true [9] true,
    .seek 0 599 0,.read 0 true 8,.close 1] smallFile).1 =
    (trace File.step [.openFile oRdwr,.seek 0 600 0,.write 0 true [7,8] true,.openFile (oWrite|||oAppend),
    .write 1 true [9] true,.seek 0 599 0,.read 0 true 8,.close 1] .new).1:=
  backends_agree smallFile_empty (by decide +kernel)

end Knail.Fat32
