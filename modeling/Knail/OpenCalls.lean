import Knail.CreatedNames
import Knail.DescriptorReplacement
import Knail.DirectoryTree
import Knail.FatReads

/-!
# `open` calls that fail

A path is searched, a vnode may be created or a file truncated, and only then a descriptor is allocated and a slot
looked for. When the call returns an error, what it has done is undone exactly if nothing was created and no byte was
cut off.
-/
namespace Knail.OpenCall

open Function Vfs Descriptors Directory Fat32 List Option

/-- The tree of names, the vnodes with the descriptors and the tables, and the disk that is mounted. -/
structure System where
  fs : Fs
  world : World
  disk : Disk

/-- What `kmalloc` returns in the course of a call: for a vnode, for the part of it that belongs to the FAT
driver, and for the descriptor. -/
structure Memory where
  vnode : Option ℕ
  priv : Bool
  fd : Option ℕ

/-- The vnode that `create_internal` makes for the memory file system. -/
def ramNode (name : List UInt8) (type : VType) : Node where
  vnode:={ name:=kstrcpy nameSize name,type:=type,size:=0,data:=none,dataCapacity:=0,refcount:=0,
             priv:=none }
  ops:=some .ramfs
  pipe:=none

namespace System

variable (m : Mount) {name : List UInt8} {alloc : Bool×Bool} {r : Option VNode}

/-- The directory belongs to the FAT driver, which has an operation of its own for new names. -/
def fatDir (s : System) (dir : ℕ) : Option Fat32Node:=
  match s.world.store.nodes dir with
  | none=>none
  | some v=>if v.ops=some .fat32 then v.vnode.priv else none

def adopt (s : System) (dir child : ℕ) (v : Node) : System:=
  { s with
    fs:=s.fs.addChild dir child v.vnode.name v.vnode.type
    world:=s.world.setStore {s.world.store with nodes:=update s.world.store.nodes child (some v)} }

/-- The end of `create_internal`. There is no result if the FAT driver does not come back from a search. -/
def createChild (type : VType) (mem : Memory) (dir : ℕ) (leaf : List UInt8) (s : System) : Option (Option ℕ×System):=
  match s.fatDir dir with
  | some dfn=>
    match fatCreate m dfn leaf type (mem.vnode.isSome,mem.priv) s.disk, mem.vnode with
    | none, _=>none
    | some (some v,d), some child=>some (some child,{s with disk:=d}.adopt dir child ⟨v,some .fat32,none⟩)
    | some (_,d), _=>some (none,{s with disk:=d})
  | none=>
    match mem.vnode with
    | none=>some (none,s)
    | some child=>some (some child,s.adopt dir child (ramNode leaf type))

def createInternal (cwd : Option ℕ) (path : List UInt8) (type : VType) (mem : Memory) (s : System) :
    Option (Option ℕ×System):=
  match s.fs.resolveParent cwd path with
  | (none,_)=>some (none,s)
  | (some dir,leaf)=>
    if (s.fs.node dir).type≠.dir then some (none,s)
    else if (s.fs.findChild dir leaf).isSome then some (none,s)
    else s.createChild m type mem dir leaf

/-- The rest of `vfs::open` once there is a vnode. -/
def openNode (n flags : ℕ) (fd : Option ℕ) (s : System) : Except KError ℕ×System:=
  match s.world.store.openNode n flags fd with
  | (.error e,st)=>(.error e,{s with world:=s.world.setStore st})
  | (.ok f,st)=>(.ok f,{s with fs:=s.fs.addRef n,world:=s.world.setStore st})

def vfsOpen (cwd : Option ℕ) (path : List UInt8) (flags : ℕ) (mem : Memory) (s : System) :
    Option (Except KError ℕ×System):=
  match s.fs.resolveInternal cwd path with
  | some n=>some (s.openNode n flags mem.fd)
  | none=>
    if flags&&&oCreate=0 then some (.error .notFound,s)
    else
      match s.createInternal m cwd path .file mem with
      | none=>none
      | some (none,s)=>some (.error .ioError,s)
      | some (some n,s)=>some (s.openNode n flags mem.fd)

def close (f : ℕ) (s : System) : System:=
  match s.world.store.files f with
  | none=>s
  | some d=>{s with fs:=s.fs.close d.node,world:=s.world.setStore (s.world.store.close (some f))}

/-- `handle_open`; the path is a null pointer if there is none. -/
def handleOpen (t : ℕ) (cwd : Option ℕ) (path : Option (List UInt8)) (flags : ℕ) (mem : Memory) (s : System) :
    Option (ℤ×System):=
  match path with
  | none=>some (eFault,s)
  | some path=>
    match s.world.fdTable t with
    | none=>some (eBadf,s)
    | some tab=>
      match s.vfsOpen m cwd path flags mem with
      | none=>none
      | some (.error _,s)=>some (eNoent,s)
      | some (.ok f,s)=>
        match tab.install f with
        | .error _=>some (eNospace,s.close f)
        | .ok (fd,tab')=>some ((fd : ℤ),{s with world:=s.world.setTable t tab'})

end System

/-- The bytes of a file, as they are read from its start. -/
def contents (m : Mount) (d : Disk) (v : Node) : Except KError (List UInt8):=
  match v.ops, v.vnode.priv with
  | some .fat32, some fn=>.ok (fatRead m v.vnode.size fn 0 v.vnode.size d)
  | _, _=>(ramfsRead 0 v.vnode.size v.vnode).1

/-- The tree, the files, the counts and the descriptors are those of before. -/
structure Unchanged (m : Mount) (s s' : System) : Prop where
  tree : s'.fs=s.fs
  tasks : s'.world.tasks=s.world.tasks
  tables : s'.world.table=s.world.table
  files : s'.world.store.files=s.world.store.files
  refcounts : ∀n,s'.world.store.refcount n=s.world.store.refcount n
  bytes : ∀n v,s.world.store.nodes n=some v→∃v',s'.world.store.nodes n=some v' ∧
    v'.vnode.size=v.vnode.size ∧ v'.vnode.type=v.vnode.type ∧
    (v.vnode.type = .file→contents m s'.disk v'=contents m s.disk v)

section Disk

variable {m : Mount} {d d' : Disk} {xs zs : List ℕ} {p : ℕ×ℕ} {c y : ℕ} {dfn : Fat32Node}

theorem cell_of_slotWritten (h : SlotWritten m d d' p) (hp : p∈clusterSlots m c) (hc : 2 ≤ c) (hy : 2≤y) (hne : y≠c)
    {b : ℕ} (hb : b/512 < m.sectorsPerCluster) : cell m d' y b=cell m d y b:=by
  obtain ⟨s,hs,e,-,rfl⟩:=mem_clusterSlots.mp hp
  refine h.data _ _ (.inl fun heq=>hne ?_)
  exact (cell_sector_inj hy hc hb hs heq).1

/-- The clusters of a chain have the links and the bytes they had. -/
structure ChainKept (m : Mount) (d d' : Disk) (zs : List ℕ) : Prop where
  volume : Volume m d'
  linked : Linked (table m d') zs
  cells : ∀y∈zs,∀b<clusterBytes m,cell m d' y b=cell m d y b

/-- A new file changes the chain of its directory only. -/
theorem chainKept_of_fatCreate (hv : Volume m d) (hl : Linked (table m d) (dfn.firstCluster::xs))
    (hn : (dfn.firstCluster::xs).Nodup) (hz : Linked (table m d) zs) (hdisj : zs.Disjoint (dfn.firstCluster::xs)) (h : fatCreate m dfn name .file alloc d=some (r,d')) :
    ChainKept m d d' zs:=by
  have hself : ChainKept m d d zs:=⟨hv,hz,fun _ _ _ _=>rfl⟩
  rw [fatCreate] at h
  cases hfound : dirFind m dfn.firstCluster name d with
  | none=>simp [hfound] at h
  | some found=>
    cases found with
    | some e=>
      obtain ⟨-,rfl⟩ : none=r ∧ d=d':=by simpa [hfound] using h
      exact hself
    | none=>
      obtain ⟨hnone,-⟩ | ⟨p,d1,ys,hplace,hw,hfree⟩:=hv.findFreeDirent_eq hl hn
      · obtain ⟨-,rfl⟩ : none=r ∧ d=d':=by simpa [hfound,hnone] using h
        exact hself
      have hv1:=hw.kept.volume hv
      obtain ⟨x,hx,hpx⟩:=mem_dirSlots.mp (show p∈dirSlots m ys by
        obtain ⟨l,r,hslots,-⟩:=hfree
        simp [hslots])
      have hr : InRange m x:=inRange_of_ne_free (hw.grows.linked.ne_free hx)
      obtain ⟨d2,hwrite,hs,-⟩:=hv1.writeDirentAt_eq (hv.geometry.direntPlace_of_mem hr hpx) (createEntry name .file 0)
      obtain ⟨-,rfl⟩ : makeVnode (createEntry name .file 0) p.1 p.2 alloc=r ∧ d2=d':=by
        simpa [hfound,hplace,hwrite] using h
      -- the clusters that the directory has got were free before
      have hout (y : ℕ) (hy : y∈zs) : y∉ys:=by
        obtain ⟨ds,rfl,hds⟩:=hw.grows.extend
        rw [mem_append,not_or]
        exact ⟨hdisj hy,fun hd=>hz.ne_free hy (hds y hd)⟩
      have hzr (y : ℕ) (hy : y∈zs) : InRange m y:=inRange_of_ne_free (hz.ne_free hy)
      constructor
      case volume => exact hs.kept.volume hv1
      case linked =>
        rw [hs.table_eq]
        exact hz.congr fun y hy=>hw.grows.other y (hdisj hy) (hz.ne_free hy)
      case cells =>
        intro y hy b hb
        have hb' : b/512 < m.sectorsPerCluster:=by
          rw [hv.geometry.clusterBytes_eq] at hb
          exact Nat.div_lt_of_lt_mul (by omega)
        rw [cell_of_slotWritten hs hpx hr.1 (hzr y hy).1 (fun heq=>hout y hy (heq▸hx)) hb',
          hw.cells y (hzr y hy) (hout y hy) b hb]

theorem fatRead_of_chainKept {fn : Fat32Node} {size : ℕ} (hv : Volume m d) (hroot : Rooted fn.firstCluster zs)
    (hz : Linked (table m d) zs) (hsize : size≤zs.length*clusterBytes m) (h : ChainKept m d d' zs) :
    fatRead m size fn 0 size d'=fatRead m size fn 0 size d:=by
  unfold fatRead
  by_cases hzero : size≤0
  · simp [hzero]
  rw [if_neg hzero,if_neg hzero]
  obtain ⟨-,rfl⟩ | hhead:=hroot
  · simp at hsize
    omega
  obtain ⟨ys,rfl⟩:=head?_eq_some_iff.mp hhead
  rw [h.volume.chainRead_spec h.linked (by omega),hv.chainRead_spec hz (by omega)]
  refine map_congr_left fun i hi=>?_
  have hi' : 0+i<(fn.firstCluster::ys).length*clusterBytes m:=by
    have:=mem_range.mp hi
    omega
  have hpos:=hv.geometry.clusterBytes_pos
  have hindex : (0+i)/clusterBytes m<(fn.firstCluster::ys).length:=Nat.div_lt_of_lt_mul (by rwa [Nat.mul_comm])
  refine h.cells _ ?_ _ (Nat.mod_lt _ hpos)
  rw [getD_eq_getElem _ _ hindex]
  exact getElem_mem hindex

end Disk

section Steps

variable {m : Mount} {s s' : System} {t n f child flags : ℕ} {cwd : Option ℕ} {p : List UInt8} {mem : Memory} {tab : FDTable}

theorem Unchanged.refl (m : Mount) (s : System) : Unchanged m s s:=
  ⟨rfl,rfl,rfl,rfl,fun _=>rfl,fun _ v hv=>⟨v,hv,rfl,rfl,fun _=>rfl⟩⟩

/-- What is asked of a volume in which a name is created: the directory and the files have chains of their
own, and the files are not longer than theirs. -/
structure FatSound (m : Mount) (s : System) (dfn : Fat32Node) : Prop where
  volume : Volume m s.disk
  chains : ∃xs,Linked (table m s.disk) (dfn.firstCluster::xs) ∧ (dfn.firstCluster::xs).Nodup ∧
    ∀n v fn,s.world.store.nodes n=some v→v.ops=some .fat32→v.vnode.type = .file→v.vnode.priv=some fn →
      ∃zs,Rooted fn.firstCluster zs ∧ Linked (table m s.disk) zs ∧ zs.Disjoint (dfn.firstCluster::xs) ∧
        v.vnode.size≤zs.length*clusterBytes m

theorem contents_of_ne {v : Node} (h : v.ops≠some .fat32 ∨ v.vnode.priv=none) : contents m d' v=contents m d v:=by
  unfold contents
  split
  · simp_all
  · rfl

theorem FatSound.unchanged (hs : FatSound m s dfn) (h : fatCreate m dfn name .file alloc s.disk=some (r,d)) :
    Unchanged m s {s with disk:=d}:=by
  refine ⟨rfl,rfl,rfl,rfl,fun _=>rfl,fun n v hv=>⟨v,hv,rfl,rfl,fun hfile=>?_⟩⟩
  obtain ⟨xs,hl,hn,hfiles⟩:=hs.chains
  by_cases hops : v.ops=some .fat32
  · cases hpriv : v.vnode.priv with
    | none=>exact contents_of_ne (.inr hpriv)
    | some fn=>
      obtain ⟨zs,hroot,hz,hdisj,hsize⟩:=hfiles n v fn hv hops hfile hpriv
      have hkept:=chainKept_of_fatCreate hs.volume hl hn hz hdisj h
      simp only [contents,hops,hpriv,fatRead_of_chainKept hs.volume hroot hz hsize hkept]
  · exact contents_of_ne (.inl hops)

theorem createInternal_cases {type : VType} {r : Option ℕ} (h : s.createInternal m cwd p type mem=some (r,s')) :
    (r=none ∧ s'=s) ∨ (r=none ∧ ∃dir leaf dfn r' d,s.fs.resolveParent cwd p=(some dir,leaf) ∧ s.fatDir dir=some dfn ∧
    fatCreate m dfn leaf type (mem.vnode.isSome,mem.priv) s.disk=some (r',d) ∧ s'={s with disk:=d}) ∨
    ∃dir child v d,r=some child ∧ s'={s with disk:=d}.adopt dir child v:=by
  unfold System.createInternal at h
  split at h
  case h_1 => exact .inl (by simpa [eq_comm] using h)
  case h_2 dir leaf hparent =>
    split at h
    case isTrue => exact .inl (by simpa [eq_comm] using h)
    split at h
    case isTrue => exact .inl (by simpa [eq_comm] using h)
    unfold System.createChild at h
    split at h
    case h_1 dfn hdir =>
      split at h
      case h_1 => cases h
      case h_2 v d child hcreate hmem =>
        simp only [Option.some.injEq,Prod.mk.injEq] at h
        exact .inr (.inr ⟨dir,child,_,d,h.1.symm,h.2.symm⟩)
      case h_3 r' d hcreate _ =>
        simp only [Option.some.injEq,Prod.mk.injEq] at h
        exact .inr (.inl ⟨h.1.symm,dir,leaf,dfn,r',d,hparent,hdir,hcreate,h.2.symm⟩)
    case h_2 hdir =>
      split at h
      case h_1 => exact .inl (by simpa [eq_comm] using h)
      case h_2 child hmem =>
        simp only [Option.some.injEq,Prod.mk.injEq] at h
        exact .inr (.inr ⟨dir,child,_,s.disk,h.1.symm,h.2.symm⟩)

/-- What `O_TRUNC` does to a file. -/
def System.truncated (s : System) (n flags : ℕ) : System:=
  { s with world:=s.world.setStore (s.world.store.modifyNode n fun v=>{v with vnode:=v.vnode.truncate flags}) }

theorem contents_of_size_zero {v v' : Node} (hops : v'.ops=v.ops) (hpriv : v'.vnode.priv=v.vnode.priv)
    (h : v.vnode.size=0) (h' : v'.vnode.size=0) : contents m d' v'=contents m d v:=by
  have hram (u : Node) (hu : u.vnode.size=0) : (ramfsRead 0 u.vnode.size u.vnode).1 = .ok []:=by
    unfold ramfsRead
    cases u.vnode.data with
    | none=>rfl
    | some data=>simp [hu]
  unfold contents
  rw [hops,hpriv]
  split
  · simp [fatRead,h,h']
  · rw [hram v h,hram v' h']

theorem truncate_spec (v : Node) (flags : ℕ) : (v.vnode.truncate flags).type=v.vnode.type ∧
    ((v.vnode.truncate flags).size=v.vnode.size↔flags&&&oTrunc=0 ∨ v.vnode.type≠.file ∨ v.vnode.size=0) ∧
    ((v.vnode.truncate flags).size=v.vnode.size→∀d,
    contents m d {v with vnode:=v.vnode.truncate flags}=contents m d v):=by
  by_cases htrunc : flags&&&oTrunc≠0 ∧ v.vnode.type = .file
  · have hcut : v.vnode.truncate flags={v.vnode with data:=none,size:=0,dataCapacity:=0}:=if_pos htrunc
    rw [hcut]
    refine ⟨rfl,?_,fun hsize d=>contents_of_size_zero rfl rfl hsize.symm rfl⟩
    simp [htrunc.1,htrunc.2,eq_comm]
  · have hsame : v.vnode.truncate flags=v.vnode:=if_neg htrunc
    rw [hsame]
    exact ⟨rfl,by grind,fun _ _=>rfl⟩

theorem unchanged_truncated_iff {v : Node} (hv : s.world.store.nodes n=some v) :
    Unchanged m s (s.truncated n flags)↔flags&&&oTrunc=0 ∨ v.vnode.type≠.file ∨ v.vnode.size=0:=by
  have hnode : (s.truncated n flags).world.store.nodes n=some {v with vnode:=v.vnode.truncate flags}:=by
    simp [System.truncated,World.setStore,Store.modifyNode,hv]
  have hother (k : ℕ) (hk : k≠n) : (s.truncated n flags).world.store.nodes k=s.world.store.nodes k:=by
    simp [System.truncated,World.setStore,Store.modifyNode,hk]
  obtain ⟨htype,hsize,hbytes⟩:=truncate_spec (m:=m) v flags
  rw [←hsize]
  constructor
  · intro hu
    obtain ⟨v',hv',hsize',-⟩:=hu.bytes n v hv
    obtain rfl:=some.inj (hnode.symm.trans hv')
    exact hsize'
  · intro hsame
    refine ⟨rfl,rfl,rfl,rfl,fun k=>?_,fun k u hu=>?_⟩
    · by_cases hk : k=n
      · subst hk
        simp [Store.refcount,hnode,hv,VNode.refcount_truncate]
      · simp [Store.refcount,hother k hk]
    · by_cases hk : k=n
      · subst hk
        obtain rfl:=some.inj (hv.symm.trans hu)
        exact ⟨_,hnode,hsame,htype,fun _=>hbytes hsame s.disk⟩
      · exact ⟨u,(hother k hk).trans hu,rfl,rfl,fun _=>rfl⟩

def System.opened (s : System) (n flags f : ℕ) (v : Node) : System:=
  { s with
    fs:=s.fs.addRef n
    world:=s.world.setStore
      { nodes:=update s.world.store.nodes n (some {v with vnode:=v.vnode.truncate flags}.addRef)
        files:=update s.world.store.files f (some {(v.vnode.truncate flags).descriptor flags with node:=n}) } }

theorem openNode_none : s.world.store.nodes n=none→s.openNode n flags mem.fd=(.error .notFound,s):=by
  intro hn
  simp only [System.openNode,Store.openNode,hn]
  rfl

theorem openNode_noMemory {v : Node} (hv : s.world.store.nodes n=some v) :
    s.openNode n flags none=(.error .outOfMemory,s.truncated n flags):=by
  simp only [System.openNode,Store.openNode,hv,System.truncated,Store.modifyNode,map_some]

theorem openNode_some {v : Node} (hv : s.world.store.nodes n=some v) :
    s.openNode n flags (some f)=(.ok f,s.opened n flags f v):=by
  simp only [System.openNode,Store.openNode,hv,System.opened]

theorem dropRef_addRef {v : Node} (hops : v.ops≠some .pipe) (hlt : v.vnode.refcount<4294967295) : v.addRef.dropRef=v:=by
  have hcount : pred32 (u32 (v.vnode.refcount+1))=v.vnode.refcount:=by
    unfold pred32 u32
    omega
  simp only [Node.dropRef,Node.addRef,hops,and_false,if_false,hcount]

theorem close_opened {v : Node} (hv : s.world.store.nodes n=some v) (hops : v.ops≠some .pipe)
    (hcount : v.vnode.refcount=(s.fs.node n).refcount) (hlt : v.vnode.refcount<4294967295)
    (hf : s.world.store.files f=none) : (s.opened n flags f v).close f=s.truncated n flags:=by
  have hfile : (s.opened n flags f v).world.store.files f =
      some {(v.vnode.truncate flags).descriptor flags with node:=n}:=update_self ..
  have htrunc : (v.vnode.truncate flags).refcount<4294967295:=by
    rwa [VNode.refcount_truncate]
  have hdrop : {v with vnode:=v.vnode.truncate flags}.addRef.dropRef={v with vnode:=v.vnode.truncate flags}:=
    dropRef_addRef hops htrunc
  have hfs : ((s.fs.addRef n).close n)=s.fs:=Fs.close_addRef (Nat.lt_succ_of_lt (hcount▸hlt))
  have hfiles : update s.world.store.files f none=s.world.store.files:=by
    rw [←hf,update_eq_self]
  simp only [System.close,hfile,Store.close]
  simp only [System.opened,System.truncated,World.setStore,Store.modifyNode,update_self,update_idem,
    map_some,hdrop,hfs,hfiles,hv]

end Steps

variable {m : Mount} {s s' : System} {t n f flags : ℕ} {cwd : Option ℕ} {path : Option (List UInt8)} {mem : Memory}
  {tab : FDTable}

/-- The descriptors are counted, and a vnode that a path leads to has its count in the tree. Pipes have no name. -/
structure Coherent (s : System) : Prop where
  counted : ∃lost,WellCounted lost s.world
  named : ∀cwd p n v,s.fs.resolveInternal cwd p=some n→s.world.store.nodes n=some v →
    v.ops≠some .pipe ∧ v.vnode.refcount=(s.fs.node n).refcount

/-- What is asked of a call: the allocator keeps its contract, the path of a new name leaves room for its end in the
buffer of `resolve_parent`, and a volume in which the name is to be created is sound. -/
structure Admissible (m : Mount) (s : System) (cwd : Option ℕ) (path : Option (List UInt8)) (flags : ℕ) (mem : Memory) :
    Prop where
  supply : Supply s.world.store [mem.fd]
  short : ∀p,path=some p→s.fs.resolveInternal cwd p=none→flags&&&oCreate≠0→Short p
  sound : ∀p dir leaf dfn,path=some p→s.fs.resolveParent cwd p=(some dir,leaf)→s.fatDir dir=some dfn →
    FatSound m s dfn

def HasRoom (tab : FDTable) : Prop:=∃i,fdOffset ≤ i ∧ i < maxFds ∧ tab.fds i=none

theorem install_cases (tab : FDTable) (f : ℕ) :
    (∃i tab',tab.install f = .ok (i,tab')) ∧ HasRoom tab ∨ tab.install f = .error .outOfFileDescriptors ∧ ¬HasRoom tab:=by
  unfold FDTable.install
  cases hfind : (List.range' fdOffset (maxFds-fdOffset)).find? fun i=>(tab.fds i).isNone with
  | some i=>
    have hmem:=mem_range'_1.mp (mem_of_find?_eq_some hfind)
    have hnone:=find?_some hfind
    exact .inl ⟨⟨i,_,rfl⟩,i,hmem.1,by simp only [fdOffset,maxFds] at hmem ⊢; omega,by simpa using hnone⟩
  | none=>
    refine .inr ⟨rfl,?_⟩
    rintro ⟨i,hlo,hhi,hnone⟩
    have:=find?_eq_none.mp hfind i (mem_range'_1.mpr ⟨hlo,by omega⟩)
    simp [hnone] at this

/-- Nothing is created and no byte is cut off, unless the call succeeds. -/
def Spared (m : Mount) (s : System) (cwd : Option ℕ) (p : List UInt8) (flags : ℕ) (mem : Memory) : Prop:=
  match s.fs.resolveInternal cwd p with
  | some n=>∀v,s.world.store.nodes n=some v→flags&&&oTrunc=0 ∨ v.vnode.type≠.file ∨ v.vnode.size=0
  | none=>flags&&&oCreate=0 ∨ ∀n s',s.createInternal m cwd p .file mem≠some (some n,s')

def FailsCleanly (m : Mount) (s : System) (t : ℕ) (cwd : Option ℕ) (path : Option (List UInt8)) (flags : ℕ) (mem : Memory) :
    Prop:=
  ∀r s',s.handleOpen m t cwd path flags mem=some (r,s') → r<0→Unchanged m s s'

theorem handleOpen_openNode (ht : s.world.fdTable t=some tab)
    (hopen : s.vfsOpen m cwd p flags mem=some (s'.openNode n flags mem.fd)) {v : Node}
    (hv : s'.world.store.nodes n=some v) :
    (mem.fd.isSome ∧ HasRoom tab ∧ ∃r s'',s.handleOpen m t cwd (some p) flags mem=some (r,s'') ∧ 0 ≤ r) ∨
    (mem.fd=none ∧ s.handleOpen m t cwd (some p) flags mem=some (eNoent,s'.truncated n flags)) ∨
    ∃f,mem.fd=some f ∧ ¬HasRoom tab ∧
    s.handleOpen m t cwd (some p) flags mem=some (eNospace,(s'.opened n flags f v).close f):=by
  cases hfd : mem.fd with
  | none=>
    rw [hfd,openNode_noMemory hv] at hopen
    exact .inr (.inl ⟨rfl,by simp only [System.handleOpen,ht,hopen]⟩)
  | some f=>
    rw [hfd,openNode_some hv] at hopen
    obtain ⟨⟨i,tab',hi⟩,hroom⟩ | ⟨hi,hroom⟩:=install_cases tab f
    · exact .inl ⟨rfl,hroom,i,_,by simp only [System.handleOpen,ht,hopen,hi]; rfl,by omega⟩
    · exact .inr (.inr ⟨f,rfl,hroom,by simp only [System.handleOpen,ht,hopen,hi]⟩)

theorem failsCleanly_iff_unchanged {r : ℤ} (h : s.handleOpen m t cwd path flags mem=some (r,s')) (hr : r<0) :
    FailsCleanly m s t cwd path flags mem↔Unchanged m s s':=by
  constructor
  · intro hc
    exact hc r s' h hr
  intro hu r1 s1 h1 _
  obtain ⟨-,rfl⟩ : r=r1 ∧ s'=s1:=by simpa [h] using h1
  exact hu

theorem failsCleanly_of_nonneg {r : ℤ} (h : s.handleOpen m t cwd path flags mem=some (r,s')) (hr : 0 ≤ r) :
    FailsCleanly m s t cwd path flags mem:=by
  intro r1 s1 h1 hneg
  obtain ⟨rfl,-⟩ : r=r1 ∧ s'=s1:=by simpa [h] using h1
  omega

/-- The path leads to a vnode. -/
theorem failsCleanly_of_resolved (hs : Coherent s) (hm : Supply s.world.store [mem.fd])
    (ht : s.world.fdTable t=some tab) (hres : s.fs.resolveInternal cwd p=some n) :
    FailsCleanly m s t cwd (some p) flags mem↔mem.fd.isSome ∧ HasRoom tab ∨ Spared m s cwd p flags mem:=by
  have hopen : s.vfsOpen m cwd p flags mem=some (s.openNode n flags mem.fd):=by
    simp only [System.vfsOpen,hres]
  simp only [Spared,hres]
  cases hv : s.world.store.nodes n with
  | none=>
    rw [openNode_none hv] at hopen
    have hcall : s.handleOpen m t cwd (some p) flags mem=some (eNoent,s):=by
      simp only [System.handleOpen,ht,hopen]
    rw [failsCleanly_iff_unchanged hcall (by decide)]
    simp [Unchanged.refl]
  | some v=>
    have hspared : (∀u,some v=some u→flags&&&oTrunc=0 ∨ u.vnode.type≠.file ∨ u.vnode.size=0) ↔
        Unchanged m s (s.truncated n flags):=by
      rw [unchanged_truncated_iff hv]
      simp
    rw [hspared]
    obtain ⟨hops,hcount⟩:=hs.named cwd p n v hres hv
    obtain ⟨lost,hw⟩:=hs.counted
    obtain ⟨hfd,hroom,r,s',hcall,hr⟩ | ⟨hfd,hcall⟩ | ⟨f,hfd,hroom,hcall⟩:=handleOpen_openNode ht hopen hv
    · simp [failsCleanly_of_nonneg hcall hr,hfd,hroom]
    · rw [failsCleanly_iff_unchanged hcall (by decide)]
      simp [hfd]
    have hlt : v.vnode.refcount<4294967295:=by
      rw [hw.balanced.refcount n v hv]
      exact hw.balanced.countP_lt _
    have hfree : s.world.store.files f=none:=isNone_iff_eq_none.mp (hm.2 f (by simp [hfd])).1
    rw [failsCleanly_iff_unchanged hcall (by decide),close_opened hv hops hcount hlt hfree]
    simp [hroom]

/-- The path leads to no vnode. -/
theorem failsCleanly_of_unresolved (ht : s.world.fdTable t=some tab)
    (hsound : ∀dir leaf dfn,s.fs.resolveParent cwd p=(some dir,leaf)→s.fatDir dir=some dfn→FatSound m s dfn)
    (hres : s.fs.resolveInternal cwd p=none) :
    FailsCleanly m s t cwd (some p) flags mem↔mem.fd.isSome ∧ HasRoom tab ∨ Spared m s cwd p flags mem:=by
  simp only [Spared,hres]
  by_cases hflag : flags&&&oCreate=0
  · have hcall : s.handleOpen m t cwd (some p) flags mem=some (eNoent,s):=by
      simp only [System.handleOpen,ht,System.vfsOpen,hres,if_pos hflag]
    rw [failsCleanly_iff_unchanged hcall (by decide)]
    simp [Unchanged.refl,hflag]
  · simp only [hflag,false_or]
    cases hcreate : s.createInternal m cwd p .file mem with
    | none=>
      have hcall : s.handleOpen m t cwd (some p) flags mem=none:=by
        simp only [System.handleOpen,ht,System.vfsOpen,hres,if_neg hflag,hcreate]
      simp [FailsCleanly,hcall]
    | some res=>
      obtain ⟨r,s1⟩:=res
      obtain ⟨rfl,rfl⟩ | ⟨rfl,dir,leaf,dfn,r',d,hparent,hdir,hfat,rfl⟩ | ⟨dir,child,v,d,rfl,rfl⟩:=
        createInternal_cases hcreate
      · have hcall : s1.handleOpen m t cwd (some p) flags mem=some (eNoent,s1):=by
          simp only [System.handleOpen,ht,System.vfsOpen,hres,if_neg hflag,hcreate]
        rw [failsCleanly_iff_unchanged hcall (by decide)]
        simp [Unchanged.refl]
      · have hcall : s.handleOpen m t cwd (some p) flags mem=some (eNoent,{s with disk:=d}):=by
          simp only [System.handleOpen,ht,System.vfsOpen,hres,if_neg hflag,hcreate]
        rw [failsCleanly_iff_unchanged hcall (by decide)]
        simp [(hsound dir leaf dfn hparent hdir).unchanged hfat]
      · have hopen : s.vfsOpen m cwd p flags mem =
            some (({s with disk:=d}.adopt dir child v).openNode child flags mem.fd):=by
          simp only [System.vfsOpen,hres,if_neg hflag,hcreate]
        have hnode : ({s with disk:=d}.adopt dir child v).world.store.nodes child=some v:=update_self ..
        -- the list of the vnodes has become longer
        have hgrown (s' : System) (hlive : s'.fs.live=child::s.fs.live) : ¬Unchanged m s s':=by
          intro hu
          have hlen:=congrArg (fun fs : Fs=>fs.live.length) hu.tree
          simp [hlive] at hlen
        obtain ⟨hfd,hroom,r,s',hcall,hr⟩ | ⟨hfd,hcall⟩ | ⟨f,hfd,hroom,hcall⟩:=handleOpen_openNode ht hopen hnode
        · simp [failsCleanly_of_nonneg hcall hr,hfd,hroom]
        · rw [failsCleanly_iff_unchanged hcall (by decide)]
          simp [hgrown (({s with disk:=d}.adopt dir child v).truncated child flags) rfl,hfd]
        rw [failsCleanly_iff_unchanged hcall (by decide)]
        have hlive : ((({s with disk:=d}.adopt dir child v).opened child flags f v).close f).fs.live =
            child::s.fs.live:=by
          simp only [System.close]
          split <;> rfl
        simp [hgrown _ hlive,hroom]

/-- An error leaves everything as it was exactly if there is memory for the descriptor and a slot for it, so that
only the search and the creation can fail, or if the call cuts off no byte and creates no vnode. -/
theorem open_fails_cleanly_iff (hs : Coherent s) (ha : Admissible m s cwd path flags mem) :
    FailsCleanly m s t cwd path flags mem↔∀p tab,path=some p→s.world.fdTable t=some tab →
    mem.fd.isSome ∧ HasRoom tab ∨ Spared m s cwd p flags mem:=by
  cases path with
  | none=>
    have hcall : s.handleOpen m t cwd none flags mem=some (eFault,s):=rfl
    rw [failsCleanly_iff_unchanged hcall (by decide)]
    simp [Unchanged.refl]
  | some p=>
    cases ht : s.world.fdTable t with
    | none=>
      have hcall : s.handleOpen m t cwd (some p) flags mem=some (eBadf,s):=by
        simp only [System.handleOpen,ht]
      rw [failsCleanly_iff_unchanged hcall (by decide)]
      simp [Unchanged.refl]
    | some tab=>
      have hiff : FailsCleanly m s t cwd (some p) flags mem ↔
          mem.fd.isSome ∧ HasRoom tab ∨ Spared m s cwd p flags mem:=by
        cases hres : s.fs.resolveInternal cwd p with
        | some n=>exact failsCleanly_of_resolved hs ha.supply ht hres
        | none=>exact failsCleanly_of_unresolved ht (fun dir leaf dfn=>ha.sound p dir leaf dfn rfl) hres
      simp [hiff]

/-- A root directory with the file `a`, which has one byte. Task 7 has no descriptors. -/
def oneFile : System where
  fs:={ live:=[2,1],root:=some 1,
          node:=fun n=>if n=1 then ⟨[slash],.dir,none,some 2,none,0⟩ else ⟨[0x61],.file,some 1,none,none,0⟩ }
  world:=
    { store:=
        { nodes:=fun n=>
            if n=1 then some (ramNode [slash] .dir)
            else if n=2 then some ⟨{ name:=[0x61],type:=.file,size:=1,data:=some fun _=>0x78,
                                       dataCapacity:=64,refcount:=0,priv:=none },some .ramfs,none⟩
            else none
          files:=fun _=>none }
      tasks:=[7]
      table:=fun _=>.empty }
  disk:=⟨0,fun _ _=>0,[]⟩

theorem oneFile_coherent : Coherent oneFile where
  counted:=by
    refine ⟨[],by decide,?_⟩
    have hheld : oneFile.world.held++[]=[]:=by decide
    rw [hheld]
    refine ⟨nodup_nil,by simp,by simp,fun f hf=>absurd hf (by simp [oneFile]),fun n v hv=>?_⟩
    simp only [oneFile] at hv
    split at hv
    · cases hv
      rfl
    split at hv
    · cases hv
      rfl
    · cases hv
  named cwd p n v _ hv:=by
    have hcount : (oneFile.fs.node n).refcount=0:=by
      simp only [oneFile]
      split <;> rfl
    rw [hcount]
    simp only [oneFile] at hv
    split at hv
    · cases hv
      exact ⟨by decide,rfl⟩
    split at hv
    · cases hv
      exact ⟨by decide,rfl⟩
    · cases hv

theorem oneFile_fatDir (n : ℕ) : oneFile.fatDir n=none:=by
  simp only [System.fatDir,oneFile]
  split
  · rfl
  rename_i v hv
  split at hv
  · cases hv
    rfl
  split at hv
  · cases hv
    rfl
  · cases hv

theorem oneFile_resolved : oneFile.fs.resolveInternal none [slash,0x61]=some 2:=by decide

/-- Opening the file without memory for a descriptor. -/
theorem open_fails_cleanly_plain : FailsCleanly smallMount oneFile 7 none (some [slash,0x61]) oRdwr ⟨none,false,none⟩:=by
  refine (open_fails_cleanly_iff oneFile_coherent ⟨by decide,?_,?_⟩).2 ?_
  · rintro p ⟨⟩ hres
    simp [oneFile_resolved] at hres
  · intro p dir leaf dfn _ _ hdir
    simp [oneFile_fatDir] at hdir
  rintro p tab ⟨⟩ -
  refine .inr ?_
  exact fun v _=>.inl (by decide)

/-- There is no memory for a descriptor: the file has lost its byte, and a new file stays in the directory. -/
theorem failed_open_leaves_traces :
    ¬FailsCleanly smallMount oneFile 7 none (some [slash,0x61]) (oRdwr|||oTrunc) ⟨none,false,none⟩ ∧
    ¬FailsCleanly smallMount oneFile 7 none (some [slash,0x62]) (oRdwr|||oCreate) ⟨some 3,false,none⟩:=by
  constructor
  · intro hc
    have hu:=hc eNoent _ rfl (by decide)
    obtain ⟨v,hv,hsize,-⟩:=hu.bytes 2 _ rfl
    cases hv
    exact absurd hsize (by decide)
  · intro hc
    have hu:=hc eNoent _ rfl (by decide)
    have hlen:=congrArg (fun fs : Fs=>fs.live.length) hu.tree
    exact absurd hlen (by decide)

end Knail.OpenCall
