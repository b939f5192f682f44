import Knail.DirectoryTree

/-!
# What a call does to the tree

Apart from `init`, a call leaves the tree as it is, adds one vnode, or takes one out.
-/
namespace Knail.Directory

open Vfs List Option

variable {fs fs' : Fs} {n c dir : ℕ} {path : List UInt8} {cwd last : Option ℕ} {i m : ℕ}

theorem length_pathNext_lt (h : (pathNext path).1≠[]) : (pathNext path).2.length<path.length:=by
  have hdrop:=(path.dropWhile_sublist (· = slash)).length_le
  have hpos:=length_pos_of_ne_nil h
  simp only [pathNext,length_drop,length_take] at hpos ⊢
  have htake:=((path.dropWhile (· = slash)).takeWhile_sublist (· ≠ slash)).length_le
  omega

/-- Two states that differ in counts of references only. -/
structure SameTree (fs fs' : Fs) : Prop where
  live : fs'.live=fs.live
  root : fs'.root=fs.root
  node : ∀n,∃k,fs'.node n={fs.node n with refcount:=k}

/-- What a call other than `init` can do to the tree. -/
inductive Change (fs : Fs) : Fs→Prop
  | kept {fs' : Fs} : SameTree fs fs'→Change fs fs'
  | added {fs' : Fs} {cwd : Option ℕ} {path leaf : List UInt8} {dir c : ℕ} (type : VType) : fs.ValidCwd cwd →
      fs.resolveParent cwd path=(some dir,leaf)→(fs.node dir).type = .dir→fs.findChild dir leaf=none→c∉fs.live →
      SameTree (fs.addChild dir c leaf type) fs'→Change fs fs'
  | removed {cwd : Option ℕ} {path : List UInt8} {n p : ℕ} : fs.ValidCwd cwd→fs.resolveInternal cwd path=some n →
      (fs.node n).type = .file→(fs.node n).parent=some p→Change fs ((fs.detach p n).free n)

theorem SameTree.refl (fs : Fs) : SameTree fs fs:=⟨rfl,rfl,fun n=>⟨(fs.node n).refcount,rfl⟩⟩

theorem SameTree.modifyRefcount (fs : Fs) (n : ℕ) (k : ℕ→ℕ) :
    SameTree fs (fs.modify n fun v=>{v with refcount:=k v.refcount}):=by
  refine ⟨rfl,rfl,fun m=>?_⟩
  by_cases hm : m=n
  · subst hm
    exact ⟨_,Function.update_self ..⟩
  · exact ⟨(fs.node m).refcount,Function.update_of_ne hm _ _⟩

theorem SameTree.addRef (fs : Fs) (n : ℕ) : SameTree fs (fs.addRef n):=modifyRefcount fs n fun k=>u32 (k+1)

theorem Fs.createInternal_cases (fs : Fs) (cwd : Option ℕ) (path : List UInt8) (type : VType) (mem : Option ℕ) :
    fs.createInternal cwd path type mem=(none,fs) ∨
    ∃dir leaf c,fs.resolveParent cwd path=(some dir,leaf) ∧ (fs.node dir).type = .dir ∧
    fs.findChild dir leaf=none ∧ mem=some c ∧
    fs.createInternal cwd path type mem=(some c,fs.addChild dir c leaf type):=by
  unfold Fs.createInternal
  split
  · exact .inl rfl
  rename_i dir leaf hdir
  split_ifs with htype hfound
  · exact .inl rfl
  · exact .inl rfl
  cases mem with
  | none=>exact .inl rfl
  | some c=>exact .inr ⟨dir,leaf,c,hdir,not_not.mp htype,by simpa using hfound,rfl,rfl⟩

theorem Fs.notMem_createInternal {a : ℕ} {mem : Option ℕ} {type : VType}
    (ha : a∉fs.live ∧ mem≠some a) : a∉(fs.createInternal cwd path type mem).2.live:=by
  unfold Fs.createInternal
  split
  · exact ha.1
  split_ifs
  · exact ha.1
  · exact ha.1
  cases mem with
  | none=>exact ha.1
  | some c=>exact not_mem_cons_of_ne_of_not_mem (fun hac=>ha.2 (congrArg some hac.symm)) ha.1

theorem Fs.unlink_cases (fs : Fs) (cwd : Option ℕ) (path : List UInt8) : (∃e,fs.unlink cwd path=(.error e,fs)) ∨
    ∃n p,fs.resolveInternal cwd path=some n ∧ (fs.node n).type = .file ∧ (fs.node n).parent=some p ∧
    fs.unlink cwd path=(.ok (),(fs.detach p n).free n):=by
  unfold Fs.unlink
  cases hn : fs.resolveInternal cwd path with
  | none=>exact .inl ⟨_,rfl⟩
  | some n=>
    dsimp only
    split_ifs with htype hrefs
    · exact .inl ⟨_,rfl⟩
    · exact .inl ⟨_,rfl⟩
    have hfile : (fs.node n).type = .file:=by cases h : (fs.node n).type <;> simp_all
    cases hp : (fs.node n).parent with
    | none=>exact .inl ⟨_,rfl⟩
    | some p=>exact .inr ⟨n,p,rfl,hfile,hp,rfl⟩

/-- The calls, apart from `init`, one by one. -/
theorem step_change {op : Op} (hop : op.Valid fs) (hs : step fs op=some fs') :
    (∃root dev tmp bin,op = .init root dev tmp bin) ∨ Change fs fs':=by
  cases op with
  | init root dev tmp bin=>exact .inl ⟨_,_,_,_,rfl⟩
  | create cwd path type mem=>
    obtain rfl:=some.inj hs
    obtain ⟨-,hcwd,-,hmem⟩:=hop
    refine .inr ?_
    unfold Fs.create
    obtain he | ⟨dir,leaf,c,hdir,htype,hfound,rfl,he⟩:=fs.createInternal_cases cwd path type mem <;> rw [he]
    · exact .kept (.refl fs)
    · exact .added type hcwd hdir htype hfound (hmem c rfl) (.refl _)
  | mkdir cwd path mem=>
    obtain rfl:=some.inj hs
    obtain ⟨-,hcwd,-,hmem⟩:=hop
    refine .inr ?_
    unfold Fs.mkdir
    split_ifs
    · exact .kept (.refl fs)
    obtain he | ⟨dir,leaf,c,hdir,htype,hfound,rfl,he⟩:=fs.createInternal_cases cwd path .dir mem <;> rw [he]
    · exact .kept (.refl fs)
    · exact .added .dir hcwd hdir htype hfound (hmem c rfl) (.refl _)
  | openPath cwd path flags mem fd=>
    obtain rfl:=some.inj hs
    obtain ⟨-,hcwd,-,hmem⟩:=hop
    refine .inr ?_
    unfold Fs.openPath
    split
    · cases fd
      exacts [.kept (.refl fs),.kept (.addRef fs _)]
    split
    · exact .kept (.refl fs)
    obtain he | ⟨dir,leaf,c,hdir,htype,hfound,rfl,he⟩:=fs.createInternal_cases cwd path .file mem <;> rw [he]
    · exact .kept (.refl fs)
    · cases fd
      exacts [.added .file hcwd hdir htype hfound (hmem c rfl) (.refl _),
        .added .file hcwd hdir htype hfound (hmem c rfl) (.addRef _ c)]
  | unlink cwd path=>
    obtain rfl:=some.inj hs
    obtain ⟨e,he⟩ | ⟨n,p,hn,hfile,hp,hu⟩:=fs.unlink_cases cwd path
    · exact .inr (he ▸ .kept (.refl fs))
    · exact .inr (hu ▸ .removed hop.2 hn hfile hp)
  | close n=>
    obtain rfl:=some.inj hs
    exact .inr (.kept (.modifyRefcount fs n fun k=>u32 (4294967295+k)))

theorem Fs.kstrcpy_resolveParent (fs : Fs) (cwd : Option ℕ) (path : List UInt8) :
    kstrcpy nameSize (fs.resolveParent cwd path).2=(fs.resolveParent cwd path).2:=by
  unfold Fs.resolveParent
  split <;> simp [kstrcpy,take_take]

theorem notMem_of_lastSlash (h : lastSlash path i last=none) : slash∉path ∧ last=none:=by
  induction path generalizing i last with
  | nil=>exact ⟨by simp,h⟩
  | cons x path ih=>
    obtain ⟨hmem,hlast⟩:=ih h
    split_ifs at hlast with hx
    exact ⟨not_mem_cons_of_ne_of_not_mem (Ne.symm hx) hmem,hlast⟩

theorem notMem_drop_of_lastSlash {j : ℕ} (h : lastSlash path i last=some j) :
    (slash∉path ∧ last=some j) ∨ (i≤j ∧ slash∉path.drop (j-i+1)):=by
  induction path generalizing i last with
  | nil=>exact .inl ⟨by simp,h⟩
  | cons x path ih=>
    obtain ⟨hmem,hlast⟩ | ⟨hij,hmem⟩:=ih h
    · split_ifs at hlast with hx
      · obtain rfl:=some.inj hlast
        exact .inr ⟨Nat.le_refl i,by simpa using hmem⟩
      · exact .inl ⟨not_mem_cons_of_ne_of_not_mem (Ne.symm hx) hmem,hlast⟩
    · have hdrop : j-(i+1)+1=j-i:=by omega
      rw [hdrop] at hmem
      exact .inr ⟨by omega,hmem⟩

theorem Fs.notMem_leaf {dir : Option ℕ} {leaf : List UInt8} (h : fs.resolveParent cwd path=(dir,leaf)) :
    slash∉leaf:=by
  obtain rfl:=congrArg Prod.snd h
  unfold Fs.resolveParent
  cases hl : lastSlash path 0 none with
  | none=>exact fun hmem=>(notMem_of_lastSlash hl).1 (mem_of_mem_take hmem)
  | some last=>
    obtain ⟨-,hlast⟩ | ⟨-,hmem⟩:=notMem_drop_of_lastSlash hl
    · cases hlast
    · exact fun h=>hmem (mem_of_mem_take h)

theorem Fs.addChild_of_ne (fs : Fs) (hm : m≠c) (dir : ℕ) (name : List UInt8) (type : VType) :
    ((fs.addChild dir c name type).node m).name=(fs.node m).name ∧
    ((fs.addChild dir c name type).node m).type=(fs.node m).type ∧
    ((fs.addChild dir c name type).node m).parent=(fs.node m).parent ∧
    ((fs.addChild dir c name type).node m).children=if m=dir then some c else (fs.node m).children:=by
  by_cases h : m=dir
  · subst h
    simp [Fs.addChild]
  · simp [Fs.addChild,h,hm]

theorem Fs.addChild_self (fs : Fs) (hc : c≠dir) (name : List UInt8) (type : VType) :
    (fs.addChild dir c name type).node c=⟨kstrcpy nameSize name,type,some dir,none,(fs.node dir).children,0⟩:=by
  simp [Fs.addChild,hc]

theorem Fs.next_addChild (fs : Fs) (hc : c≠dir) (name : List UInt8) (type : VType) :
    (fs.addChild dir c name type).next=Function.update fs.next c (fs.node dir).children:=by
  funext m
  by_cases hm : m=c
  · subst hm
    simp [Fs.next,fs.addChild_self hc]
  by_cases h : m=dir
  · subst h
    simp [Fs.next,Fs.addChild,hm]
  · simp [Fs.next,Fs.addChild,h,hm]

theorem Fs.node_addTty (fs : Fs) (hdir : dir≠ttyNode) (m : ℕ) :
    (fs.addTty dir).node m=if m=dir then {fs.node dir with children:=some ttyNode}
      else if m=ttyNode then {fs.node ttyNode with parent:=some dir,nextSibling:=(fs.node dir).children}
      else fs.node m:=by
  simp only [Fs.addTty,Fs.modify,Function.update_apply,if_neg hdir]

@[simp] theorem Fs.node_free (fs : Fs) (n : ℕ) : (fs.free n).node=fs.node:=by
  unfold Fs.free
  split_ifs <;> rfl

@[simp] theorem Fs.root_free (fs : Fs) (n : ℕ) : (fs.free n).root=fs.root:=by
  unfold Fs.free
  split_ifs <;> rfl

theorem Fs.mem_of_mem_free (hm : m∈(fs.free n).live) : m∈fs.live:=by
  unfold Fs.free at hm
  split_ifs at hm
  exacts [hm,mem_of_mem_erase hm]

theorem Fs.mem_free (hm : m∈fs.live) (h : m=ttyNode ∨ m≠n) : m∈(fs.free n).live:=by
  unfold Fs.free
  split_ifs with hn
  · exact hm
  · have hmn : m≠n:=h.elim (fun h=>h▸Ne.symm hn) id
    exact (mem_erase_of_ne hmn).mpr hm

theorem length_kstrcpy_lt (name : List UInt8) : (kstrcpy nameSize name).length<nameSize:=by
  simp only [kstrcpy,nameSize,length_take]
  omega

end Knail.Directory
