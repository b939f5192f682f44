import Knail.NamespaceShape
import Mathlib.Data.Set.Finite.List

/-!
# The names form a tree

The vnodes that are found from `vfs_root` through `children` and `next_sibling` form a finite tree,
and removing a file takes it out of the tree and nothing else.
-/
namespace Knail.Directory

open Vfs Option

variable {fs fs' : Fs} {kids : ℕ→List ℕ} {cur : ℕ→Prop} {n c r : ℕ}

inductive Fs.Reached (fs : Fs) : ℕ→Prop
  | root {r : ℕ} : fs.root=some r→fs.Reached r
  | children {n c : ℕ} : fs.Reached n→(fs.node n).children=some c→fs.Reached c
  | sibling {n c : ℕ} : fs.Reached n→(fs.node n).nextSibling=some c→fs.Reached c

def Fs.Lists (fs : Fs) (n : ℕ) (l : List ℕ) : Prop:=
  Path (fun m=>(fs.node m).nextSibling) (fs.node n).children l none

/-- A way down from the root to a vnode, with the last directory first. -/
inductive Fs.Branch (fs : Fs) : ℕ→List ℕ→Prop
  | root {r : ℕ} : fs.root=some r→fs.Branch r []
  | child {n c : ℕ} {p l : List ℕ} : fs.Branch n p→fs.Lists n l→c∈l→fs.Branch c (n::p)

structure Fs.IsTree (fs : Fs) : Prop where
  finite : {n | fs.Reached n}.Finite
  lists : ∀n,fs.Reached n→∃l,fs.Lists n l ∧ l.Nodup
  once : ∀n,fs.Reached n→∃! p,fs.Branch n p
  parent : ∀n l,fs.Reached n→fs.Lists n l→∀c∈l,(fs.node c).parent=some n
  names : ∀n l,fs.Reached n→fs.Lists n l→(l.map fun c=>(fs.node c).name).Nodup
  length : ∀n,fs.Reached n→(fs.node n).name.length≤127
  leaf : ∀n,fs.Reached n→(fs.node n).type = .file→fs.Lists n []

/-- A call of `unlink` that succeeds removes the vnode that the path names from the tree and keeps
everything else. One that fails changes nothing. -/
structure Fs.UnlinksOne (fs : Fs) (cwd : Option ℕ) (path : List UInt8) : Prop where
  failed : ∀e,(fs.unlink cwd path).1 = .error e→(fs.unlink cwd path).2=fs
  named : (fs.unlink cwd path).1 = .ok ()→∃n,fs.resolveInternal cwd path=some n ∧
    (∀m,(fs.unlink cwd path).2.Reached m↔fs.Reached m ∧ m≠n) ∧
    (∀m l,fs.Reached m→m≠n→fs.Lists m l→(fs.unlink cwd path).2.Lists m (l.erase n)) ∧
    ∀m,∃a b,(fs.unlink cwd path).2.node m={fs.node m with children:=a,nextSibling:=b}

namespace Shape

section

variable (h : Shape fs kids cur)
include h

theorem lists_iff (hn : n∈fs.live) {l : List ℕ} : fs.Lists n l↔l=kids n:=by
  constructor
  · exact fun hl=>hl.unique_of_none (h.path n hn)
  · rintro rfl
    exact h.path n hn

theorem reached (hn : fs.Reached n) :
    n∈fs.live ∧ cur n ∧ (fs.root=some n ∨ ∃m,fs.Reached m ∧ m∈fs.live ∧ cur m ∧ n∈kids m):=by
  induction hn with
  | root hr=>exact ⟨(h.root _ hr).1,(h.root _ hr).2.1,.inl hr⟩
  | @children n c hn hc ih=>
    obtain ⟨hlive,hcur,-⟩:=ih
    have hmem : c∈kids n:=by
      have hpath:=h.path n hlive
      rw [hc] at hpath
      cases hk : kids n with
      | nil=>simp [hk] at hpath
      | cons x rest=>
        rw [hk,Path.cons_iff] at hpath
        simp [some.inj hpath.1]
    exact ⟨h.live n hlive c hmem,h.cur_kids n hlive hcur c hmem,.inr ⟨n,hn,hlive,hcur,hmem⟩⟩
  | @sibling n c hn hc ih=>
    obtain ⟨-,-,hr | ⟨m,hm,hlive,hcur,hmem⟩⟩:=ih
    · exact absurd ((h.root n hr).2.2.2.2.symm.trans hc) (by simp)
    · have hmem:=(h.path m hlive).next_mem hmem hc
      exact ⟨h.live m hlive c hmem,h.cur_kids m hlive hcur c hmem,.inr ⟨m,hm,hlive,hcur,hmem⟩⟩

theorem parent_of_cur {m : ℕ} (hm : m∈fs.live) (hcur : cur m) (hc : c∈kids m) : (fs.node c).parent=some m:=by
  obtain rfl | hp:=h.parent m hm c hc
  exacts [h.cur_tty m hm hcur hc,hp]

theorem reached_of_mem (hn : fs.Reached n) (hc : c∈kids n) : fs.Reached c:=
  (h.path n (h.reached hn).1).forall_mem (fun _ hx=>hn.children hx) (fun _ _ hx hy=>hx.sibling hy) c hc

theorem reached_of_branch {p : List ℕ} (hp : fs.Branch n p) : fs.Reached n:=by
  induction hp with
  | root hr=>exact .root hr
  | child _ hl hc ih=>exact h.reached_of_mem ih ((h.lists_iff (h.reached ih).1).mp hl▸hc)

theorem exists_branch (hn : fs.Reached n) : ∃p,fs.Branch n p:=by
  induction hn with
  | root hr=>exact ⟨[],.root hr⟩
  | @children n c hn hc ih=>
    obtain ⟨p,hp⟩:=ih
    obtain ⟨hlive,hcur,-⟩:=h.reached hn
    have hpath:=h.path n hlive
    cases hk : kids n with
    | nil=>simp [hk,hc] at hpath
    | cons x rest=>
      rw [hk,Path.cons_iff,hc] at hpath
      refine ⟨_,hp.child ((h.lists_iff hlive).mpr rfl) ?_⟩
      simp [hk,some.inj hpath.1]
  | sibling hn hc ih=>
    obtain ⟨p,hp⟩:=ih
    cases hp with
    | root hr=>exact absurd ((h.root _ hr).2.2.2.2.symm.trans hc) (by simp)
    | child hm hl hmem=>exact ⟨_,hm.child hl (hl.next_mem hmem hc)⟩

theorem branch_unique {p q : List ℕ} (hp : fs.Branch n p) (hq : fs.Branch n q) : p=q:=by
  have hup {m x : ℕ} {p l : List ℕ} (hm : fs.Branch m p) (hl : fs.Lists m l) (hx : x∈l) : (fs.node x).parent=some m:=by
    obtain ⟨hlive,hcur,-⟩:=h.reached (h.reached_of_branch hm)
    exact h.parent_of_cur hlive hcur ((h.lists_iff hlive).mp hl▸hx)
  induction hp generalizing q with
  | root hr=>
    cases hq with
    | root _=>rfl
    | child hm hl hx=>exact absurd ((h.root _ hr).2.2.2.1.symm.trans (hup hm hl hx)) (by simp)
  | child hm hl hx ih=>
    cases hq with
    | root hr=>exact absurd ((h.root _ hr).2.2.2.1.symm.trans (hup hm hl hx)) (by simp)
    | child hm' hl' hx'=>
      obtain rfl:=some.inj ((hup hm hl hx).symm.trans (hup hm' hl' hx'))
      rw [ih hm']

theorem isTree : fs.IsTree:=by
  constructor
  case finite => exact fs.live.finite_toSet.subset fun n hn=>(h.reached hn).1
  case lists => exact fun n hn=>⟨kids n,h.path n (h.reached hn).1,h.nodup (h.reached hn).1⟩
  case once =>
    intro n hn
    obtain ⟨p,hp⟩:=h.exists_branch hn
    exact ⟨p,hp,fun q hq=>h.branch_unique hq hp⟩
  case parent =>
    intro n l hn hl c hc
    obtain ⟨hlive,hcur,-⟩:=h.reached hn
    rw [(h.lists_iff hlive).mp hl] at hc
    exact h.parent_of_cur hlive hcur hc
  case names =>
    intro n l hn hl
    obtain ⟨hlive,-,-⟩:=h.reached hn
    rw [(h.lists_iff hlive).mp hl]
    exact h.names n hlive
  case length => exact fun n hn=>Nat.le_of_lt_succ (h.length n (h.reached hn).1)
  case leaf =>
    intro n hn hfile
    obtain ⟨hlive,-,-⟩:=h.reached hn
    exact (h.lists_iff hlive).mpr (h.leaf n hlive hfile).symm

theorem reached_induction {P : ℕ→Prop} (hroot : ∀r,fs.root=some r→P r)
    (hchild : ∀n c,fs.Reached n→P n→c∈kids n→P c) (hn : fs.Reached n) : P n:=by
  obtain ⟨p,hp⟩:=h.exists_branch hn
  clear hn
  induction hp with
  | root hr=>exact hroot _ hr
  | child hm hl hc ih=>
    have hm:=h.reached_of_branch hm
    exact hchild _ _ hm ih ((h.lists_iff (h.reached hm).1).mp hl▸hc)

/-- What is left of the tree when a file was taken out. -/
theorem reached_remove_iff {p : ℕ} (hfile : (fs.node n).type = .file)
    (hp : p∈fs.live) (hparent : (fs.node n).parent=some p) (m : ℕ) :
    ((fs.detach p n).free n).Reached m↔fs.Reached m ∧ m≠n:=by
  have h':=h.remove hfile hp hparent
  have hroot : ((fs.detach p n).free n).root=fs.root:=(Fs.root_free ..).trans (h.detached hp n).root
  have hkids (m) : Function.update kids p ((kids p).erase n) m=if m=p then (kids m).erase n else kids m:=by
    by_cases hmp : m=p
    · subst hmp
      simp
    · simp [hmp]
  constructor
  · refine h'.reached_induction (P:=fun m=>fs.Reached m ∧ m≠n) (fun r hr=>?_) fun a c _ ha hc=>?_
    · rw [hroot] at hr
      refine ⟨.root hr,?_⟩
      rintro rfl
      exact absurd (hfile.symm.trans (h.root _ hr).2.2.1) (by decide)
    · rw [hkids] at hc
      have hmem : c∈kids a:=by
        split_ifs at hc
        exacts [List.mem_of_mem_erase hc,hc]
      refine ⟨h.reached_of_mem ha.1 hmem,?_⟩
      rintro rfl
      obtain ⟨hlive,hcur,-⟩:=h.reached ha.1
      obtain rfl:=some.inj ((h.parent_of_cur hlive hcur hmem).symm.trans hparent)
      rw [if_pos rfl] at hc
      exact (h.nodup hlive).not_mem_erase hc
  · rintro ⟨hm,hmn⟩
    refine h.reached_induction (P:=fun m=>m≠n→((fs.detach p n).free n).Reached m) (fun r hr _=>?_)
      (fun a c ha ih hc hcn=>?_) hm hmn
    · exact .root (hroot.trans hr)
    have han : a≠n:=by
      rintro rfl
      rw [h.leaf a (h.reached ha).1 hfile] at hc
      cases hc
    refine h'.reached_of_mem (ih han) ?_
    rw [hkids]
    split_ifs
    exacts [(List.mem_erase_of_ne hcn).mpr hc,hc]

theorem unlinksOne {cwd : Option ℕ} (hcwd : fs.ValidCwd cwd) (path : List UInt8) : fs.UnlinksOne cwd path:=by
  obtain ⟨e,he⟩ | ⟨n,p,hn,hfile,hparent,hu⟩:=fs.unlink_cases cwd path
  · constructor <;> simp [he]
  have hp:=(h.up n (h.live_of_resolve hcwd hn) p hparent).1
  have hd:=h.detached hp n
  constructor <;> simp only [hu,Fs.node_free]
  case failed => simp
  case named =>
    intro _
    refine ⟨n,hn,h.reached_remove_iff hfile hp hparent,fun m l hm hmn hl=>?_,hd.links⟩
    obtain ⟨hlive,hcur,-⟩:=h.reached hm
    rw [(h.lists_iff hlive).mp hl]
    have hpath:=hd.path m hlive
    have herase : (if m=p then (kids m).erase n else kids m)=(kids m).erase n:=by
      split_ifs with hmp
      · rfl
      · refine (List.erase_of_not_mem fun hmem=>hmp ?_).symm
        exact some.inj ((h.parent_of_cur hlive hcur hmem).symm.trans hparent)
    rw [herase] at hpath
    rw [Fs.Lists,Fs.node_free]
    exact hpath

end

end Shape

def Namespace (fs : Fs) : Prop:=Reach (fun fs=>∃node,fs=Fs.unborn node) step Op.Valid fs

theorem Namespace.exists_shape (h : Namespace fs) : ∃kids cur,Shape fs kids cur:=by
  refine Reach.invariant (I:=fun fs=>∃kids cur,Shape fs kids cur) h ?_ ?_
  · rintro _ ⟨node,rfl⟩
    exact ⟨_,_,Shape.unborn node⟩
  · rintro fs fs' op ⟨kids,cur,hshape⟩ hop hs
    exact hshape.step hop hs

/-- In every state the vnodes form a tree, from which `unlink` takes just the vnode it is asked to
remove. -/
theorem namespace_tree (h : Namespace fs) : fs.IsTree ∧ ∀cwd path,fs.ValidCwd cwd→fs.UnlinksOne cwd path:=by
  obtain ⟨kids,cur,hshape⟩:=h.exists_shape
  exact ⟨hshape.isTree,fun cwd path hcwd=>hshape.unlinksOne hcwd path⟩

/-- A directory and a file are made in `/tmp`, and the file is removed again. -/
theorem namespace_tree_used : ∃fs : Fs,(Namespace fs ∧ fs.live=[6,5,4,3,2,1,0]) ∧
    fs.IsTree ∧ ∀cwd path,fs.ValidCwd cwd→fs.UnlinksOne cwd path:=by
  have hstart : Namespace (Fs.unborn fun _=>⟨[],.file,none,none,none,0⟩):=.start ⟨_,rfl⟩
  obtain ⟨fs,hfs,hlive⟩:=hstart.exists_replay
    [.init (some 1) (some 2) (some 3) (some 4),.mkdir none (slash::(tmpName++[slash,0x61])) (some 5),
      .openPath (some 5) [0x62] oCreate (some 6) true,.create (some 5) [0x63] .file (some 7),.close 6,
      .unlink none (slash::(tmpName++[slash,0x61,slash,0x63]))]
    (fun fs=>fs.live=[6,5,4,3,2,1,0]) (by decide +kernel)
  exact ⟨fs,⟨hfs,hlive⟩,namespace_tree hfs⟩

end Knail.Directory
