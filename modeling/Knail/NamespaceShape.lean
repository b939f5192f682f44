import Knail.TreeChanges
import Knail.Transitions
import Mathlib.Data.List.Perm.Subperm

/-!
# The shape of the tree of names

Every directory has a list of children, which its pointers stand for. The children point back to
their directory, with one exception: after a second `init` the vnode of the terminal belongs to
the new tree, and directories of the old one may still list it.
-/
namespace Knail.Directory

open Function Vfs List Option

variable {fs fs' : Fs} {kids : ℕ→List ℕ} {cur : ℕ→Prop} {n c dir : ℕ}
  {name path : List UInt8} {p r m x d : ℕ} {cwd : Option ℕ}

/-- The lists of children; `cur` holds of the vnodes made since the last `init`. -/
structure Shape (fs : Fs) (kids : ℕ→List ℕ) (cur : ℕ→Prop) : Prop where
  tty : ttyNode∈fs.live ∧ (fs.node ttyNode).type = .file ∧ fs.next ttyNode=none
  path : ∀n∈fs.live,Path fs.next (fs.node n).children (kids n) none
  live : ∀n∈fs.live,∀c∈kids n,c∈fs.live
  parent : ∀n∈fs.live,∀c∈kids n,c=ttyNode ∨ (fs.node c).parent=some n
  up : ∀n∈fs.live,∀p∈(fs.node n).parent,p∈fs.live ∧ (fs.node p).type = .dir
  leaf : ∀n∈fs.live,(fs.node n).type = .file→kids n=[]
  names : ∀n∈fs.live,((kids n).map fun c=>(fs.node c).name).Nodup
  length : ∀n∈fs.live,(fs.node n).name.length<nameSize
  plain : ∀n∈fs.live,slash∉(fs.node n).name ∨ (n≠ttyNode ∧ (fs.node n).parent=none)
  root : ∀r∈fs.root,r∈fs.live ∧ cur r ∧ (fs.node r).type = .dir ∧ (fs.node r).parent=none ∧ fs.next r=none
  cur_kids : ∀n∈fs.live,cur n→∀c∈kids n,cur c
  cur_tty : ∀n∈fs.live,cur n→ttyNode∈kids n→(fs.node ttyNode).parent=some n

namespace Shape

section

variable (h : Shape fs kids cur)
include h

theorem nodup (hn : n∈fs.live) : (kids n).Nodup:=(h.path n hn).nodup_of_none

theorem length_lt_fuel (hn : n∈fs.live) : (kids n).length<fs.fuel:=
  Nat.lt_succ_of_le ((h.nodup hn).subperm (h.live n hn)).length_le

theorem findChild_eq (hn : n∈fs.live) (name : List UInt8) :
    fs.findChild n name=(kids n).find? fun c=>(fs.node c).name=name:=by
  rw [Fs.findChild,walk_eq_find? (h.path n hn) (h.length_lt_fuel hn)]
  rfl

theorem mem_of_findChild (hn : n∈fs.live) (hc : fs.findChild n name=some c) : c∈kids n ∧ (fs.node c).name=name:=by
  rw [h.findChild_eq hn] at hc
  exact ⟨mem_of_find?_eq_some hc,by simpa using find?_some hc⟩

theorem live_of_resolveLoop {fuel : ℕ} {p : List UInt8} (hn : n∈fs.live)
    (hr : fs.resolveLoop fuel p n=some c) : c∈fs.live:=by
  induction fuel generalizing p n with
  | zero=>cases hr
  | succ fuel ih=>
    simp only [Fs.resolveLoop] at hr
    split at hr
    · cases hr
      exact hn
    split at hr
    · exact ih hn hr
    split at hr
    · refine ih ?_ hr
      cases hp : (fs.node n).parent with
      | none=>exact hn
      | some p=>exact (h.up n hn p hp).1
    split at hr
    · cases hr
    split at hr
    · cases hr
    · rename_i d hd
      exact ih (h.live n hn d (h.mem_of_findChild hn hd).1) hr

theorem root_notMem (hr : fs.root=some r) (hm : m∈fs.live) : r∉kids m:=by
  intro hmem
  obtain ⟨-,-,hdir,hparent,-⟩:=h.root r hr
  obtain rfl | hp:=h.parent m hm r hmem
  · exact absurd (h.tty.2.1.symm.trans hdir) (by decide)
  · exact absurd (hparent.symm.trans hp) (by simp)

theorem live_of_getCwd (hcwd : fs.ValidCwd cwd) (hn : fs.getCwd cwd=some n) : n∈fs.live:=by
  cases cwd with
  | some d=>
    obtain rfl:=some.inj hn
    exact (hcwd d rfl).1
  | none=>exact (h.root n hn).1

theorem live_of_resolve (hcwd : fs.ValidCwd cwd) (hn : fs.resolveInternal cwd path=some n) : n∈fs.live:=by
  unfold Fs.resolveInternal at hn
  split at hn
  · cases hn
  split at hn
  · obtain ⟨r,hr,hn⟩:=bind_eq_some_iff.mp hn
    exact h.live_of_resolveLoop (h.root r hr).1 hn
  · obtain ⟨d,hd,hn⟩:=bind_eq_some_iff.mp hn
    exact h.live_of_resolveLoop (h.live_of_getCwd hcwd hd) hn

theorem live_of_resolveParent (hcwd : fs.ValidCwd cwd) {leaf : List UInt8}
    (hn : fs.resolveParent cwd path=(some n,leaf)) : n∈fs.live:=by
  unfold Fs.resolveParent at hn
  split at hn
  · exact h.live_of_getCwd hcwd (congrArg Prod.fst hn)
  · exact h.live_of_resolve hcwd (congrArg Prod.fst hn)

theorem congr (hsame : SameTree fs fs') : Shape fs' kids cur:=by
  have hname (n) : (fs'.node n).name=(fs.node n).name:=by obtain ⟨k,hk⟩:=hsame.node n; rw [hk]
  have htype (n) : (fs'.node n).type=(fs.node n).type:=by obtain ⟨k,hk⟩:=hsame.node n; rw [hk]
  have hparent (n) : (fs'.node n).parent=(fs.node n).parent:=by obtain ⟨k,hk⟩:=hsame.node n; rw [hk]
  have hkids (n) : (fs'.node n).children=(fs.node n).children:=by obtain ⟨k,hk⟩:=hsame.node n; rw [hk]
  have hnext : fs'.next=fs.next:=by
    funext n
    obtain ⟨k,hk⟩:=hsame.node n
    rw [Fs.next,Fs.next,hk]
  constructor <;> simp only [hsame.live,hsame.root,hname,htype,hparent,hkids,hnext]
  exacts [h.tty,h.path,h.live,h.parent,h.up,h.leaf,h.names,h.length,h.plain,h.root,h.cur_kids,h.cur_tty]

/-- A new vnode at the head of the list of a directory. -/
theorem addChild (hdir : dir∈fs.live) (htype : (fs.node dir).type = .dir) (hc : c∉fs.live) (hname : fs.findChild dir (kstrcpy nameSize name)=none) (hplain : slash∉name) (type : VType) :
    Shape (fs.addChild dir c name type) (update (update kids c []) dir (c::kids dir)) (update cur c (cur dir)):=by
  have hcd : c≠dir:=(ne_of_mem_of_not_mem hdir hc).symm
  have hold {m} (hm : m∈fs.live) : m≠c:=ne_of_mem_of_not_mem hm hc
  have hnot {m} (hm : m∈fs.live) : c∉kids m:=fun hmem=>hc (h.live m hm c hmem)
  have hself:=fs.addChild_self hcd name type
  have hnext:=fs.next_addChild hcd name type
  have hkept {m} (hm : m∈fs.live):=fs.addChild_of_ne (hold hm) dir name type
  -- the new lists: of the new vnode, of the directory, of the others
  have hkc : update (update kids c []) dir (c::kids dir) c=[]:=by
    rw [update_of_ne hcd,update_self]
  have hkids {m} (hm : m∈fs.live) : update (update kids c []) dir (c::kids dir) m =
      if m=dir then c::kids m else kids m:=by
    by_cases hmd : m=dir
    · subst hmd
      simp
    · simp [hmd,hold hm]
  constructor
  case tty =>
    refine ⟨mem_cons_of_mem _ h.tty.1,(hkept h.tty.1).2.1.trans h.tty.2.1,?_⟩
    rw [hnext,update_of_ne (hold h.tty.1)]
    exact h.tty.2.2
  case path =>
    rintro m (_ | ⟨_,hm⟩)
    · rw [hself,hkc]
      rfl
    have hpath:=(h.path m hm).update_of_notMem (hnot hm) (fs.node dir).children
    rw [(hkept hm).2.2.2,hkids hm,hnext]
    split_ifs with hmd
    · subst hmd
      exact ⟨rfl,by rwa [update_self]⟩
    · exact hpath
  case live =>
    rintro m (_ | ⟨_,hm⟩) x hx
    · simp [hkc] at hx
    rw [hkids hm] at hx
    split_ifs at hx
    · obtain rfl | hx:=mem_cons.mp hx
      exacts [mem_cons_self,mem_cons_of_mem _ (h.live m hm x hx)]
    · exact mem_cons_of_mem _ (h.live m hm x hx)
  case parent =>
    rintro m (_ | ⟨_,hm⟩) x hx
    · simp [hkc] at hx
    rw [hkids hm] at hx
    have hrest (hx : x∈kids m) : x=ttyNode ∨ ((fs.addChild dir c name type).node x).parent=some m:=by
      rw [(hkept (h.live m hm x hx)).2.2.1]
      exact h.parent m hm x hx
    split_ifs at hx with hmd
    · obtain rfl | hx:=mem_cons.mp hx
      · exact .inr (by rw [hself,hmd])
      · exact hrest hx
    · exact hrest hx
  case up =>
    rintro m (_ | ⟨_,hm⟩) q hq
    · rw [hself] at hq
      obtain rfl:=some.inj hq
      exact ⟨mem_cons_of_mem _ hdir,(hkept hdir).2.1.trans htype⟩
    rw [(hkept hm).2.2.1] at hq
    obtain ⟨hlive,hd⟩:=h.up m hm q hq
    exact ⟨mem_cons_of_mem _ hlive,(hkept hlive).2.1.trans hd⟩
  case leaf =>
    rintro m (_ | ⟨_,hm⟩) hfile
    · exact hkc
    rw [(hkept hm).2.1] at hfile
    rw [hkids hm,if_neg,h.leaf m hm hfile]
    rintro rfl
    exact absurd (htype.symm.trans hfile) (by decide)
  case names =>
    rintro m (_ | ⟨_,hm⟩)
    · simp [hkc]
    have hmap:=map_congr_left fun x hx=>(hkept (h.live m hm x hx)).1
    rw [hkids hm]
    split_ifs with hmd
    · subst hmd
      rw [map_cons,nodup_cons,hmap,hself]
      refine ⟨fun hmem=>?_,h.names m hm⟩
      obtain ⟨x,hx,hxn⟩:=mem_map.mp hmem
      rw [h.findChild_eq hm,find?_eq_none] at hname
      exact hname x hx (by simpa using hxn)
    · rw [hmap]
      exact h.names m hm
  case length =>
    rintro m (_ | ⟨_,hm⟩)
    · rw [hself]
      exact length_kstrcpy_lt name
    · rw [(hkept hm).1]
      exact h.length m hm
  case plain =>
    rintro m (_ | ⟨_,hm⟩)
    · rw [hself]
      exact .inl fun hmem=>hplain (mem_of_mem_take hmem)
    · rw [(hkept hm).1,(hkept hm).2.2.1]
      exact h.plain m hm
  case root =>
    intro r hr
    obtain ⟨hlive,hcur,hd,hp,hn⟩:=h.root r hr
    refine ⟨mem_cons_of_mem _ hlive,?_,(hkept hlive).2.1.trans hd,(hkept hlive).2.2.1.trans hp,?_⟩
    · rwa [update_of_ne (hold hlive)]
    · rwa [hnext,update_of_ne (hold hlive)]
  case cur_kids =>
    rintro m (_ | ⟨_,hm⟩) hcur x hx
    · simp [hkc] at hx
    rw [hkids hm] at hx
    rw [update_of_ne (hold hm)] at hcur
    have hrest (hx : x∈kids m) : update cur c (cur dir) x:=by
      rw [update_of_ne (hold (h.live m hm x hx))]
      exact h.cur_kids m hm hcur x hx
    split_ifs at hx with hmd
    · obtain rfl | hx:=mem_cons.mp hx
      · rwa [update_self,←hmd]
      · exact hrest hx
    · exact hrest hx
  case cur_tty =>
    rintro m (_ | ⟨_,hm⟩) hcur hx
    · simp [hkc] at hx
    rw [hkids hm] at hx
    rw [update_of_ne (hold hm)] at hcur
    rw [(hkept h.tty.1).2.2.1]
    split_ifs at hx
    · obtain hx | hx:=mem_cons.mp hx
      · exact absurd hx (hold h.tty.1)
      · exact h.cur_tty m hm hcur hx
    · exact h.cur_tty m hm hcur hx

theorem eq_of_pred {y : ℕ} (hm : m∈fs.live) (hp : p∈fs.live) (hxm : x∈kids m)
    (hxp : x∈kids p) (hnext : fs.next x=some y) : m=p:=by
  have hx : x≠ttyNode:=by
    rintro rfl
    rw [h.tty.2.2] at hnext
    cases hnext
  have hxm:=(h.parent m hm x hxm).resolve_left hx
  have hxp:=(h.parent p hp x hxp).resolve_left hx
  exact some.inj (hxm.symm.trans hxp)

end

end Shape

/-- Another state with the same vnodes except for their links, from which a vnode was taken out of the
list of a directory. -/
structure Detached (fs fs' : Fs) (kids : ℕ→List ℕ) (p n : ℕ) : Prop where
  live : fs'.live=fs.live
  root : fs'.root=fs.root
  links : ∀m,∃a b,fs'.node m={fs.node m with children:=a,nextSibling:=b}
  path : ∀m∈fs.live,Path fs'.next (fs'.node m).children (if m=p then (kids m).erase n else kids m) none
  last : ∀m,fs.next m=none→fs'.next m=none

namespace Shape

section

variable (h : Shape fs kids cur)
include h

/-- The list is entered behind its first vnode. -/
theorem detached_head (hp : p∈fs.live) (hhead : (fs.node p).children=some n) :
    Detached fs (fs.modify p fun v=>{v with children:=fs.next n}) kids p n:=by
  have hnext : (fs.modify p fun v=>{v with children:=fs.next n}).next=fs.next:=by
    funext m
    by_cases hm : m=p
    · subst hm
      simp [Fs.next,Fs.modify]
    · simp [Fs.next,Fs.modify,hm]
  refine ⟨rfl,rfl,?links,?path,?last⟩
  case links =>
    intro m
    by_cases hm : m=p
    · subst hm
      exact ⟨fs.next n,(fs.node m).nextSibling,by simp [Fs.modify]⟩
    · exact ⟨(fs.node m).children,(fs.node m).nextSibling,by simp [Fs.modify,hm]⟩
  case path =>
    intro m hm
    have hpath:=h.path m hm
    rw [hnext]
    split_ifs with hmp
    · subst hmp
      obtain ⟨rest,hrest⟩ : ∃rest,kids m=n::rest:=by
        cases hk : kids m with
        | nil=>simp [hk,hhead] at hpath
        | cons x rest=>
          rw [hk,Path.cons_iff,hhead] at hpath
          rw [some.inj hpath.1]
          exact ⟨rest,rfl⟩
      rw [hrest] at hpath
      simpa [hrest,Fs.modify] using hpath.2
    · simpa [Fs.modify,hmp] using hpath
  case last => exact fun m hm=>(congrFun hnext m).trans hm

/-- The vnode before it skips it. -/
theorem detached_skip (hp : p∈fs.live) {l r : List ℕ} (hl : kids p=l++x::n::r) :
    Detached fs (fs.modify x fun v=>{v with nextSibling:=fs.next n}) kids p n:=by
  have hpath:=h.path p hp
  have hnodup:=h.nodup hp
  rw [hl] at hpath hnodup
  have hx : fs.next x=some n:=hpath.split.2.1
  have hnext : (fs.modify x fun v=>{v with nextSibling:=fs.next n}).next=update fs.next x (fs.next n):=by
    funext m
    by_cases hm : m=x
    · subst hm
      simp [Fs.next,Fs.modify]
    · simp [Fs.next,Fs.modify,hm]
  have hchildren (m) : ((fs.modify x fun v=>{v with nextSibling:=fs.next n}).node m).children=(fs.node m).children:=by
    by_cases hm : m=x
    · subst hm
      simp [Fs.modify]
    · simp [Fs.modify,hm]
  refine ⟨rfl,rfl,?links,?path,?last⟩
  case links =>
    intro m
    by_cases hm : m=x
    · subst hm
      exact ⟨(fs.node m).children,fs.next n,by simp [Fs.modify]⟩
    · exact ⟨(fs.node m).children,(fs.node m).nextSibling,by simp [Fs.modify,hm]⟩
  case path =>
    intro m hm
    rw [hnext,hchildren]
    split_ifs with hmp
    · subst hmp
      have herase : (kids m).erase n=l++x::r:=by
        have hnl : n∉l++[x]:=by
          intro hmem
          rw [←singleton_append,←append_assoc] at hnodup
          exact (nodup_append.mp hnodup).2.2 n hmem n mem_cons_self rfl
        rw [hl,←singleton_append,←append_assoc,erase_append_right _ hnl,erase_cons_head,
          append_assoc,singleton_append]
      rw [herase]
      exact hpath.skip
    · refine (h.path m hm).update_of_notMem (fun hmem=>hmp ?_) _
      exact h.eq_of_pred hm hp hmem (by simp [hl]) hx
  case last =>
    intro m hm
    rw [hnext,update_of_ne _ _ _,hm]
    rintro rfl
    rw [hx] at hm
    cases hm

theorem detached (hp : p∈fs.live) (n : ℕ) : Detached fs (fs.detach p n) kids p n:=by
  unfold Fs.detach
  split_ifs with hhead
  · exact h.detached_head hp hhead
  have hpath:=h.path p hp
  rw [walk_eq_find? hpath (h.length_lt_fuel hp),join_some]
  by_cases hn : n∈kids p
  · obtain ⟨l,r,hl⟩:=append_of_mem hn
    obtain rfl | ⟨l,x,rfl⟩:=l.eq_nil_or_concat
    · rw [hl] at hpath
      exact absurd hpath.1 hhead
    rw [concat_append] at hl
    rw [hl] at hpath ⊢
    rw [hpath.find?_pred]
    exact h.detached_skip hp hl
  · have hnone : (kids p).find? (fun prev=>decide (fs.next prev=some n))=none:=by
      rw [find?_eq_none]
      intro x hx hnext
      exact hn (hpath.next_mem hx (by simpa using hnext))
    rw [hnone]
    refine ⟨rfl,rfl,fun m=>⟨_,_,rfl⟩,fun m hm=>?_,fun m hm=>hm⟩
    split_ifs with hmp
    · rw [hmp,erase_of_not_mem hn]
      exact hpath
    · exact h.path m hm

/-- A file that is taken out of the list of its directory and freed. -/
theorem remove (hfile : (fs.node n).type = .file) (hp : p∈fs.live) (hparent : (fs.node n).parent=some p) :
    Shape ((fs.detach p n).free n) (update kids p ((kids p).erase n)) cur:=by
  have hd:=h.detached hp n
  have hnode:=(fs.detach p n).node_free n
  have hnext : ((fs.detach p n).free n).next=(fs.detach p n).next:=by
    funext m
    rw [Fs.next,Fs.next,hnode]
  have hroot:=((fs.detach p n).root_free n).trans hd.root
  have hlive {m} (hm : m∈((fs.detach p n).free n).live) : m∈fs.live:=hd.live▸Fs.mem_of_mem_free hm
  have hstays {m} (hm : m∈fs.live) (hmn : m=ttyNode ∨ m≠n) : m∈((fs.detach p n).free n).live:=
    Fs.mem_free (hd.live▸hm) hmn
  have hname (m) : ((fs.detach p n).node m).name=(fs.node m).name:=by obtain ⟨a,b,hm⟩:=hd.links m; rw [hm]
  have htype (m) : ((fs.detach p n).node m).type=(fs.node m).type:=by obtain ⟨a,b,hm⟩:=hd.links m; rw [hm]
  have hpar (m) : ((fs.detach p n).node m).parent=(fs.node m).parent:=by obtain ⟨a,b,hm⟩:=hd.links m; rw [hm]
  have hkids (m) : update kids p ((kids p).erase n) m=if m=p then (kids m).erase n else kids m:=by
    by_cases hmp : m=p
    · subst hmp
      simp
    · simp [hmp]
  have hsub (m) : (update kids p ((kids p).erase n) m).Sublist (kids m):=by
    rw [hkids]
    split_ifs
    exacts [erase_sublist,List.Sublist.refl _]
  have hdir {m} (hm : (fs.node m).type = .dir) : m≠n:=by
    rintro rfl
    exact absurd (hfile.symm.trans hm) (by decide)
  constructor <;> try simp only [hnode,hnext,hroot,hname,htype,hpar]
  case tty => exact ⟨hstays h.tty.1 (.inl rfl),h.tty.2.1,hd.last _ h.tty.2.2⟩
  case path =>
    intro m hm
    rw [hkids]
    exact hd.path m (hlive hm)
  case live =>
    intro m hm x hx
    refine hstays (h.live m (hlive hm) x ((hsub m).subset hx)) ?_
    -- the file was in the list of its directory only, and once
    refine or_iff_not_imp_left.mpr fun hxt hxn=>?_
    subst hxn
    have hmp:=(h.parent m (hlive hm) x ((hsub m).subset hx)).resolve_left hxt
    obtain rfl:=some.inj (hparent.symm.trans hmp)
    rw [update_self] at hx
    exact (h.nodup hp).not_mem_erase hx
  case parent => exact fun m hm x hx=>h.parent m (hlive hm) x ((hsub m).subset hx)
  case up =>
    intro m hm q hq
    obtain ⟨hql,hqd⟩:=h.up m (hlive hm) q hq
    exact ⟨hstays hql (.inr (hdir hqd)),hqd⟩
  case leaf =>
    intro m hm hf
    have hk:=h.leaf m (hlive hm) hf
    exact sublist_nil.mp (hk▸hsub m)
  case names => exact fun m hm=>(h.names m (hlive hm)).sublist ((hsub m).map _)
  case length => exact fun m hm=>h.length m (hlive hm)
  case plain => exact fun m hm=>h.plain m (hlive hm)
  case root =>
    intro r hr
    obtain ⟨hrl,hcur,hrd,hrp,hrn⟩:=h.root r hr
    exact ⟨hstays hrl (.inr (hdir hrd)),hcur,hrd,hrp,hd.last _ hrn⟩
  case cur_kids => exact fun m hm hcur x hx=>h.cur_kids m (hlive hm) hcur x ((hsub m).subset hx)
  case cur_tty => exact fun m hm hcur hx=>h.cur_tty m (hlive hm) hcur ((hsub m).subset hx)

/-- `init` makes a root that is the only vnode of the new tree. -/
theorem newRoot (hr : r∉fs.live) : Shape ⟨r::fs.live,update fs.node r ⟨[slash],.dir,none,none,none,0⟩,some r⟩
    (update kids r []) (· = r):=by
  have hold {m} (hm : m∈fs.live) : m≠r:=ne_of_mem_of_not_mem hm hr
  have hnode {m} (hm : m∈fs.live) :
      update fs.node r ⟨[slash],.dir,none,none,none,0⟩ m=fs.node m:=update_of_ne (hold hm) ..
  have hkids {m} (hm : m∈fs.live) : update kids r [] m=kids m:=update_of_ne (hold hm) ..
  have hkr : update kids r [] r=[]:=update_self ..
  constructor
  case tty => exact ⟨mem_cons_of_mem _ h.tty.1,by simpa [Fs.next,hnode h.tty.1] using h.tty.2⟩
  case path =>
    rintro m (_ | ⟨_,hm⟩)
    · simp
    rw [hkids hm]
    dsimp only
    rw [hnode hm]
    refine (h.path m hm).congr fun x hx=>?_
    simp only [Fs.next,hnode (h.live m hm x hx)]
  case live =>
    rintro m (_ | ⟨_,hm⟩) x hx
    · simp at hx
    · rw [hkids hm] at hx
      exact mem_cons_of_mem _ (h.live m hm x hx)
  case parent =>
    rintro m (_ | ⟨_,hm⟩) x hx
    · simp at hx
    · rw [hkids hm] at hx
      simpa only [hnode (h.live m hm x hx)] using h.parent m hm x hx
  case up =>
    rintro m (_ | ⟨_,hm⟩) q hq
    · simp at hq
    dsimp only at hq
    rw [hnode hm] at hq
    obtain ⟨hlive,hd⟩:=h.up m hm q hq
    exact ⟨mem_cons_of_mem _ hlive,by simpa only [hnode hlive] using hd⟩
  case leaf =>
    rintro m (_ | ⟨_,hm⟩) hfile
    · exact hkr
    · rw [hkids hm]
      exact h.leaf m hm (by simpa only [hnode hm] using hfile)
  case names =>
    rintro m (_ | ⟨_,hm⟩)
    · simp
    rw [hkids hm]
    have hmap : (kids m).map (fun x=>(update fs.node r ⟨[slash],.dir,none,none,none,0⟩ x).name) =
        (kids m).map fun x=>(fs.node x).name:=
      map_congr_left fun x hx=>by rw [hnode (h.live m hm x hx)]
    rw [hmap]
    exact h.names m hm
  case length =>
    rintro m (_ | ⟨_,hm⟩)
    · simp [nameSize]
    · simpa only [hnode hm] using h.length m hm
  case plain =>
    rintro m (_ | ⟨_,hm⟩)
    · exact .inr ⟨(hold h.tty.1).symm,by simp⟩
    · simpa only [hnode hm] using h.plain m hm
  case root =>
    intro q hq
    obtain rfl:=some.inj hq
    simp [Fs.next]
  case cur_kids =>
    rintro m _ rfl x hx
    simp at hx
  case cur_tty =>
    rintro m _ rfl hx
    simp at hx

end

end Shape

/-- The tree while `init` makes the first directories: those are empty. -/
structure Bare (fs : Fs) (kids : ℕ→List ℕ) (cur : ℕ→Prop) (r : ℕ) : Prop where
  shape : Shape fs kids cur
  root : fs.root=some r
  empty : ∀c∈kids r,c≠ttyNode ∧ (fs.node c).type = .dir ∧ kids c=[]
  cur : ∀n,cur n→n=r ∨ n∈kids r

namespace Bare

theorem resolveParent_eq (hroot : fs.root=some r)
    (hlast : lastSlash (slash::name) 0 none=some 0) (hlen : kstrcpy nameSize name=name) :
    fs.resolveParent none (slash::name)=(some r,name):=by
  simp [Fs.resolveParent,hlast,hlen,Fs.resolveInternal,hroot,Fs.resolveLoop,pathNext]

/-- Another directory in the root. -/
theorem createInternal (h : Bare fs kids cur r) (name : List UInt8)
    (hlast : lastSlash (slash::name) 0 none=some 0) (hlen : kstrcpy nameSize name=name) {mem : Option ℕ} (hmem : ∀a∈mem,a∉fs.live) :
    ∃kids' cur',Bare (fs.createInternal none (slash::name) .dir mem).2 kids' cur' r:=by
  obtain ⟨hlive,hcur,hdir,-,-⟩:=h.shape.root r h.root
  unfold Fs.createInternal
  rw [resolveParent_eq h.root hlast hlen]
  dsimp only
  rw [if_neg (not_not.mpr hdir)]
  split_ifs with hfound
  · exact ⟨kids,cur,h⟩
  cases mem with
  | none=>exact ⟨kids,cur,h⟩
  | some c=>
    have hc : c∉fs.live:=hmem c rfl
    have hcr : c≠r:=(ne_of_mem_of_not_mem hlive hc).symm
    refine ⟨_,_,h.shape.addChild hlive hdir hc ?_ ?_ .dir,h.root,?_,?_⟩
    · rw [hlen]
      simpa using hfound
    · exact Fs.notMem_leaf (resolveParent_eq h.root hlast hlen)
    · intro x hx
      rw [update_self] at hx
      obtain rfl | hx:=mem_cons.mp hx
      · refine ⟨(ne_of_mem_of_not_mem h.shape.tty.1 hc).symm,?_,?_⟩
        · simp [fs.addChild_self hcr]
        · simp [hcr]
      obtain ⟨htty,hxd,hxk⟩:=h.empty x hx
      have hxc : x≠c:=ne_of_mem_of_not_mem (h.shape.live r hlive x hx) hc
      have hxr : x≠r:=ne_of_mem_of_not_mem hx (h.shape.root_notMem h.root hlive)
      refine ⟨htty,(fs.addChild_of_ne hxc ..).2.1.trans hxd,?_⟩
      simp [hxr,hxc,hxk]
    · intro x hx
      rw [update_self]
      by_cases hxc : x=c
      · exact .inr (mem_cons.mpr (.inl hxc))
      · rw [update_of_ne hxc] at hx
        exact (h.cur x hx).imp_right (mem_cons_of_mem _)

theorem mem_of_resolve_dev (h : Bare fs kids cur r) (hd : fs.resolveInternal none (slash::devName)=some d) :
    d∈kids r:=by
  obtain ⟨hlive,-,hdir,-,-⟩:=h.shape.root r h.root
  have hnext : pathNext devName=(devName,[]):=by decide
  have hdev : devName≠[] ∧ devName≠[dot] ∧ devName≠[dot,dot]:=by decide
  have hwalk : fs.resolveLoop 5 devName r=fs.findChild r devName:=by
    rw [Fs.resolveLoop,hnext]
    dsimp only
    rw [if_neg hdev.1,if_neg hdev.2.1,if_neg hdev.2.2,if_neg (not_not.mpr hdir)]
    cases fs.findChild r devName <;> rfl
  have hfound : fs.resolveLoop 5 devName r=some d:=by
    simpa [Fs.resolveInternal,h.root,devName] using hd
  rw [hwalk] at hfound
  exact (h.shape.mem_of_findChild hlive hfound).1

/-- The vnode of the terminal becomes the only one of an empty directory. -/
theorem addTty (h : Bare fs kids cur r) (hd : d∈kids r) :
    Shape (fs.addTty d) (update kids d [ttyNode]) (fun n=>cur n ∨ n=ttyNode):=by
  obtain ⟨hrl,hrcur,hrdir,hrpar,hrnext⟩:=h.shape.root r h.root
  obtain ⟨hdt,hddir,hdk⟩:=h.empty d hd
  have hdl:=h.shape.live r hrl d hd
  have hchildren : (fs.node d).children=none:=by
    have hpath:=h.shape.path d hdl
    rwa [hdk] at hpath
  have hnode (m):=fs.node_addTty hdt m
  have hnext : (fs.addTty d).next=fs.next:=by
    funext m
    rw [Fs.next,Fs.next,hnode]
    split_ifs with hmd hmt
    · rw [hmd]
    · rw [hmt,hchildren]
      exact h.shape.tty.2.2.symm
    · rfl
  have hname (m) : ((fs.addTty d).node m).name=(fs.node m).name:=by
    rw [hnode]
    split_ifs with hmd hmt <;> simp_all
  have htype (m) : ((fs.addTty d).node m).type=(fs.node m).type:=by
    rw [hnode]
    split_ifs with hmd hmt <;> simp_all
  have hparent (m) : ((fs.addTty d).node m).parent=if m=ttyNode then some d else (fs.node m).parent:=by
    rw [hnode]
    split_ifs with hmd hmt <;> simp_all
  have hlist (m) : ((fs.addTty d).node m).children=if m=d then some ttyNode else (fs.node m).children:=by
    rw [hnode]
    split_ifs with hmd hmt <;> simp_all
  have hkids (m) : update kids d [ttyNode] m=if m=d then [ttyNode] else kids m:=by
    rw [update_apply]
  have hsub {m x} (hx : x∈update kids d [ttyNode] m) : (m=d ∧ x=ttyNode) ∨ x∈kids m:=by
    rw [hkids] at hx
    split_ifs at hx with hmd
    exacts [.inl ⟨hmd,mem_singleton.mp hx⟩,.inr hx]
  have hlive : (fs.addTty d).live=fs.live:=rfl
  have hroot : (fs.addTty d).root=fs.root:=rfl
  constructor <;> try simp only [hlive,hroot,hnext,hname,htype]
  case tty => exact h.shape.tty
  case path =>
    intro m hm
    rw [hlist,hkids]
    split_ifs
    · exact ⟨rfl,h.shape.tty.2.2⟩
    · exact h.shape.path m hm
  case live =>
    intro m hm x hx
    obtain ⟨-,rfl⟩ | hx:=hsub hx
    exacts [h.shape.tty.1,h.shape.live m hm x hx]
  case parent =>
    intro m hm x hx
    obtain ⟨-,rfl⟩ | hx:=hsub hx
    · exact .inl rfl
    rw [hparent]
    split_ifs with hxt
    exacts [.inl hxt,h.shape.parent m hm x hx]
  case up =>
    intro m hm q hq
    rw [hparent] at hq
    split_ifs at hq
    · obtain rfl:=some.inj hq
      exact ⟨hdl,hddir⟩
    · exact h.shape.up m hm q hq
  case leaf =>
    intro m hm hfile
    rw [hkids,if_neg,h.shape.leaf m hm hfile]
    rintro rfl
    exact absurd (hddir.symm.trans hfile) (by decide)
  case names =>
    intro m hm
    rw [hkids]
    split_ifs
    exacts [nodup_singleton _,h.shape.names m hm]
  case length => exact h.shape.length
  case plain =>
    intro m hm
    rw [hparent]
    split_ifs with hmt
    · exact .inl ((h.shape.plain m hm).resolve_right fun hm=>hm.1 hmt)
    · exact h.shape.plain m hm
  case root =>
    intro q hq
    obtain ⟨hql,hqcur,hqd,hqp,hqn⟩:=h.shape.root q hq
    refine ⟨hql,.inl hqcur,hqd,?_,hqn⟩
    rw [hparent,if_neg,hqp]
    rintro rfl
    exact absurd (h.shape.tty.2.1.symm.trans hqd) (by decide)
  case cur_kids =>
    rintro m hm (hcur | rfl) x hx
    · obtain ⟨-,rfl⟩ | hx:=hsub hx
      exacts [.inr rfl,.inl (h.shape.cur_kids m hm hcur x hx)]
    · rw [hkids,if_neg (Ne.symm hdt),h.shape.leaf _ hm h.shape.tty.2.1] at hx
      cases hx
  case cur_tty =>
    rintro m hm (hcur | rfl) hx
    · rw [hparent,if_pos rfl]
      obtain ⟨rfl,-⟩ | hx:=hsub hx
      · rfl
      -- no directory of the new tree had the terminal before
      obtain rfl | hmr:=h.cur m hcur
      · exact absurd rfl (h.empty _ hx).1
      · rw [(h.empty m hmr).2.2] at hx
        cases hx
    · rw [hkids,if_neg (Ne.symm hdt),h.shape.leaf _ hm h.shape.tty.2.1] at hx
      cases hx

end Bare

namespace Shape

theorem init (h : Shape fs kids cur) {root dev tmp bin : Option ℕ} (hnodup : [root,dev,tmp,bin].reduceOption.Nodup)
    (hmem : ∀a∈[root,dev,tmp,bin].reduceOption,a∉fs.live) (hs : fs.init root dev tmp bin=some fs') :
    ∃kids' cur',Shape fs' kids' cur':=by
  cases root with
  | none=>cases hs
  | some r=>
    have hfresh : r∉fs.live ∧ (∀a∈dev,a∉r::fs.live) ∧ (∀a∈tmp,a∉r::fs.live ∧ dev≠some a) ∧
        ∀a∈bin,(a∉r::fs.live ∧ dev≠some a) ∧ tmp≠some a:=by
      cases dev <;> cases tmp <;> cases bin <;> simp_all [eq_comm]
    obtain ⟨hr,hdev,htmp,hbin⟩:=hfresh
    have hbare : Bare ⟨r::fs.live,update fs.node r ⟨[slash],.dir,none,none,none,0⟩,some r⟩
        (update kids r []) (· = r) r:=by
      refine ⟨h.newRoot hr,rfl,fun c hc=>?_,fun n hn=>.inl hn⟩
      simp at hc
    obtain ⟨_,_,hbare⟩:=hbare.createInternal devName rfl rfl hdev
    obtain ⟨_,_,hbare⟩:=hbare.createInternal tmpName rfl rfl fun a ha=>Fs.notMem_createInternal (htmp a ha)
    obtain ⟨_,_,hbare⟩:=hbare.createInternal binName rfl rfl fun a ha=>
      Fs.notMem_createInternal ⟨Fs.notMem_createInternal (hbin a ha).1,(hbin a ha).2⟩
    obtain ⟨d,hd,rfl⟩:=map_eq_some_iff.mp hs
    exact ⟨_,_,hbare.addTty (hbare.mem_of_resolve_dev hd)⟩

theorem change (h : Shape fs kids cur) (hc : Change fs fs') : ∃kids' cur',Shape fs' kids' cur':=by
  cases hc with
  | kept hsame=>exact ⟨kids,cur,h.congr hsame⟩
  | @added _ cwd path leaf dir c type hcwd hdir htype hfound hc hsame=>
    have hleaf : kstrcpy nameSize leaf=leaf:=by
      have hcopy:=fs.kstrcpy_resolveParent cwd path
      rwa [hdir] at hcopy
    rw [←hleaf] at hfound
    exact ⟨_,_,(h.addChild (h.live_of_resolveParent hcwd hdir) htype hc hfound (Fs.notMem_leaf hdir) type).congr hsame⟩
  | removed hcwd hn hfile hp=>exact ⟨_,cur,h.remove hfile (h.up _ (h.live_of_resolve hcwd hn) _ hp).1 hp⟩

theorem step (h : Shape fs kids cur) {op : Op} (hop : op.Valid fs) (hs : step fs op=some fs') :
    ∃kids' cur',Shape fs' kids' cur':=by
  obtain ⟨root,dev,tmp,bin,rfl⟩ | hc:=step_change hop hs
  · exact h.init hop.1 hop.2 hs
  · exact h.change hc

theorem unborn (node : ℕ→TreeNode) : Shape (Fs.unborn node) (fun _=>[]) fun _=>False:=by
  constructor <;> simp [Fs.unborn,Fs.next,nameSize,ttyName,slash]

end Shape

end Knail.Directory
