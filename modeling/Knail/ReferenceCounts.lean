import Knail.Descriptors
import Mathlib.Order.Interval.Finset.Nat

/-!
# Reference counts of vnodes

The count of a vnode is the number of the descriptors that refer to it among those in slots and those in the hands of
a function. Only `dup2` onto an open descriptor drops one without closing it; the balance holds with a list of those.
-/
namespace Knail.Descriptors

open Function Vfs List Option KernelHeap

variable {s s' : Store} {held held' : List ℕ} {n f : ℕ} {v v' : Node} {created : Option (ℕ×Node)} {copy : Option ℕ}

/-- The counts of a store in which the descriptors of a list are all that there are. -/
structure Balanced (s : Store) (held : List ℕ) : Prop where
  nodup : held.Nodup
  heap : ∀f∈held,heapStart≤f ∧ f<heapMax
  refers : ∀f∈held,∃d,s.files f=some d ∧ (s.nodes d.node).isSome
  all : ∀f,(s.files f).isSome→f∈held
  refcount : ∀n v,s.nodes n=some v→v.vnode.refcount=held.countP (s.refersTo n)

theorem Store.countP_refersTo (s s' : Store) (hf : ∀f∈held,s'.files f=s.files f) (n : ℕ) :
    held.countP (s'.refersTo n)=held.countP (s.refersTo n):=
  countP_congr fun f hmem=>by simp only [Store.refersTo,hf f hmem]

theorem isSome_update {g : ℕ→Option Node} {m : ℕ} (h : (g m).isSome) : (update g n (some v) m).isSome:=by
  rw [update_apply]
  split
  · rfl
  · exact h

namespace Balanced

section

variable (h : Balanced s held)
include h

theorem perm (hp : held.Perm held') : Balanced s held' where
  nodup:=hp.nodup_iff.mp h.nodup
  heap f hf:=h.heap f (hp.mem_iff.mpr hf)
  refers f hf:=h.refers f (hp.mem_iff.mpr hf)
  all f hf:=hp.mem_iff.mp (h.all f hf)
  refcount n v hv:=(h.refcount n v hv).trans (hp.countP_eq _)

theorem length_lt : held.length<4294967295:=by
  have hsub : held.toFinset⊆Finset.Ico heapStart heapMax:=by
    intro f hf
    exact Finset.mem_Ico.mpr (h.heap f (mem_toFinset.mp hf))
  have hcard:=Finset.card_le_card hsub
  rw [toFinset_card_of_nodup h.nodup,Nat.card_Ico] at hcard
  have : heapMax-heapStart=1073741824:=by decide
  omega

theorem countP_lt (p : ℕ→Bool) : held.countP p<4294967295:=
  countP_le_length.trans_lt h.length_lt

theorem notMem_of_none (hf : s.files f=none) : f∉held:=by
  intro hmem
  obtain ⟨d,hd,-⟩:=h.refers f hmem
  simp [hf] at hd

theorem countP_none (hn : s.nodes n=none) : held.countP (s.refersTo n)=0:=by
  refine countP_eq_zero.mpr fun g hg=>?_
  obtain ⟨d,hd,hv⟩:=h.refers g hg
  simp only [Store.refersTo,hd,any_some,decide_eq_true_eq]
  rintro rfl
  simp [hn] at hv

theorem setNode (hr : v.vnode.refcount=held.countP (s.refersTo n)) :
    Balanced {s with nodes:=update s.nodes n (some v)} held where
  nodup:=h.nodup
  heap:=h.heap
  refers g hg:=by
    obtain ⟨d,hd,hv⟩:=h.refers g hg
    exact ⟨d,hd,isSome_update hv⟩
  all:=h.all
  refcount m u hu:=by
    simp only [update_apply] at hu
    split at hu
    case isTrue hm =>
      cases hu
      exact hm▸hr
    case isFalse => exact h.refcount m u hu

theorem addFile (hf : s.files f=none) (hheap : heapStart≤f ∧ f<heapMax) {d : OpenFile}
    (hr : v.vnode.refcount=u32 (held.countP (s.refersTo d.node)+1)) :
    Balanced ⟨update s.nodes d.node (some v),update s.files f (some d)⟩ (f::held):=by
  have hnew:=h.notMem_of_none hf
  have hold (g : ℕ) (hg : g∈held) : update s.files f (some d) g=s.files g:=
    update_of_ne (ne_of_mem_of_not_mem hg hnew) _ _
  have hcount (m : ℕ) : (f::held).countP (Store.refersTo ⟨update s.nodes d.node (some v),
      update s.files f (some d)⟩ m)=held.countP (s.refersTo m)+if d.node=m then 1 else 0:=by
    rw [countP_cons,Store.countP_refersTo s _ hold]
    simp [Store.refersTo]
  refine ⟨nodup_cons.mpr ⟨hnew,h.nodup⟩,?_,fun g hg=>?_,fun g hg=>?_,fun m u hu=>?_⟩
  · simpa using ⟨hheap,h.heap⟩
  · rcases mem_cons.mp hg with rfl | hg
    · exact ⟨d,update_self ..,by simp⟩
    · obtain ⟨e,he,hv⟩:=h.refers g hg
      exact ⟨e,(hold g hg).trans he,isSome_update hv⟩
  · by_cases hgf : g=f
    · exact hgf▸mem_cons_self
    · simp only [update_of_ne hgf] at hg
      exact mem_cons_of_mem _ (h.all g hg)
  · rw [hcount]
    simp only [update_apply] at hu
    split at hu
    case isTrue hm =>
      cases hu
      have:=h.countP_lt (s.refersTo d.node)
      rw [hm,if_pos rfl,hr,u32,Nat.mod_eq_of_lt (by omega)]
    case isFalse hm =>
      rw [if_neg (Ne.symm hm)]
      exact h.refcount m u hu

end

end Balanced

theorem Node.refcount_dropRef (v : Node) : v.dropRef.vnode.refcount=pred32 v.vnode.refcount:=by
  unfold Node.dropRef Node.pipeClose
  dsimp only
  split <;> [split; skip] <;> rfl

/-- A descriptor that is closed no longer counts. -/
theorem Balanced.close (h : Balanced s (f::held)) : Balanced (s.close (some f)) held:=by
  obtain ⟨d,hd,hsome⟩:=h.refers f mem_cons_self
  obtain ⟨v,hv⟩:=isSome_iff_exists.mp hsome
  obtain ⟨hnew,hnodup⟩:=nodup_cons.mp h.nodup
  have hold (g : ℕ) (hg : g∈held) : update s.files f none g=s.files g:=
    update_of_ne (ne_of_mem_of_not_mem hg hnew) _ _
  have hs : s.close (some f)=⟨update s.nodes d.node (some v.dropRef),update s.files f none⟩:=by
    simp [Store.close,hd,Store.modifyNode,hv]
  have hcount (m : ℕ) : (f::held).countP (s.refersTo m) =
      held.countP ((s.close (some f)).refersTo m)+if d.node=m then 1 else 0:=by
    rw [countP_cons,Store.countP_refersTo s (s.close (some f)) (hs▸hold)]
    simp [Store.refersTo,hd]
  refine ⟨hnodup,fun g hg=>h.heap g (mem_cons_of_mem _ hg),fun g hg=>?_,fun g hg=>?_,fun m u hu=>?_⟩
  · obtain ⟨e,he,hu⟩:=h.refers g (mem_cons_of_mem _ hg)
    rw [hs]
    exact ⟨e,(hold g hg).trans he,isSome_update hu⟩
  · rw [hs] at hg
    dsimp only at hg
    rw [update_apply] at hg
    split at hg
    · cases hg
    · rename_i hgf
      exact (mem_cons.mp (h.all g hg)).resolve_left hgf
  · have hlt:=h.countP_lt (s.refersTo m)
    rw [hcount] at hlt
    rw [hs] at hu
    simp only [update_apply] at hu
    split at hu
    case isTrue hm =>
      cases hu
      subst hm
      rw [Node.refcount_dropRef,h.refcount d.node v hv,hcount,if_pos rfl,pred32,u32]
      omega
    case isFalse hm => rw [h.refcount m u hu,hcount,if_neg (Ne.symm hm),Nat.add_zero]

section Supply

variable {mem : List (Option ℕ)} {fd : Option ℕ}

theorem Supply.tail (h : Supply s (fd::mem)) : Supply s mem:=by
  cases fd with
  | none=>exact h
  | some f=>exact ⟨(nodup_cons.mp h.1).2,fun g hg=>h.2 g (mem_cons_of_mem _ hg)⟩

theorem Supply.head (h : Supply s (some f::mem)) :
    s.files f=none ∧ heapStart≤f ∧ f<heapMax:=by
  obtain ⟨hnone,hheap⟩:=h.2 f mem_cons_self
  exact ⟨isNone_iff_eq_none.mp hnone,hheap⟩

theorem Supply.use (h : Supply s (some f::mem)) (nodes : ℕ→Option Node) (d : Option OpenFile) :
    Supply ⟨nodes,update s.files f d⟩ mem:=by
  refine ⟨h.tail.1,fun g hg=>?_⟩
  have hne : g≠f:=ne_of_mem_of_not_mem hg (nodup_cons.mp h.1).1
  simpa only [update_of_ne hne] using h.tail.2 g hg

/-- The result of a function that returns a descriptor: it is in the hands of the caller. -/
def Outcome (held : List ℕ) (mem : List (Option ℕ)) : Except KError ℕ×Store→Prop
  | (.ok f,s)=>Balanced s (f::held) ∧ Supply s mem
  | (.error _,s)=>Balanced s held ∧ Supply s mem

theorem VNode.refcount_truncate (v : VNode) (flags : ℕ) : (v.truncate flags).refcount=v.refcount:=by
  unfold VNode.truncate
  split <;> rfl

section

variable (h : Balanced s held)
include h

theorem Balanced.openNode (hm : Supply s (fd::mem)) (n flags : ℕ) : Outcome held mem (s.openNode n flags fd):=by
  unfold Store.openNode
  cases hv : s.nodes n with
  | none=>exact ⟨h,hm.tail⟩
  | some v=>
    have hr:=h.refcount n v hv
    cases fd with
    | none=>exact ⟨h.setNode ((VNode.refcount_truncate _ _).trans hr),hm.tail⟩
    | some f=>
      obtain ⟨hf,hheap⟩:=hm.head
      refine ⟨h.addFile (d:={(v.vnode.truncate flags).descriptor flags with node:=n}) hf hheap ?_,hm.use _ _⟩
      exact congrArg (fun c=>u32 (c+1)) ((VNode.refcount_truncate _ _).trans hr)

theorem Balanced.vfsOpen (hm : Supply s (fd::mem))
    (hc : ∀p∈created,(s.nodes p.1).isNone ∧ p.2.vnode.refcount=0) (resolved : Option ℕ) (flags : ℕ) :
    Outcome held mem (s.vfsOpen resolved created flags fd):=by
  unfold Store.vfsOpen
  cases resolved with
  | some n=>exact h.openNode hm n flags
  | none=>
    dsimp only
    split
    · exact ⟨h,hm.tail⟩
    cases created with
    | none=>exact ⟨h,hm.tail⟩
    | some p=>
      obtain ⟨hnone,hr⟩:=hc p rfl
      refine (h.setNode ?_).openNode hm p.1 flags
      exact hr.trans (h.countP_none (isNone_iff_eq_none.mp hnone)).symm

theorem Balanced.dup (hm : Supply s (fd::mem)) (hf : f∈held) : Outcome held mem (s.dup f fd):=by
  obtain ⟨d,hd,hsome⟩:=h.refers f hf
  obtain ⟨v,hv⟩:=isSome_iff_exists.mp hsome
  unfold Store.dup
  rw [hd]
  cases fd with
  | none=>exact ⟨h,hm.tail⟩
  | some c=>
    obtain ⟨hc,hheap⟩:=hm.head
    simp only [Store.modifyNode,hv,map_some]
    exact ⟨h.addFile hc hheap (congrArg (fun c=>u32 (c+1)) (h.refcount d.node v hv)),hm.use _ _⟩

theorem Balanced.pipe {node rfd wfd : Option ℕ} (hm : Supply s [rfd,wfd])
    (hn : ∀n∈node,(s.nodes n).isNone) {buffer : Bool} :
    (∃r w s',s.pipe buffer node rfd wfd=(.ok (r,w),s') ∧ Balanced s' (r::w::held)) ∨
    ∃e,s.pipe buffer node rfd wfd=(.error e,s):=by
  unfold Store.pipe
  split
  · rename_i n r w
    left
    refine ⟨r,w,_,rfl,?_⟩
    -- the vnode is made with both references; here they are counted one after the other
    have hzero:=h.countP_none (isNone_iff_eq_none.mp (hn n rfl))
    let counted (c : ℕ) : Node:={ pipeNode with vnode:={pipeNode.vnode with refcount:=c} }
    have h0:=h.setNode (v:=counted 0) hzero.symm
    have h1:=h0.addFile (d:={offset:=0,flags:=vfsRead,dirIndex:=0,node:=n}) (v:=counted 1)
      hm.head.1 hm.head.2 (congrArg (fun c=>u32 (c+1)) hzero).symm
    have hm1:=hm.use (update s.nodes n (some pipeNode))
      (some {offset:=0,flags:=vfsRead,dirIndex:=0,node:=n})
    have h2:=h1.addFile (d:={offset:=0,flags:=vfsWrite,dirIndex:=0,node:=n}) (v:=pipeNode)
      hm1.head.1 hm1.head.2 (congrArg (fun c=>u32 (c+1)) (h1.refcount n (counted 1) (update_self ..)))
    simp only [update_idem] at h2
    exact h2.perm (.swap ..)
  · exact .inr ⟨_,rfl⟩

end

end Supply

namespace FDTable

variable {tab tab' : FDTable} {i : ℕ}

theorem entries_empty : empty.entries=[]:=filled_none

theorem entries_put (hi : i < maxFds) (hn : tab.fds i=none) : (tab.put i f).entries.Perm (f::tab.entries):=
  filled_set hi hn

theorem install_ok (h : tab.install f = .ok (i,tab')) : i < maxFds ∧ tab.fds i=none ∧ tab'=tab.put i f:=by
  unfold install at h
  split at h
  · rename_i j hj
    cases h
    have hmem:=mem_range'_1.mp (mem_of_find?_eq_some hj)
    have hnone:=find?_some hj
    exact ⟨by exact hmem.2,isNone_iff_eq_none.mp hnone,rfl⟩
  · cases h

theorem entries_install (h : tab.install f = .ok (i,tab')) : tab'.entries.Perm (f::tab.entries):=by
  obtain ⟨hi,hn,rfl⟩:=install_ok h
  exact entries_put hi hn

theorem installAt_ok {fd r : ℤ} (h : tab.installAt f fd = .ok (r,tab')) :
    fd.toNat < maxFds ∧ tab.fds fd.toNat=none ∧ tab'=tab.put fd.toNat f:=by
  unfold installAt at h
  split at h
  · cases h
  split at h
  · cases h
  split at h
  · cases h
  rename_i hlt hsome
  cases h
  exact ⟨by omega,by simpa using hsome,rfl⟩

theorem entries_installAt {fd r : ℤ} (h : tab.installAt f fd = .ok (r,tab')) : tab'.entries.Perm (f::tab.entries):=by
  obtain ⟨hi,hn,rfl⟩:=installAt_ok h
  exact entries_put hi hn

theorem remove_ok {fd : ℕ} (h : tab.remove fd = .ok (f,tab')) :
    fd < maxFds ∧ tab.fds fd=some f ∧ tab'.fds=update tab.fds fd none:=by
  unfold remove at h
  split at h
  · cases h
  split at h
  · cases h
  rename_i hf
  cases h
  exact ⟨by omega,hf,rfl⟩

theorem entries_remove {fd : ℕ} (h : tab.remove fd = .ok (f,tab')) : tab.entries.Perm (f::tab'.entries):=by
  obtain ⟨hi,hf,ht⟩:=remove_ok h
  have:=filled_clear hi hf
  rwa [←ht] at this

theorem lookup_ok {fd : ℕ} (h : tab.lookup fd = .ok f) : fd < maxFds ∧ tab.fds fd=some f:=by
  unfold lookup at h
  split at h
  · cases h
  split at h
  · cases h
  rename_i hf
  cases h
  exact ⟨by omega,hf⟩

theorem mem_of_lookup {fd : ℕ} (h : tab.lookup fd = .ok f) : f∈tab.entries:=
  mem_filled.mpr ⟨fd,lookup_ok h⟩

end FDTable

theorem Balanced.closeAll {fs : List ℕ} (h : Balanced s (fs++held)) :
    Balanced (fs.foldl (fun s f=>s.close (some f)) s) held:=by
  induction fs generalizing s with
  | nil=>exact h
  | cons f fs ih=>exact ih h.close

theorem Balanced.free {tab : FDTable} (h : Balanced s (tab.entries++held)) : Balanced (tab.free s) held:=h.closeAll

/-- The copies are in the slots of the new table, or they have all been closed again. -/
def Copied (held : List ℕ) : Option FDTable×Store→Prop
  | (none,s)=>Balanced s held
  | (some tab,s)=>Balanced s (tab.entries++held)

theorem Balanced.cloneLoop {src : FDTable} (hsrc : ∀f∈src.entries,f∈held) {is : List ℕ} (his : is.Nodup) {dst : FDTable} (hdst : ∀i∈is,i < maxFds ∧ dst.fds i=none)
    (h : Balanced s (dst.entries++held)) (hm : Supply s mem) : Copied held (src.cloneLoop is mem dst s):=by
  induction is generalizing mem dst s with
  | nil=>exact h
  | cons i is ih=>
    obtain ⟨hi,his⟩:=nodup_cons.mp his
    obtain ⟨hlt,hnone⟩:=hdst i mem_cons_self
    unfold FDTable.cloneLoop
    cases hf : src.fds i with
    | none=>exact ih his (fun j hj=>hdst j (mem_cons_of_mem _ hj)) h hm
    | some f=>
      have hmem : f∈dst.entries++held:=mem_append_right _ (hsrc f (mem_filled.mpr ⟨i,hlt,hf⟩))
      have hm' : Supply s (mem.head?.join::mem.tail):=by cases mem <;> exact hm
      have hdup:=h.dup hm' hmem
      dsimp only
      generalize s.dup f mem.head?.join=r at hdup ⊢
      rcases r with ⟨e | c,s1⟩
      · exact hdup.1.free
      refine ih his (fun j hj=>?_) (hdup.1.perm ?_) hdup.2
      · obtain ⟨hjlt,hjn⟩:=hdst j (mem_cons_of_mem _ hj)
        exact ⟨hjlt,(update_of_ne (ne_of_mem_of_not_mem hj hi) _ _).trans hjn⟩
      · exact ((FDTable.entries_put hlt hnone).append_right held).symm

theorem Balanced.clone (h : Balanced s held) (hm : Supply s mem) {src : Option FDTable}
    (hsrc : ∀tab∈src,∀f∈tab.entries,f∈held) (table : Bool) : Copied held (FDTable.clone src table mem s):=by
  cases src with
  | none=>exact h
  | some src=>
    cases table with
    | false=>exact h
    | true=>
      refine Balanced.cloneLoop (hsrc src rfl) nodup_range (fun i hi=>⟨mem_range.mp hi,rfl⟩) ?_ hm
      rwa [FDTable.entries_empty]

/-- The counts are right when no function is running: the descriptors are those in slots and
those that were lost. -/
structure WellCounted (lost : List ℕ) (w : World) : Prop where
  tasks_nodup : w.tasks.Nodup
  balanced : Balanced w.store (w.held++lost)

section World

variable {w w' : World} {t : ℕ} {tab tab' : FDTable} {lost : List ℕ}

/-- The descriptors in the slots of the other tasks, and those that were lost. -/
def World.others (w : World) (lost : List ℕ) (t : ℕ) : List ℕ:=
  ((w.tasks.erase t).flatMap fun t=>(w.table t).entries)++lost

theorem World.fdTable_eq_some (h : w.fdTable t=some tab) : t∈w.tasks ∧ w.table t=tab:=by
  unfold World.fdTable at h
  split at h
  case isTrue ht => exact ⟨ht,some.inj h⟩
  case isFalse => cases h

theorem World.held_perm (ht : w.fdTable t=some tab) : (w.held++lost).Perm (tab.entries++w.others lost t):=by
  obtain ⟨hmem,rfl⟩:=World.fdTable_eq_some ht
  have hp:=flatMap_perm_erase hmem fun t=>(w.table t).entries
  rw [World.others,←append_assoc]
  exact hp.append_right lost

namespace WellCounted

section

variable (h : WellCounted lost w)
include h

theorem split (ht : w.fdTable t=some tab) : Balanced w.store (tab.entries++w.others lost t):=
  h.balanced.perm (World.held_perm ht)

theorem setStore (hb : Balanced s (w.held++lost)) : WellCounted lost (w.setStore s):=⟨h.tasks_nodup,hb⟩

theorem rejoin (ht : w.fdTable t=some tab) (hb : Balanced s (tab.entries++w.others lost t)) :
    WellCounted lost (w.setStore s):=
  h.setStore (hb.perm (World.held_perm ht).symm)

theorem join (ht : w.fdTable t=some tab) (hb : Balanced s (tab'.entries++w.others lost t)) :
    WellCounted lost ((w.setTable t tab').setStore s):=by
  have hmem:=(World.fdTable_eq_some ht).1
  have hnew : (w.setTable t tab').fdTable t=some tab':=by
    simp [World.fdTable,World.setTable,hmem]
  have hoth : (w.setTable t tab').others lost t=w.others lost t:=
    congrArg (· ++ lost)
      (flatMap_erase_congr h.tasks_nodup t fun j hj=>congrArg FDTable.entries (update_of_ne hj _ _))
  refine ⟨h.tasks_nodup,hb.perm ?_⟩
  rw [←hoth]
  exact (World.held_perm hnew).symm

theorem installOrClose (ht : w.fdTable t=some tab)
    (hb : Balanced s (f::(tab.entries++w.others lost t))) : WellCounted lost ((w.setStore s).installOrClose t tab f).2:=by
  unfold World.installOrClose
  cases hi : tab.install f with
  | error e=>exact h.rejoin ht hb.close
  | ok p=>exact h.join ht (hb.perm ((FDTable.entries_install hi).append_right _).symm)

theorem handleOpen {path : Bool} {resolved : Option ℕ} {flags : ℕ} {fd : Option ℕ} (hm : Supply w.store [fd])
    (hc : ∀p∈created,(w.store.nodes p.1).isNone ∧ p.2.vnode.refcount=0) :
    WellCounted lost (w.handleOpen t path resolved created flags fd).2:=by
  unfold World.handleOpen
  split
  case isFalse => exact h
  cases ht : w.fdTable t with
  | none=>exact h
  | some tab=>
    have hopen:=(h.split ht).vfsOpen hm hc resolved flags
    generalize w.store.vfsOpen resolved created flags fd=r at hopen ⊢
    rcases r with ⟨e | f,s1⟩
    · exact h.rejoin ht hopen.1
    · exact h.installOrClose ht hopen.1

theorem handleClose {fd : ℕ} : WellCounted lost (w.handleClose t fd).2:=by
  unfold World.handleClose
  cases ht : w.fdTable t with
  | none=>exact h
  | some tab=>
    dsimp only
    cases hr : tab.remove fd with
    | error e=>exact h
    | ok p=>exact h.join ht ((h.split ht).perm ((FDTable.entries_remove hr).append_right _)).close

theorem handleDup {fd : ℕ} (hm : Supply w.store [copy]) : WellCounted lost (w.handleDup t fd copy).2:=by
  unfold World.handleDup
  cases ht : w.fdTable t with
  | none=>exact h
  | some tab=>
    dsimp only
    cases hl : tab.lookup fd with
    | error e=>exact h
    | ok f=>
      have hdup:=(h.split ht).dup hm (mem_append_left _ (FDTable.mem_of_lookup hl))
      dsimp only
      generalize w.store.dup f copy=r at hdup ⊢
      rcases r with ⟨e | c,s1⟩
      · exact h.rejoin ht hdup.1
      · exact h.installOrClose ht hdup.1

theorem dupInto (ht : w.fdTable t=some tab) (hf : f∈tab.entries) {newfd : ℕ}
    (hm : Supply w.store [copy]) : WellCounted lost (w.dupInto t tab f newfd copy).2:=by
  have hdup:=(h.split ht).dup hm (mem_append_left _ hf)
  unfold World.dupInto
  generalize w.store.dup f copy=r at hdup ⊢
  rcases r with ⟨e | c,s1⟩
  · exact h.rejoin ht hdup.1
  dsimp only
  cases hi : tab.installAt c (toI32 newfd) with
  | error e=>exact h.rejoin ht hdup.1.close
  | ok p=>exact h.join ht (hdup.1.perm ((FDTable.entries_installAt hi).append_right _).symm)

theorem lose (ht : w.fdTable t=some tab) {g : ℕ} (hp : tab.entries.Perm (g::tab'.entries)) :
    WellCounted (g::lost) (w.setTable t tab'):=by
  have hmem:=(World.fdTable_eq_some ht).1
  have hnew : (w.setTable t tab').fdTable t=some tab':=by
    simp [World.fdTable,World.setTable,hmem]
  have hoth : (w.setTable t tab').others lost t=w.others lost t:=
    congrArg (· ++ lost)
      (flatMap_erase_congr h.tasks_nodup t fun j hj=>congrArg FDTable.entries (update_of_ne hj _ _))
  refine ⟨h.tasks_nodup,(h.split ht).perm ((hp.append_right _).trans ?_)⟩
  refine (List.Perm.cons g ?_).trans perm_middle.symm
  rw [←hoth]
  exact (World.held_perm hnew).symm

theorem handleDup2 {oldfd newfd : ℕ} (hm : Supply w.store [copy]) :
    ∃lost',WellCounted lost' (w.handleDup2 t oldfd newfd copy).2 ∧
    ((∀tab∈w.fdTable t,oldfd≠newfd→(tab.lookup oldfd).isOk→(tab.lookup newfd).isOk=false)→lost'=lost):=by
  unfold World.handleDup2
  cases ht : w.fdTable t with
  | none=>exact ⟨lost,h,fun _=>rfl⟩
  | some tab=>
    dsimp only
    split
    case isTrue => exact ⟨lost,h,fun _=>rfl⟩
    case isFalse hne =>
      cases hl : tab.lookup oldfd with
      | error e=>exact ⟨lost,h,fun _=>rfl⟩
      | ok f=>
        cases hr : tab.remove newfd with
        | error e=>exact ⟨lost,h.dupInto ht (FDTable.mem_of_lookup hl) hm,fun _=>rfl⟩
        | ok p=>
          obtain ⟨g,tab1⟩:=p
          obtain ⟨hlt,hg,hfds⟩:=FDTable.remove_ok hr
          have hw:=h.lose ht (FDTable.entries_remove hr)
          have ht1 : (w.setTable t tab1).fdTable t=some tab1:=by
            simp [World.fdTable,World.setTable,(World.fdTable_eq_some ht).1]
          have hf : f∈tab1.entries:=by
            obtain ⟨hold,hf⟩:=FDTable.lookup_ok hl
            refine mem_filled.mpr ⟨oldfd,hold,?_⟩
            rw [hfds,update_of_ne hne,hf]
          refine ⟨g::lost,hw.dupInto ht1 hf hm,fun hc=>?_⟩
          have hclosed:=hc tab rfl hne (by rw [hl]; rfl)
          simp [FDTable.lookup,Nat.not_le.mpr hlt,hg,Except.isOk,Except.toBool] at hclosed

theorem handlePipe {fds buffer : Bool} {node rfd wfd : Option ℕ} (hm : Supply w.store [rfd,wfd])
    (hn : ∀n∈node,(w.store.nodes n).isNone) : WellCounted lost (w.handlePipe t fds buffer node rfd wfd).2:=by
  unfold World.handlePipe
  split
  case isFalse => exact h
  cases ht : w.fdTable t with
  | none=>exact h
  | some tab=>
    rcases (h.split ht).pipe hm hn with ⟨r,wr,s1,he,hb⟩ | ⟨e,he⟩
    case inr =>
      rw [he]
      exact h
    rw [he]
    dsimp only
    cases hi : tab.install r with
    | error e=>exact h.rejoin ht hb.close.close
    | ok p=>
      obtain ⟨i,tab1⟩:=p
      have hb1:=hb.perm ((List.Perm.swap ..).trans (((FDTable.entries_install hi).append_right _).symm.cons _))
      dsimp only
      cases hj : tab1.install wr with
      | ok q=>exact h.join ht (hb1.perm ((FDTable.entries_install hj).append_right _).symm)
      | error e=>
        -- the first end sits in its slot, and is taken out again
        obtain ⟨hlt,hnone,rfl⟩:=FDTable.install_ok hi
        have hfd : (tab.put i r).fds i=some r:=update_self ..
        obtain ⟨tab2,hr⟩ : ∃tab2,(tab.put i r).remove i = .ok (r,tab2):=by
          rw [FDTable.remove,if_neg (Nat.not_le.mpr hlt),hfd]
          exact ⟨_,rfl⟩
        rw [hr]
        refine h.join ht (Balanced.close (Balanced.close ?_))
        exact hb1.perm (((FDTable.entries_remove hr).append_right _).cons _ |>.trans (.swap ..))

theorem exit : WellCounted lost (w.exit t):=by
  unfold World.exit
  cases ht : w.fdTable t with
  | none=>exact h
  | some tab=>exact ⟨h.tasks_nodup.erase t,(h.split ht).free⟩

theorem addTask (ht : t∉w.tasks) (hb : Balanced s (tab.entries++(w.held++lost))) :
    WellCounted lost {store:=s,tasks:=t::w.tasks,table:=update w.table t tab}:=by
  refine ⟨nodup_cons.mpr ⟨ht,h.tasks_nodup⟩,?_⟩
  rw [World.held,flatMap_cons,append_assoc]
  dsimp only
  rw [update_self]
  have hold : (w.tasks.flatMap fun j=>(update w.table t tab j).entries)=w.held:=
    flatMap_congr fun j hj=>by rw [update_of_ne (ne_of_mem_of_not_mem hj ht)]
  rwa [hold]

theorem fork {child : ℕ} {table : Bool} (hm : Supply w.store mem)
    (hchild : child∉w.tasks) : WellCounted lost (w.fork t child table mem):=by
  have hsrc : ∀tab∈w.fdTable t,∀f∈tab.entries,f∈w.held++lost:=by
    intro tab ht f hf
    exact (World.held_perm ht).mem_iff.mpr (mem_append_left _ hf)
  have hclone:=h.balanced.clone hm hsrc table
  unfold World.fork
  generalize FDTable.clone (w.fdTable t) table mem w.store=r at hclone ⊢
  rcases r with ⟨_ | tab,s1⟩
  · exact h.setStore hclone
  · exact h.addTask hchild hclone

end

end WellCounted

/-- The descriptor that a function has returned, if it has. -/
def inHand : Except KError ℕ→List ℕ
  | .ok f=>[f]
  | .error _=>[]

theorem Outcome.inHand {r : Except KError ℕ} (h : Outcome held mem (r,s)) :
    Balanced s (inHand r++held) ∧ Supply s mem:=by
  cases r <;> exact h

theorem FDTable.installOk_spec (tab : FDTable) (r : Except KError ℕ) {i : ℕ} (hi : i < maxFds) (hn : tab.fds i=none) :
    (tab.installOk r i).entries.Perm (inHand r++tab.entries) ∧ ∀j≠i,(tab.installOk r i).fds j=tab.fds j:=by
  cases r with
  | error e=>exact ⟨.rfl,fun _ _=>rfl⟩
  | ok f=>
    have hput : tab.installAt f i = .ok (i,tab.put i f):=by
      rw [installAt,if_neg (by omega),if_neg (by simpa using hi),Int.toNat_natCast,hn]
      rfl
    simp only [installOk,hput]
    exact ⟨entries_put hi hn,fun j hj=>update_of_ne hj _ _⟩

theorem WellCounted.spawn (h : WellCounted lost w) {tty : Option ℕ} {mem : Option ℕ×Option ℕ×Option ℕ}
    (hm : Supply w.store [mem.1,mem.2.1,mem.2.2]) (ht : t∉w.tasks) : WellCounted lost (w.spawn t tty mem):=by
  obtain ⟨m0,m1,m2⟩:=mem
  have hc (s : Store) : ∀p∈(none : Option (ℕ×Node)),(s.nodes p.1).isNone ∧ p.2.vnode.refcount=0:=by
    simp
  unfold World.spawn initStdio
  have h0:=h.balanced.vfsOpen hm (hc _) tty vfsRead
  generalize w.store.vfsOpen tty none vfsRead m0=o0 at h0 ⊢
  obtain ⟨r0,s0⟩:=o0
  obtain ⟨hb0,hm0⟩:=h0.inHand
  have h1:=hb0.vfsOpen hm0 (hc _) tty vfsWrite
  dsimp only
  generalize s0.vfsOpen tty none vfsWrite m1=o1 at h1 ⊢
  obtain ⟨r1,s1⟩:=o1
  obtain ⟨hb1,hm1⟩:=h1.inHand
  have h2:=hb1.vfsOpen hm1 (hc _) tty vfsWrite
  generalize s1.vfsOpen tty none vfsWrite m2=o2 at h2 ⊢
  obtain ⟨r2,s2⟩:=o2
  obtain ⟨hb2,-⟩:=h2.inHand
  -- the slots are empty when they are filled
  obtain ⟨hp0,hf0⟩:=FDTable.installOk_spec .empty r0 (i:=0) (by decide) rfl
  obtain ⟨hp1,hf1⟩:=FDTable.installOk_spec _ r1 (by decide) (hf0 1 (by decide))
  obtain ⟨hp2,-⟩:=FDTable.installOk_spec _ r2 (by decide) ((hf1 2 (by decide)).trans (hf0 2 (by decide)))
  rw [FDTable.entries_empty,append_nil] at hp0
  refine h.addTask ht (hb2.perm ?_)
  have hp:=((hp2.trans ((hp1.trans (hp0.append_left _)).append_left _)).append_right (w.held++lost)).symm
  rw [append_assoc,append_assoc] at hp
  exact hp

end World

/-- No `dup2` onto a descriptor that is open. -/
def Op.Vacant : Op→World→Prop
  | .dup2 t oldfd newfd _, w=>
    ∀tab∈w.fdTable t,oldfd≠newfd→(tab.lookup oldfd).isOk→(tab.lookup newfd).isOk=false
  | _, _=>True

instance : (op : Op)→(w : World)→Decidable (op.Vacant w)
  | .dup2 t oldfd newfd _, w=>inferInstanceAs (Decidable (∀tab∈w.fdTable t,
      oldfd≠newfd→(tab.lookup oldfd).isOk→(tab.lookup newfd).isOk=false))
  | .openPath .., _ | .close .., _ | .dup .., _ | .pipe .., _ | .exit .., _ | .fork .., _ | .spawn .., _=>
    inferInstanceAs (Decidable True)

theorem Booted.wellCounted (h : Booted w) : WellCounted [] w:=by
  have hheld : w.held=[]:=by rw [World.held,h.tasks,flatMap_nil]
  refine ⟨by simp [h.tasks],?_⟩
  rw [hheld]
  exact ⟨nodup_nil,by simp,by simp,fun f hf=>by simp [h.files f] at hf,
    fun n v hv=>by rw [h.refcount n v hv,append_nil,countP_nil]⟩

theorem WellCounted.step {op : Op} (h : WellCounted lost w) (hv : op.Valid w)
    (hs : step w op=some w') : ∃lost',WellCounted lost' w' ∧ (op.Vacant w→lost'=lost):=by
  cases op <;> cases hs
  case openPath => exact ⟨lost,h.handleOpen hv.1 hv.2,fun _=>rfl⟩
  case close => exact ⟨lost,h.handleClose,fun _=>rfl⟩
  case dup => exact ⟨lost,h.handleDup hv,fun _=>rfl⟩
  case dup2 => exact h.handleDup2 hv
  case pipe => exact ⟨lost,h.handlePipe hv.1 hv.2,fun _=>rfl⟩
  case exit => exact ⟨lost,h.exit,fun _=>rfl⟩
  case fork => exact ⟨lost,h.fork hv.1 hv.2,fun _=>rfl⟩
  case spawn => exact ⟨lost,h.spawn hv.1 hv.2,fun _=>rfl⟩

theorem WellCounted.references (h : WellCounted [] w) (n : ℕ) : w.references n=w.held.countP (w.store.refersTo n):=by
  have hnodup : w.held.Nodup:=w.held.append_nil▸h.balanced.nodup
  rw [World.references,countP_eq_length_filter,←toFinset_card_of_nodup (hnodup.filter _),toFinset_filter]

/-- In every run without a `dup2` onto an open descriptor the vnodes count their descriptors. -/
theorem refcount_eq_references {w : World} (h : Reach Booted step (fun op w=>op.Valid w ∧ op.Vacant w) w) {n : ℕ}
    {v : Node} (hv : w.store.nodes n=some v) : v.vnode.refcount=w.references n:=by
  have hw : WellCounted [] w:=by
    refine h.invariant (fun _=>Booted.wellCounted) fun _ _ _ hi hok hs=>?_
    obtain ⟨lost',hw,hlost⟩:=hi.step hok.1 hs
    exact hlost hok.2▸hw
  rw [hw.references,←w.held.append_nil]
  exact hw.balanced.refcount n v hv

def idleNode (ops : FileOps) : Node where
  vnode:={name:=[],type:=.file,size:=0,data:=none,dataCapacity:=0,refcount:=0,priv:=none}
  ops:=some ops
  pipe:=none

def bootedWorld : World where
  store:={nodes:=fun n=>if n=0 then some (idleNode .tty) else if n=1 then some (idleNode .ramfs) else none
          files:=fun _=>none}
  tasks:=[]
  table:=fun _=>.empty

theorem bootedWorld_booted : Booted bootedWorld where
  tasks:=rfl
  files _:=rfl
  refcount n v hv:=by
    simp only [bootedWorld] at hv
    split at hv
    · cases hv
      rfl
    · split at hv <;> cases hv
      rfl

def fileAt (i : ℕ) : Option ℕ:=some (heapStart+64*i)

/-- Task 7 opens the file twice, as descriptors 3 and 4. -/
def opened : List Op:=
  [.spawn 7 (some 0) (fileAt 1,fileAt 2,fileAt 3),.openPath 7 true (some 1) none oRdwr (fileAt 4),
   .openPath 7 true (some 1) none oRdwr (fileAt 5)]

theorem refcount_eq_references_forked : ∃w v,Reach Booted step (fun op w=>op.Valid w ∧ op.Vacant w) w ∧
    w.store.nodes 1=some v ∧ v.vnode.refcount=w.references 1 ∧ w.references 1=4:=by
  have hboot : Reach Booted step (fun op w=>op.Valid w ∧ op.Vacant w) bootedWorld:=.start bootedWorld_booted
  obtain ⟨w,hw,hsome,href⟩:=hboot.exists_replay
    (opened++[.dup2 7 3 9 (fileAt 6),.fork 7 8 true ([7,8,9,10,11,12].map fileAt),.close 7 4,.close 8 4])
    (fun w=>(w.store.nodes 1).isSome ∧ w.references 1=4) (by decide +kernel)
  obtain ⟨v,hv⟩:=isSome_iff_exists.mp hsome
  exact ⟨w,v,hw,hv,refcount_eq_references hw hv,href⟩

/-- `dup2(3, 4)` loses the descriptor in slot 4: the file counts three descriptors, and there are two. -/
theorem dup2_leaks_reference : ∃w,Reach Booted step Op.Valid w ∧
    (w.store.nodes 1).map (·.vnode.refcount)=some 3 ∧ w.references 1=2:=
  Reach.exists_replay (.start bootedWorld_booted) (opened++[.dup2 7 3 4 (fileAt 6)])
    (fun w=>(w.store.nodes 1).map (·.vnode.refcount)=some 3 ∧ w.references 1=2) (by decide +kernel)

end Knail.Descriptors
