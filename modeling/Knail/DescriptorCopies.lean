import Knail.DescriptorOwnership

/-!
# A copy of a descriptor table that fails

`fdtable::clone` closes the descriptors that it has made when there is no memory for the next one. The store is then
the one before the call, since the originals are still open.
-/
namespace Knail.Descriptors

open Function List

variable {s s' s₀ : Store} {held cs cs' : List ℕ} {c f : ℕ}

def Node.uncounted (v : Node) : Node:={ v with vnode:={v.vnode with refcount:=0} }

/-- The store `s` differs from `s₀` by copies `cs` of descriptors that are held. -/
structure WithCopies (s₀ : Store) (held : List ℕ) (s : Store) (cs : List ℕ) : Prop where
  files : ∀g,g∉cs→s.files g=s₀.files g
  fresh : ∀c∈cs,s₀.files c=none
  source : ∀c∈cs,∃d,s.files c=some d ∧ ∃f∈held,s₀.refersTo d.node f
  nodes : ∀n,(s.nodes n).map Node.uncounted=(s₀.nodes n).map Node.uncounted

namespace WithCopies

theorem refl (s : Store) (held : List ℕ) : WithCopies s held s []:=⟨by simp,by simp,by simp,fun _=>rfl⟩

theorem perm (h : WithCopies s₀ held s cs) (hp : cs.Perm cs') : WithCopies s₀ held s cs' where
  files g hg:=h.files g fun hg'=>hg (hp.mem_iff.mp hg')
  fresh c hc:=h.fresh c (hp.mem_iff.mpr hc)
  source c hc:=h.source c (hp.mem_iff.mpr hc)
  nodes:=h.nodes

/-- Another descriptor is copied. -/
theorem dup (h : WithCopies s₀ held s cs) (h0 : Balanced s₀ held) (hf : f∈held) (hc : s.files c=none) :
    ∃s',s.dup f (some c)=(.ok c,s') ∧ WithCopies s₀ held s' (c::cs):=by
  have hcs : c∉cs:=by
    intro hmem
    obtain ⟨d,hd,-⟩:=h.source c hmem
    simp [hc] at hd
  have hfcs : f∉cs:=fun hmem=>h0.notMem_of_none (h.fresh f hmem) hf
  obtain ⟨d,hd,-⟩:=h0.refers f hf
  have hd' : s.files f=some d:=(h.files f hfcs).trans hd
  refine ⟨{s.modifyNode d.node Node.addRef with files:=update s.files c (some d)},by simp only [Store.dup,hd'],?_⟩
  constructor
  case files =>
    intro g hg
    obtain ⟨hgc,hg⟩:=not_or.mp (mt mem_cons.mpr hg)
    exact (update_of_ne hgc _ _).trans (h.files g hg)
  case fresh =>
    intro g hg
    rcases mem_cons.mp hg with rfl | hg
    · exact (h.files g hcs).symm.trans hc
    · exact h.fresh g hg
  case source =>
    intro g hg
    rcases mem_cons.mp hg with rfl | hg
    · exact ⟨d,update_self ..,f,hf,by simp [Store.refersTo,hd]⟩
    · obtain ⟨e,he,hsrc⟩:=h.source g hg
      exact ⟨e,(update_of_ne (ne_of_mem_of_not_mem hg hcs) _ _).trans he,hsrc⟩
  case nodes =>
    intro n
    rw [←h.nodes n]
    by_cases hn : n=d.node
    · subst hn
      simp only [Store.modifyNode,update_self,Option.map_map]
      rfl
    · simp only [Store.modifyNode,update_of_ne hn]

/-- A copy is closed. Its vnode is still referred to by the original. -/
theorem close (h : WithCopies s₀ held s (c::cs)) (h0 : Balanced s₀ held) (hb : Balanced s (c::cs++held)) :
    WithCopies s₀ held (s.close (some c)) cs:=by
  obtain ⟨d,hd,f,hf,href⟩:=h.source c mem_cons_self
  have hc0 : s₀.files c=none:=h.fresh c mem_cons_self
  have hccs : c∉cs:=fun hmem=>(nodup_cons.mp hb.nodup).1 (mem_append_left _ hmem)
  have hs : s.close (some c)={s.modifyNode d.node Node.dropRef with files:=update s.files c none}:=by
    simp only [Store.close,hd]
  rw [hs]
  constructor
  case files =>
    intro g hg
    by_cases hgc : g=c
    · subst hgc
      exact (update_self ..).trans hc0.symm
    · exact (update_of_ne hgc _ _).trans (h.files g (by simp [hgc,hg]))
  case fresh => exact fun g hg=>h.fresh g (mem_cons_of_mem _ hg)
  case source =>
    intro g hg
    obtain ⟨e,he,hsrc⟩:=h.source g (mem_cons_of_mem _ hg)
    exact ⟨e,(update_of_ne (ne_of_mem_of_not_mem hg hccs) _ _).trans he,hsrc⟩
  case nodes =>
    intro n
    rw [←h.nodes n]
    by_cases hn : n=d.node
    · subst hn
      simp only [Store.modifyNode,update_self,Option.map_map]
      cases hv : s.nodes d.node with
      | none=>rfl
      | some v=>
        -- the copy and the original make two references at least
        have hfcs : f∉c::cs:=fun hmem=>h0.notMem_of_none (h.fresh f hmem) hf
        have hf' : s.refersTo d.node f=true:=by
          rw [Store.refersTo,h.files f hfcs]
          exact href
        have hcount:=hb.refcount d.node v hv
        have hlt:=hb.countP_lt (s.refersTo d.node)
        have hpos : 0<(cs++held).countP (s.refersTo d.node):=
          countP_pos_iff.mpr ⟨f,mem_append_right _ hf,hf'⟩
        rw [cons_append,countP_cons,if_pos (by simp [Store.refersTo,hd])] at hcount hlt
        have hne : pred32 v.vnode.refcount≠0:=by
          rw [hcount,pred32,u32]
          omega
        simp only [Option.map_some,comp_apply,Node.dropRef,hne,false_and,if_false]
        rfl
    · simp only [Store.modifyNode,update_of_ne hn]

theorem eq (h : WithCopies s₀ held s []) (h0 : Balanced s₀ held) (hb : Balanced s held) : s=s₀:=by
  have hfiles : s.files=s₀.files:=funext fun g=>h.files g not_mem_nil
  have hnodes : s.nodes=s₀.nodes:=by
    funext n
    have hn:=h.nodes n
    cases hv : s.nodes n with
    | none=>
      rw [hv,Option.map_none,eq_comm,Option.map_eq_none_iff] at hn
      exact hn.symm
    | some v=>
      rw [hv,Option.map_some,eq_comm,Option.map_eq_some_iff] at hn
      obtain ⟨v0,hv0,he⟩:=hn
      have hcount : v.vnode.refcount=v0.vnode.refcount:=by
        rw [hb.refcount n v hv,h0.refcount n v0 hv0]
        exact Store.countP_refersTo s₀ s (fun g _=>congrFun hfiles g) n
      rw [hv0]
      obtain ⟨⟨_,_,_,_,_,r,_⟩,_,_⟩:=v
      obtain ⟨⟨_,_,_,_,_,r0,_⟩,_,_⟩:=v0
      simp only [Node.uncounted,Node.mk.injEq,Vfs.VNode.mk.injEq] at he hcount ⊢
      simp only [Option.some.injEq,Node.mk.injEq,Vfs.VNode.mk.injEq]
      tauto
  cases s
  cases s₀
  simp only [Store.mk.injEq]
  exact ⟨hnodes,hfiles⟩

theorem closeAll (h : WithCopies s₀ held s cs) (h0 : Balanced s₀ held) (hb : Balanced s (cs++held)) : s.closeAll cs=s₀:=by
  induction cs generalizing s with
  | nil=>exact h.eq h0 hb
  | cons c cs ih=>exact ih (h.close h0 hb) hb.close

end WithCopies

end Knail.Descriptors
