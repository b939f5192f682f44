import Knail.PageUnmapping
import Knail.Transitions

/-!
# A space as a map of pages

Calls of `map_page` and `unmap_page` on one space, in any order and with frames running out, change the translation of
addresses as if a space were a map from pages to frames.
-/
namespace Knail.PageTables

variable {m : Machine} {level : ℕ→Option ℕ} {home : ℕ→Option ℕ×ℕ} {r v : ℕ}

inductive PageOp
  | map (v p flags : ℕ)
  | unmap (v : ℕ)

/-- Memory, and what the calls so far should have made of the addresses. -/
structure MappedSpace where
  machine : Machine
  target : ℕ→ℕ

def MappedSpace.step (r : ℕ) (s : MappedSpace) : PageOp→Option MappedSpace
  | .map v p flags=>
    let (ok,m):=mapPage r v p flags s.machine
    some ⟨m,fun a=>if ok=true ∧ a/4096=v/4096 then p+a%4096 else s.target a⟩
  | .unmap v=>some ⟨unmapPage r v s.machine,fun a=>if a/4096=v/4096 then 0 else s.target a⟩

def PageOp.Valid (r : ℕ) : PageOp→MappedSpace→Prop
  | .map v p flags, _=>Canonical v ∧ p%4096=0 ∧ p<2^52 ∧ flags&&&flagPresent≠0 ∧ flags&&&physMask=0
  | .unmap v, s=>Canonical v ∧ ¬InHugePage r v s.machine

def MappedSpace.Starts (r : ℕ) (s : MappedSpace) : Prop:=
  (∃k spaces,Built k spaces s.machine ∧ r∈spaces) ∧ ∀a,s.target a=virtToPhys r a s.machine

structure MappedSpace.Kept (r : ℕ) (s : MappedSpace) : Prop where
  tables : ∃level home,Tables s.machine level home ∧ level r=some 3
  target : ∀a,Canonical a→virtToPhys r a s.machine=s.target a

theorem unmapPage_spec (ht : Tables m level home) (hr : level r=some 3) (hno : ¬InHugePage r v m) :
    Tables (unmapPage r v m) level home ∧ (∀a,SameWalk a v→virtToPhys r a (unmapPage r v m)=0) ∧
    ∀a,¬SameWalk a v→virtToPhys r a (unmapPage r v m)=virtToPhys r a m:=by
  rcases unmapPage_cases r v m with ⟨he,hzero,-⟩ | ⟨p,hp,-⟩ | ⟨pt,hd,-⟩
  · rw [he]
    exact ⟨ht,hzero,fun _ _=>rfl⟩
  · exact absurd ⟨p,hp⟩ hno
  · obtain ⟨hsame,hother⟩:=ht.writeLeaf hr hd 0
    rw [unmapPage_eq hd]
    refine ⟨ht.writePage (hd.level_eq ht.forest hr) _ _,fun a ha=>?_,fun a=>hother r a hr⟩
    rw [hsame a ha,decode_zero]
    rfl

theorem MappedSpace.Kept.step {s s' : MappedSpace} {op : PageOp} (h : s.Kept r) (hop : op.Valid r s)
    (hs : s.step r op=some s') : s'.Kept r:=by
  obtain ⟨level,home,ht,hr⟩:=h.tables
  cases op with
  | map v p flags=>
    obtain ⟨hv,hp,hp',hf,hf'⟩:=hop
    obtain ⟨level',home',ht',hkeep⟩:=mapPage_tables ht hr v p flags
    obtain ⟨hok,hfail⟩:=mapPage_spec ht hr v hp hp' hf hf'
    rw [MappedSpace.step] at hs
    generalize mapPage r v p flags s.machine=res at ht' hkeep hok hfail hs
    obtain ⟨ok,m⟩:=res
    obtain rfl:=Option.some.inj hs
    refine ⟨⟨level',home',ht',hkeep.level_eq hr⟩,fun a ha=>?_⟩
    dsimp only at hok hfail ⊢
    cases ok with
    | false=>rw [hfail rfl r a hr,if_neg (by simp),h.target a ha]
    | true=>
      obtain ⟨hsame,hother⟩:=hok rfl
      by_cases hpage : a/4096=v/4096
      · rw [if_pos ⟨rfl,hpage⟩,hsame a (sameWalk_of_page hpage)]
      · rw [if_neg fun h=>hpage h.2,hother r a hr fun hw=>hpage (page_of_sameWalk hw ha hv),h.target a ha]
  | unmap v=>
    obtain ⟨ht',hsame,hother⟩:=unmapPage_spec ht hr hop.2
    obtain rfl:=Option.some.inj hs
    refine ⟨⟨level,home,ht',hr⟩,fun a ha=>?_⟩
    dsimp only
    by_cases hpage : a/4096=v/4096
    · rw [if_pos hpage,hsame a (sameWalk_of_page hpage)]
    · rw [if_neg hpage,hother a fun hw=>hpage (page_of_sameWalk hw ha hop.1),h.target a ha]

/-- After any calls an address goes where the last call on its page has sent it. -/
theorem space_maps_pages {s : MappedSpace} (h : Reach (MappedSpace.Starts r) (MappedSpace.step r) (PageOp.Valid r) s)
    {a : ℕ} (ha : Canonical a) : virtToPhys r a s.machine=s.target a:=by
  refine (h.invariant (I:=MappedSpace.Kept r) ?_ fun _ _ _ hk hop hs=>hk.step hop hs).target a ha
  rintro s ⟨⟨k,spaces,hb,hr⟩,htarget⟩
  obtain ⟨level,home,ht,-,hroots⟩:=hb.tables
  exact ⟨⟨level,home,ht,hroots r hr⟩,fun a _=>(htarget a).symm⟩

/-- A page of the kernel's identity map is sent elsewhere; its neighbour stays. -/
theorem space_maps_pages_split : ∃s,
    Reach (MappedSpace.Starts 0x1000) (MappedSpace.step 0x1000) (PageOp.Valid 0x1000) s ∧
    virtToPhys 0x1000 0x400123 s.machine=0x9123 ∧ virtToPhys 0x1000 0x401123 s.machine=0x401123:=by
  have hb : Built 0x1000 [0x1000] _:=.init (show
    init ⟨fun _ _=>0,[],[0x1000,0x2000,0x3000,0x4000,0x5000,0x6000],[]⟩=some (0x1000,_) from rfl)
  have hstart : Reach (MappedSpace.Starts 0x1000) (MappedSpace.step 0x1000) (PageOp.Valid 0x1000)
    ⟨_,fun a=>virtToPhys 0x1000 a _⟩:=.start ⟨⟨0x1000,[0x1000],hb,List.mem_singleton_self _⟩,fun _=>rfl⟩
  have hrun:=hstart.step (PageOp.map 0x400000 0x9000 3)
    (by exact ⟨by simp [Canonical],by decide,by decide,by decide,by decide⟩) rfl
  exact ⟨_,hrun,(space_maps_pages hrun (by simp [Canonical])).trans (by decide),
    (space_maps_pages hrun (by simp [Canonical])).trans (by decide)⟩

end Knail.PageTables
