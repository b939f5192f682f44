import Knail.Hierarchies
import Knail.VolumeIntegrity

/-!
# The tree of a volume

The clusters of a volume belong to the root directory and to the entries of directories. Here a
volume is a table of links and a view of the entries, without their bytes.
-/
namespace Knail.Fat32

open Function Vfs List

structure EntryView where
  first : UInt8
  attr : UInt8
  cluster : ℕ

/-- The entry is not passed over: it is not deleted, no part of a long name, no label and not one
of the two entries that lead to the directory itself and upwards. -/
def EntryView.Shown (v : EntryView) : Prop:=
  v.first≠0xE5 ∧ v.first≠46 ∧ v.attr≠attrLfn ∧ v.attr&&&attrVolumeId=0

def EntryView.IsDir (v : EntryView) : Prop:=v.attr&&&attrDir≠0

instance (v : EntryView) : Decidable v.Shown:=inferInstanceAs (Decidable (_ ∧ _))
instance (v : EntryView) : Decidable v.IsDir:=inferInstanceAs (Decidable (_≠_))

/-- The entries for which `populate_dir` makes vnodes: those before the first one that was never
used. -/
def liveSlots (view : ℕ×ℕ→EntryView) (slots : List (ℕ×ℕ)) : List (ℕ×ℕ):=
  (slots.takeWhile fun p=>(view p).first≠0).filter fun p=>(view p).Shown

variable {m : Mount} {root c : ℕ} {T T' : ℕ→Link ℕ} {view view' : ℕ×ℕ→EntryView} {xs ys : List ℕ} {p q : ℕ×ℕ}
  {slots : List (ℕ×ℕ)}

/-- The chains of the directories that are found from the root on. -/
inductive DirChain (m : Mount) (root : ℕ) (T : ℕ→Link ℕ) (view : ℕ×ℕ→EntryView) : List ℕ→Prop
  | root {xs : List ℕ} : Linked T xs→xs.head? = some root→DirChain m root T view xs
  | sub {xs ys : List ℕ} {p : ℕ×ℕ} : DirChain m root T view xs→p∈liveSlots view (dirSlots m xs)→(view p).IsDir →
      Linked T ys→ys.head? = some (view p).cluster→DirChain m root T view ys

/-- The cluster is in the chain of a directory or of an entry in one. -/
def Reaches (m : Mount) (root : ℕ) (T : ℕ→Link ℕ) (view : ℕ×ℕ→EntryView) (c : ℕ) : Prop:=
  ∃xs,DirChain m root T view xs ∧ (c∈xs ∨ ∃p∈liveSlots view (dirSlots m xs),∃ys,Linked T ys ∧
    ys.head? = some (view p).cluster ∧ c∈ys)

/-- Behind an entry that was never used there is no other one. -/
def Ended (view : ℕ×ℕ→EntryView) (slots : List (ℕ×ℕ)) : Prop:=
  slots.Pairwise fun p q=>(view p).first=0→(view q).first=0

theorem Ended.mem_liveSlots (h : Ended view slots) :
    p∈liveSlots view slots↔p∈slots ∧ (view p).first≠0 ∧ (view p).Shown:=by
  have htake : p∈slots.takeWhile (fun p=>(view p).first≠0)↔p∈slots ∧ (view p).first≠0:=by
    induction slots with
    | nil=>simp
    | cons q slots ih=>
      obtain ⟨hq,hrest⟩:=pairwise_cons.mp h
      rw [takeWhile_cons]
      split_ifs with hfirst
      · rw [mem_cons,ih hrest,mem_cons]
        constructor
        · rintro (rfl | ⟨hp,hne⟩)
          exacts [⟨.inl rfl,by simpa using hfirst⟩,⟨.inr hp,hne⟩]
        · rintro ⟨rfl | hp,hne⟩
          exacts [.inl rfl,.inr ⟨hp,hne⟩]
      · have hzero : (view q).first=0:=by simpa using hfirst
        constructor
        · simp
        rintro ⟨hp,hne⟩
        obtain rfl | hp:=mem_cons.mp hp
        exacts [absurd hzero hne,absurd (hq p hp hzero) hne]
  rw [liveSlots,mem_filter,htake,and_assoc]
  simp

def Owner.IsDir (view : ℕ×ℕ→EntryView) : Option (ℕ×ℕ)→Prop
  | none=>True
  | some p=>(view p).IsDir

instance (view : ℕ×ℕ→EntryView) : (o : Option (ℕ×ℕ))→Decidable (Owner.IsDir view o)
  | none=>inferInstanceAs (Decidable True)
  | some p=>inferInstanceAs (Decidable (view p).IsDir)

def kids (m : Mount) (view : ℕ×ℕ→EntryView) (chain : Option (ℕ×ℕ)→List ℕ) (o : Option (ℕ×ℕ)) : List (ℕ×ℕ):=
  if Owner.IsDir view o then liveSlots view (dirSlots m (chain o)) else []

structure Hierarchy (m : Mount) (root : ℕ) (T : ℕ→Link ℕ) (view : ℕ×ℕ→EntryView)
    (chain : Option (ℕ×ℕ)→List ℕ) : Prop where
  low : ∀c,T c≠.free → 2 ≤ c
  root : (chain none).head? = some root
  rooted : ∀p,Below (kids m view chain) (some p)→Rooted (view p).cluster (chain (some p))
  chains : Apart T (Below (kids m view chain)) chain
  dir : ∀o,Below (kids m view chain) o→Owner.IsDir view o→chain o≠[]
  ended : ∀o,Below (kids m view chain) o→Owner.IsDir view o→Ended view (dirSlots m (chain o))
  dots : ∀o,Below (kids m view chain) o→Owner.IsDir view o→∀p∈dirSlots m (chain o),(view p).first=46 →
    (view p).attr≠attrLfn→(view p).attr&&&attrVolumeId=0→(view p).IsDir
  used : ∀c,T c≠.free→∃o,Below (kids m view chain) o ∧ c∈chain o

variable {chain : Option (ℕ×ℕ)→List ℕ} {o o' : Option (ℕ×ℕ)}

theorem mem_kids_of_ended (h : Owner.IsDir view o→Ended view (dirSlots m (chain o))) :
    p∈kids m view chain o↔Owner.IsDir view o ∧ p∈dirSlots m (chain o) ∧ (view p).first≠0 ∧ (view p).Shown:=by
  unfold kids
  split_ifs with hdir
  · rw [(h hdir).mem_liveSlots,and_iff_right hdir]
  · simp [hdir]

namespace Hierarchy

section

variable (h : Hierarchy m root T view chain)
include h

theorem mem_kids (ho : Below (kids m view chain) o) :
    p∈kids m view chain o↔Owner.IsDir view o ∧ p∈dirSlots m (chain o) ∧ (view p).first≠0 ∧ (view p).Shown:=
  mem_kids_of_ended (h.ended o ho)

theorem owner_unique (ho : Below (kids m view chain) o)
    (ho' : Below (kids m view chain) o') (hp : p∈dirSlots m (chain o)) (hp' : p∈dirSlots m (chain o')) : o=o':=by
  by_contra hne
  obtain ⟨c,hc,hpc⟩:=mem_dirSlots.mp hp
  obtain ⟨c',hc',hpc'⟩:=mem_dirSlots.mp hp'
  have hlow:=h.low c ((h.chains.linked o ho).ne_free hc)
  have hlow':=h.low c' ((h.chains.linked o' ho').ne_free hc')
  obtain rfl:=cluster_unique hlow hlow' hpc hpc'
  exact h.chains.disjoint o o' ho ho' hne c hc hc'

theorem dirChain (ho : Below (kids m view chain) o) (hdir : Owner.IsDir view o) : DirChain m root T view (chain o):=by
  induction ho with
  | root=>exact .root (h.chains.linked none .root) h.root
  | @entry o p ho hp ih=>
    obtain ⟨hd,-⟩:=(h.mem_kids ho).mp hp
    have hbelow : Below (kids m view chain) (some p):=.entry ho hp
    have hhead:=(h.rooted p hbelow).resolve_left fun hnil=>h.dir _ hbelow hdir hnil.2
    refine .sub (ih hd) ?_ hdir (h.chains.linked _ hbelow) hhead
    rwa [kids,if_pos hd] at hp

theorem reaches (hc : T c≠.free) : Reaches m root T view c:=by
  obtain ⟨o,ho,hmem⟩:=h.used c hc
  cases ho with
  | root=>exact ⟨chain none,h.dirChain .root trivial,.inl hmem⟩
  | @entry o p ho hp=>
    obtain ⟨hd,-⟩:=(h.mem_kids ho).mp hp
    have hbelow : Below (kids m view chain) (some p):=.entry ho hp
    have hhead:=(h.rooted p hbelow).resolve_left fun hnil=>by simp [hnil.2] at hmem
    refine ⟨chain o,h.dirChain ho hd,.inr ⟨p,?_,chain (some p),h.chains.linked _ hbelow,hhead,hmem⟩⟩
    rwa [kids,if_pos hd] at hp

theorem exists_owner (hxs : DirChain m root T view xs) :
    ∃o,Below (kids m view chain) o ∧ Owner.IsDir view o ∧ chain o=xs:=by
  induction hxs with
  | root hl hhead=>exact ⟨none,.root,trivial,(h.chains.linked none .root).unique hl (h.root.trans hhead.symm)⟩
  | @sub xs ys p _ hp hd hl hhead ih=>
    obtain ⟨o,ho,hdir,rfl⟩:=ih
    have hbelow : Below (kids m view chain) (some p):=.entry ho (by rwa [kids,if_pos hdir])
    have hrooted:=(h.rooted p hbelow).resolve_left fun hnil=>h.dir _ hbelow hd hnil.2
    exact ⟨some p,hbelow,hd,(h.chains.linked _ hbelow).unique hl (hrooted.trans hhead.symm)⟩

theorem exists_slot (hp : Below (kids m view chain) (some p)) :
    ∃o,Below (kids m view chain) o ∧ Owner.IsDir view o ∧ p∈dirSlots m (chain o):=by
  obtain ⟨o,ho,hmem⟩:=hp.exists_owner
  obtain ⟨hdir,hslot,-⟩:=(h.mem_kids ho).mp hmem
  exact ⟨o,ho,hdir,hslot⟩

end

end Hierarchy

def DirPlace (m : Mount) (view : ℕ×ℕ→EntryView) (chain : Option (ℕ×ℕ)→List ℕ) (q : ℕ×ℕ) : Prop:=
  ∃o,Below (kids m view chain) o ∧ Owner.IsDir view o ∧ q∈dirSlots m (chain o)

theorem Ended.congr (h : Ended view slots) (hview : ∀q∈slots,(view' q).first=0↔(view q).first=0) :
    Ended view' slots:=by
  refine h.imp_of_mem fun {p q} hp hq hpq=>?_
  rw [hview p hp,hview q hq]
  exact hpq

theorem Ended.append_zero {slots' : List (ℕ×ℕ)} (h : Ended view slots) (hzero : ∀q∈slots',(view q).first=0) :
    Ended view (slots++slots'):=
  pairwise_append.mpr ⟨h,pairwise_of_forall_mem_list fun _ _ q hq _=>hzero q hq,fun _ _ q hq _=>hzero q hq⟩

theorem EntryView.shown_congr {v v' : EntryView} (hfirst : v'.first=v.first) (hattr : v'.attr=v.attr) :
    v'.Shown↔v.Shown:=by
  rw [Shown,Shown,hfirst,hattr]

namespace Hierarchy

section Grow

variable (h : Hierarchy m root T view chain) (ho : Below (kids m view chain) o) (hg : Grows T T' (chain o) xs)
  (hview : ∀q,DirPlace m view chain q→(view' q).first=(view q).first ∧ (view' q).attr=(view q).attr ∧
    (some q≠o→(view' q).cluster=(view q).cluster))
  (hnew : Owner.IsDir view o→∀c∈xs,c∉chain o→∀q∈clusterSlots m c,(view' q).first=0)

include h hview in
theorem isDir_grow (ho' : Below (kids m view chain) o') : Owner.IsDir view' o'↔Owner.IsDir view o':=by
  cases o' with
  | none=>rfl
  | some p=>
    rw [Owner.IsDir,Owner.IsDir,EntryView.IsDir,EntryView.IsDir,(hview p (h.exists_slot ho')).2.1]

include hg hnew in
theorem dirSlots_grow (hdir : Owner.IsDir view o) : ∃slots',dirSlots m xs=dirSlots m (chain o)++slots' ∧
    ∀q∈slots',(view' q).first=0:=by
  obtain ⟨ds,rfl,-⟩:=hg.extend
  refine ⟨dirSlots m ds,flatMap_append,fun q hq=>?_⟩
  obtain ⟨c,hc,hqc⟩:=mem_dirSlots.mp hq
  refine hnew hdir c (mem_append_right _ hc) (fun hmem=>?_) q hqc
  exact (nodup_append.mp hg.nodup).2.2 c hmem c hc rfl

include h hg hview hnew in
theorem ended_grow (ho' : Below (kids m view chain) o') (hdir : Owner.IsDir view o') :
    Ended view' (dirSlots m (update chain o xs o')):=by
  have hold : Ended view' (dirSlots m (chain o')):=
    (h.ended o' ho' hdir).congr fun q hq=>by rw [(hview q ⟨o',ho',hdir,hq⟩).1]
  by_cases he : o'=o
  · subst he
    rw [update_self]
    obtain ⟨slots',heq,hzero⟩:=dirSlots_grow hg hnew hdir
    rw [heq]
    exact hold.append_zero hzero
  · rwa [update_of_ne he]

include h hg hview hnew in
theorem mem_kids_grow (ho' : Below (kids m view chain) o') (q : ℕ×ℕ) :
    q∈kids m view' (update chain o xs) o'↔q∈kids m view chain o':=by
  have hdir:=h.isDir_grow hview ho'
  rw [h.mem_kids ho',mem_kids_of_ended fun hd=>h.ended_grow hg hview hnew ho' (hdir.mp hd),hdir]
  refine and_congr_right fun hd=>?_
  have hold (hq : q∈dirSlots m (chain o')) : ((view' q).first≠0 ∧ (view' q).Shown)↔(view q).first≠0 ∧ (view q).Shown:=by
    obtain ⟨hfirst,hattr,-⟩:=hview q ⟨o',ho',hd,hq⟩
    rw [EntryView.shown_congr hfirst hattr,hfirst]
  by_cases he : o'=o
  · subst he
    rw [update_self]
    obtain ⟨slots',heq,hzero⟩:=dirSlots_grow hg hnew hd
    rw [heq,mem_append]
    constructor
    · rintro ⟨hq | hq,hlive⟩
      exacts [⟨hq,(hold hq).mp hlive⟩,absurd (hzero q hq) hlive.1]
    · rintro ⟨hq,hlive⟩
      exact ⟨.inl hq,(hold hq).mpr hlive⟩
  · rw [update_of_ne he]
    exact and_congr_right hold

include h hg hview hnew in
theorem below_grow : Below (kids m view' (update chain o xs)) o'↔Below (kids m view chain) o':=
  Below.congr fun _ ho'=>h.mem_kids_grow hg hview hnew ho'

include h ho hg hview hnew in
/-- The chain of an owner grows. If it is a directory, the new clusters are empty; if it is a file, its
entry may have got another first cluster. -/
theorem grow (hlow : ∀c,T' c≠.free → 2 ≤ c) (hspare : ∀y,y∉xs→T y = .free→T' y = .free)
    (hrooted : ∀p,o=some p→Rooted (view' p).cluster xs) : Hierarchy m root T' view' (update chain o xs):=by
  have hbelow {o' : Option (ℕ×ℕ)}:=@below_grow m root T T' view view' xs chain o o' h hg hview hnew
  have hdirs {o' : Option (ℕ×ℕ)} (ho' : Below (kids m view chain) o'):=h.isDir_grow hview ho'
  obtain ⟨ds,hds,-⟩:=hg.extend
  constructor <;> try simp only [hbelow]
  case low => exact hlow
  case root =>
    by_cases he : o=none
    · subst he
      rw [update_self,hds,head?_append,h.root]
      rfl
    · rw [update_of_ne (Ne.symm he),h.root]
  case rooted =>
    intro p hp
    by_cases he : some p=o
    · subst he
      rw [update_self]
      exact hrooted p rfl
    · rw [update_of_ne he,(hview p (h.exists_slot hp)).2.2 he]
      exact h.rooted p hp
  case chains => exact (h.chains.grow ho hg).mono fun o'=>hbelow.mp
  case dir =>
    intro o' ho' hd
    have hne:=h.dir o' ho' ((hdirs ho').mp hd)
    by_cases he : o'=o
    · subst he
      rw [update_self,hds]
      exact append_ne_nil_of_left_ne_nil hne _
    · rwa [update_of_ne he]
  case ended => exact fun o' ho' hd=>h.ended_grow hg hview hnew ho' ((hdirs ho').mp hd)
  case dots =>
    intro o' ho' hd p hp hfirst hattr hvol
    have hd:=(hdirs ho').mp hd
    have hold (hp : p∈dirSlots m (chain o')) : (view' p).IsDir:=by
      obtain ⟨h1,h2,-⟩:=hview p ⟨o',ho',hd,hp⟩
      rw [h1] at hfirst
      rw [h2] at hattr hvol
      rw [EntryView.IsDir,h2]
      exact h.dots o' ho' hd p hp hfirst hattr hvol
    by_cases he : o'=o
    · subst he
      rw [update_self] at hp
      obtain ⟨slots',heq,hzero⟩:=dirSlots_grow hg hnew hd
      rw [heq] at hp
      obtain hp | hp:=mem_append.mp hp
      · exact hold hp
      · rw [hzero p hp] at hfirst
        exact absurd hfirst (by decide)
    · rw [update_of_ne he] at hp
      exact hold hp
  case used =>
    intro y hy
    by_cases hmem : y∈xs
    · exact ⟨o,ho,by rwa [update_self]⟩
    obtain ⟨o',ho',hy'⟩:=h.used y fun hfree=>hy (hspare y hmem hfree)
    have he : o'≠o:=by
      rintro rfl
      rw [hds] at hmem
      exact hmem (mem_append_left _ hy')
    exact ⟨o',ho',by rwa [update_of_ne he]⟩

end Grow

section Add

structure Filled (m : Mount) (view view' : ℕ×ℕ→EntryView) (chain : Option (ℕ×ℕ)→List ℕ) (o : Option (ℕ×ℕ))
    (p : ℕ×ℕ) : Prop where
  free : (view p).first=0 ∨ (view p).first=0xE5
  slots : ∃l r,dirSlots m (chain o)=l++p::r ∧ ∀q∈l,(view q).first≠0
  kept : ∀q,DirPlace m view chain q→q≠p→view' q=view q
  taken : (view' p).first≠0
  shown : (view' p).Shown

/-- The clusters of a new entry. A directory gets entries for itself and its parent only. -/
structure NewChain (m : Mount) (view' : ℕ×ℕ→EntryView) (p : ℕ×ℕ) (ys : List ℕ) : Prop where
  rooted : Rooted (view' p).cluster ys
  dir : (view' p).IsDir→ys≠[]
  ended : (view' p).IsDir→Ended view' (dirSlots m ys)
  entries : (view' p).IsDir→∀q∈dirSlots m ys,(view' q).first=0 ∨ ((view' q).first=46 ∧ (view' q).IsDir)

variable (h : Hierarchy m root T view chain) (ho : Below (kids m view chain) o) (hdir : Owner.IsDir view o)
  (hf : Filled m view view' chain o p)

include h hf in
theorem not_below_of_filled : ¬Below (kids m view chain) (some p):=by
  intro hp
  obtain ⟨o',ho',hmem⟩:=hp.exists_owner
  obtain ⟨-,-,hne,hshown⟩:=(h.mem_kids ho').mp hmem
  exact hf.free.elim hne hshown.1

include h hf in
theorem isDir_add (ho' : Below (kids m view chain) o') : Owner.IsDir view' o'↔Owner.IsDir view o':=by
  cases o' with
  | none=>rfl
  | some q=>
    have hq : q≠p:=by
      rintro rfl
      exact h.not_below_of_filled hf ho'
    rw [Owner.IsDir,Owner.IsDir,hf.kept q (h.exists_slot ho') hq]

include h ho hf in
theorem notMem_of_filled (ho' : Below (kids m view chain) o') (hne : o'≠o) : p∉dirSlots m (chain o'):=by
  obtain ⟨l,r,hslots,-⟩:=hf.slots
  exact fun hp=>hne (h.owner_unique ho' ho hp (by simp [hslots]))

include h ho hf in
theorem ended_add (ho' : Below (kids m view chain) o') (hd : Owner.IsDir view o') : Ended view' (dirSlots m (chain o')):=by
  by_cases he : o'=o
  · subst he
    obtain ⟨l,r,hslots,hbefore⟩:=hf.slots
    have hnodup : (dirSlots m (chain o')).Nodup:=
      nodup_dirSlots (fun c hc=>h.low c ((h.chains.linked o' ho').ne_free hc)) (h.chains.nodup o' ho')
    have hended:=h.ended o' ho' hd
    have hkept {q : ℕ×ℕ} (hq : q∈l++p::r) (hne : q≠p) : view' q=view q:=
      hf.kept q ⟨o',ho',hd,hslots▸hq⟩ hne
    rw [hslots] at hnodup hended ⊢
    have hl : p∉l:=fun hp=>(nodup_append.mp hnodup).2.2 p hp p mem_cons_self rfl
    have hr : p∉r:=(nodup_cons.mp (nodup_append.mp hnodup).2.1).1
    obtain ⟨hendl,hendr,-⟩:=pairwise_append.mp hended
    refine pairwise_append.mpr ⟨?_,pairwise_cons.mpr ⟨fun _ _ hz=>absurd hz hf.taken,?_⟩,?_⟩
    · refine Ended.congr hendl fun q hq=>?_
      rw [hkept (mem_append_left _ hq) (ne_of_mem_of_not_mem hq hl)]
    · refine Ended.congr (pairwise_cons.mp hendr).2 fun q hq=>?_
      rw [hkept (by simp [hq]) (ne_of_mem_of_not_mem hq hr)]
    intro q hq _ _ hz
    rw [hkept (mem_append_left _ hq) (ne_of_mem_of_not_mem hq hl)] at hz
    exact absurd hz (hbefore q hq)
  · refine (h.ended o' ho' hd).congr fun q hq=>?_
    rw [hf.kept q ⟨o',ho',hd,hq⟩ (ne_of_mem_of_not_mem hq (h.notMem_of_filled ho hf ho' he))]

include h ho hdir hf in
theorem mem_kids_add (ho' : Below (kids m view chain) o') (q : ℕ×ℕ) :
    q∈kids m view' (update chain (some p) ys) o'↔q∈kids m view chain o' ∨ (o'=o ∧ q=p):=by
  have hchain : update chain (some p) ys o'=chain o':=by
    refine update_of_ne ?_ _ _
    rintro rfl
    exact h.not_below_of_filled hf ho'
  have hd:=h.isDir_add hf ho'
  rw [h.mem_kids ho',mem_kids_of_ended fun hd'=>hchain▸h.ended_add ho hf ho' (hd.mp hd'),hchain,hd]
  obtain ⟨l,r,hslots,-⟩:=hf.slots
  constructor
  · rintro ⟨hd',hq,hne,hshown⟩
    by_cases hqp : q=p
    · subst hqp
      exact .inr ⟨h.owner_unique ho' ho hq (by simp [hslots]),rfl⟩
    · rw [hf.kept q ⟨o',ho',hd',hq⟩ hqp] at hne hshown
      exact .inl ⟨hd',hq,hne,hshown⟩
  · rintro (⟨hd',hq,hne,hshown⟩ | ⟨rfl,rfl⟩)
    · have hqp : q≠p:=by
        rintro rfl
        exact hf.free.elim hne hshown.1
      rw [hf.kept q ⟨o',ho',hd',hq⟩ hqp]
      exact ⟨hd',hq,hne,hshown⟩
    · exact ⟨hdir,by simp [hslots],hf.taken,hf.shown⟩

include h ho hdir hf in
/-- A new entry with its clusters. -/
theorem add (hnew : NewChain m view' p ys) (hg : Grows T T' [] ys) (hlow : ∀c,T' c≠.free → 2 ≤ c)
    (hspare : ∀y,y∉ys→T y = .free→T' y = .free) : Hierarchy m root T' view' (update chain (some p) ys):=by
  have hnot:=h.not_below_of_filled hf
  have hne {o' : Option (ℕ×ℕ)} (ho' : Below (kids m view chain) o') : o'≠some p:=fun he=>hnot (he▸ho')
  have hchain {o' : Option (ℕ×ℕ)} (ho' : Below (kids m view chain) o') : update chain (some p) ys o'=chain o':=
    update_of_ne (hne ho') _ _
  have hempty : kids m view' (update chain (some p) ys) (some p)=[]:=by
    unfold kids
    split_ifs with hd
    · rw [update_self,eq_nil_iff_forall_not_mem]
      intro q hq
      obtain ⟨hq,hq0,hshown⟩:=(hnew.ended hd).mem_liveSlots.mp hq
      exact (hnew.entries hd q hq).elim hq0 fun hdot=>hshown.2.1 hdot.1
    · rfl
  have hbelow {o' : Option (ℕ×ℕ)} :
      Below (kids m view' (update chain (some p) ys)) o'↔Below (kids m view chain) o' ∨ o'=some p:=
    Below.add_iff ho hempty fun o' ho'=>h.mem_kids_add ho hdir hf ho'
  constructor <;> try simp only [hbelow]
  case low => exact hlow
  case root => rw [hchain .root,h.root]
  case rooted =>
    rintro q (hq | he)
    · have hqp : q≠p:=fun he=>hne hq (congrArg some he)
      rw [hchain hq,hf.kept q (h.exists_slot hq) hqp]
      exact h.rooted q hq
    obtain rfl:=Option.some.inj he
    rw [update_self]
    exact hnew.rooted
  case chains => exact (h.chains.add hnot hg).mono fun o'=>hbelow.mp
  case dir =>
    rintro o' (ho' | rfl) hd
    · rw [hchain ho']
      exact h.dir o' ho' ((h.isDir_add hf ho').mp hd)
    · rw [update_self]
      exact hnew.dir hd
  case ended =>
    rintro o' (ho' | rfl) hd
    · rw [hchain ho']
      exact h.ended_add ho hf ho' ((h.isDir_add hf ho').mp hd)
    · rw [update_self]
      exact hnew.ended hd
  case dots =>
    rintro o' (ho' | rfl) hd q hq hfirst hattr hvol
    · have hd:=(h.isDir_add hf ho').mp hd
      rw [hchain ho'] at hq
      have hqp : q≠p:=by
        rintro rfl
        exact hf.shown.2.1 hfirst
      rw [hf.kept q ⟨o',ho',hd,hq⟩ hqp] at hfirst hattr hvol ⊢
      exact h.dots o' ho' hd q hq hfirst hattr hvol
    · rw [update_self] at hq
      refine (hnew.entries hd q hq).elim (fun hz=>?_) fun hdot=>hdot.2
      exact absurd (hz.symm.trans hfirst) (by decide)
  case used =>
    intro y hy
    by_cases hmem : y∈ys
    · exact ⟨some p,.inr rfl,by rwa [update_self]⟩
    · obtain ⟨o',ho',hy'⟩:=h.used y fun hfree=>hy (hspare y hmem hfree)
      exact ⟨o',.inl ho',by rwa [hchain ho']⟩

end Add

section Remove

variable {o : Option (ℕ×ℕ)} (h : Hierarchy m root T view chain) (ho : Below (kids m view chain) o)
  (hp : p∈kids m view chain o) (hfile : ¬(view p).IsDir)
  (hkept : ∀q,DirPlace m view chain q→q≠p→view' q=view q) (hfirst : (view' p).first=0xE5)
  (hattr : (view' p).attr=(view p).attr)

include h hkept hattr in
theorem isDir_remove (ho' : Below (kids m view chain) o') : Owner.IsDir view' o'↔Owner.IsDir view o':=by
  cases o' with
  | none=>rfl
  | some q=>
    by_cases hqp : q=p
    · rw [Owner.IsDir,Owner.IsDir,EntryView.IsDir,EntryView.IsDir,hqp,hattr]
    · rw [Owner.IsDir,Owner.IsDir,hkept q (h.exists_slot ho') hqp]

include h ho hp hkept hfirst in
theorem ended_remove (ho' : Below (kids m view chain) o') (hd : Owner.IsDir view o') : Ended view' (dirSlots m (chain o')):=by
  refine (h.ended o' ho' hd).congr fun q hq=>?_
  by_cases hqp : q=p
  · subst hqp
    simp [hfirst,((h.mem_kids ho).mp hp).2.2.1]
  · rw [hkept q ⟨o',ho',hd,hq⟩ hqp]

include h ho hp hkept hfirst hattr in
theorem mem_kids_remove (ho' : Below (kids m view chain) o') (q : ℕ×ℕ) :
    q∈kids m view' chain o'↔q∈kids m view chain o' ∧ q≠p:=by
  have hd:=h.isDir_remove hkept hattr ho'
  rw [h.mem_kids ho',mem_kids_of_ended fun hd'=>h.ended_remove ho hp hkept hfirst ho' (hd.mp hd'),hd]
  constructor
  · rintro ⟨hd',hq,hne,hshown⟩
    have hqp : q≠p:=by
      rintro rfl
      exact hshown.1 hfirst
    rw [hkept q ⟨o',ho',hd',hq⟩ hqp] at hne hshown
    exact ⟨⟨hd',hq,hne,hshown⟩,hqp⟩
  · rintro ⟨⟨hd',hq,hne,hshown⟩,hqp⟩
    rw [hkept q ⟨o',ho',hd',hq⟩ hqp]
    exact ⟨hd',hq,hne,hshown⟩

include h ho hp hfile hkept hfirst hattr in
/-- The entry of a file is deleted and its clusters are freed. -/
theorem remove (hT : ∀y,y∉chain (some p)→T' y=T y) (hfree : ∀y∈chain (some p),T' y = .free) :
    Hierarchy m root T' view' chain:=by
  have hempty : kids m view chain (some p)=[]:=if_neg hfile
  have hbelow {o' : Option (ℕ×ℕ)} : Below (kids m view' chain) o'↔Below (kids m view chain) o' ∧ o'≠some p:=
    Below.remove_iff hempty fun o' ho'=>h.mem_kids_remove ho hp hkept hfirst hattr ho'
  have hin {y : ℕ} (hy : T' y≠.free) : y∉chain (some p) ∧ T y≠.free:=by
    have hmem : y∉chain (some p):=fun hmem=>hy (hfree y hmem)
    exact ⟨hmem,hT y hmem▸hy⟩
  constructor <;> try simp only [hbelow]
  case low => exact fun c hc=>h.low c (hin hc).2
  case root => exact h.root
  case rooted =>
    rintro q ⟨hq,hne⟩
    rw [hkept q (h.exists_slot hq) fun he=>hne (congrArg some he)]
    exact h.rooted q hq
  case chains => exact (h.chains.remove (.entry ho hp) hT).mono fun o'=>hbelow.mp
  case dir => exact fun o' ho' hd=>h.dir o' ho'.1 ((h.isDir_remove hkept hattr ho'.1).mp hd)
  case ended => exact fun o' ho' hd=>h.ended_remove ho hp hkept hfirst ho'.1 ((h.isDir_remove hkept hattr ho'.1).mp hd)
  case dots =>
    intro o' ho' hd q hq hq1 hq2 hq3
    have hd:=(h.isDir_remove hkept hattr ho'.1).mp hd
    have hqp : q≠p:=by
      rintro rfl
      exact absurd (hfirst.symm.trans hq1) (by decide)
    rw [hkept q ⟨o',ho'.1,hd,hq⟩ hqp] at hq1 hq2 hq3 ⊢
    exact h.dots o' ho'.1 hd q hq hq1 hq2 hq3
  case used =>
    intro y hy
    obtain ⟨hmem,hused⟩:=hin hy
    obtain ⟨o',ho',hy'⟩:=h.used y hused
    exact ⟨o',⟨ho',fun he=>hmem (he▸hy')⟩,hy'⟩

end Remove

end Hierarchy

end Knail.Fat32
