import Knail.ProcessFork
import Knail.SpaceRelease
import Knail.SpawnSuccess
import Knail.UserPages

/-!
# Copies of user spaces

`clone_user_space` gives the user pages of a space frames of their own. The tables of the source stay as they are, so
the loops see the pages that were there at the start. A frame that counts as free may be one that the source has a
user page on.
-/
namespace Knail.Spawn

open PageTables List

variable {m m₀ m₁ m' : Machine} {level level₀ level' owner : ℕ→Option ℕ} {home home₀ : ℕ→Option ℕ×ℕ}
  {k r src dst t va pte f l : ℕ} {c c' : Copy} {ps qs : List (ℕ×ℕ)} {P : Copy→Prop}
  {n : ℕ} {done : List ((ℕ×ℕ)×ℕ)} {full : Bool} {frames : List ℕ}

/-- The pages are copied one after the other, up to the first failure. -/
def copyPages (dst : ℕ) : List (ℕ×ℕ) → Copy→Bool×Copy
  | [], c=>(true,c)
  | p::rest, c=>
    match copyPage dst p.1 p.2 c with
    | (false,c)=>(false,c)
    | (true,c)=>copyPages dst rest c

theorem copyPages_append_false (h : copyPages dst ps c=(false,c')) : copyPages dst (ps++qs) c=(false,c'):=by
  induction ps generalizing c with
  | nil=>cases h
  | cons p ps ih=>
    rw [copyPages] at h
    rw [cons_append,copyPages]
    rcases hp : copyPage dst p.1 p.2 c with ⟨_ | _,c1⟩
    · rwa [hp] at h
    · rw [hp] at h
      exact ih h

theorem copyPages_append_true (h : copyPages dst ps c=(true,c')) : copyPages dst (ps++qs) c=copyPages dst qs c':=by
  induction ps generalizing c with
  | nil=>
    cases h
    rfl
  | cons p ps ih=>
    rw [copyPages] at h
    rw [cons_append,copyPages]
    rcases hp : copyPage dst p.1 p.2 c with ⟨_ | _,c1⟩
    · rw [hp] at h
      cases h
    · rw [hp] at h
      exact ih h

theorem copyLoop_eq {body : ℕ → Copy→Bool×Copy} {pages : ℕ→List (ℕ×ℕ)} {xs : List ℕ}
    (hbody : ∀i∈xs,∀c,P c→body i c=copyPages dst (pages i) c)
    (hkeep : ∀i∈xs,∀c c',P c→copyPages dst (pages i) c=(true,c')→P c') (hc : P c) :
    copyLoop body xs c=copyPages dst (xs.flatMap pages) c:=by
  induction xs generalizing c with
  | nil=>rfl
  | cons x xs ih=>
    rw [copyLoop,hbody x mem_cons_self c hc,flatMap_cons]
    have hx:=hkeep x mem_cons_self c
    rcases hp : copyPages dst (pages x) c with ⟨_ | _,c1⟩
    · rw [copyPages_append_false hp]
    · rw [copyPages_append_true hp]
      exact ih (fun i hi=>hbody i (mem_cons_of_mem _ hi)) (fun i hi=>hkeep i (mem_cons_of_mem _ hi)) (hx c1 hc hp)

theorem copyPages_keeps (hpage : ∀va pte c c',va<2^47→P c→copyPage dst va pte c=(true,c')→P c')
    (hps : ∀p∈ps,p.1<2^47) (hc : P c) (h : copyPages dst ps c=(true,c')) : P c':=by
  induction ps generalizing c with
  | nil=>
    cases h
    exact hc
  | cons p ps ih=>
    rw [copyPages] at h
    rcases hp : copyPage dst p.1 p.2 c with ⟨_ | _,c1⟩
    · rw [hp] at h
      cases h
    · rw [hp] at h
      exact ih (fun q hq=>hps q (mem_cons_of_mem _ hq)) (hpage _ _ _ _ (hps p mem_cons_self) hc hp) h

def copyAt (dst : ℕ) : ℕ→ℕ→ℕ → Copy→Bool×Copy
  | 0=>copyPt dst
  | l+1=>copyTables (copyAt dst l) 512 (12+9*(l+1))

section
variable (hmem : ∀c,P c→∀t l,level₀ t=some l→c.machine.mem t=m₀.mem t)
  (hpage : ∀va pte c c',va<2^47→P c→copyPage dst va pte c=(true,c')→P c')
include hmem hpage

section

variable (ht : Tables m₀ level₀ home₀)
include ht

theorem copyTables_eq {sub : ℕ→ℕ → Copy→Bool×Copy} {pages : ℕ→ℕ→List (ℕ×ℕ)} {shift : ℕ} (hl : level₀ t=some (l+1)) (hn : n≤512) (hva : va%2^(shift+9)=0)
    (hlow : va+n*2^shift≤2^47) (hpages : ∀va t,va%2^shift=0→InBlock va (2^shift) (pages va t))
    (hsub : ∀va t c,level₀ t=some l→va%2^shift=0→va+2^shift≤2^47→P c →
    sub va t c=copyPages dst (pages va t) c) (hc : P c) :
    copyTables sub n shift va t c=copyPages dst (linkedPages pages n shift va t m₀) c:=by
  have hblock {i : ℕ} (hi : i<n) : va+i*2^shift+2^shift≤2^47:=by
    have h1 : (i+1)*2^shift≤n*2^shift:=Nat.mul_le_mul_right _ hi
    rw [Nat.succ_mul] at h1
    omega
  refine copyLoop_eq (fun i hi c hc=>?_) (fun i hi c c' hc h=>copyPages_keeps hpage (fun p hp=>?_) hc h) hc
  · rw [mem_range] at hi
    dsimp only
    rw [hmem c hc t _ hl]
    split
    · rfl
    rename_i he
    simp only [not_or,not_not] at he
    have hs:=(ht.slots_table hl).mpr ⟨he.1,he.2,rfl⟩
    rw [or_index hva (hi.trans_le hn)]
    exact hsub _ _ c (ht.forest.child hl hs).1 (add_index_mod hva i) (hblock hi) hc
  · rw [mem_range] at hi
    split at hp
    · cases hp
    rw [or_index hva (hi.trans_le hn)] at hp
    have h1:=(hpages _ _ (add_index_mod hva i)).bounds p hp
    have h2:=hblock hi
    omega

theorem copyAt_eq (hl : level₀ t=some l) (hva : va%2^(12+9*l+9)=0) (hlow : va+2^(12+9*l+9)≤2^47) (hc : P c) :
    copyAt dst l va t c=copyPages dst (pagesAt m₀ l va t) c:=by
  induction l generalizing va t c with
  | zero=>
    refine copyLoop_eq (fun i hi c hc=>?_) (fun i hi c c' hc h=>copyPages_keeps hpage (fun p hp=>?_) hc h) hc
    · rw [hmem c hc t _ hl]
      by_cases hp : m₀.mem t i&&&flagPresent=0
      · simp [hp,copyPages]
      by_cases hu : m₀.mem t i&&&flagUser=0
      · simp [hu,copyPages]
      · simp only [hp,hu,or_self,if_false,copyPages]
        rcases copyPage dst (va|||i*2^12) (m₀.mem t i) c with ⟨_ | _,c1⟩ <;> rfl
    · rw [mem_range] at hi
      split at hp
      · cases hp
      rw [mem_singleton] at hp
      rw [hp,or_index hva hi]
      omega
  | succ l ih=>
    rw [pow_add_nine] at hlow
    exact copyTables_eq hmem hpage ht hl (Nat.le_refl _) hva hlow (fun va t hva=>inBlock_pagesAt m₀ l hva t)
      (fun va t c hl hva hlow hc=>ih hl hva hlow hc) hc

theorem copyPml4_eq (hl : level₀ src=some 3) (hc : P c) : copyPml4 dst 0 src c=copyPages dst (userPages src m₀) c:=by
  refine copyTables_eq hmem hpage ht hl (by decide) (Nat.zero_mod _) (by decide)
    (fun va t hva=>inBlock_pagesAt m₀ 2 hva t) (fun va t c hl hva hlow hc=>?_) hc
  exact copyAt_eq (l:=2) hmem hpage ht hl hva hlow hc

end

end

def pageBits : ℕ:=flagPresent|||flagWrite|||flagUser|||flagNx

/-- The frame is in use, or the allocator will not hand it out. -/
def Safe (f : ℕ) (m : Machine) : Prop:=f∈m.used ∨ f∉m.supply

/-- A copy in the making: the tables of the state at the start are as they were, and so is every frame that
was in use or is not handed out. -/
structure Standing (k : ℕ) (m₀ : Machine) (level₀ : ℕ→Option ℕ) (r : ℕ) (m : Machine) (level owner : ℕ→Option ℕ) :
    Prop where
  isolated : Isolated k m₀ level₀ [r] m level owner
  low : ¬SharesLow k r m
  keeps : Keeps m₀ m level₀ level
  draws : Draws m₀ m
  kept : ∀{f},Safe f m₀→m.mem f=m₀.mem f

structure PageCopy (r va pte : ℕ) (c c' : Copy) (m₁ m₂ : Machine) (f : ℕ) : Prop where
  alloc : allocFrame c.machine=(f,m₁)
  frame : IsFrame f
  free : f∉c.machine.used
  mapped : mapPage r va f (pte&&&pageBits) m₁=(true,m₂)
  result : c'=⟨copyFrame (entryBase pte) f m₂,f::c.frames⟩

theorem copyPage_true (h : copyPage r va pte c=(true,c')) : ∃m₁ m₂ f,PageCopy r va pte c c' m₁ m₂ f:=by
  unfold copyPage at h
  have hcases:=allocFrame_cases c.machine
  rcases ha : allocFrame c.machine with ⟨_ | f,m₁⟩
  · simp [ha] at h
  rw [ha] at h hcases
  obtain ⟨hframe,hfree,-⟩:=hcases.resolve_left fun h0=>Nat.succ_ne_zero f h0.1
  rcases hm : mapPage r va (f+1) (pte&&&pageBits) m₁ with ⟨_ | _,m₂⟩
  · rw [pageBits] at hm
    simp [hm] at h
  refine ⟨m₁,m₂,f+1,ha,hframe,hfree,hm,?_⟩
  rw [pageBits] at hm
  simpa [hm,eq_comm] using h

namespace PageCopy

variable {m₂ : Machine}

section

variable (h : PageCopy r va pte c c' m₁ m₂ f)
include h

theorem tables (ht : Tables c.machine level home) : Tables m₁ level home:=by
  have:=tables_allocFrame ht
  rwa [h.alloc] at this

theorem mem : m₁.mem=c.machine.mem:=by
  have:=(allocFrame_frame c.machine).1
  rwa [h.alloc] at this

theorem draws : Draws c.machine m₂:=by
  have h1:=Draws.allocFrame c.machine
  have h2:=Draws.mapPage r va f (pte&&&pageBits) m₁
  rw [h.alloc] at h1
  rw [h.mapped] at h2
  exact h1.trans h2

theorem offered : f∈c.machine.supply:=by
  have:=(allocFrame_supply c.machine).2
  rw [h.alloc] at this
  exact this h.frame.1

theorem mem_of_ne {g : ℕ} (hg : g≠f) : c'.machine.mem g=m₂.mem g:=by
  rw [h.result]
  exact mem_fill_of_ne hg

theorem mem_self {i : ℕ} (hi : i<512) : c'.machine.mem f i=m₂.mem (entryBase pte) i:=by
  rw [h.result]
  simp only [copyFrame,mem_fill_self,if_pos hi]

theorem dataWrites (hl : level f=none) : DataWrites level m₂ c'.machine:=by
  refine ⟨by rw [h.result]; rfl,fun {t l} htl=>h.mem_of_ne ?_,fun u hu=>?_⟩
  · rintro rfl
    simp [hl] at htl
  rw [h.result] at hu
  rcases mem_cons.mp hu with rfl | hu
  · exact .inr hl
  · exact .inl hu

end

end PageCopy

theorem Standing.not_safe (h : Standing k m₀ level₀ r c.machine level owner)
    (hp : PageCopy r va pte c c' m₁ m₂ f) : ¬Safe f m₀:=by
  rintro (hu | hs)
  · exact hp.free (h.keeps.used hu)
  · exact hs (h.draws.supply hp.offered)

/-- The tables after a page is copied. -/
theorem Standing.copyPage (h : Standing k m₀ level₀ r c.machine level owner) (hk : level₀ k=some 3)
    (hlow : m₀.mem k 0&&&flagPresent≠0) (hv : va<2^47) (hp : PageCopy r va pte c c' m₁ m₂ f) :
    ∃level' owner',Standing k m₀ level₀ r c'.machine level' owner' ∧ (∃home',Tables m₂ level' home') ∧
    Keeps m₁ m₂ level level' ∧ f∈m₂.used ∧ level' f=none:=by
  obtain ⟨home,ht⟩:=h.isolated.tables
  have ht1:=hp.tables ht
  obtain ⟨hr,hro⟩:=h.isolated.roots r mem_cons_self
  obtain ⟨-,hfu,hfl⟩:=allocFrame_some ht hp.alloc hp.frame.1
  have hi1:=h.isolated.allocFrame
  have hkeep1:=h.keeps.trans (keeps_allocFrame c.machine level)
  rw [hp.alloc] at hi1 hkeep1
  have hlow1 : ¬SharesLow k r m₁:=by
    rw [SharesLow,hp.mem]
    exact h.low
  obtain ⟨level',owner',hi2,hkeep⟩:=hi1.mapPage hk mem_cons_self hv (fun _=>hlow1) f (pte&&&pageBits)
  have hkernel:=hi1.kernel hk
  have hlow2:=not_sharesLow_mapPage ht1 hr hkernel.1 (hi1.kernel_ne hro hk) (by rwa [hkernel.2.2.1]) hlow1 va f
    (pte&&&pageBits)
  have hmem {g : ℕ}:=mapPage_mem (f:=g) ht1 hr va f (pte&&&pageBits)
  rw [hp.mapped] at hi2 hkeep hlow2 hmem
  obtain ⟨hfu2,hfl2⟩:=hkeep.data hfu hfl
  have hw:=hp.dataWrites hfl2
  refine ⟨level',owner',⟨isolated_dataWrites hi2 hk hw,?_,?_,?_,fun {g} hg=>?_⟩,hi2.tables,hkeep,hfu2,hfl2⟩
  · rw [SharesLow,hw.mem (hi2.roots r mem_cons_self).1,hw.mem (hi2.kernel hk).1]
    exact hlow2
  · have hk2:=hkeep1.trans hkeep
    exact ⟨hk2.level_eq,hk2.fresh,fun hu=>hw.used▸hk2.used hu⟩
  · refine (h.draws.trans hp.draws).trans ?_
    rw [hp.result]
    exact .of_eq rfl rfl
  rw [hp.mem_of_ne fun he=>h.not_safe hp (he▸hg)]
  cases hl : level₀ g with
  | some l=>exact (hi2.kernel hl).2.2.1
  | none=>
    refine (hmem ?_).trans ((congrFun hp.mem g).trans (h.kept hg))
    -- a frame in use that is no table, or one that is never taken
    rcases hg with hu | hs
    · exact .inr (hkeep1.data hu hl)
    by_cases hu : g∈m₀.used
    · exact .inr (hkeep1.data hu hl)
    · exact .inl fun hu2=>((h.draws.trans hp.draws).used g hu2).elim hu hs

/-- The page has a frame of its own in the copy, with the words of the original if they were safe. -/
structure CopiedPage (r : ℕ) (m₀ m : Machine) (level : ℕ→Option ℕ) (p : ℕ×ℕ) (f : ℕ) : Prop where
  frame : IsFrame f
  fresh : ¬Safe f m₀
  used : f∈m.used
  data : level f=none
  leaf : Leaf r p.1 (f|||(p.2&&&pageBits)) m
  words : Safe (entryBase p.2) m₀→∀i<512,m.mem f i=m₀.mem (entryBase p.2) i

/-- The pages that are done, with their frames. Where the space has a page table one of them is near, and
nothing else is mapped except for the identity map. -/
structure Cloning (k : ℕ) (m₀ : Machine) (level₀ : ℕ→Option ℕ) (r : ℕ) (done : List ((ℕ×ℕ)×ℕ)) (m : Machine)
    (level owner : ℕ→Option ℕ) : Prop extends Standing k m₀ level₀ r m level owner where
  nodup : (done.map Prod.snd).Nodup
  pages : ∀x∈done,CopiedPage r m₀ m level x.1 x.2
  beside : ∀{a pte},a<2^47→Leaf r a pte m →
    ∃x∈done,∀l,1≤l→l≤3→tableIdx l a=tableIdx l x.1.1
  others : ∀{a},a<2^47→(∀x∈done,¬SameWalk a x.1.1) →
    virtToPhys r a m=0 ∨ a<2^30 ∧ virtToPhys r a m=a

theorem Cloning.copyPage (h : Cloning k m₀ level₀ r done c.machine level owner)
    (hk : level₀ k=some 3) (hlow : m₀.mem k 0&&&flagPresent≠0) (hv : va<2^47) (hpres : pte&&&flagPresent≠0)
    (hnew : ∀x∈done,¬SameWalk x.1.1 va) (hp : PageCopy r va pte c c' m₁ m₂ f) :
    ∃level' owner',Cloning k m₀ level₀ r (((va,pte),f)::done) c'.machine level' owner':=by
  obtain ⟨level',owner',hs,⟨home2,ht2⟩,hkeep,hfu,hfl⟩:=h.toStanding.copyPage hk hlow hv hp
  obtain ⟨home,ht⟩:=h.isolated.tables
  have ht1:=hp.tables ht
  have hr:=(h.isolated.roots r mem_cons_self).1
  have hr':=hkeep.level_eq hr
  have hw:=hp.dataWrites hfl
  have hone:=mapPage_oneLeaf ht1 hr hp.mapped
  have hused:=hw.used
  have hsame {a pte : ℕ} : Leaf r a pte m₁↔Leaf r a pte c.machine:=leaf_iff ht hr fun _=>congrFun hp.mem _
  rw [hp.frame.2] at hone
  refine ⟨level',owner',hs,?_,fun x hx=>?_,fun {a e} ha hleaf=>?_,fun {a} hlt ha=>?_⟩
  · refine nodup_cons.mpr ⟨fun hf=>?_,h.nodup⟩
    obtain ⟨x,hx,rfl⟩:=mem_map.mp hf
    exact hp.free (h.pages x hx).used
  · rcases mem_cons.mp hx with rfl | hx
    · refine ⟨hp.frame,h.toStanding.not_safe hp,hused▸hfu,hfl,(leaf_iff ht2 hr' hw.mem).mpr hone.mapped,
        fun hsafe i hi=>?_⟩
      rw [hp.mem_self hi,←hs.kept hsafe,hp.mem_of_ne]
      exact fun he=>h.toStanding.not_safe hp (he▸hsafe)
    · have hx':=h.pages x hx
      have hxu : x.2∈m₁.used:=by
        have:=(allocFrame_frame c.machine).2.1 x.2 hx'.used
        rwa [hp.alloc] at this
      obtain ⟨hxu2,hxl2⟩:=hkeep.data hxu hx'.data
      have hleaf:=hone.kept hr (hnew x hx) (hsame.mpr hx'.leaf)
      refine ⟨hx'.frame,hx'.fresh,hused▸hxu2,hxl2,(leaf_iff ht2 hr' hw.mem).mpr hleaf,fun hsafe i hi=>?_⟩
      have hmem:=mapPage_mem ht1 hr va f (pte&&&pageBits) (.inr ⟨hxu,hx'.data⟩)
      rw [hp.mapped] at hmem
      rw [hp.mem_of_ne fun he=>hp.free (he▸hx'.used),hmem,hp.mem]
      exact hx'.words hsafe i hi
  · rw [leaf_iff ht2 hr' hw.mem] at hleaf
    by_cases hwalk : SameWalk a va
    · exact ⟨_,mem_cons_self,fun l _ hl=>hwalk l hl⟩
    rcases hone.beside hr hwalk hleaf with hold | hidx
    · obtain ⟨x,hx,hidx⟩:=h.beside ha (hsame.mp hold)
      exact ⟨x,mem_cons_of_mem _ hx,hidx⟩
    · exact ⟨_,mem_cons_self,hidx⟩
  · have hflags : (pte&&&pageBits)&&&flagPresent≠0 ∧ (pte&&&pageBits)&&&physMask=0:=by
      rw [Nat.and_assoc,Nat.and_assoc]
      exact ⟨hpres,Nat.and_zero _⟩
    obtain ⟨hok,-⟩:=mapPage_spec ht1 hr va hp.frame.bounds.1 hp.frame.bounds.2 hflags.1 hflags.2
    rw [hp.mapped] at hok
    rw [hw.virtToPhys ht2 hr',(hok rfl).2 r a hr (ha _ mem_cons_self)]
    have htr:=virtToPhys_allocFrame r a c.machine
    rw [hp.alloc] at htr
    rw [htr]
    exact h.others hlt fun x hx=>ha x (mem_cons_of_mem _ hx)

theorem not_sameWalk_of_ne {a b : ℕ} (ha : a<2^47) (hb : b<2^47) (ha' : a%4096=0) (hb' : b%4096=0)
    (hne : a≠b) : ¬SameWalk a b:=by
  intro hw
  have:=page_of_sameWalk hw (.inl ha) (.inl hb)
  omega

/-- Pages in ascending order are copied, each to a frame of its own. -/
theorem Cloning.copyPages (h : Cloning k m₀ level₀ r done c.machine level owner)
    (hk : level₀ k=some 3) (hlow : m₀.mem k 0&&&flagPresent≠0)
    (hps : ∀p∈ps,p.1<2^47 ∧ p.1%4096=0 ∧ p.2&&&flagPresent≠0)
    (hsorted : ps.Pairwise fun p q=>p.1<q.1) (hnew : ∀x∈done,∀p∈ps,¬SameWalk x.1.1 p.1)
    (hok : copyPages r ps c=(true,c')) :
    ∃done' level' owner',Cloning k m₀ level₀ r done' c'.machine level' owner' ∧ done⊆done' ∧
    (∀p∈ps,∃f,(p,f)∈done') ∧ (∀x∈done',x∈done ∨ x.1∈ps) ∧ ∀p∈ps.head?,(p,(allocFrame c.machine).1)∈done':=by
  induction ps generalizing c done level owner with
  | nil=>
    cases hok
    exact ⟨done,level,owner,h,List.Subset.refl _,by simp,fun x hx=>.inl hx,by simp⟩
  | cons p ps ih=>
    rw [copyPages] at hok
    rcases hp : Spawn.copyPage r p.1 p.2 c with ⟨_ | _,c1⟩
    · rw [hp] at hok
      cases hok
    rw [hp] at hok
    obtain ⟨m₁,m₂,f,hcopy⟩:=copyPage_true hp
    obtain ⟨hv,hal,hpres⟩:=hps p mem_cons_self
    obtain ⟨hfirst,hrest⟩:=pairwise_cons.mp hsorted
    obtain ⟨level1,owner1,h1⟩:=h.copyPage hk hlow hv hpres (fun x hx=>hnew x hx p mem_cons_self) hcopy
    have hapart (q : ℕ×ℕ) (hq : q∈ps) : ¬SameWalk p.1 q.1:=by
      obtain ⟨hv',hal',-⟩:=hps q (mem_cons_of_mem _ hq)
      exact not_sameWalk_of_ne hv hv' hal hal' (hfirst q hq).ne
    obtain ⟨done',level',owner',h',hsub,hall,honly,-⟩:=ih h1 (fun q hq=>hps q (mem_cons_of_mem _ hq)) hrest
      (fun x hx q hq=>by
        rcases mem_cons.mp hx with rfl | hx
        · exact hapart q hq
        · exact hnew x hx q (mem_cons_of_mem _ hq)) hok
    refine ⟨done',level',owner',h',fun x hx=>hsub (mem_cons_of_mem _ hx),fun q hq=>?_,fun x hx=>?_,
      fun q hq=>?_⟩
    · rcases mem_cons.mp hq with rfl | hq
      · exact ⟨f,hsub mem_cons_self⟩
      · exact hall q hq
    · rcases honly x hx with hx | hx
      · rcases mem_cons.mp hx with rfl | hx
        · exact .inr mem_cons_self
        · exact .inl hx
      · exact .inr (mem_cons_of_mem _ hx)
    · obtain rfl : p=q:=by simpa using hq
      rw [hcopy.alloc]
      exact hsub mem_cons_self

theorem Plenty.copyPage (h : Plenty (n+4) c.machine) (ht : Tables c.machine level home) (hr : level r=some 3)
    (va pte : ℕ) : (copyPage r va pte c).1=true ∧ Plenty n (copyPage r va pte c).2.machine:=by
  obtain ⟨h0,hn⟩:=h.alloc
  have ht1:=tables_allocFrame ht
  unfold Spawn.copyPage
  rcases ha : allocFrame c.machine with ⟨_ | f,m₁⟩
  · rw [ha] at h0
    exact absurd rfl h0
  rw [ha] at hn ht1
  obtain ⟨hok,hn⟩:=hn.mapPage ht1 hr va (f+1) (pte&&&(flagPresent|||flagWrite|||flagUser|||flagNx))
  rcases hm : PageTables.mapPage r va (f+1) (pte&&&(flagPresent|||flagWrite|||flagUser|||flagNx)) m₁ with ⟨_ | _,m₂⟩
  · rw [hm] at hok
    cases hok
  rw [hm] at hn
  simp only [hm]
  exact ⟨trivial,hn.congr rfl rfl⟩

theorem Standing.copyPages_succeeds (h : Standing k m₀ level₀ r c.machine level owner) (hk : level₀ k=some 3)
    (hlow : m₀.mem k 0&&&flagPresent≠0) (hps : ∀p∈ps,p.1<2^47) (hp : Plenty (4*ps.length) c.machine) :
    (copyPages r ps c).1=true:=by
  induction ps generalizing c level owner with
  | nil=>rfl
  | cons p ps ih=>
    obtain ⟨home,ht⟩:=h.isolated.tables
    obtain ⟨hok,hn⟩:=Plenty.copyPage hp ht (h.isolated.roots r mem_cons_self).1 p.1 p.2
    rw [copyPages]
    rcases hc : Spawn.copyPage r p.1 p.2 c with ⟨_ | _,c1⟩
    · rw [hc] at hok
      cases hok
    rw [hc] at hn
    obtain ⟨m₁,m₂,f,hpc⟩:=copyPage_true hc
    obtain ⟨level',owner',hs,-⟩:=h.copyPage hk hlow (hps p mem_cons_self) hpc
    exact ih hs (fun q hq=>hps q (mem_cons_of_mem _ hq)) hn

theorem createUserSpace_mem (ht : Tables m level home) (hk : level k=some 3) (hf : Safe f m) :
    (createUserSpace k m).2.2.mem f=m.mem f:=by
  obtain ⟨level',hn⟩:=createUserSpace_spec ht hk
  by_cases hu : f∈m.used
  · exact hn.mem f hu
  have hs : f∉m.supply:=hf.resolve_left hu
  have hne : k≠f:=ne_of_mem_of_not_mem (ht.used hk) hu
  have hfree : f∉(createUserSpace k m).2.2.used:=fun hu'=>((Draws.createUserSpace k m).used f hu').elim hu hs
  have hw:=createUserSpace_withFrame hne hfree (.inr fun h=>hs (mem_of_getElem? h)) (m.mem f)
  rw [Machine.withFrame_self] at hw
  rw [show (createUserSpace k m).2.2=(createUserSpace k m).2.2.withFrame f (m.mem f) from congrArg (·.2.2) hw,
    Machine.withFrame_mem_self]

theorem cloning_create (ht : Tables m level home) (hk : level k=some 3)
    (hlow : m.mem k 0&&&flagPresent≠0) (hc : createUserSpace k m=(r,full,m₁)) (hr : r≠0) :
    ∃level' owner',Cloning k m level r [] m₁ level' owner':=by
  obtain ⟨level',owner',hi,hn⟩:=(Isolated.start ht).createUserSpace hk
  obtain ⟨_,_,hready⟩:=ready_create ht hk hlow hc hr
  have hdraws:=Draws.createUserSpace k m
  have hmem {f : ℕ}:=createUserSpace_mem (f:=f) ht hk
  rw [hc] at hi hn hdraws hmem
  rw [if_neg hr] at hi
  refine ⟨level',owner',⟨hi,hready.low,⟨hn.level_eq,hn.fresh,fun hu=>hn.used _ hu⟩,hdraws,hmem⟩,
    nodup_nil,by simp,?_,fun {a} ha _=>?_⟩
  · rintro a pte ha ⟨pt,hd,-⟩
    exact absurd hd (hn.leafless hr a pt ha)
  by_cases hge : 2^30≤a
  · exact .inl (hn.beyond hr a hge ha)
  cases full with
  | true=>exact .inr ⟨by omega,hn.identity rfl a (by omega)⟩
  | false=>exact .inl ((emptySpace (funext fun i=>hn.empty hr rfl i)).1 a)

theorem cloneUserSpace_success (h : cloneUserSpace k src m=(dst,frames,m')) (hdst : dst≠0)
    (hsrc : src≠0) : ∃full m₁,createUserSpace k m=(dst,full,m₁) ∧ copyPml4 dst 0 src ⟨m₁,[]⟩=(true,⟨m',frames⟩):=by
  unfold cloneUserSpace at h
  rcases hc : createUserSpace k m with ⟨_ | r,full,m₁⟩
  · rw [hc] at h
    exact absurd (Prod.mk.inj h).1.symm hdst
  rw [hc] at h
  simp only [if_neg hsrc] at h
  rcases hcopy : copyPml4 (r+1) 0 src ⟨m₁,[]⟩ with ⟨_ | _,c⟩
  · rw [hcopy] at h
    exact absurd (Prod.mk.inj h).1.symm hdst
  rw [hcopy] at h
  obtain ⟨rfl,rfl,rfl⟩:=h
  exact ⟨full,m₁,rfl,hcopy⟩

theorem copyPml4_create (ht : Tables m level home) (hk : level k=some 3)
    (hlow : m.mem k 0&&&flagPresent≠0) (hsrc : level src=some 3) (hc : createUserSpace k m=(dst,full,m₁))
    (hdst : dst≠0) : copyPml4 dst 0 src ⟨m₁,[]⟩=copyPages dst (userPages src m) ⟨m₁,[]⟩:=by
  obtain ⟨level1,owner1,h1⟩:=cloning_create ht hk hlow hc hdst
  have hmem (c : Copy) (hc : ∃level' owner',Standing k m level dst c.machine level' owner') (t l : ℕ)
      (hl : level t=some l) : c.machine.mem t=m.mem t:=by
    obtain ⟨_,_,hc⟩:=hc
    exact (hc.isolated.kernel hl).2.2.1
  have hpage (va pte : ℕ) (c c' : Copy) (hv : va<2^47)
      (hc : ∃level' owner',Standing k m level dst c.machine level' owner') (hp : copyPage dst va pte c=(true,c')) :
      ∃level' owner',Standing k m level dst c'.machine level' owner':=by
    obtain ⟨_,_,hc⟩:=hc
    obtain ⟨m₁,m₂,f,hpc⟩:=copyPage_true hp
    obtain ⟨level',owner',hs,-⟩:=hc.copyPage hk hlow hv hpc
    exact ⟨level',owner',hs⟩
  exact copyPml4_eq hmem hpage ht hsrc ⟨level1,owner1,h1.toStanding⟩

theorem cloneUserSpace_succeeds (ht : Tables m level home) (hk : level k=some 3) (hlow : m.mem k 0&&&flagPresent≠0)
    (hsrc : level src=some 3) (hp : Plenty (4*(userPages src m).length+3) m) : (cloneUserSpace k src m).1≠0:=by
  obtain ⟨hfull,hp1⟩:=hp.createUserSpace k
  rcases hc : createUserSpace k m with ⟨dst,full,m₁⟩
  obtain ⟨level',hn⟩:=createUserSpace_spec ht hk
  rw [hc] at hfull hp1 hn
  have hdst : dst≠0:=(hn.full hfull).1
  obtain ⟨level1,owner1,h1⟩:=cloning_create ht hk hlow hc hdst
  have hbounds (p : ℕ×ℕ) (hp : p∈userPages src m) : p.1<2^47:=((mem_userPages ht hsrc).mp hp).low
  have hok:=Standing.copyPages_succeeds (c:=⟨m₁,[]⟩) h1.toStanding hk hlow hbounds hp1
  rw [←copyPml4_create ht hk hlow hsrc hc hdst] at hok
  obtain ⟨r,rfl⟩:=Nat.exists_eq_succ_of_ne_zero hdst
  unfold cloneUserSpace
  simp only [hc,if_neg (ht.frame hsrc).1]
  rcases hcopy : copyPml4 (r+1) 0 src ⟨m₁,[]⟩ with ⟨_ | _,c⟩
  · rw [hcopy] at hok
    cases hok
  · exact hdst

theorem cloning_clone (ht : Tables m level home) (hk : level k=some 3)
    (hlow : m.mem k 0&&&flagPresent≠0) (hsrc : level src=some 3)
    (h : cloneUserSpace k src m=(dst,frames,m')) (hdst : dst≠0) :
    ∃done level' owner',Cloning k m level dst done m' level' owner' ∧
    (∀p∈userPages src m,∃f,(p,f)∈done) ∧ (∀x∈done,x.1∈userPages src m) ∧
    ∀p∈(userPages src m).head?,(p,(allocFrame (createUserSpace k m).2.2).1)∈done:=by
  obtain ⟨full,m₁,hc,hcopy⟩:=cloneUserSpace_success h hdst (ht.frame hsrc).1
  obtain ⟨level1,owner1,h1⟩:=cloning_create ht hk hlow hc hdst
  rw [copyPml4_create ht hk hlow hsrc hc hdst] at hcopy
  have hps (p : ℕ×ℕ) (hp : p∈userPages src m) : p.1<2^47 ∧ p.1%4096=0 ∧ p.2&&&flagPresent≠0:=by
    have hu:=(mem_userPages ht hsrc).mp hp
    exact ⟨hu.low,hu.aligned,hu.present⟩
  obtain ⟨done,level',owner',h',-,hall,honly,hfirst⟩:=
    Cloning.copyPages h1 hk hlow hps (inBlock_userPages src m).sorted (by simp) hcopy
  rw [hc]
  exact ⟨done,level',owner',h',hall,fun x hx=>(honly x hx).resolve_left (by simp),hfirst⟩

end Knail.Spawn
