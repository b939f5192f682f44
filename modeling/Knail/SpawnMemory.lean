import Knail.ProcessSpawn

/-!
# The pages of a new process

Every page that is mapped for a process has a frame of its own, which is in use and is no table.
Stores to such pages change no translation. This holds while further pages are mapped, while the
space is activated and while bytes are copied.
-/
namespace Knail.Spawn

open PageTables Elf List

variable {m m₁ m' : Machine} {level level' : ℕ→Option ℕ} {home : ℕ→Option ℕ×ℕ} {pages : List ℕ}
  {r k f va v a p : ℕ} {m'' : Machine} {t : ℕ} {vs : List ℕ}

theorem SameWalk.symm (h : SameWalk a v) : SameWalk v a:=fun l hl=>(h l hl).symm

theorem SameWalk.trans (h : SameWalk a v) (h' : SameWalk v p) : SameWalk a p:=fun l hl=>(h l hl).trans (h' l hl)

def Backed (r : ℕ) (m : Machine) (level : ℕ→Option ℕ) (va : ℕ) : Prop:=
  ∃f,f∈m.used ∧ level f=none ∧ IsFrame f ∧ ∀a,SameWalk a va→virtToPhys r a m=f+a%4096

structure Space (r : ℕ) (m : Machine) (level : ℕ→Option ℕ) (pages : List ℕ) : Prop where
  tables : ∃home,Tables m level home
  root : level r=some 3
  backed : ∀va∈pages,Backed r m level va

theorem allocFrame_cases (m : Machine) : (allocFrame m).1=0 ∧ (allocFrame m).2.used=m.used ∨
    IsFrame (allocFrame m).1 ∧ (allocFrame m).1∉m.used ∧ (allocFrame m).2.used=(allocFrame m).1::m.used:=by
  unfold allocFrame
  split
  · exact .inl ⟨rfl,rfl⟩
  split
  case isTrue h => exact .inr ⟨h.1,h.2,rfl⟩
  case isFalse => exact .inl ⟨rfl,rfl⟩

theorem keeps_allocFrame (m : Machine) (level : ℕ→Option ℕ) : Keeps m (allocFrame m).2 level level:=
  ⟨id,.inl,fun hu=>(allocFrame_frame m).2.1 _ hu⟩

theorem tables_allocFrame (ht : Tables m level home) : Tables (allocFrame m).2 level home:=
  ht.congr (fun _=>by rw [(allocFrame_frame m).1]) fun hl=>(allocFrame_frame m).2.1 _ (ht.used hl)

theorem virtToPhys_allocFrame (r a : ℕ) (m : Machine) : virtToPhys r a (allocFrame m).2=virtToPhys r a m:=by
  simp only [virtToPhys,(allocFrame_frame m).1]

theorem allocFrame_some (ht : Tables m level home) (he : allocFrame m=(f,m₁)) (hf : f≠0) :
    IsFrame f ∧ f∈m₁.used ∧ level f=none:=by
  rcases allocFrame_cases m with ⟨h0,-⟩ | ⟨hframe,hnew,hused⟩
  · rw [he] at h0
    exact absurd h0 hf
  · rw [he] at hframe hnew hused
    exact ⟨hframe,hused▸mem_cons_self,ht.level_eq_none hnew⟩

theorem mapFrame_cases (r va : ℕ) (m : Machine) : (∃m₁,allocFrame m=(0,m₁) ∧ mapFrame r va m=(false,m₁)) ∨
    ∃f m₁,f≠0 ∧ allocFrame m=(f,m₁) ∧ mapFrame r va m=mapPage r va f userRw m₁:=by
  unfold mapFrame
  rcases he : allocFrame m with ⟨_ | f,m₁⟩
  · exact .inl ⟨m₁,rfl,rfl⟩
  · exact .inr ⟨f+1,m₁,Nat.succ_ne_zero f,rfl,rfl⟩

theorem mapPage_frame (ht : Tables m level home) (hr : level r=some 3) (hf : IsFrame f) (va : ℕ) :
    ((mapPage r va f userRw m).1=true→(∀a,SameWalk a va→virtToPhys r a (mapPage r va f userRw m).2=f+a%4096) ∧
    ∀r' a,level r'=some 3→¬SameWalk a va→virtToPhys r' a (mapPage r va f userRw m).2=virtToPhys r' a m) ∧
    ((mapPage r va f userRw m).1=false →
    ∀r' a,level r'=some 3→virtToPhys r' a (mapPage r va f userRw m).2=virtToPhys r' a m):=
  mapPage_spec ht hr va hf.bounds.1 hf.bounds.2 (by decide) (by decide)

theorem Space.mapPage (h : Space r m level pages) (ha : allocFrame m=(f,m₁)) (hf : f≠0)
    (hok : mapPage r va f userRw m₁=(true,m')) (ht' : ∃home,Tables m' level' home)
    (hk : Keeps m₁ m' level level') : Space r m' level' (va::pages):=by
  obtain ⟨home,ht⟩:=h.tables
  obtain ⟨hframe,hfu,hfl⟩:=allocFrame_some ht ha hf
  have hm1 : (allocFrame m).2=m₁:=by rw [ha]
  have ht1 : Tables m₁ level home:=hm1▸tables_allocFrame ht
  have hspec:=(mapPage_frame ht1 h.root hframe va).1
  rw [hok] at hspec
  obtain ⟨hsame,hother⟩:=hspec rfl
  obtain ⟨hfu',hfl'⟩:=hk.data hfu hfl
  refine ⟨ht',hk.level_eq h.root,fun q hq=>?_⟩
  by_cases hw : SameWalk q va
  · exact ⟨f,hfu',hfl',hframe,fun a ha=>hsame a (SameWalk.trans ha hw)⟩
  rcases mem_cons.mp hq with rfl | hq
  · exact absurd (fun _ _=>rfl) hw
  obtain ⟨g,hgu,hgl,hgf,hg⟩:=h.backed q hq
  obtain ⟨hgu',hgl'⟩:=hk.data ((keeps_allocFrame m level).used hgu |> (hm1 ▸ ·)) hgl
  refine ⟨g,hgu',hgl',hgf,fun a ha=>?_⟩
  rw [hother r a h.root fun h'=>hw (SameWalk.trans (SameWalk.symm ha) h'),←hg a ha,←hm1,virtToPhys_allocFrame]

/-- Bytes were written to frames that are no tables. -/
structure DataWrites (level : ℕ→Option ℕ) (m m' : Machine) : Prop where
  used : m'.used=m.used
  mem : ∀{t l},level t=some l→m'.mem t=m.mem t
  touched : ∀u∈m'.touched,u∈m.touched ∨ level u=none

namespace DataWrites

theorem refl (level : ℕ→Option ℕ) (m : Machine) : DataWrites level m m:=⟨rfl,fun _=>rfl,fun _=>.inl⟩

section

variable (h : DataWrites level m m')
include h

theorem trans (h' : DataWrites level m' m'') : DataWrites level m m'' where
  used:=h'.used.trans h.used
  mem hl:=(h'.mem hl).trans (h.mem hl)
  touched u hu:=(h'.touched u hu).elim (h.touched u) .inr

theorem tables (ht : Tables m level home) : Tables m' level home:=
  ht.congr h.mem fun hl=>h.used▸ht.used hl

theorem lookup (ht : Tables m level home) (hr : level r=some 3) (a : ℕ) :
    lookup (slots m') tableIdx pageAddr 3 r a=lookup (slots m) tableIdx pageAddr 3 r a:=by
  refine lookup_congr ht.forest (fun hl i=>?_) hr a
  rw [slots,h.mem hl]
  rfl

theorem virtToPhys (ht : Tables m level home) (hr : level r=some 3) (a : ℕ) : virtToPhys r a m'=virtToPhys r a m:=by
  rw [virtToPhys_eq,virtToPhys_eq,h.lookup ht hr]

end

theorem storePhys (hp : level (p/4096*4096)=none) (b : UInt8) (m : Machine) :
    DataWrites level m (storePhys p b m) where
  used:=rfl
  mem hl:=mem_write_of_ne (by rintro rfl; simp [hp] at hl)
  touched u hu:=by
    rcases mem_cons.mp hu with rfl | hu
    · exact .inr hp
    · exact .inl hu

end DataWrites

theorem Space.dataWrites (h : Space r m level pages) (hw : DataWrites level m m') : Space r m' level pages:=by
  obtain ⟨home,ht⟩:=h.tables
  refine ⟨⟨home,hw.tables ht⟩,h.root,fun va hva=>?_⟩
  obtain ⟨f,hfu,hfl,hf,htr⟩:=h.backed va hva
  exact ⟨f,hw.used▸hfu,hfl,hf,fun a ha=>(hw.virtToPhys ht h.root a).trans (htr a ha)⟩

theorem Space.translate (h : Space r m level pages) (hva : va∈pages) (ha : SameWalk a va) (hc : Canonical a) :
    ∃p,translate r a m=some p ∧ level (p/4096*4096)=none ∧ p/4096*4096∈m.used:=by
  obtain ⟨f,hfu,hfl,hf,htr⟩:=h.backed va hva
  obtain ⟨hdvd,-⟩:=hf.bounds
  have hne:=hf.1
  have hv:=htr a ha
  rw [virtToPhys_eq] at hv
  refine ⟨f+a%4096,?_,?_⟩
  · rw [Spawn.translate,if_pos hc]
    cases hl : lookup (slots m) tableIdx pageAddr 3 r a with
    | none=>
      rw [hl,Option.getD_none] at hv
      omega
    | some q=>
      rw [hl,Option.getD_some] at hv
      rw [hv]
  · rw [show (f+a%4096)/4096*4096=f by omega]
    exact ⟨hfl,hfu⟩

theorem Space.runStores (h : Space r m level pages) (stores : List (ℕ×UInt8))
    (hs : ∀s∈stores,Canonical s.1 ∧ ∃va∈pages,SameWalk s.1 va) :
    ∃m',runStores r stores m=(true,m',stores.map Prod.fst) ∧ DataWrites level m m':=by
  induction stores generalizing m with
  | nil=>exact ⟨m,rfl,.refl _ _⟩
  | cons s rest ih=>
    obtain ⟨a,b⟩:=s
    obtain ⟨hc,va,hva,ha⟩:=hs (a,b) mem_cons_self
    obtain ⟨p,hp,hl,-⟩:=h.translate hva ha hc
    have hw:=DataWrites.storePhys hl b m
    obtain ⟨m',he,hw'⟩:=ih (h.dataWrites hw) fun s hs'=>hs s (mem_cons_of_mem _ hs')
    refine ⟨m',?_,hw.trans hw'⟩
    rw [runStores]
    simp only [hp,he,map_cons]

theorem lookup_root (ht : Tables m level home) (hr : level r=some 3)
    (hmem : ∀{t l},l≤2→level t=some l→m'.mem t=m.mem t)
    (hs : slots m' 3 r (tableIdx 3 a)=slots m 3 r (tableIdx 3 a)) :
    lookup (slots m') tableIdx pageAddr 3 r a=lookup (slots m) tableIdx pageAddr 3 r a:=by
  simp only [lookup,hs]
  cases hc : slots m 3 r (tableIdx 3 a) with
  | absent=>rfl
  | page p=>rfl
  | table u=>
    have hu:=(ht.forest.child hr hc).1
    refine lookup_congr_le ht.forest (fun hj hl i=>?_) hu a
    rw [slots,hmem hj hl]
    rfl

theorem virtToPhys_congr (ht : Tables m level home) (hr : level r=some 3)
    (hmem : ∀{t l},l≤2→level t=some l→m'.mem t=m.mem t)
    (he : m'.mem r (pml4Idx a)=m.mem r (pml4Idx a)) : virtToPhys r a m'=virtToPhys r a m:=by
  rw [virtToPhys_eq,virtToPhys_eq,lookup_root ht hr hmem (congrArg (decode 3) he)]

theorem activate_mem_of_ne (k : ℕ) (h : t≠r) : (activate k r m).mem t=m.mem t:=by
  by_cases hne : r≠0 ∧ r≠k
  · rw [activate_mem hne,Function.update_of_ne h]
  · rw [activate,if_neg hne]

theorem activate_entry (k : ℕ) {i : ℕ} (hi : i<256) (hp : m.mem r i&&&flagPresent≠0) :
    (activate k r m).mem r i=m.mem r i:=by
  by_cases hne : r≠0 ∧ r≠k
  · rw [activate_mem hne,Function.update_self]
    have hi' : ¬(256 ≤ i ∧ i<512):=by omega
    have hp' : ¬(i=0 ∧ m.mem r 0&&&flagPresent=0):=by
      rintro ⟨rfl,h0⟩
      exact hp h0
    rw [activated,if_neg hi',if_neg hp']
  · rw [activate,if_neg hne]

theorem activate_self (k : ℕ) (m : Machine) : activate k k m=m:=by simp [activate]

theorem activate_mem_of_le (k : ℕ) (hr : level r=some 3) {l : ℕ} (hl : l≤2) (ht : level t=some l) :
    (activate k r m).mem t=m.mem t:=by
  refine activate_mem_of_ne k ?_
  rintro rfl
  rw [hr] at ht
  cases ht
  omega

theorem virtToPhys_activate_of_ne (ht : Tables m level home) (hk : level k=some 3) (hr : level r=some 3)
    (hne : k≠r) (a : ℕ) : virtToPhys k a (activate k r m)=virtToPhys k a m:=
  virtToPhys_congr ht hk (activate_mem_of_le k hr) (congrFun (activate_mem_of_ne k hne) _)

theorem virtToPhys_activate (k : ℕ) (ht : Tables m level home) (hr : level r=some 3) (hi : pml4Idx a<256)
    (hp : m.mem r (pml4Idx a)&&&flagPresent≠0) : virtToPhys r a (activate k r m)=virtToPhys r a m:=
  virtToPhys_congr ht hr (activate_mem_of_le k hr) (activate_entry k hi hp)

theorem present_of_virtToPhys (h : virtToPhys r a m≠0) : m.mem r (pml4Idx a)&&&flagPresent≠0:=by
  intro h0
  exact h (by simp only [virtToPhys,h0,if_true])

theorem Space.present (h : Space r m level pages) (hva : va∈pages) : m.mem r (pml4Idx va)&&&flagPresent≠0:=by
  obtain ⟨f,-,-,hf,htr⟩:=h.backed va hva
  refine present_of_virtToPhys ?_
  have:=hf.1
  rw [htr va fun _ _=>rfl]
  omega

theorem Space.activate (h : Space r m level pages) (hk : level k=some 3) (hlow : ∀va∈pages,va<2^47) :
    Space r (activate k r m) level pages:=by
  obtain ⟨home,ht⟩:=h.tables
  refine ⟨⟨home,activate_tables ht h.root hk⟩,h.root,fun va hva=>?_⟩
  obtain ⟨f,hfu,hfl,hf,htr⟩:=h.backed va hva
  refine ⟨f,activate_used k r m▸hfu,hfl,hf,fun a ha=>(virtToPhys_activate k ht h.root ?_ ?_).trans (htr a ha)⟩
  · rw [pml4Idx,ha 3 le_rfl]
    exact pml4Idx_lt (hlow va hva)
  · rw [pml4Idx,ha 3 le_rfl]
    exact h.present hva

/-- The tables grow and the translations of the given pages may change. -/
structure Remaps (vs : List ℕ) (m m' : Machine) (level level' : ℕ→Option ℕ) : Prop where
  tables : ∃home,Tables m' level' home
  keeps : Keeps m m' level level'
  same : ∀{r},level r=some 3→∀a,(∀v∈vs,¬SameWalk a v)→virtToPhys r a m'=virtToPhys r a m

theorem Remaps.refl (ht : Tables m level home) : Remaps [] m m level level:=
  ⟨⟨home,ht⟩,⟨id,.inl,id⟩,fun _ _ _=>rfl⟩

theorem Remaps.trans {level'' : ℕ→Option ℕ} {ws : List ℕ} (h : Remaps vs m m' level level')
    (h' : Remaps ws m' m'' level' level'') : Remaps (vs++ws) m m'' level level'' where
  tables:=h'.tables
  keeps:=h.keeps.trans h'.keeps
  same hr a ha:=by
    rw [h'.same (h.keeps.level_eq hr) a fun v hv=>ha v (mem_append_right _ hv),
      h.same hr a fun v hv=>ha v (mem_append_left _ hv)]

theorem Remaps.alloc (ht : Tables m level home) : Remaps [] m (allocFrame m).2 level level:=
  ⟨⟨home,tables_allocFrame ht⟩,keeps_allocFrame m level,fun _ a _=>virtToPhys_allocFrame _ a m⟩

theorem Remaps.map (ht : Tables m level home) (hr : level r=some 3) (v flags : ℕ) (hp : p%4096=0)
    (hp' : p<2^52) (hf : flags&&&flagPresent≠0) (hf' : flags&&&physMask=0) :
    ∃level',Remaps [v] m (mapPage r v p flags m).2 level level':=by
  obtain ⟨level',home',ht',hk⟩:=mapPage_tables ht hr v p flags
  obtain ⟨hok,hfail⟩:=mapPage_spec ht hr v hp hp' hf hf'
  refine ⟨level',⟨home',ht'⟩,hk,fun {r'} hr' a ha=>?_⟩
  cases hb : (mapPage r v p flags m).1 with
  | true=>exact (hok hb).2 r' a hr' (ha v mem_cons_self)
  | false=>exact hfail hb r' a hr'

theorem Space.remaps (h : Space r m level pages) (hm : Remaps vs m m' level level')
    (hne : ∀va∈pages,∀v∈vs,¬SameWalk va v) : Space r m' level' pages:=by
  refine ⟨hm.tables,hm.keeps.level_eq h.root,fun va hva=>?_⟩
  obtain ⟨f,hfu,hfl,hf,htr⟩:=h.backed va hva
  obtain ⟨hfu',hfl'⟩:=hm.keeps.data hfu hfl
  refine ⟨f,hfu',hfl',hf,fun a ha=>(hm.same h.root a fun v hv hw=>?_).trans (htr a ha)⟩
  exact hne va hva v hv (SameWalk.trans (SameWalk.symm ha) hw)

def grow (kernel : ℕ) (vs : List ℕ) (m : Machine) : Machine:=vs.foldl (fun m v=>expandPage kernel v m) m

theorem remaps_expandPage (ht : Tables m level home) (hk : level k=some 3) (v : ℕ) :
    ∃level',Remaps [v] m (expandPage k v m) level level':=by
  have ha:=Remaps.alloc ht
  unfold expandPage
  rcases he : allocFrame m with ⟨f,m₁⟩
  rw [he] at ha
  dsimp only at ha ⊢
  split
  · exact ⟨level,ha.tables,ha.keeps,fun hr a _=>ha.same hr a (by simp)⟩
  rename_i hf
  obtain ⟨home1,ht1⟩:=ha.tables
  obtain ⟨hb1,hb2⟩:=(allocFrame_some ht he hf).1.bounds
  obtain ⟨level',h'⟩:=Remaps.map ht1 hk v kernelRw hb1 hb2 (by decide) (by decide)
  exact ⟨level',ha.trans h'⟩

theorem remaps_grow (vs : List ℕ) (ht : Tables m level home) (hk : level k=some 3) :
    ∃level',Remaps vs m (grow k vs m) level level':=by
  induction vs generalizing m level home with
  | nil=>exact ⟨level,.refl ht⟩
  | cons v vs ih=>
    obtain ⟨level1,h1⟩:=remaps_expandPage ht hk v
    obtain ⟨home1,ht1⟩:=h1.tables
    obtain ⟨level2,h2⟩:=ih ht1 (h1.keeps.level_eq hk)
    exact ⟨level2,h1.trans h2⟩

theorem Space.mapFrame (h : Space r m level pages) (va : ℕ) : ∃level',Remaps [va] m (mapFrame r va m).2 level level' ∧
    ((mapFrame r va m).1=true→Space r (mapFrame r va m).2 level' (va::pages)):=by
  obtain ⟨home,ht⟩:=h.tables
  have hra:=Remaps.alloc ht
  rcases mapFrame_cases r va m with ⟨m₁,he,hm⟩ | ⟨f,m₁,hf,he,hm⟩
  · rw [he] at hra
    rw [hm]
    exact ⟨level,⟨hra.tables,hra.keeps,fun hr a _=>hra.same hr a (by simp)⟩,by simp⟩
  rw [he] at hra
  rw [hm]
  obtain ⟨home1,ht1⟩:=hra.tables
  obtain ⟨hb1,hb2⟩:=(allocFrame_some ht he hf).1.bounds
  obtain ⟨level',h'⟩:=Remaps.map ht1 h.root va userRw hb1 hb2 (by decide) (by decide)
  refine ⟨level',hra.trans h',fun hok=>?_⟩
  exact h.mapPage he hf (Prod.ext hok rfl) h'.tables h'.keeps

theorem Space.mapPages {P : Machine→Prop} (h : Space r m level pages) (vs : List ℕ) (hk : level k=some 3) (hP : P m)
    (hstep : ∀{m level home},Tables m level home→level r=some 3→level k=some 3→P m →
    ∀va,P (Spawn.mapFrame r va m).2) (hok : (mapPages r vs m).1=true) :
    ∃level',Remaps vs m (mapPages r vs m).2 level level' ∧ Space r (mapPages r vs m).2 level' (vs++pages) ∧
    P (mapPages r vs m).2:=by
  induction vs generalizing m level pages with
  | nil=>
    obtain ⟨home,ht⟩:=h.tables
    exact ⟨level,.refl ht,h,hP⟩
  | cons va vs ih=>
    obtain ⟨home,ht⟩:=h.tables
    have hP1:=hstep ht h.root hk hP va
    obtain ⟨level1,hm1,hs1⟩:=h.mapFrame va
    simp only [mapPages] at hok ⊢
    rcases he : Spawn.mapFrame r va m with ⟨_ | _,m₁⟩
    · rw [he] at hok
      cases hok
    rw [he] at hok hm1 hs1 hP1
    obtain ⟨level2,hm2,hs2,hP2⟩:=ih (hs1 rfl) (hm1.keeps.level_eq hk) hP1 hok
    refine ⟨level2,hm1.trans hm2,⟨hs2.tables,hs2.root,fun u hu=>hs2.backed u ?_⟩,hP2⟩
    simp only [cons_append,mem_cons,mem_append] at hu ⊢
    tauto

theorem runStores_dataWrites {stores : List (ℕ×UInt8)} (ht : Tables m level home) (hr : level r=some 3)
    (hs : ∀st∈stores,∀p,translate r st.1 m=some p→level (p/4096*4096)=none) :
    DataWrites level m (runStores r stores m).2.1:=by
  induction stores generalizing m with
  | nil=>exact .refl _ _
  | cons st rest ih=>
    obtain ⟨a,b⟩:=st
    rw [runStores]
    cases htr : translate r a m with
    | none=>exact .refl _ _
    | some p=>
      have hw:=DataWrites.storePhys (hs (a,b) mem_cons_self p htr) b m
      refine hw.trans (ih (hw.tables ht) fun st' hst' q hq=>?_)
      rw [translate,hw.lookup ht hr] at hq
      exact hs st' (mem_cons_of_mem _ hst') q hq

end Knail.Spawn
