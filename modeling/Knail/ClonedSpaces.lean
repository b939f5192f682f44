import Knail.LowPages
import Knail.SpaceCopies

/-!
# What a clone shares with its source

Where the user pages of a space lie on frames in use, its clone has the same pages on new frames. A page of the
identity map that became a user page with its neighbour may lie on a free frame, which the allocator can hand out for
the clone.
-/
namespace Knail.Spawn

open PageTables List

variable {m m' m₀ : Machine} {level : ℕ→Option ℕ} {home : ℕ→Option ℕ×ℕ} {k src dst a b pte f p v flags : ℕ}
  {full : Bool} {s : Filling} {frames : List ℕ} {done : List ((ℕ×ℕ)×ℕ)} {level' owner : ℕ→Option ℕ}

/-- The frames of a space: its tables and those that its user pages lie on. -/
def FrameOf (r f : ℕ) (m : Machine) : Prop:=
  Reaches (slots m) 3 r f ∨ ∃a pte,UserPage r a pte m ∧ entryPhys pte=f

/-- The page of the clone for a page of the source with the given entry. -/
structure PageClone (src dst a pte : ℕ) (m m' : Machine) (pte' : ℕ) : Prop where
  page : UserPage dst a pte' m'
  bits : pte'&&&pageBits=pte&&&pageBits
  own : ¬FrameOf src (entryPhys pte') m
  apart : ∀b pte₂,b≠a→UserPage dst b pte₂ m'→entryPhys pte₂≠entryPhys pte'
  words : ∀i<512,m'.mem (entryPhys pte') i=m.mem (entryPhys pte) i

/-- The user pages of the source are copied, and the source is as it was. -/
structure Cloned (src dst : ℕ) (m m' : Machine) : Prop where
  copied : ∀a pte,UserPage src a pte m→∃pte',PageClone src dst a pte m m' pte'
  mappings : ∀a,virtToPhys src a m'=virtToPhys src a m
  entries : ∀a pte,UserPage src a pte m'↔UserPage src a pte m
  contents : ∀a pte,UserPage src a pte m→∀i<512,m'.mem (entryPhys pte) i=m.mem (entryPhys pte) i

/-- The user pages have no bits above the address and lie on frames that are in use or not handed out. In a
space that was not complete, so do the pages of the identity map that the clone opens beside them. -/
structure Clonable (src : ℕ) (full : Bool) (m : Machine) : Prop where
  plain : ∀a pte,UserPage src a pte m→pte<2^52
  safe : ∀a pte,UserPage src a pte m→Safe (entryPhys pte) m
  near : full=false→∀a pte,UserPage src a pte m→a<2^30→∀b,b%4096=0→b/2^21=a/2^21 →
    (∃pte',UserPage src b pte' m) ∨ Safe b m

/-- The space is made by `create_user_space`, complete or not. Frames are allocated for it, filled, and
mapped as user pages. -/
inductive Source (k src : ℕ) : Bool→Filling→Prop
  | create {m₀ m : Machine} {full : Bool} :
      InOrder k m₀→createUserSpace k m₀=(src,full,m)→src≠0→Source k src full ⟨m,[]⟩
  | alloc {full : Bool} {s : Filling} : Source k src full s→Source k src full (Call.alloc.run src s)
  | store {full : Bool} {s : Filling} {f : ℕ} (words : ℕ→ℕ) :
      Source k src full s→f∈s.leaves→Source k src full ⟨s.machine.fill f words,s.leaves⟩
  | map {full : Bool} {s : Filling} {virt phys flags : ℕ} :
      Source k src full s→virt<2^47→phys∈s.leaves→flags&&&flagPresent≠0→flags&&&flagUser≠0 →
      flags&&&physMask=0→Source k src full ((Call.map virt phys flags).run src s)

structure Sound (k src : ℕ) (full : Bool) (s : Filling) (level : ℕ→Option ℕ) (home : ℕ→Option ℕ×ℕ) : Prop where
  tables : Tables s.machine level home
  kernel : level k=some 3
  low : s.machine.mem k 0&&&flagPresent≠0
  root : level src=some 3
  ne : k≠src
  leaves : ∀u∈s.leaves,IsFrame u ∧ u∈s.machine.used ∧ level u=none
  lowOpen : full=true→LowOpen src s.machine

theorem Source.sound (h : Source k src full s) : ∃level home,Sound k src full s level home:=by
  induction h with
  | @create m₀ m full h0 hc hsrc=>
    obtain ⟨level0,home0,ht,hk,hlow⟩:=h0
    obtain ⟨level,hn⟩:=createUserSpace_spec ht hk
    rw [hc] at hn
    obtain ⟨home,ht'⟩:=hn.tables
    have hku:=ht.used hk
    refine ⟨level,home,ht',hn.level_eq hk,?_,(hn.root hsrc).1,ne_of_mem_of_not_mem hku (hn.root hsrc).2,by simp,?_⟩
    · rw [hn.mem k hku]
      exact hlow
    · rintro rfl
      exact lowOpen_create ht hk hc
  | @alloc full s _ ih=>
    obtain ⟨level,home,hs⟩:=ih
    have hmem:=(allocFrame_frame s.machine).1
    have hkeep:=keeps_allocFrame s.machine level
    refine ⟨level,home,tables_allocFrame hs.tables,hs.kernel,?_,hs.root,hs.ne,fun u hu=>?_,fun hfull=>?_⟩
    · simp only [Call.run,hmem]
      exact hs.low
    · simp only [Call.run] at hu ⊢
      split at hu
      · obtain ⟨hf,hu,hl⟩:=hs.leaves u hu
        exact ⟨hf,hkeep.used hu,hl⟩
      rename_i hne
      rcases mem_cons.mp hu with rfl | hu
      · exact allocFrame_some hs.tables rfl hne
      · obtain ⟨hf,hu,hl⟩:=hs.leaves u hu
        exact ⟨hf,hkeep.used hu,hl⟩
    · exact (hs.lowOpen hfull).congr hs.tables hs.root fun _=>congrFun hmem _
  | @store full s f words _ hf ih=>
    obtain ⟨level,home,hs⟩:=ih
    have hmem {t l : ℕ} (htl : level t=some l) : (s.machine.fill f words).mem t=s.machine.mem t:=by
      refine mem_fill_of_ne ?_
      rintro rfl
      simp [(hs.leaves t hf).2.2] at htl
    refine ⟨level,home,hs.tables.congr hmem hs.tables.used,hs.kernel,?_,hs.root,hs.ne,hs.leaves,fun hfull=>?_⟩
    · rw [hmem hs.kernel]
      exact hs.low
    · exact (hs.lowOpen hfull).congr hs.tables hs.root hmem
  | @map full s virt phys flags _ hv hp hf hu hf' ih=>
    obtain ⟨level,home,hs⟩:=ih
    obtain ⟨level',home',ht',hkeep⟩:=mapPage_tables hs.tables hs.root virt phys flags
    refine ⟨level',home',ht',hkeep.level_eq hs.kernel,?_,hkeep.level_eq hs.root,hs.ne,fun u hu=>?_,fun hfull=>?_⟩
    · simp only [Call.run]
      rw [(mapPage_rootsKept hs.tables hs.root virt phys flags).other hs.kernel hs.ne]
      exact hs.low
    · obtain ⟨hframe,hu,hl⟩:=hs.leaves u hu
      exact ⟨hframe,hkeep.data hu hl⟩
    · exact (hs.lowOpen hfull).mapPage hs.tables hs.root (hs.leaves phys hp).1 hf hu hf' virt

theorem Sound.near (h : Sound k src full s level home) (hc : Clonable src full s.machine)
    (hu : UserPage src a pte s.machine) (ha : a<2^30) (hb : b%4096=0) (hab : b/2^21=a/2^21) :
    (∃pte',UserPage src b pte' s.machine) ∨ Safe b s.machine:=by
  cases full with
  | true=>exact .inl ((h.lowOpen rfl).whole hu ha hb hab)
  | false=>exact hc.near rfl a pte hu ha b hb hab

structure CopiedEntry (e f pte : ℕ) : Prop where
  phys : entryPhys e=f
  bits : e&&&pageBits=pte&&&pageBits
  present : e&&&flagPresent=pte&&&flagPresent
  user : e&&&flagUser=pte&&&flagUser

theorem copiedEntry (hf : IsFrame f) (pte : ℕ) : CopiedEntry (f|||(pte&&&pageBits)) f pte:=by
  have hmask : (pte&&&pageBits)&&&physMask=0:=by
    rw [Nat.and_assoc]
    exact Nat.and_zero _
  have hpart {x : ℕ} (h1 : physMask&&&x=0) (h2 : pageBits&&&x=x) :
      (f|||(pte&&&pageBits))&&&x=pte&&&x:=by
    rw [or_and_of_left_eq_zero (hf.and_eq_zero h1),Nat.and_assoc,h2]
  exact ⟨(or_and_of_and_eq_zero hmask).trans hf.2,hpart rfl rfl,hpart rfl rfl,hpart rfl rfl⟩

theorem entryBase_of_lt (h : pte<2^52) : entryBase pte=entryPhys pte:=by
  rw [entryBase,entryPhys,←Nat.and_two_pow_sub_one_of_lt_two_pow h,Nat.and_assoc,Nat.and_assoc]
  rfl

theorem Cloning.user_page
    (h : Cloning k m level dst done m' level' owner) (hdone : ∀x∈done,x.1.1<2^47 ∧ x.1.1%4096=0)
    (hu : UserPage dst b pte m') : (∃x∈done,x.1.1=b) ∨
    entryPhys pte=b ∧ b<2^30 ∧ ∃x∈done,b/2^21=x.1.1/2^21:=by
  have hlt:=hu.low
  have hal:=hu.aligned
  by_cases hnew : ∃x∈done,x.1.1=b
  · exact .inl hnew
  have hapart (x : (ℕ×ℕ)×ℕ) (hx : x∈done) : ¬SameWalk (b+1) x.1.1:=by
    intro hw
    obtain ⟨hlt',hal'⟩:=hdone x hx
    have:=page_of_sameWalk hw (.inl (by omega)) (.inl hlt')
    exact hnew ⟨x,hx,by omega⟩
  have hleaf:=hu.leaf.sameWalk (v:=b+1) (sameWalk_of_page (by omega))
  have htr:=hleaf.virtToPhys_eq hu.present
  right
  rcases h.others (by omega) hapart with h0 | ⟨h1,h2⟩
  · omega
  obtain ⟨x,hx,hidx⟩:=h.beside hlt hu.leaf
  refine ⟨by omega,by omega,x,hx,?_⟩
  obtain ⟨hlt',-⟩:=hdone x hx
  have i1:=hidx 1 (by decide) (by decide)
  have i2:=hidx 2 (by decide) (by decide)
  have i3:=hidx 3 (by decide) (by decide)
  simp only [tableIdx] at i1 i2 i3
  omega

theorem Cloning.frame_ne {pte' : ℕ}
    (h : Cloning k m level dst done m' level' owner) (hdone : ∀x∈done,x.1.1<2^47 ∧ x.1.1%4096=0)
    (ha : ((a,pte),f)∈done) (hba : b≠a) (hb : UserPage dst b pte' m')
    (hnear : ∀x∈done,x.1.1<2^30→b/2^21=x.1.1/2^21→(∃x∈done,x.1.1=b) ∨ Safe b m) : entryPhys pte'≠f:=by
  have hcopy : (∃x∈done,x.1.1=b)→entryPhys pte'≠f:=by
    rintro ⟨x,hx,rfl⟩ hxf
    have hx':=h.pages x hx
    rw [hb.leaf.unique hx'.leaf,(copiedEntry hx'.frame _).phys] at hxf
    exact hba (by rw [inj_on_of_nodup_map h.nodup hx ha hxf])
  rcases h.user_page hdone hb with hx | ⟨hphys,hlt,x,hx,hblock⟩
  · exact hcopy hx
  rcases hnear x hx (by omega) hblock with hx | hsafe
  · exact hcopy hx
  · intro hbf
    exact (h.pages _ ha).fresh (by rwa [←hbf,hphys])

/-- A clone of a space whose user pages lie on frames that are in use or not handed out is a copy of it. -/
theorem clone_copies_space (hs : Source k src full s) (hc : Clonable src full s.machine)
    (h : cloneUserSpace k src s.machine=(dst,frames,m')) (hdst : dst≠0) : Cloned src dst s.machine m':=by
  obtain ⟨level,home,ho⟩:=hs.sound
  obtain ⟨done,level',owner,hcl,hall,honly,-⟩:=cloning_clone ho.tables ho.kernel ho.low ho.root h hdst
  have hmem {t l : ℕ} (htl : level t=some l):=(hcl.isolated.kernel htl).2.2.1
  have huser {a pte : ℕ} : (a,pte)∈userPages src s.machine↔UserPage src a pte s.machine:=mem_userPages ho.tables ho.root
  have hpage (x : (ℕ×ℕ)×ℕ) (hx : x∈done):=huser.mp (honly x hx)
  have hentries (a pte : ℕ) : UserPage src a pte m'↔UserPage src a pte s.machine:=by
    have hleaf : Leaf src a pte m'↔Leaf src a pte s.machine:=leaf_iff ho.tables ho.root hmem
    exact ⟨fun hu=>⟨hu.low,hu.aligned,hleaf.mp hu.leaf,hu.present,hu.user⟩,
      fun hu=>⟨hu.low,hu.aligned,hleaf.mpr hu.leaf,hu.present,hu.user⟩⟩
  refine ⟨fun a pte hu=>?_,fun a=>?_,hentries,fun a pte hu i _=>by rw [hcl.kept (hc.safe a pte hu)]⟩
  · obtain ⟨f,hf⟩:=hall _ (huser.mpr hu)
    have hcopy:=hcl.pages _ hf
    have he:=copiedEntry hcopy.frame pte
    refine ⟨f|||(pte&&&pageBits),⟨hu.low,hu.aligned,hcopy.leaf,?_,?_⟩,he.bits,?_,fun b pte₂ hba hb=>?_,
      fun i hi=>?_⟩
    · rw [he.present]
      exact hu.present
    · rw [he.user]
      exact hu.user
    · rw [he.phys]
      rintro (hr | ⟨b,pte₂,hb,rfl⟩)
      · obtain ⟨l,hl⟩:=hr.level_eq ho.tables.forest ho.root
        exact hcopy.fresh (.inl (ho.tables.used hl))
      · exact hcopy.fresh (hc.safe b pte₂ hb)
    · rw [he.phys]
      refine hcl.frame_ne (fun x hx=>⟨(hpage x hx).low,(hpage x hx).aligned⟩) hf hba hb fun x hx hlt hblock=>?_
      refine (ho.near hc (hpage x hx) hlt hb.aligned hblock).imp_left fun hb'=>?_
      obtain ⟨pte',hb'⟩:=hb'
      obtain ⟨g,hg⟩:=hall _ (huser.mpr hb')
      exact ⟨_,hg,rfl⟩
    · rw [he.phys,hcopy.words ?_ i hi,entryBase_of_lt (hc.plain a pte hu)]
      rw [entryBase_of_lt (hc.plain a pte hu)]
      exact hc.safe a pte hu
  · rw [virtToPhys_eq,virtToPhys_eq]
    refine congrArg (·.getD 0) (lookup_congr ho.tables.forest (fun hl i=>?_) ho.root a)
    rw [slots,hmem hl]
    rfl

/-- A space with one page at the given address, on the frame 0x9000. -/
def onePage (virt : ℕ) (offers : List ℕ) : Filling:=
  (Call.map virt 0x9000 7).run 0x6000 (Call.alloc.run 0x6000
    ⟨(createUserSpace 0x1000 (booted (0x6000::0x7000::0x8000::0x9000::offers))).2.2,[]⟩)

theorem onePage_source (offers : List ℕ) (hv : v<2^47) : Source 0x1000 0x6000 true (onePage v offers):=by
  have hnew : Source 0x1000 0x6000 true
      ⟨(createUserSpace 0x1000 (booted (0x6000::0x7000::0x8000::0x9000::offers))).2.2,[]⟩:=
    .create (booted_built (0x6000::0x7000::0x8000::0x9000::offers)).inOrder rfl (by decide)
  exact hnew.alloc.map hv mem_cons_self (by decide) (by decide) (by decide)

def highPage : Filling:=onePage 0x40000000 [0xA000,0xB000,0xC000,0xD000,0xE000,0xF000,0x10000,0x11000]

/-- A page above the first GiB is copied. -/
theorem clone_copies_space_high : (cloneUserSpace 0x1000 0x6000 highPage.machine).1=0xC000 ∧
    Cloned 0x6000 0xC000 highPage.machine (cloneUserSpace 0x1000 0x6000 highPage.machine).2.2:=by
  have hsource : Source 0x1000 0x6000 true highPage:=onePage_source _ (by decide)
  obtain ⟨level,home,ho⟩:=hsource.sound
  have hpages : userPages 0x6000 highPage.machine=[(0x40000000,0x9007)]:=by decide +kernel
  have hone {a pte : ℕ} (hu : UserPage 0x6000 a pte highPage.machine) : a=0x40000000 ∧ pte=0x9007:=by
    have:=(mem_userPages ho.tables ho.root).mpr hu
    rw [hpages] at this
    simpa using this
  have hclonable : Clonable 0x6000 true highPage.machine:=by
    refine ⟨fun a pte hu=>?_,fun a pte hu=>.inl ?_,by simp⟩
    · rw [(hone hu).2]
      decide
    · rw [(hone hu).2]
      decide
  have hdst : (cloneUserSpace 0x1000 0x6000 highPage.machine).1=0xC000:=by decide +kernel
  rcases hc : cloneUserSpace 0x1000 0x6000 highPage.machine with ⟨dst,frames,m'⟩
  rw [hc] at hdst
  obtain rfl:=hdst
  exact ⟨rfl,clone_copies_space hsource hclonable hc (by decide)⟩

/-- Frames in a row, from the one behind 4 MiB on. -/
def frameRow (n : ℕ) : List ℕ:=(List.range n).map fun i=>0x401000+i*0x1000

/-- The page is at 4 MiB, and the frames behind 4 MiB are free. -/
def splitPage : Filling:=onePage 0x400000 (0xA000::0xB000::0xC000::0xD000::frameRow 2048)

theorem mem_frameRow {n : ℕ} (hf : f∈frameRow n) : ∃i<n,f=0x401000+i*0x1000:=by
  obtain ⟨i,hi,rfl⟩:=mem_map.mp hf
  exact ⟨i,mem_range.mp hi,rfl⟩

theorem nodup_frameRow (n : ℕ) : (frameRow n).Nodup:=
  nodup_range.map fun i j h=>by omega

theorem plenty_splitPage : Plenty (4*512+3) splitPage.machine:=by
  have hused : splitPage.machine.used=[0xA000,0x9000,0x8000,0x7000,0x6000,0x5000,0x4000,0x3000,0x2000,0x1000]:=rfl
  refine ⟨[0xB000,0xC000,0xD000]++frameRow 2048,[],?_,?_,?_,fun f hf=>?_⟩
  · decide +kernel
  · rw [length_append,frameRow,length_map,length_range]
    rfl
  · refine nodup_append.mpr ⟨by decide,nodup_frameRow _,fun x hx y hy=>?_⟩
    obtain ⟨i,-,rfl⟩:=mem_frameRow hy
    simp only [mem_cons,not_mem_nil,or_false] at hx
    omega
  · rw [hused]
    rcases mem_append.mp hf with hf' | hf'
    · simp only [mem_cons,not_mem_nil,or_false] at hf'
      rcases hf' with rfl | rfl | rfl <;> decide
    obtain ⟨i,hi,rfl⟩:=mem_frameRow hf'
    refine ⟨isFrame_of_bounds (by omega) (by omega) (by omega),?_⟩
    simp only [mem_cons,not_mem_nil,or_false]
    omega

/-- The clone's page at 4 MiB gets the frame of the next user page of the source. -/
theorem clone_shares_frame : ∃dst frames m',Source 0x1000 0x6000 true splitPage ∧
    cloneUserSpace 0x1000 0x6000 splitPage.machine=(dst,frames,m') ∧ dst≠0 ∧
    ¬Cloned 0x6000 dst splitPage.machine m':=by
  have hsource : Source 0x1000 0x6000 true splitPage:=onePage_source _ (by decide)
  obtain ⟨level,home,ho⟩:=hsource.sound
  have hlength : (userPages 0x6000 splitPage.machine).length=512:=by decide +kernel
  have hhead : (userPages 0x6000 splitPage.machine).head? = some (0x400000,0x9007):=by decide +kernel
  have hdst:=cloneUserSpace_succeeds ho.tables ho.kernel ho.low ho.root (by rw [hlength]; exact plenty_splitPage)
  rcases hc : cloneUserSpace 0x1000 0x6000 splitPage.machine with ⟨dst,frames,m'⟩
  rw [hc] at hdst
  refine ⟨dst,frames,m',hsource,rfl,hdst,fun hcl=>?_⟩
  obtain ⟨done,level',owner,hclone,-,-,hfirst⟩:=cloning_clone ho.tables ho.kernel ho.low ho.root hc hdst
  have hframe : (allocFrame (createUserSpace 0x1000 splitPage.machine).2.2).1=0x401000:=by decide +kernel
  have hcopy:=hclone.pages _ (hfirst _ hhead)
  rw [hframe] at hcopy
  -- the page behind is a user page on its own address
  have hnext : UserPage 0x6000 0x401000 0x401007 splitPage.machine:=by
    refine ⟨by decide,by decide,⟨0xA000,⟨0x7000,?_,0x8000,?_,0xA000,?_,rfl⟩,?_⟩,by decide,by decide⟩ <;> decide +kernel
  have hpage:=(mem_userPages ho.tables ho.root).mp (mem_of_head? hhead)
  obtain ⟨pte',hpc⟩:=hcl.copied _ _ hpage
  refine hpc.own (.inr ⟨0x401000,0x401007,hnext,?_⟩)
  rw [hpc.page.leaf.unique hcopy.leaf,(copiedEntry hcopy.frame _).phys]
  decide

end Knail.Spawn
