import Knail.PageTableTranslation

/-!
# Isolation of the kernel's page tables

Every table has an owner, the kernel or the space it was allocated for, and a space reaches the tables of the kernel
through the upper half of its PML4 only. The exception is a space whose creation ran out of frames: `activate` lends
it the kernel's entry 0.
-/
namespace Knail.PageTables

open List

variable {m m' : Machine} {level level' : ℕ→Option ℕ} {home home' : ℕ→Option ℕ×ℕ}
  {t i c e f k r a u : ℕ} {g : ℕ→ℕ} {P Q : ℕ→Prop} {m'' : Machine} {l pt v j : ℕ} {s : State}

/-- Only frames of the given kind were written or freed. -/
def Touches (P : ℕ→Prop) (m m' : Machine) : Prop:=∀u∈m'.touched,u∈m.touched ∨ P u

theorem Touches.refl (P : ℕ→Prop) (m : Machine) : Touches P m m:=fun _ hu=>.inl hu

theorem Touches.mono (h : Touches P m m') (hPQ : ∀u,P u→Q u) : Touches Q m m':=
  fun u hu=>(h u hu).imp_right (hPQ u)

theorem Touches.trans (h : Touches P m m') (h' : Touches P m' m'') : Touches P m m'':=by
  intro u hu
  rcases h' u hu with hu | hu
  · exact h u hu
  · exact .inr hu

theorem touches_cons (hm : m'.touched=t::m.touched) (ht : P t) : Touches P m m':=by
  intro u hu
  rw [hm] at hu
  rcases mem_cons.mp hu with rfl | hu
  · exact .inr ht
  · exact .inl hu

theorem touches_allocTable (m : Machine) : Touches (· ∉ m.used) m (allocTable m).2:=by
  unfold allocTable allocFrame
  cases m.supply with
  | nil=>exact .refl _ _
  | cons g rest=>
    by_cases hg : IsFrame g ∧ g∉m.used
    · simp only [hg,and_self,not_false_eq_true,if_true,if_neg hg.1.1]
      exact touches_cons rfl hg.2
    · simp only [if_neg hg,if_true]
      exact .refl _ _

theorem allocTable_used (hu : u∈m.used) : u∈(allocTable m).2.used:=by
  rcases allocTable_spec m with ⟨-,-,hused⟩ | ⟨-,-,-,hused⟩
  · rwa [hused]
  · rw [hused]
    exact mem_cons_of_mem _ hu

theorem allocTable_fresh (hc : (allocTable m).1≠0) : (allocTable m).1∉m.used:=by
  rcases allocTable_spec m with ⟨h0,-⟩ | ⟨-,hcu,-⟩
  · exact absurd h0 hc
  · exact hcu

theorem touches_withUser (t i f : ℕ) (m : Machine) : Touches (· = t) m (withUser t i f m):=by
  unfold withUser
  split
  · exact touches_cons rfl rfl
  · exact .refl _ _

theorem withUser_used (t i f : ℕ) (m : Machine) : (withUser t i f m).used=m.used:=by
  unfold withUser
  split <;> rfl

theorem touches_splitHuge (t i f : ℕ) (m : Machine) : Touches (fun u=>u=t ∨ u∉m.used) m (splitHuge t i f m).2:=by
  have ha : Touches (fun u=>u=t ∨ u∉m.used) m (allocTable m).2:=(touches_allocTable m).mono fun _=>.inr
  unfold splitHuge
  simp only
  split
  · exact ha
  rename_i hc
  refine ha.trans (Touches.trans (touches_cons rfl ?_) (touches_cons rfl (.inl rfl)))
  exact .inr (allocTable_fresh hc)

theorem touches_getOrCreate (t i f : ℕ) (m : Machine) :
    Touches (fun u=>u=t ∨ u∉m.used) m (getOrCreate t i f m).2:=by
  unfold getOrCreate
  split
  · have hw : Touches (fun u=>u=t ∨ u∉m.used) m (withUser t i f m):=(touches_withUser t i f m).mono fun _=>.inl
    simp only
    split
    · refine hw.trans ((touches_splitHuge t i f _).mono fun u hu=>?_)
      rwa [withUser_used] at hu
    · exact hw
  · have ha : Touches (fun u=>u=t ∨ u∉m.used) m (allocTable m).2:=(touches_allocTable m).mono fun _=>.inr
    simp only
    split
    · exact ha
    · exact ha.trans (touches_cons rfl (.inl rfl))

theorem touches_createUserSpace (k : ℕ) (m : Machine) : Touches (· ∉ m.used) m (createUserSpace k m).2.2:=by
  have h1:=touches_allocTable m
  unfold createUserSpace
  simp only
  split
  · exact h1
  rename_i hc1
  have hn1:=allocTable_fresh hc1
  have hu1 (u : ℕ) (hu : u∉(allocTable m).2.used) : u∉m.used:=fun h=>hu (allocTable_used h)
  generalize (allocTable m).1=pml4, (allocTable m).2=m1 at *
  -- clearing the lower half writes the new PML4
  have h2 : Touches (· ∉ m.used) m (m1.fill pml4 fun i=>if i<256 then 0 else m1.mem pml4 i):=
    h1.trans (touches_cons rfl hn1)
  replace hu1 (u : ℕ) (hu : u∉(m1.fill pml4 fun i=>if i<256 then 0 else m1.mem pml4 i).used) : u∉m.used:=
    hu1 u hu
  generalize (m1.fill pml4 fun i=>if i<256 then 0 else m1.mem pml4 i)=m2 at *
  have h3:=h2.trans ((touches_allocTable m2).mono hu1)
  split
  · exact h3
  rename_i hc2
  have hn2:=hu1 _ (allocTable_fresh hc2)
  have hu2 (u : ℕ) (hu : u∉(allocTable m2).2.used) : u∉m.used:=hu1 u fun h=>hu (allocTable_used h)
  generalize (allocTable m2).1=pdpt, (allocTable m2).2=m3 at *
  have h4:=h3.trans ((touches_allocTable m3).mono hu2)
  split
  · exact h4.trans (touches_cons rfl hn2)
  rename_i hc3
  have hn3:=hu2 _ (allocTable_fresh hc3)
  exact (((h4.trans (touches_cons rfl hn1)).trans (touches_cons rfl hn2)).trans (touches_cons rfl hn3)).trans
    (touches_cons rfl hn1)

theorem touches_activate (k r : ℕ) (m : Machine) : Touches (· = r) m (activate k r m):=by
  unfold activate
  split
  · split
    · exact Touches.trans (touches_cons rfl rfl) (touches_cons rfl rfl)
    · exact touches_cons rfl rfl
  · exact .refl _ _

theorem of_decode_table (h : decode l e = .table u) : e&&&flagPresent≠0 ∧ entryPhys e=u:=by
  unfold decode at h
  split at h
  · simp at h
  rename_i hp
  split at h
  · simp at h
  · exact ⟨hp,by simpa using h⟩

theorem unmapPage_eq (hd : Descends (slots m) tableIdx pt 3 r v) : unmapPage r v m=m.write pt (ptIdx v) 0:=by
  obtain ⟨pdpt,h3,pd,h2,pt',h1,rfl⟩:=hd
  obtain ⟨hp3,rfl⟩:=of_decode_table h3
  obtain ⟨hp2,rfl⟩:=of_decode_table h2
  obtain ⟨hp1,rfl⟩:=of_decode_table h1
  simp only [unmapPage,pml4Idx,pdptIdx,pdIdx,hp3,hp2,hp1,if_false]

/-- The space's entry 0 is the kernel's: both lead to the same PDPT. -/
def SharesLow (k r : ℕ) (m : Machine) : Prop:=
  m.mem r 0&&&flagPresent≠0 ∧ entryPhys (m.mem r 0)=entryPhys (m.mem k 0)

instance (k r : ℕ) (m : Machine) : Decidable (SharesLow k r m):=inferInstanceAs (Decidable (_ ∧ _))

/-- Every table belongs to the kernel, `none`, or to a user space, and the tables that the
kernel had in the state `m₀` are as they were. -/
structure Isolated (k : ℕ) (m₀ : Machine) (level₀ : ℕ→Option ℕ) (spaces : List ℕ) (m : Machine)
    (level owner : ℕ→Option ℕ) : Prop where
  tables : ∃home,Tables m level home
  roots : ∀r∈spaces,level r=some 3 ∧ owner r=some r
  links : ∀{t l i u},level t=some (l+1)→slots m (l+1) t i = .table u →
    owner u=owner t ∨ t∈spaces ∧ owner u=none ∧ (256 ≤ i ∨ i=0 ∧ u=entryPhys (m.mem k 0))
  kernel : ∀{t l},level₀ t=some l →
    level t=some l ∧ owner t=none ∧ m.mem t=m₀.mem t ∧ (t∈m.touched→t∈m₀.touched)

variable {m₀ : Machine} {level₀ owner owner' : ℕ→Option ℕ} {spaces : List ℕ}

theorem Isolated.start (ht : Tables m level home) : Isolated k m level [] m level fun _=>none:=
  ⟨⟨home,ht⟩,by simp,fun _ _=>.inl rfl,fun hl=>⟨hl,rfl,rfl,id⟩⟩

section

variable (h : Isolated k m₀ level₀ spaces m level owner)
include h

theorem Isolated.virtToPhys_kernel (hf : Forest (slots m₀) 3 level₀ home)
    (hk : level₀ k=some 3) (v : ℕ) : virtToPhys k v m=virtToPhys k v m₀:=by
  rw [virtToPhys_eq,virtToPhys_eq]
  refine congrArg (·.getD 0) (lookup_congr hf (fun hl i=>?_) hk v)
  rw [slots,(h.kernel hl).2.2.1]
  rfl

theorem Isolated.kernel_of (hP : Touches P m m') (hkeep : ∀{t l},level₀ t=some l→level t=some l → owner t=none →
    level' t=some l ∧ owner' t=none ∧ m'.mem t=m.mem t ∧ ¬P t) (ht : level₀ t=some l) :
    level' t=some l ∧ owner' t=none ∧ m'.mem t=m₀.mem t ∧ (t∈m'.touched→t∈m₀.touched):=by
  obtain ⟨hl,ho,hmem,hn⟩:=h.kernel ht
  obtain ⟨hl',ho',hmem',hnP⟩:=hkeep ht hl ho
  exact ⟨hl',ho',hmem'.trans hmem,fun hu=>(hP t hu).elim hn fun h'=>absurd h' hnP⟩

theorem Isolated.kernel_ne (hto : owner t=some r) (hu : level₀ u=some l) : u≠t:=by
  rintro rfl
  simp [(h.kernel hu).2.1] at hto

theorem Isolated.child_owner (htl : level t=some l) (hl : l≠3) (hs : slots m l t i = .table u) : owner u=owner t:=by
  cases l with
  | zero=>
    unfold slots decode at hs
    split at hs <;> simp at hs
  | succ l=>
    rcases h.links htl hs with hu | ⟨ht,-⟩
    · exact hu
    have:=(h.roots t ht).1
    rw [htl] at this
    exact absurd (Option.some.inj this) hl

theorem Isolated.root_owner (hr : r∈spaces) (hi : i<256)
    (hlow : i=0→¬SharesLow k r m) (hs : slots m 3 r i = .table u) : owner u=some r:=by
  obtain ⟨hl,ho⟩:=h.roots r hr
  rcases h.links hl hs with hu | ⟨-,-,hge | ⟨rfl,hu⟩⟩
  · exact hu.trans ho
  · omega
  · obtain ⟨hp,he⟩:=of_decode_table hs
    exact absurd ⟨hp,he.trans hu⟩ (hlow rfl)

end

/-- New tables belong to the space that they are allocated for. -/
def claimed (level owner : ℕ→Option ℕ) (r u : ℕ) : Option ℕ:=if level u=none then some r else owner u

theorem claimed_of_some (hl : level u=some l) : claimed level owner r u=owner u:=by
  simp [claimed,hl]

theorem claimed_of_none (hl : level u=none) : claimed level owner r u=some r:=if_pos hl

section

variable (h : Isolated k m₀ level₀ spaces m level owner)
include h

/-- A table is looked up or made for the owner of the table above. -/
theorem Isolated.getOrCreate_owned (owner' : ℕ→Option ℕ)
    (hk : level₀ k=some 3) (htl : level t=some (j+1)) (hne : ∀{u l},level₀ u=some l→u≠t) (hf : TableFlags f)
    (hchild : ∀u,slots m (j+1) t i = .table u → owner u=owner t)
    (hold : ∀{u l},level u=some l → owner' u=owner u) (hnew : ∀{u},level u=none → owner' u=owner t) :
    ∃level',Isolated k m₀ level₀ spaces (getOrCreate t i f m).2 level' owner' ∧
    Keeps m (getOrCreate t i f m).2 level level' ∧
    ((getOrCreate t i f m).1≠0→level' (getOrCreate t i f m).1=some j ∧ owner' (getOrCreate t i f m).1=owner t):=by
  obtain ⟨home,ht⟩:=h.tables
  obtain ⟨level',home',hc⟩:=getOrCreate_spec ht htl hf i
  have hk0:=hc.other k (ht.used (h.kernel hk).1) (hne hk)
  refine ⟨level',⟨⟨home',hc.tables⟩,?_,?_,?_⟩,hc.ext.keeps,?_⟩
  · intro r' hr'
    obtain ⟨hl,ho⟩:=h.roots r' hr'
    exact ⟨hc.ext.level_eq hl,(hold hl).trans ho⟩
  · intro t' l j' u ht' hs
    obtain ⟨hl,hlink | ⟨rfl,rfl,hu⟩⟩:=hc.links ht' hs
    · rw [hold hl,hold (ht.forest.child hl hlink).1,hk0]
      exact h.links hl hlink
    · rw [hold hl,hnew hu]
      exact .inl rfl
  · refine h.kernel_of (touches_getOrCreate t i f m) fun {u l} h0 hl ho=>?_
    refine ⟨hc.ext.level_eq hl,(hold hl).trans ho,hc.other u (ht.used hl) (hne h0),?_⟩
    rintro (hu | hu)
    · exact hne h0 hu
    · exact hu (ht.used hl)
  · intro h0
    obtain ⟨hl,hs⟩:=hc.child h0
    refine ⟨hl,?_⟩
    obtain ⟨-,hlink | ⟨-,-,hu⟩⟩:=hc.links (hc.ext.level_eq htl) hs
    · rw [hold (ht.forest.child htl hlink).1]
      exact hchild _ hlink
    · exact hnew hu

theorem Isolated.getOrCreate (hk : level₀ k=some 3)
    (htl : level t=some (j+1)) (hto : owner t=some r) (hf : TableFlags f)
    (hchild : ∀u,slots m (j+1) t i = .table u → owner u=some r) :
    ∃level' owner',Isolated k m₀ level₀ spaces (getOrCreate t i f m).2 level' owner' ∧
    Keeps m (getOrCreate t i f m).2 level level' ∧
    ((getOrCreate t i f m).1≠0→level' (getOrCreate t i f m).1=some j ∧ owner' (getOrCreate t i f m).1=some r):=by
  rw [←hto] at hchild ⊢
  obtain ⟨level',h'⟩:=h.getOrCreate_owned (claimed level owner r) hk htl (h.kernel_ne hto) hf hchild
    claimed_of_some fun hl=>(claimed_of_none hl).trans hto.symm
  exact ⟨level',_,h'⟩

theorem Isolated.writePage (hk : level₀ k=some 3)
    (htl : level t=some 0) (hne : ∀{u l},level₀ u=some l→u≠t) (i e : ℕ) :
    Isolated k m₀ level₀ spaces (m.write t i e) level owner:=by
  obtain ⟨home,ht⟩:=h.tables
  refine ⟨⟨home,ht.writePage htl i e⟩,h.roots,?_,?_⟩
  · intro t' l j u ht' hs
    have ht't : t'≠t:=by
      rintro rfl
      simp [htl] at ht'
    rw [slots_write fun he=>ht't he.1] at hs
    rw [mem_write_of_ne (hne hk)]
    exact h.links ht' hs
  · exact h.kernel_of (P:=(· = t)) (touches_cons rfl rfl) fun h0 hl ho=>⟨hl,ho,mem_write_of_ne (hne h0),hne h0⟩

end

theorem pml4Idx_lt (hv : v<2^47) : pml4Idx v<256:=by
  simp only [pml4Idx,tableIdx]
  omega

section

variable (h : Isolated k m₀ level₀ spaces m level owner)
include h

theorem Isolated.mapPage (hk : level₀ k=some 3) (hr : r∈spaces) (hv : v<2^47) (hlow : pml4Idx v=0→¬SharesLow k r m) (p flags : ℕ) :
    ∃level' owner',Isolated k m₀ level₀ spaces (mapPage r v p flags m).2 level' owner' ∧
    Keeps m (mapPage r v p flags m).2 level level':=by
  obtain ⟨hrl,hro⟩:=h.roots r hr
  obtain ⟨m1,he,hm⟩ | ⟨m1,pt,he,level',owner',h',e,hl,ho,-⟩:=mapPage_rule p
    (P:=fun l t m1=>∃level' owner',Isolated k m₀ level₀ spaces m1 level' owner' ∧ Keeps m m1 level level' ∧
      level' t=some l ∧ owner' t=some r ∧ ∀u,slots m1 l t (tableIdx l v) = .table u → owner' u=some r)
    (Q:=fun m1=>∃level' owner',Isolated k m₀ level₀ spaces m1 level' owner' ∧ Keeps m m1 level level')
    ⟨level,owner,h,(Extends.refl m level).keeps,hrl,hro,fun u hs=>h.root_owner hr (pml4Idx_lt hv) hlow hs⟩
    fun {l t m1 c m2} hlt hp he=>by
      obtain ⟨level1,owner1,h1,e1,hl1,ho1,hchild⟩:=hp
      obtain ⟨level2,owner2,h2,e2,hc⟩:=h1.getOrCreate hk hl1 ho1 (tableFlags_spec flags) hchild
      rw [he] at h2 e2 hc
      refine ⟨fun _=>⟨level2,owner2,h2,e1.trans e2⟩,fun h0=>?_⟩
      obtain ⟨hl2,ho2⟩:=hc h0
      exact ⟨level2,owner2,h2,e1.trans e2,hl2,ho2,fun u hs=>(h2.child_owner hl2 hlt.ne hs).trans ho2⟩
  · rw [he]
    exact hm
  · rw [he]
    exact ⟨level',owner',h'.writePage hk hl (h'.kernel_ne ho) _ _,e.level_eq,e.fresh,e.used⟩

theorem Isolated.unmapPage (hk : level₀ k=some 3) (hr : r∈spaces) (hv : v<2^47) (hlow : pml4Idx v=0→¬SharesLow k r m)
    (hd : Descends (slots m) tableIdx pt 3 r v) : Isolated k m₀ level₀ spaces (unmapPage r v m) level owner:=by
  rw [unmapPage_eq hd]
  obtain ⟨home,ht⟩:=h.tables
  obtain ⟨hrl,-⟩:=h.roots r hr
  have hlevel:=hd.level_eq ht.forest hrl
  obtain ⟨pdpt,hs3,pd,hs2,pt',hs1,rfl⟩:=hd
  have hl3:=(ht.forest.child hrl hs3).1
  have hl2:=(ht.forest.child hl3 hs2).1
  have ho3 : owner pdpt=some r:=h.root_owner hr (pml4Idx_lt hv) hlow hs3
  have ho2:=(h.child_owner hl3 (by decide) hs2).trans ho3
  exact h.writePage hk hlevel (h.kernel_ne ((h.child_owner hl2 (by decide) hs1).trans ho2)) _ _

theorem Isolated.kernel_child (hk : level₀ k=some 3) (hs : slots m 3 k i = .table u) : owner u=none:=by
  obtain ⟨hkl,hko,-⟩:=h.kernel hk
  rcases h.links hkl hs with hu | ⟨-,hu,-⟩
  · exact hu.trans hko
  · exact hu

theorem Isolated.createUserSpace_claimed (hk : level₀ k=some 3) : ∃level',Isolated k m₀ level₀
    (if (createUserSpace k m).1=0 then spaces else (createUserSpace k m).1::spaces) (createUserSpace k m).2.2
    level' (claimed level owner (createUserSpace k m).1) ∧ NewSpace m k (createUserSpace k m) level level':=by
  obtain ⟨home,ht⟩:=h.tables
  obtain ⟨hkl,hko,-⟩:=h.kernel hk
  obtain ⟨level',hn⟩:=createUserSpace_spec ht hkl
  have htouch:=touches_createUserSpace k m
  generalize createUserSpace k m=new at hn htouch ⊢
  obtain ⟨r,ok,m'⟩:=new
  obtain ⟨home',ht'⟩:=hn.tables
  have hmemk : m'.mem k=m.mem k:=hn.mem k (ht.used hkl)
  have hspaces {t : ℕ} (hts : t∈spaces) : t∈if r=0 then spaces else r::spaces:=by
    split
    · exact hts
    · exact mem_cons_of_mem _ hts
  refine ⟨level',⟨⟨home',ht'⟩,?_,?_,?_⟩,hn⟩
  · intro t hts
    have hold (hts : t∈spaces) : level' t=some 3 ∧ claimed level owner r t=some t:=by
      obtain ⟨hl,ho⟩:=h.roots t hts
      exact ⟨hn.level_eq hl,(claimed_of_some hl).trans ho⟩
    split at hts
    · exact hold hts
    rename_i hr0
    rcases mem_cons.mp hts with rfl | hts
    · obtain ⟨hl,hu⟩:=hn.root hr0
      exact ⟨hl,claimed_of_none (ht.level_eq_none hu)⟩
    · exact hold hts
  · intro t l i u htl hs
    rw [hmemk]
    rcases hn.links htl hs with ⟨hl,hs'⟩ | ⟨hl,hu | ⟨rfl,hi,hs'⟩⟩
    · rw [claimed_of_some hl,claimed_of_some (ht.forest.child hl hs').1]
      exact (h.links hl hs').imp_right fun ⟨hts,h'⟩=>⟨hspaces hts,h'⟩
    · rw [claimed_of_none hl,claimed_of_none hu]
      exact .inl rfl
    rw [claimed_of_some (ht.forest.child hkl hs').1]
    refine .inr ⟨?_,h.kernel_child hk hs',.inl hi⟩
    rw [if_neg (ht'.frame htl).1]
    exact mem_cons_self
  · refine h.kernel_of htouch fun {u l} _ hl ho=>?_
    exact ⟨hn.level_eq hl,(claimed_of_some hl).trans ho,hn.mem u (ht.used hl),fun hu=>hu (ht.used hl)⟩

theorem Isolated.createUserSpace (hk : level₀ k=some 3) : ∃level' owner',Isolated k m₀ level₀
    (if (createUserSpace k m).1=0 then spaces else (createUserSpace k m).1::spaces) (createUserSpace k m).2.2
    level' owner' ∧ NewSpace m k (createUserSpace k m) level level':=by
  obtain ⟨level',h'⟩:=h.createUserSpace_claimed hk
  exact ⟨level',_,h'⟩

theorem Isolated.activate (hk : level₀ k=some 3)
    (hr : r∈spaces) : Isolated k m₀ level₀ spaces (activate k r m) level owner:=by
  obtain ⟨home,ht⟩:=h.tables
  obtain ⟨hkl,hko,-⟩:=h.kernel hk
  obtain ⟨hrl,hro⟩:=h.roots r hr
  have hne {u : ℕ} (ho : owner u=none) : u≠r:=by
    rintro rfl
    simp [ho] at hro
  have hmem:=activate_mem (m:=m) ⟨(ht.frame hrl).1,Ne.symm (hne hko)⟩
  have hmem_of_ne {u : ℕ} (hu : u≠r) : (PageTables.activate k r m).mem u=m.mem u:=by
    rw [hmem,Function.update_of_ne hu]
  refine ⟨⟨home,activate_tables ht hrl hkl⟩,h.roots,?_,?_⟩
  · intro t l i u htl hs
    rw [hmem_of_ne (hne hko)]
    by_cases htr : t=r
    · subst htr
      obtain rfl : l=2:=by simpa [hrl,eq_comm] using htl
      rw [slots,hmem,Function.update_self] at hs
      rcases activated_cases k t m i with he | ⟨he,hi⟩
      · rw [he] at hs
        exact h.links htl hs
      rw [he] at hs
      refine .inr ⟨hr,h.kernel_child hk hs,hi.imp_right ?_⟩
      rintro rfl
      exact ⟨rfl,(of_decode_table hs).2.symm⟩
    · rw [slots,hmem_of_ne htr] at hs
      exact h.links htl hs
  · exact h.kernel_of (touches_activate k r m) fun _ hl ho=>⟨hl,ho,hmem_of_ne (hne ho),hne ho⟩

end

/-- Frames of the given kind were freed and nothing else happened. -/
structure Frees (P : ℕ→Prop) (m m' : Machine) : Prop where
  mem : m'.mem=m.mem
  used : ∀u∈m.used,¬P u→u∈m'.used
  touches : Touches P m m'

theorem Frees.refl (P : ℕ→Prop) (m : Machine) : Frees P m m:=⟨rfl,fun _ hu _=>hu,.refl _ _⟩

theorem Frees.trans (h : Frees P m m') (h' : Frees P m' m'') : Frees P m m'' where
  mem:=h'.mem.trans h.mem
  used:=fun u hu hP=>h'.used u (h.used u hu hP) hP
  touches:=h.touches.trans h'.touches

theorem frees_freeFrame (hf : P f) : Frees P m (freeFrame f m):=by
  refine ⟨rfl,fun u hu hP=>?_,touches_cons rfl hf⟩
  have huf : u≠f:=by
    rintro rfl
    exact hP hf
  simp [freeFrame,hu,huf]

theorem frees_foldl {step : Machine→ℕ→Machine} (xs : List ℕ) (m : Machine)
    (hstep : ∀m',m'.mem=m.mem→∀x∈xs,Frees P m' (step m' x)) : Frees P m (xs.foldl step m):=by
  induction xs generalizing m with
  | nil=>exact .refl _ _
  | cons x xs ih=>
    have hx:=hstep m rfl x mem_cons_self
    exact hx.trans (ih (step m x) fun m' hm' y hy=>hstep m' (hm'.trans hx.mem) y (mem_cons_of_mem _ hy))

section

variable (h : Isolated k m₀ level₀ spaces m level owner)
include h

theorem Isolated.freePd (htl : level t=some 1)
    (hto : owner t=some r) (hm' : m'.mem=m.mem) : Frees (owner · = some r) m' (freePd t m'):=by
  obtain ⟨home,ht⟩:=h.tables
  refine frees_foldl _ _ fun m'' hm'' i _=>?_
  simp only [hm''.trans hm']
  split
  · exact .refl _ _
  rename_i hp
  obtain ⟨hp,hh⟩:=not_or.mp hp
  have hs : slots m 1 t i = .table (entryPhys (m.mem t i)):=by
    simp only [slots,decode,hp,hh,if_false,one_ne_zero,and_false,or_self]
  refine frees_freeFrame ?_
  rw [ht.plain htl hs]
  exact (h.child_owner htl (by decide) hs).trans hto

theorem Isolated.freePdpt (htl : level t=some 2)
    (hto : owner t=some r) (hm' : m'.mem=m.mem) : Frees (owner · = some r) m' (freePdpt t m'):=by
  obtain ⟨home,ht⟩:=h.tables
  refine frees_foldl _ _ fun m'' hm'' i _=>?_
  simp only [hm''.trans hm']
  split
  · exact .refl _ _
  rename_i hp
  obtain ⟨hp,-⟩:=not_or.mp hp
  have hs : slots m 2 t i = .table (entryPhys (m.mem t i)):=by simp [slots,decode,hp]
  have ho:=(h.child_owner htl (by decide) hs).trans hto
  rw [ht.plain htl hs]
  exact (h.freePd (ht.forest.child htl hs).1 ho (hm''.trans hm')).trans (frees_freeFrame ho)

theorem Isolated.frees_destroy (hr : r∈spaces)
    (hlow : ¬SharesLow k r m) : Frees (owner · = some r) m (destroyUserSpace r m):=by
  obtain ⟨home,ht⟩:=h.tables
  obtain ⟨hrl,hro⟩:=h.roots r hr
  unfold destroyUserSpace
  split
  · exact .refl _ _
  refine Frees.trans (frees_foldl _ _ fun m' hm' i hi=>?_) (frees_freeFrame hro)
  simp only [hm']
  split
  · exact .refl _ _
  rename_i hp
  have hs : slots m 3 r i = .table (entryPhys (m.mem r i)):=by simp [slots,decode,hp]
  have ho:=h.root_owner hr (mem_range.mp hi) (fun _=>hlow) hs
  rw [ht.plain hrl hs]
  exact (h.freePdpt (ht.forest.child hrl hs).1 ho hm').trans (frees_freeFrame ho)

end

/-- The tables of a destroyed space leave the forest. -/
def released (level owner : ℕ→Option ℕ) (r u : ℕ) : Option ℕ:=if owner u=some r then none else level u

theorem Isolated.destroy (h : Isolated k m₀ level₀ spaces m level owner) (hr : r∈spaces) (hlow : ¬SharesLow k r m) :
    Isolated k m₀ level₀ (spaces.filter (· ≠ r)) (destroyUserSpace r m) (released level owner r) owner:=by
  obtain ⟨home,ht⟩:=h.tables
  obtain ⟨hrl,hro⟩:=h.roots r hr
  have hfrees:=h.frees_destroy hr hlow
  have hlevel {t l : ℕ} (htl : released level owner r t=some l) : owner t≠some r ∧ level t=some l:=by
    unfold released at htl
    split at htl
    · simp at htl
    · rename_i ho
      exact ⟨ho,htl⟩
  have hslots : slots (destroyUserSpace r m)=slots m:=by
    funext l t i
    rw [slots,hfrees.mem]
    rfl
  refine ⟨⟨home,.of_sound ⟨?_⟩ ?_ ?_ ?_⟩,?_,?_,?_⟩
  · intro t l i u htl hs
    obtain ⟨ho,htl⟩:=hlevel htl
    rw [hslots] at hs
    have hu : owner u≠some r:=by
      rcases h.links htl hs with hu | ⟨-,hu,-⟩
      · rwa [hu]
      · simp [hu]
    rw [released,if_neg hu]
    exact ht.forest.child htl hs
  · intro t l htl
    exact hfrees.used t (ht.used (hlevel htl).2) (hlevel htl).1
  · exact fun htl=>ht.frame (hlevel htl).2
  · intro t l htl i
    rw [hfrees.mem]
    exact ht.sound (hlevel htl).2 i
  · intro t hts
    obtain ⟨hts,htr⟩:=mem_filter.mp hts
    obtain ⟨hl,ho⟩:=h.roots t hts
    have htr : ¬(some t=some r):=by simpa using htr
    rw [released,ho,if_neg htr]
    exact ⟨hl,rfl⟩
  · intro t l i u htl hs
    rw [hslots] at hs
    rw [hfrees.mem]
    obtain ⟨ho,htl⟩:=hlevel htl
    refine (h.links htl hs).imp_right fun hup=>⟨mem_filter.mpr ⟨hup.1,?_⟩,hup.2⟩
    simp only [decide_eq_true_eq]
    rintro rfl
    exact ho hro
  · refine h.kernel_of hfrees.touches fun {u l} _ hl ho=>?_
    have hu : ¬(owner u=some r):=by simp [ho]
    rw [released,if_neg hu]
    exact ⟨hl,ho,congrFun hfrees.mem u,hu⟩

inductive Op
  | create
  | map (pml4 virt phys flags : ℕ)
  | unmap (pml4 virt : ℕ)
  | activate (pml4 : ℕ)
  | destroy (pml4 : ℕ)

/-- The machine and the user spaces, given by their PML4s. -/
structure State where
  machine : Machine
  spaces : List ℕ

def step (kernel : ℕ) : Op→State→State
  | .create, s=>
    let (pml4,_,m):=createUserSpace kernel s.machine
    ⟨m,if pml4=0 then s.spaces else pml4::s.spaces⟩
  | .map pml4 virt phys flags, s=>⟨(mapPage pml4 virt phys flags s.machine).2,s.spaces⟩
  | .unmap pml4 virt, s=>⟨unmapPage pml4 virt s.machine,s.spaces⟩
  | .activate pml4, s=>⟨activate kernel pml4 s.machine,s.spaces⟩
  | .destroy pml4, s=>⟨destroyUserSpace pml4 s.machine,s.spaces.filter (· ≠ pml4)⟩

/-- Calls are made on existing spaces and lower-half addresses. Addresses that are unmapped
have a page table. -/
def Op.Valid : Op→State→Prop
  | .create, _=>True
  | .map pml4 virt _ _, s=>pml4∈s.spaces ∧ virt<2^47
  | .unmap pml4 virt, s=>
    pml4∈s.spaces ∧ virt<2^47 ∧ ∃pt,Descends (slots s.machine) tableIdx pt 3 pml4 virt
  | .activate pml4, s=>pml4∈s.spaces
  | .destroy pml4, s=>pml4∈s.spaces

/-- No mapping below the first 512 GiB changes, and no space is destroyed, while entry 0 of
the space is the kernel's. -/
def Op.KeepsLow (kernel : ℕ) : Op→State→Prop
  | .map pml4 virt _ _, s=>pml4Idx virt=0→¬SharesLow kernel pml4 s.machine
  | .unmap pml4 virt, s=>pml4Idx virt=0→¬SharesLow kernel pml4 s.machine
  | .destroy pml4, s=>¬SharesLow kernel pml4 s.machine
  | _, _=>True

/-- The states that calls with the given property lead to. -/
inductive Run (kernel : ℕ) (m₀ : Machine) (ok : Op→State→Prop) : State→Prop
  | start : Run kernel m₀ ok ⟨{m₀ with touched:=[]},[]⟩
  | step {s : State} (op : Op) : Run kernel m₀ ok s → ok op s→Run kernel m₀ ok (step kernel op s)

theorem Isolated.step {op : Op} (h : Isolated k m₀ level₀ s.spaces s.machine level owner)
    (hk : level₀ k=some 3) (hv : op.Valid s) (hl : op.KeepsLow k s) :
    ∃level' owner',Isolated k m₀ level₀ (step k op s).spaces (step k op s).machine level' owner':=by
  cases op with
  | create=>
    obtain ⟨level',owner',h',-⟩:=h.createUserSpace hk
    exact ⟨level',owner',h'⟩
  | map r v p f=>
    obtain ⟨level',owner',h',-⟩:=h.mapPage hk hv.1 hv.2 hl p f
    exact ⟨level',owner',h'⟩
  | unmap r v=>
    obtain ⟨hr,hv,pt,hd⟩:=hv
    exact ⟨level,owner,h.unmapPage hk hr hv hl hd⟩
  | activate r=>exact ⟨level,owner,h.activate hk hv⟩
  | destroy r=>exact ⟨_,owner,h.destroy hv hl⟩

theorem Run.isolated {home0 : ℕ→Option ℕ×ℕ} (ht : Tables m₀ level₀ home0) (hk : level₀ k=some 3)
    (hr : Run k m₀ (fun op s=>op.Valid s ∧ op.KeepsLow k s) s) :
    ∃level owner,Isolated k {m₀ with touched:=[]} level₀ s.spaces s.machine level owner:=by
  induction hr with
  | start=>
    have ht' : Tables {m₀ with touched:=[]} level₀ home0:=ht.congr (fun _=>rfl) ht.used
    exact ⟨level₀,fun _=>none,.start ht'⟩
  | step op _ hop ih=>
    obtain ⟨level,owner,h⟩:=ih
    exact h.step hk hop.1 hop.2

/-- No table of the kernel is written or freed, and no kernel address changes its meaning. -/
theorem kernel_tables_isolated {s : State} (hb : Built k [k] m₀)
    (hr : Run k m₀ (fun op s=>op.Valid s ∧ op.KeepsLow k s) s) : (∀t,Reaches (slots m₀) 3 k t →
    t∉s.machine.touched ∧ t∈s.machine.used ∧ s.machine.mem t=m₀.mem t) ∧
    ∀v,virtToPhys k v s.machine=virtToPhys k v m₀:=by
  obtain ⟨level₀,home₀,ht₀,hk,-⟩:=hb.tables
  obtain ⟨level,owner,h⟩:=hr.isolated ht₀ hk
  obtain ⟨home,ht⟩:=h.tables
  refine ⟨fun t htk=>?_,fun v=>?_⟩
  · obtain ⟨l,hl⟩:=htk.level_eq ht₀.forest hk
    obtain ⟨hl',-,hmem,hn⟩:=h.kernel hl
    exact ⟨fun hu=>not_mem_nil (hn hu),ht.used hl',hmem⟩
  · exact h.virtToPhys_kernel ht₀.forest hk v

/-- Empty memory, five frames for the kernel and the offers that the allocator makes next. -/
def blank (offers : List ℕ) : Machine:=
  ⟨fun _ _=>0,[],0x1000::0x2000::0x3000::0x4000::0x5000::offers,[]⟩

def booted (offers : List ℕ) : Machine:=((init (blank offers)).getD (0,blank offers)).2

theorem booted_built (offers : List ℕ) : Built 0x1000 [0x1000] (booted offers):=
  .init (show init (blank offers)=some (0x1000,booted offers) from rfl)

/-- A complete space is mapped low, activated and destroyed. -/
theorem kernel_tables_isolated_destroyed : ∃m₀ s,Built 0x1000 [0x1000] m₀ ∧
    Run 0x1000 m₀ (fun op s=>op.Valid s ∧ op.KeepsLow 0x1000 s) s ∧ 0x6000∈s.machine.touched ∧
    virtToPhys 0x1000 0x400000 s.machine=virtToPhys 0x1000 0x400000 m₀:=by
  have h₀ : Run 0x1000 (booted [0x6000,0x7000,0x8000,0x9000])
    (fun op s=>op.Valid s ∧ op.KeepsLow 0x1000 s) _:=.start
  have h₁:=h₀.step .create ⟨trivial,trivial⟩
  have h₂:=h₁.step (.map 0x6000 0x400000 0xA000 7) ⟨⟨by decide,by decide⟩,fun _=>by decide⟩
  have h₃:=h₂.step (.activate 0x6000) ⟨show 0x6000∈_ by decide,trivial⟩
  have h₄:=h₃.step (.destroy 0x6000) ⟨show 0x6000∈_ by decide,show ¬SharesLow _ _ _ by decide⟩
  refine ⟨_,_,booted_built _,h₄,?_,(kernel_tables_isolated (booted_built _) h₄).2 _⟩
  exact mem_cons_self

/-- The space created without a frame for its PDPT borrows the kernel's entry 0 when it is
activated. Mapping a user page then splits a huge page of the kernel and redirects it. -/
theorem kernel_tables_shared : ∃m₀ s,Built 0x1000 [0x1000] m₀ ∧ Run 0x1000 m₀ Op.Valid s ∧
    Reaches (slots m₀) 3 0x1000 0x3000 ∧ 0x3000∈s.machine.touched ∧
    virtToPhys 0x1000 0x400000 s.machine≠virtToPhys 0x1000 0x400000 m₀:=by
  have h₀ : Run 0x1000 (booted [0x6000,0,0x7000]) Op.Valid _:=.start
  have h₁:=h₀.step .create trivial
  have h₂:=h₁.step (.activate 0x6000) (show 0x6000∈_ by decide)
  have h₃:=h₂.step (.map 0x6000 0x400000 0xA000 7) ⟨by decide,by decide⟩
  refine ⟨_,_,booted_built _,h₃,?_,by decide,by decide⟩
  exact .step (i:=0) (u:=0x2000) (by decide) (.step (i:=0) (by decide) (.refl 1 0x3000))

end Knail.PageTables
