import Knail.PageTableForest

/-!
# What mapping a page does to translations

Address spaces are built by `vmm::init` and `create_user_space` and then extended by
`map_page`. In every such state a successful `map_page` redirects exactly the page it was
asked for, and a failed one changes no translation.
-/
namespace Knail.PageTables

open Function

variable {m m' : Machine} {level level' : ℕ→Option ℕ} {home home' : ℕ→Option ℕ×ℕ}
  {t i c e f k r a : ℕ} {g : ℕ→ℕ} {pdpt pd p l pt v flags : ℕ}

section

variable (ht : Tables m level home)
include ht

theorem Tables.congr (hmem : ∀{t l},level t=some l→m'.mem t=m.mem t)
    (hused : ∀{t l},level t=some l→t∈m'.used) : Tables m' level home:=by
  refine .of_sound (ht.forest.congr fun hl i=>by simp only [slots,hmem hl]) hused ht.frame fun hl i=>?_
  rw [hmem hl]
  exact ht.sound hl i

theorem Tables.alloc : Tables (allocTable m).2 level home ∧ (∀u∈m.used,u∈(allocTable m).2.used) ∧
    (∀u∈m.used,(allocTable m).2.mem u=m.mem u) ∧
    ((allocTable m).1≠0→IsFrame (allocTable m).1 ∧ level (allocTable m).1=none ∧
    (allocTable m).1∉m.used ∧ (allocTable m).1∈(allocTable m).2.used ∧
    (allocTable m).2.mem (allocTable m).1=fun _=>0):=by
  rcases allocTable_spec m with ⟨h0,hmem,hused⟩ | ⟨hc,hcu,hmem,hused⟩
  · refine ⟨(ht.of_mem_eq hmem hused).1,fun u hu=>hused▸hu,fun u _=>congrFun hmem u,fun h=>absurd h0 h⟩
  have hmem' (u : ℕ) (hu : u∈m.used) : (allocTable m).2.mem u=m.mem u:=by
    rw [hmem,update_of_ne (ne_of_mem_of_not_mem hu hcu)]
  have hused' (u : ℕ) (hu : u∈m.used) : u∈(allocTable m).2.used:=by
    rw [hused]
    exact List.mem_cons_of_mem _ hu
  refine ⟨ht.congr (fun hl=>hmem' _ (ht.used hl)) (fun hl=>hused' _ (ht.used hl)),hused',hmem',fun _=>?_⟩
  refine ⟨hc,ht.level_eq_none hcu,hcu,?_,?_⟩
  · rw [hused]
    exact List.mem_cons_self
  · rw [hmem,update_self]

theorem Tables.addRoot (hc : IsFrame c) (hcl : level c=none) (hcu : c∈m.used)
    (hzero : ∀i,m.mem c i=0) : Tables m (update level c (some 3)) home:=by
  have hlevel {u l : ℕ} (hu : update level c (some 3) u=some l) : u=c ∧ l=3 ∨ level u=some l:=by
    by_cases huc : u=c
    · subst huc
      exact .inl ⟨rfl,by simpa using hu.symm⟩
    · exact .inr (by rwa [update_of_ne huc] at hu)
  refine .of_sound ⟨?_⟩ ?_ ?_ ?_
  · intro u l j v hu hs
    rcases hlevel hu with ⟨rfl,-⟩ | hu
    · simp [slots,hzero] at hs
    obtain ⟨hv,hh⟩:=ht.forest.child hu hs
    have hvc : v≠c:=by
      rintro rfl
      simp [hcl] at hv
    rw [update_of_ne hvc]
    exact ⟨hv,hh⟩
  · intro u l hu
    rcases hlevel hu with ⟨rfl,-⟩ | hu
    · exact hcu
    · exact ht.used hu
  · intro u l hu
    rcases hlevel hu with ⟨rfl,-⟩ | hu
    · exact hc
    · exact ht.frame hu
  · intro u l hu j
    rcases hlevel hu with ⟨rfl,-⟩ | hu
    · exact .of_absent (by simp [hzero])
    · exact ht.sound hu j

theorem Tables.linkEmpty (htl : level t=some (k+1)) (hc : IsFrame c)
    (hcl : level c=none) (hcu : c∈m.used) (hzero : m.mem c=fun _=>0) (hf : TableFlags f) (hp : m.mem t i=0) :
    Tables (m.write t i (c|||f)) (update level c (some k)) (update home c (if k+1=3 then none else some t,i)):=by
  have htc : t≠c:=by
    rintro rfl
    simp [hcl] at htl
  have hslot : slots m (k+1) t i = .absent:=by simp [slots,hp]
  have hmem : (m.write t i (c|||f)).mem=update (update m.mem c fun _=>0) t
      (update (m.mem t) i (c|||f)):=by
    rw [←hzero,update_eq_self]
    rfl
  refine (ht.link htl hc hcl hf ?_ hmem (by simp [hslot]) (by simp) (fun _ _=>rfl) fun a _=>?_).1
  · rintro u (rfl | hu)
    · exact hcu
    · exact hu
  rw [hslot,Slot.value]
  refine lookup_empty (fun j=>?_) a
  rw [slots,hmem,update_of_ne (Ne.symm htc),update_self,decode_zero]

theorem Tables.fillHuge (htl : level t=some 1)
    (hg : ∀j,g j&&&flagHuge≠0 ∧ entryPhys (g j)%0x200000=0) : Tables (m.fill t g) level home:=by
  have hne {u : ℕ} (hu : u≠t) : (m.fill t g).mem u=m.mem u:=update_of_ne hu _ _
  have hself : (m.fill t g).mem t=g:=update_self ..
  have hpages {l j v : ℕ} (hu : level t=some (l+1)) : slots (m.fill t g) (l+1) t j≠.table v:=by
    obtain rfl : l=0:=by simpa [htl,eq_comm] using hu
    have hh:=(hg j).1
    by_cases hp : g j&&&flagPresent=0 <;> simp [slots,hself,decode,hp,hh]
  refine .of_sound ⟨?_⟩ ht.used ht.frame ?_
  · intro u l j v hu hs
    by_cases hut : u=t
    · subst hut
      exact absurd hs (hpages hu)
    · rw [slots,hne hut] at hs
      exact ht.forest.child hu hs
  · intro u l hu j
    by_cases hut : u=t
    · subst hut
      obtain rfl : l=1:=by simpa [htl,eq_comm] using hu
      have hs (v : ℕ):=hpages (j:=j) (v:=v) hu
      rw [hself]
      simp only [slots,hself] at hs
      exact ⟨fun _ _ _=>(hg j).2,fun h=>absurd h (by decide),fun v _ h=>absurd h (hs v)⟩
    · rw [hne hut]
      exact ht.sound hu j

theorem Tables.copyRoot (hr : level r=some 3) (hk : level k=some 3)
    (hg : ∀j,g j=m.mem r j ∨ g j=m.mem k j) : Tables (m.fill r g) level home:=by
  have hne {u : ℕ} (hu : u≠r) : (m.fill r g).mem u=m.mem u:=update_of_ne hu _ _
  have hself : (m.fill r g).mem r=g:=update_self ..
  refine .of_sound ⟨?_⟩ ht.used ht.frame ?_
  · intro u l j v hu hs
    by_cases hur : u=r
    · subst hur
      obtain rfl : l=2:=by simpa [hr,eq_comm] using hu
      rw [slots,hself] at hs
      rcases hg j with he | he
      · rw [he] at hs
        exact ht.forest.child hu hs
      · rw [he] at hs
        simpa using ht.forest.child hk hs
    · rw [slots,hne hur] at hs
      exact ht.forest.child hu hs
  · intro u l hu j
    by_cases hur : u=r
    · subst hur
      obtain rfl : l=3:=by simpa [hr,eq_comm] using hu
      rw [hself]
      rcases hg j with he | he
      · exact he▸ht.sound hr j
      · exact he▸ht.sound hk j
    · rw [hne hur]
      exact ht.sound hu j

end

theorem entryPhys_or_huge (x : ℕ) : entryPhys (x|||(flagPresent|||flagWrite|||flagHuge))=entryPhys x:=
  or_and_of_and_eq_zero rfl

theorem identityEntry_spec (j : ℕ) : identityEntry j&&&flagHuge≠0 ∧ entryPhys (identityEntry j)%0x200000=0:=by
  have hbit : j*0x200000&&&flagHuge=j*0x200000/128%2*128:=and_field _ 7 1
  have hlow : j*0x200000&&&flagHuge=0:=by omega
  rw [identityEntry,or_and_of_left_eq_zero hlow,entryPhys_or_huge,entryPhys_eq]
  exact ⟨by decide,by omega⟩

theorem hugeEntry_page {h : ℕ} (h1 : h%4096=0) (h2 : h<2^52) :
    (h|||(flagPresent|||flagWrite|||flagHuge))&&&flagPresent≠0 ∧
    (h|||(flagPresent|||flagWrite|||flagHuge))&&&flagHuge≠0 ∧
    entryPhys (h|||(flagPresent|||flagWrite|||flagHuge))=h:=by
  have hfield:=field_of_bounds h1 h2
  rw [entryPhys_or_huge,or_and_of_left_eq_zero (and_eq_zero_of_field hfield rfl),
    or_and_of_left_eq_zero (and_eq_zero_of_field hfield rfl)]
  exact ⟨by decide,by decide,hfield⟩

theorem identityEntry_page {q : ℕ} (hq : q<512) : identityEntry q&&&flagPresent≠0 ∧
    identityEntry q&&&flagHuge≠0 ∧ entryPhys (identityEntry q)=q*0x200000:=by
  exact hugeEntry_page (by omega) (by omega)

/-- The state after a fresh empty table was linked at `t`, `i`. -/
structure Linked (m m' : Machine) (t i c : ℕ) (level : ℕ→Option ℕ) (k : ℕ) : Prop where
  tables : ∃home,Tables m' (update level c (some k)) home
  fresh : c∉m.used
  used : ∀u,u=c ∨ u∈m.used→u∈m'.used
  zero : m'.mem c=fun _=>0
  other : ∀u∈m.used,u≠t→m'.mem u=m.mem u
  entries : ∀j,j≠i→m'.mem t j=m.mem t j
  present : m'.mem t i&&&flagPresent≠0

theorem Tables.allocLink (ht : Tables m level home) (htl : level t=some (k+1)) (hp : m.mem t i=0)
    (hf : TableFlags f) (hc : (allocTable m).1≠0) :
    Linked m ((allocTable m).2.write t i ((allocTable m).1|||f)) t i (allocTable m).1 level k:=by
  obtain ⟨ht1,hused,hmem,hspare⟩:=ht.alloc
  obtain ⟨hframe,hcl,hcu,hcu',hzero⟩:=hspare hc
  have htu:=ht.used htl
  have htc : t≠(allocTable m).1:=ne_of_mem_of_not_mem htu hcu
  have hmem_of_ne (u : ℕ) (hu : u≠t) :
      ((allocTable m).2.write t i ((allocTable m).1|||f)).mem u=(allocTable m).2.mem u:=
    update_of_ne hu _ _
  refine ⟨⟨_,ht1.linkEmpty htl hframe hcl hcu' hzero hf (by rw [hmem t htu,hp])⟩,hcu,?_,?_,?_,?_,?_⟩
  · rintro u (rfl | hu)
    · exact hcu'
    · exact hused u hu
  · rw [hmem_of_ne _ (Ne.symm htc),hzero]
  · intro u hu hut
    rw [hmem_of_ne u hut,hmem u hu]
  · intro j hj
    rw [←hmem t htu]
    simp [Machine.write,hj]
  · rw [mem_write_self,update_self]
    exact (entry_table hframe hf).2.1

/-- `vmm::init` with enough frames builds the first space. -/
theorem init_spec {m0 : Machine} (h : init m0=some (r,m)) :
    ∃level home,Tables m level home ∧ level r=some 3 ∧ m.mem r 0&&&flagPresent≠0 ∧
    ∀i,i≠0→i≠511→m.mem r i=0:=by
  have h0 : Tables m0 (fun _=>none) (fun _=>(none,0)):=by
    refine ⟨⟨?_⟩,?_,?_,?_,?_,?_⟩ <;> simp
  have hflags : TableFlags (flagPresent|||flagWrite):=.inl rfl
  simp only [init] at h
  split at h
  · simp at h
  rename_i hne1
  obtain ⟨t1,-,-,hc1⟩:=h0.alloc
  obtain ⟨hf1,hl1,-,hu1,hz1⟩:=hc1 hne1
  generalize (allocTable m0).1=pml4, (allocTable m0).2=m1 at *
  have hroot:=t1.addRoot hf1 hl1 hu1 fun i=>by rw [hz1]
  split at h
  · simp at h
  rename_i hne2
  have hlow:=hroot.allocLink (update_self ..) (congrFun hz1 0) hflags hne2
  generalize (allocTable m1).1=pdpt, (allocTable m1).2.write pml4 0 _=m2 at *
  split at h
  · simp at h
  rename_i hne3
  obtain ⟨home2,t2⟩:=hlow.tables
  have hlow':=t2.allocLink (update_self ..) (congrFun hlow.zero 0) hflags hne3
  generalize (allocTable m2).1=pd, (allocTable m2).2.write pdpt 0 _=m3 at *
  obtain ⟨home3,t3⟩:=hlow'.tables
  have t4:=t3.fillHuge (update_self ..) identityEntry_spec
  have hpdpt : pml4≠pdpt:=ne_of_mem_of_not_mem hu1 hlow.fresh
  have hu2 : pml4∈m2.used:=hlow.used _ (.inr hu1)
  have hpd : pml4≠pd:=ne_of_mem_of_not_mem hu2 hlow'.fresh
  have hslot (i : ℕ) (hi : i≠0) : (m3.fill pd identityEntry).mem pml4 i=0:=by
    rw [mem_fill_of_ne hpd,hlow'.other pml4 hu2 hpdpt,hlow.entries i hi,hz1]
  have hlevel : (update (update (update (fun _=>none) pml4 (some 3)) pdpt (some 2)) pd
      (some 1) : ℕ→Option ℕ) pml4=some (2+1):=by
    rw [update_of_ne hpd,update_of_ne hpdpt,update_self]
  have hu4 : pml4∈(m3.fill pd identityEntry).used:=hlow'.used _ (.inr hu2)
  have hentry : (m3.fill pd identityEntry).mem pml4 0&&&flagPresent≠0:=by
    rw [mem_fill_of_ne hpd,hlow'.other pml4 hu2 hpdpt]
    exact hlow.present
  generalize (update (update (update (fun _=>none) pml4 (some 3)) pdpt (some 2)) pd
    (some 1) : ℕ→Option ℕ)=level4, m3.fill pd identityEntry=m4 at *
  split at h
  · simp at h
  rename_i hne4
  have hhigh:=t4.allocLink hlevel (hslot 511 (by decide)) hflags hne4
  generalize (allocTable m4).1=hiPdpt, (allocTable m4).2.write pml4 511 _=m5 at *
  split at h
  · simp at h
  rename_i hne5
  obtain ⟨home5,t5⟩:=hhigh.tables
  have hhigh':=t5.allocLink (update_self ..) (congrFun hhigh.zero 510) hflags hne5
  generalize (allocTable m5).1=hiPd, (allocTable m5).2.write hiPdpt 510 _=m6 at *
  obtain ⟨home6,t6⟩:=hhigh'.tables
  obtain ⟨rfl,rfl⟩:=Prod.mk.inj (Option.some.inj h)
  have hu5 : pml4∈m5.used:=hhigh.used _ (.inr hu4)
  have hhiPdpt : pml4≠hiPdpt:=ne_of_mem_of_not_mem hu4 hhigh.fresh
  have hhiPd : pml4≠hiPd:=ne_of_mem_of_not_mem hu5 hhigh'.fresh
  refine ⟨_,home6,t6.fillHuge (update_self ..) identityEntry_spec,?_,?_,fun i h0 h511=>?_⟩
  · rw [update_of_ne hhiPd,update_of_ne hhiPdpt]
    exact hlevel
  · rw [mem_fill_of_ne hhiPd,hhigh'.other pml4 hu5 hhiPdpt,hhigh.entries 0 (by decide)]
    exact hentry
  · rw [mem_fill_of_ne hhiPd,hhigh'.other pml4 hu5 hhiPdpt,hhigh.entries i h511]
    exact hslot i h0

structure Spare (m : Machine) (level : ℕ→Option ℕ) (c : ℕ) : Prop where
  frame : IsFrame c
  level_eq : level c=none
  used : c∈m.used
  zero : m.mem c=fun _=>0

theorem Tables.seedLow (ht : Tables m level home) (hr : level r=some 3)
    (hpdpt : Spare m level pdpt) (hpd : Spare m level pd) (hne : pd≠pdpt) (hr0 : m.mem r 0=0) :
    ∃home',Tables (((m.write r 0 (pdpt|||(flagPresent|||flagWrite))).write pdpt 0
    (pd|||(flagPresent|||flagWrite))).fill pd identityEntry)
    (update (update level pdpt (some 2)) pd (some 1)) home':=by
  have hflags : TableFlags (flagPresent|||flagWrite):=.inl rfl
  have hrpdpt : pdpt≠r:=by
    rintro rfl
    simp [hpdpt.level_eq] at hr
  have hrpd : pd≠r:=by
    rintro rfl
    simp [hpd.level_eq] at hr
  have h1:=ht.linkEmpty hr hpdpt.frame hpdpt.level_eq hpdpt.used hpdpt.zero hflags hr0
  have h2:=h1.linkEmpty (i:=0) (update_self ..) hpd.frame
    (by rw [update_of_ne hne]; exact hpd.level_eq) hpd.used
    (by rw [mem_write_of_ne hrpd]; exact hpd.zero) hflags (by rw [mem_write_of_ne hrpdpt,hpdpt.zero])
  exact ⟨_,h2.fillHuge (update_self ..) identityEntry_spec⟩

theorem virtToPhys_identity (hpdpt : IsFrame pdpt) (hpd : IsFrame pd)
    (h3 : m.mem r 0=pdpt|||(flagPresent|||flagWrite)) (h2 : m.mem pdpt 0=pd|||(flagPresent|||flagWrite))
    (h1 : m.mem pd=identityEntry) (hp : p<2^30) : virtToPhys r p m=p:=by
  obtain ⟨hphys3,hpres3,-⟩:=entry_table (f:=flagPresent|||flagWrite) hpdpt (.inl rfl)
  obtain ⟨hphys2,hpres2,-⟩:=entry_table (f:=flagPresent|||flagWrite) hpd (.inl rfl)
  have hi3 : pml4Idx p=0:=by
    simp only [pml4Idx,tableIdx]
    omega
  have hi2 : pdptIdx p=0:=by
    simp only [pdptIdx,tableIdx]
    omega
  have hi1 : pdIdx p=p/0x200000:=by
    simp only [pdIdx,tableIdx]
    omega
  obtain ⟨hpres1,hhuge1,hphys1⟩:=identityEntry_page (show p/0x200000<512 by omega)
  simp only [virtToPhys,hi3,h3,hpres3,if_false,hphys3,hi2,h2,hpres2,hphys2,hi1,h1,hpres1,hhuge1,ne_eq,
    not_false_eq_true,if_true,hphys1]
  omega

/-- What `create_user_space` leaves behind. A space that is not complete has an empty PML4,
or none. -/
structure NewSpace (m : Machine) (kernel : ℕ) (r : ℕ×Bool×Machine) (level level' : ℕ→Option ℕ) : Prop where
  tables : ∃home',Tables r.2.2 level' home'
  level_eq : ∀{t l},level t=some l→level' t=some l
  fresh : ∀{t l},level' t=some l→level t=some l ∨ t∉m.used
  used : ∀u∈m.used,u∈r.2.2.used
  mem : ∀u∈m.used,r.2.2.mem u=m.mem u
  root : r.1≠0→level' r.1=some 3 ∧ r.1∉m.used
  empty : r.1≠0 → r.2.1=false→∀i,r.2.2.mem r.1 i=0
  full : r.2.1=true → r.1≠0 ∧ ∃pdpt,level' pdpt=some 2 ∧ pdpt∉m.used ∧ ∀i,r.2.2.mem r.1 i =
    if 256 ≤ i ∧ i<512 then m.mem kernel i else if i=0 then pdpt|||(flagPresent|||flagWrite) else 0
  /-- New tables lead to new tables, except for the upper half of the root. -/
  links : ∀{t l i u},level' t=some (l+1)→slots r.2.2 (l+1) t i = .table u →
    level t=some (l+1) ∧ slots m (l+1) t i = .table u ∨
      level t=none ∧ (level u=none ∨ t=r.1 ∧ 256 ≤ i ∧ slots m 3 kernel i = .table u)
  /-- A complete space maps the first GiB onto itself. -/
  identity : r.2.1=true→∀p,p<2^30→virtToPhys r.1 p r.2.2=p
  /-- The rest of the lower half is empty. -/
  beyond : r.1≠0→∀a,2^30≤a→a<2^47→virtToPhys r.1 a r.2.2=0
  /-- There is no page table below the lower half. -/
  leafless : r.1≠0→∀a pt,a<2^47→¬Descends (slots r.2.2) tableIdx pt 3 r.1 a

theorem Tables.slots_eq (ht : Tables m level home) (hmem : ∀u∈m.used,m'.mem u=m.mem u)
    (htl : level t=some l) (i : ℕ) : slots m' l t i=slots m l t i:=by
  rw [slots,hmem t (ht.used htl)]
  rfl

theorem emptySpace (hz : m.mem r=fun _=>0) : (∀a,virtToPhys r a m=0) ∧
    ∀a pt,¬Descends (slots m) tableIdx pt 3 r a:=by
  refine ⟨fun a=>by simp [virtToPhys,hz],?_⟩
  rintro a pt ⟨u,hu,-⟩
  simp [slots,hz] at hu

/-- Above the first GiB the tables of the identity map are empty, and there are no page tables. -/
theorem identitySpace (hpdpt : IsFrame pdpt) (hpd : IsFrame pd)
    (h3 : ∀i<256,m.mem r i=if i=0 then pdpt|||(flagPresent|||flagWrite) else 0)
    (h2 : ∀i,m.mem pdpt i=if i=0 then pd|||(flagPresent|||flagWrite) else 0)
    (h1 : m.mem pd=identityEntry) (ha : a<2^47) :
    (2^30≤a→virtToPhys r a m=0) ∧ ∀pt,¬Descends (slots m) tableIdx pt 3 r a:=by
  obtain ⟨hphys3,hpres3,-⟩:=entry_table (f:=flagPresent|||flagWrite) hpdpt (.inl rfl)
  have hflags : TableFlags (flagPresent|||flagWrite):=.inl rfl
  have hi3 : tableIdx 3 a<256:=by
    simp only [tableIdx]
    omega
  have hroot:=h3 _ hi3
  refine ⟨fun hge=>?_,?_⟩
  · by_cases h0 : tableIdx 3 a=0
    · have hi2 : tableIdx 2 a≠0:=by
        simp only [tableIdx] at h0 ⊢
        omega
      rw [if_pos h0] at hroot
      simp only [virtToPhys,pml4Idx,pdptIdx,hroot,hpres3,hphys3,h2,if_neg hi2,if_false,Nat.zero_and,if_true]
    · rw [if_neg h0] at hroot
      simp only [virtToPhys,pml4Idx,hroot,Nat.zero_and,if_true]
  · rintro pt ⟨u2,s2,u1,s1,u0,s0,-⟩
    rw [slots,hroot] at s2
    split at s2
    · rw [decode_table hpdpt hflags 2] at s2
      obtain rfl : pdpt=u2:=by simpa using s2
      rw [slots,h2] at s1
      split at s1
      · rw [decode_table hpd hflags 1] at s1
        obtain rfl : pd=u1:=by simpa using s1
        have hh:=(identityEntry_spec (tableIdx 1 a)).1
        rw [slots,h1] at s0
        generalize identityEntry (tableIdx (0+1) a)=e at s0 hh
        by_cases hp : e&&&flagPresent=0 <;> simp [decode,hp,hh] at s0
      · simp at s1
    · simp at s2

theorem createUserSpace_spec (ht : Tables m level home) (hk : level k=some 3) :
    ∃level',NewSpace m k (createUserSpace k m) level level':=by
  have hflags : TableFlags (flagPresent|||flagWrite):=.inl rfl
  obtain ⟨t1,hused1,hmem1,hc1⟩:=ht.alloc
  simp only [createUserSpace]
  split
  · exact ⟨level,⟨home,t1⟩,id,.inl,hused1,hmem1,fun h=>absurd rfl h,fun h=>absurd rfl h,by simp,
      fun hl hs=>.inl ⟨hl,ht.slots_eq hmem1 hl _▸hs⟩,by simp,fun h=>absurd rfl h,fun h=>absurd rfl h⟩
  rename_i hne1
  obtain ⟨hf1,hl1,hn1,hu1,hz1⟩:=hc1 hne1
  generalize (allocTable m).1=pml4, (allocTable m).2=m1 at *
  -- the lower half of a new table is cleared a second time
  have hfill : (m1.fill pml4 fun i=>if i<256 then 0 else m1.mem pml4 i).mem=m1.mem:=by
    have : (fun i=>if i<256 then 0 else m1.mem pml4 i)=m1.mem pml4:=by
      simp [hz1]
    rw [this,Machine.fill,update_eq_self]
  replace t1:=(t1.of_mem_eq hfill rfl).1
  replace hused1 : ∀u∈m.used,u∈(m1.fill pml4 fun i=>if i<256 then 0 else m1.mem pml4 i).used:=hused1
  replace hu1 : pml4∈(m1.fill pml4 fun i=>if i<256 then 0 else m1.mem pml4 i).used:=hu1
  rw [←hfill] at hmem1 hz1
  generalize m1.fill pml4 _=m1 at *
  have hroot:=t1.addRoot hf1 hl1 hu1 fun i=>by rw [hz1]
  have hlevel1 {t l : ℕ} (h : level t=some l):=ht.update_eq (x:=some 3) hn1 h
  have hfresh1 {t l : ℕ} (h : update level pml4 (some 3) t=some l) : level t=some l ∨ t∉m.used:=by
    by_cases htc : t=pml4
    · exact .inr (htc▸hn1)
    · exact .inl (by rwa [update_of_ne htc] at h)
  have hlinks1 {m' : Machine} (hmem : ∀u∈m.used,m'.mem u=m.mem u) (hz : m'.mem pml4=fun _=>0) {t l i u : ℕ}
      (hl : update level pml4 (some 3) t=some (l+1)) (hs : slots m' (l+1) t i = .table u) :
      level t=some (l+1) ∧ slots m (l+1) t i = .table u:=by
    by_cases htc : t=pml4
    · subst htc
      simp [slots,hz] at hs
    · rw [update_of_ne htc] at hl
      exact ⟨hl,ht.slots_eq hmem hl i▸hs⟩
  -- without a complete low half the PML4 stays empty
  obtain ⟨t2,hused2,hmem2,hc2⟩:=hroot.alloc
  split
  · have hmem' (u : ℕ) (hu : u∈m.used) : (allocTable m1).2.mem u=m.mem u:=by
      rw [hmem2 u (hused1 u hu),hmem1 u hu]
    have hzero : (allocTable m1).2.mem pml4=fun _=>0:=by rw [hmem2 _ hu1,hz1]
    exact ⟨_,⟨home,t2⟩,hlevel1,hfresh1,fun u hu=>hused2 u (hused1 u hu),hmem',
      fun _=>⟨update_self ..,hn1⟩,fun _ _ i=>congrFun hzero i,by simp,
      fun hl hs=>.inl (hlinks1 hmem' hzero hl hs),by simp,fun _ a _ _=>(emptySpace hzero).1 a,
      fun _ a pt _=>(emptySpace hzero).2 a pt⟩
  rename_i hne2
  obtain ⟨hf2,hl2,hn2,hu2,hz2⟩:=hc2 hne2
  generalize (allocTable m1).1=pdpt, (allocTable m1).2=m2 at *
  obtain ⟨t3,hused3,hmem3,hc3⟩:=t2.alloc
  have hmem' (u : ℕ) (hu : u∈m.used) : (allocTable m2).2.mem u=m.mem u:=by
    rw [hmem3 u (hused2 u (hused1 u hu)),hmem2 u (hused1 u hu),hmem1 u hu]
  have hzero : (allocTable m2).2.mem pml4=fun _=>0:=by
    rw [hmem3 _ (hused2 _ hu1),hmem2 _ hu1,hz1]
  have hnpdpt : pdpt∉m.used:=fun h=>hn2 (hused1 _ h)
  split
  · have hkeep (u : ℕ) (hu : u∈(allocTable m2).2.used) (hne : u≠pdpt) :
        u∈(freeFrame pdpt (allocTable m2).2).used:=by simp [freeFrame,hu,hne]
    refine ⟨_,⟨home,t3.congr (fun _=>rfl) ?_⟩,hlevel1,hfresh1,fun u hu=>?_,hmem',
      fun _=>⟨update_self ..,hn1⟩,fun _ _ i=>congrFun hzero i,by simp,
      fun hl hs=>.inl (hlinks1 hmem' hzero hl hs),by simp,fun _ a _ _=>(emptySpace hzero).1 a,
      fun _ a pt _=>(emptySpace hzero).2 a pt⟩
    · intro t l h
      refine hkeep t (t3.used h) ?_
      rintro rfl
      simp [hl2] at h
    · exact hkeep u (hused3 u (hused2 u (hused1 u hu))) (ne_of_mem_of_not_mem hu hnpdpt)
  rename_i hne3
  obtain ⟨hf3,hl3,hn3,hu3,hz3⟩:=hc3 hne3
  have hz2' : (allocTable m2).2.mem pdpt=fun _=>0:=by rw [hmem3 _ hu2,hz2]
  have hu2':=hused3 _ hu2
  have hused' (u : ℕ) (hu : u∈m.used):=hused3 u (hused2 u (hused1 u hu))
  have hpd2 : (allocTable m2).1≠pdpt:=fun e=>hn3 (e▸hu2)
  have hpd1 : (allocTable m2).1≠pml4:=fun e=>hn3 (e▸hused2 _ hu1)
  have hnpd : (allocTable m2).1∉m.used:=fun h=>hn3 (hused2 _ (hused1 _ h))
  have hpdpt : pdpt≠pml4:=fun e=>hn2 (e▸hu1)
  generalize (allocTable m2).1=pd, (allocTable m2).2=m3 at *
  obtain ⟨home',t6⟩:=t3.seedLow (update_self ..) ⟨hf2,hl2,hu2',hz2'⟩ ⟨hf3,hl3,hu3,hz3⟩ hpd2
    (congrFun hzero 0)
  have hkk : k∈m.used:=ht.used hk
  have hlevel {t l : ℕ} (h : level t=some l) : update (update (update level pml4 (some 3))
      pdpt (some 2)) pd (some 1) t=some l:=by
    have htu:=ht.used h
    rw [update_of_ne (ne_of_mem_of_not_mem htu hnpd),update_of_ne (ne_of_mem_of_not_mem htu hnpdpt)]
    exact hlevel1 h
  have hpml4 : update (update (update level pml4 (some 3)) pdpt (some 2)) pd (some 1) pml4 =
      some 3:=by
    rw [update_of_ne (Ne.symm hpd1),update_of_ne (Ne.symm hpdpt),update_self]
  set m6:=((m3.write pml4 0 (pdpt|||(flagPresent|||flagWrite))).write pdpt 0
    (pd|||(flagPresent|||flagWrite))).fill pd identityEntry with hm6
  have hmem6 (u : ℕ) (h1 : u≠pml4) (h2 : u≠pdpt) (h3 : u≠pd) : m6.mem u=m3.mem u:=by
    rw [hm6,mem_fill_of_ne h3,mem_write_of_ne h2,mem_write_of_ne h1]
  have hmem6' (u : ℕ) (hu : u∈m.used) : m6.mem u=m.mem u:=by
    rw [hmem6 u (ne_of_mem_of_not_mem hu hn1) (ne_of_mem_of_not_mem hu hnpdpt) (ne_of_mem_of_not_mem hu hnpd),
      hmem' u hu]
  have hpml4mem (i : ℕ) : m6.mem pml4 i=if i=0 then pdpt|||(flagPresent|||flagWrite) else 0:=by
    rw [hm6,mem_fill_of_ne (Ne.symm hpd1),mem_write_of_ne (Ne.symm hpdpt),mem_write_self,update_apply,hzero]
  have hpdptmem (i : ℕ) : m6.mem pdpt i=if i=0 then pd|||(flagPresent|||flagWrite) else 0:=by
    rw [hm6,mem_fill_of_ne (Ne.symm hpd2),mem_write_self,update_apply,mem_write_of_ne hpdpt,hz2']
  have hpdmem : m6.mem pd=identityEntry:=mem_fill_self
  set m7:=m6.fill pml4 fun i=>if 256 ≤ i ∧ i<512 then m6.mem k i else m6.mem pml4 i with hm7
  have hmem7 (u : ℕ) (h1 : u≠pml4) : m7.mem u=m6.mem u:=mem_fill_of_ne h1
  have hmem7' (u : ℕ) (hu : u∈m.used) : m7.mem u=m.mem u:=by
    rw [hmem7 u (ne_of_mem_of_not_mem hu hn1),hmem6' u hu]
  have hpml4mem₇ (i : ℕ) : m7.mem pml4 i=if 256 ≤ i ∧ i<512 then m.mem k i
      else if i=0 then pdpt|||(flagPresent|||flagWrite) else 0:=by
    rw [hm7,mem_fill_self,hmem6' k hkk,hpml4mem]
  have hpdptmem7 (i : ℕ) : m7.mem pdpt i=if i=0 then pd|||(flagPresent|||flagWrite) else 0:=by
    rw [hmem7 pdpt hpdpt,hpdptmem]
  have hpdmem7 : m7.mem pd=identityEntry:=by rw [hmem7 pd hpd1,hpdmem]
  have hspace {a : ℕ} (ha : a<2^47):=identitySpace hf2 hf3 (fun i hi=>by
    rw [hpml4mem₇,if_neg (by omega)]) hpdptmem7 hpdmem7 ha
  refine ⟨_,⟨home',t6.copyRoot hpml4 (hlevel hk) fun j=>?_⟩,hlevel,?_,hused',hmem7',
    fun _=>⟨hpml4,hn1⟩,by simp,fun _=>⟨hf1.1,pdpt,?_,hnpdpt,hpml4mem₇⟩,?_,fun _ p hp=>?_,
    fun _ a hge hlt=>(hspace hlt).1 hge,fun _ a pt hlt=>(hspace hlt).2 pt⟩
  · split
    · exact .inr rfl
    · exact .inl rfl
  · intro t l h
    by_cases h1 : t=pml4
    · exact .inr (h1▸hn1)
    by_cases h2 : t=pdpt
    · exact .inr (h2▸hnpdpt)
    by_cases h3 : t=pd
    · exact .inr (h3▸hnpd)
    · rw [update_of_ne h3,update_of_ne h2,update_of_ne h1] at h
      exact .inl h
  · rw [update_of_ne (Ne.symm hpd2),update_self]
  · intro t l i u h hs
    by_cases h1 : t=pml4
    · subst h1
      obtain rfl : l=2:=by simpa [hpml4,eq_comm] using h
      refine .inr ⟨ht.level_eq_none hn1,?_⟩
      rw [slots,hpml4mem₇] at hs
      split at hs
      · rename_i hi
        exact .inr ⟨rfl,hi.1,hs⟩
      split at hs
      · rw [decode_table hf2 hflags 2] at hs
        obtain rfl : pdpt=u:=by simpa using hs
        exact .inl (ht.level_eq_none hnpdpt)
      · simp at hs
    by_cases h2 : t=pdpt
    · subst h2
      refine .inr ⟨ht.level_eq_none hnpdpt,.inl ?_⟩
      rw [slots,hmem7 t hpdpt,hpdptmem] at hs
      split at hs
      · rw [decode_table hf3 hflags l] at hs
        obtain rfl : pd=u:=by simpa using hs
        exact ht.level_eq_none hnpd
      · simp at hs
    by_cases h3 : t=pd
    · subst h3
      obtain rfl : l=0:=by simpa [eq_comm] using h
      rw [slots,hmem7 t hpd1,hpdmem] at hs
      have hh:=(identityEntry_spec i).1
      generalize identityEntry i=e at hs hh
      by_cases hp : e&&&flagPresent=0 <;> simp [decode,hp,hh] at hs
    · rw [update_of_ne h3,update_of_ne h2,update_of_ne h1] at h
      exact .inl ⟨h,ht.slots_eq hmem7' h i▸hs⟩
  · exact virtToPhys_identity hf2 hf3 (hpml4mem₇ 0) (hpdptmem7 0) hpdmem7 hp

/-- The addresses whose walks agree in every index. -/
def SameWalk (a v : ℕ) : Prop:=∀l,l≤3→tableIdx l a=tableIdx l v

theorem slots_write {u j : ℕ} (hj : ¬(u=pt ∧ j=i)) : slots (m.write pt i e) l u j=slots m l u j:=by
  by_cases hup : u=pt
  · subst hup
    rw [slots,mem_write_self,update_of_ne fun h=>hj ⟨rfl,h⟩]
    rfl
  · rw [slots,mem_write_of_ne hup]
    rfl

theorem Tables.writePage (ht : Tables m level home) (hpt : level pt=some 0) (i e : ℕ) :
    Tables (m.write pt i e) level home:=by
  have hne {u l : ℕ} (hu : level u=some (l+1)) : u≠pt:=by
    rintro rfl
    simp [hpt] at hu
  refine .of_sound (ht.forest.congr fun hu i=>slots_write fun h=>hne hu h.1) ht.used ht.frame ?_
  rintro u (_ | l) hu j
  · exact ⟨fun h=>absurd h (by decide),fun h=>absurd h (by decide),fun _ h=>absurd h (by decide)⟩
  · rw [mem_write_of_ne (hne hu)]
    exact ht.sound hu j

theorem Tables.writeLeaf (ht : Tables m level home) (hr : level r=some 3)
    (hpt : Descends (slots m) tableIdx pt 3 r v) (e : ℕ) :
    (∀a,SameWalk a v→virtToPhys r a (m.write pt (ptIdx v) e)=((decode 0 e).value pageAddr 0 a).getD 0) ∧
    ∀r' a,level r'=some 3→¬SameWalk a v→virtToPhys r' a (m.write pt (ptIdx v) e)=virtToPhys r' a m:=by
  have hlevel:=hpt.level_eq ht.forest hr
  have hother {u l : ℕ} (_ : level u=some l) (j : ℕ) (hj : ¬(u=pt ∧ j=ptIdx v)) :
      slots (m.write pt (ptIdx v) e) l u j=slots m l u j:=slots_write hj
  refine ⟨?_,?_⟩
  · intro a ha
    have hd : Descends (slots m) tableIdx pt 3 r a:=by
      simpa only [Descends,ha 3 (by decide),ha 2 (by decide),ha 1 (by decide)] using hpt
    rw [virtToPhys_eq,(lookup_set ht.forest hlevel hother hr a).1 ⟨hd,ha 0 (by decide)⟩,slots,mem_write_self,
      update_self]
  · intro r' a hr' ha
    rw [virtToPhys_eq,virtToPhys_eq,(lookup_set ht.forest hlevel hother hr' a).2]
    rintro ⟨hd,h0⟩
    refine ha fun l hl=>?_
    rcases Nat.eq_zero_or_pos l with rfl | hl0
    · exact h0
    · exact (hd.unique ht.forest hpt hr' hr (Nat.le_refl _)).2 l hl0 hl

theorem mapPage_rule {P : ℕ→ℕ→Machine→Prop} {Q : Machine→Prop} (p : ℕ) (h : P 3 r m)
    (hstep : ∀{l t m c m'},l<3→P (l+1) t m → getOrCreate t (tableIdx (l+1) v) (tableFlags flags) m=(c,m') →
    (c=0→Q m') ∧ (c≠0→P l c m')) : (∃m1,mapPage r v p flags m=(false,m1) ∧ Q m1) ∨
    ∃m1 pt,mapPage r v p flags m=(true,m1.write pt (ptIdx v) ((p&&&physMask)|||flags)) ∧ P 0 pt m1:=by
  rcases e1 : getOrCreate r (pml4Idx v) (tableFlags flags) m with ⟨pdpt,m1⟩
  obtain ⟨q1,p1⟩:=hstep (by decide) h e1
  by_cases h1 : pdpt=0
  · exact .inl ⟨m1,by simp [mapPage,e1,h1],q1 h1⟩
  rcases e2 : getOrCreate pdpt (pdptIdx v) (tableFlags flags) m1 with ⟨pd,m2⟩
  obtain ⟨q2,p2⟩:=hstep (by decide) (p1 h1) e2
  by_cases h2 : pd=0
  · exact .inl ⟨m2,by simp [mapPage,e1,h1,e2,h2],q2 h2⟩
  rcases e3 : getOrCreate pd (pdIdx v) (tableFlags flags) m2 with ⟨pt,m3⟩
  obtain ⟨q3,p3⟩:=hstep (by decide) (p2 h2) e3
  by_cases h3 : pt=0
  · exact .inl ⟨m3,by simp [mapPage,e1,h1,e2,h2,e3,h3],q3 h3⟩
  · exact .inr ⟨m3,pt,by simp [mapPage,e1,h1,e2,h2,e3,h3],p3 h3⟩

/-- The walk of an address has come from a root to a table, and stays as it is while the tables above do. -/
structure Descent (r v l t : ℕ) (m : Machine) (level : ℕ→Option ℕ) : Prop where
  tables : ∃home,Tables m level home
  level_eq : level t=some l
  path : ∀{m' c},(∀{u j},level u=some j→l<j→m'.mem u=m.mem u) →
    Descends (slots m') tableIdx c l t v→Descends (slots m') tableIdx c 3 r v

theorem Descent.step (h : Descent r v (l+1) t m level)
    (hc : Created m t (tableIdx (l+1) v) l (c,m') level level' home') (h0 : c≠0) : Descent r v l c m' level':=by
  obtain ⟨home,ht⟩:=h.tables
  obtain ⟨hl,hs⟩:=hc.child h0
  refine ⟨⟨home',hc.tables⟩,hl,fun {m1 d} hmem hd=>h.path (fun {u j} hu hj=>?_) ⟨c,?_,hd⟩⟩
  · have hut : u≠t:=by
      rintro rfl
      rw [h.level_eq,Option.some_inj] at hu
      omega
    rw [hmem (hc.ext.level_eq hu) (by omega),hc.other u (ht.used hu) hut]
  · rw [slots,hmem (hc.ext.level_eq h.level_eq) (Nat.lt_succ_self l)]
    exact hs

theorem Descent.descends (h : Descent r v 0 pt m level) : Descends (slots m) tableIdx pt 3 r v:=
  h.path (fun _ _=>rfl) rfl

theorem Tables.descent (ht : Tables m level home) (hr : level r=some 3) (v : ℕ) : Descent r v 3 r m level:=
  ⟨⟨home,ht⟩,hr,fun _ hd=>hd⟩

theorem mapPage_walk (ht : Tables m level home) (hr : level r=some 3) (v p flags : ℕ) :
    (∃m1 level' home',mapPage r v p flags m=(false,m1) ∧ Tables m1 level' home' ∧ Extends m m1 level level') ∨
    ∃m1 level' home' pt,mapPage r v p flags m =
    (true,m1.write pt (ptIdx v) ((p&&&physMask)|||flags)) ∧ Tables m1 level' home' ∧
    Extends m m1 level level' ∧ Descends (slots m1) tableIdx pt 3 r v:=by
  obtain ⟨m1,he,level',home',h⟩ | ⟨m1,pt,he,level',hd,hext⟩:=mapPage_rule p
    (P:=fun l t m1=>∃level',Descent r v l t m1 level' ∧ Extends m m1 level level')
    (Q:=fun m1=>∃level' home',Tables m1 level' home' ∧ Extends m m1 level level')
    ⟨level,ht.descent hr v,.refl m level⟩ fun {l t m1 c m2} _ h he=>by
      obtain ⟨level1,hd,hext⟩:=h
      obtain ⟨home1,ht1⟩:=hd.tables
      obtain ⟨level2,home2,hc⟩:=getOrCreate_spec ht1 hd.level_eq (tableFlags_spec flags) (tableIdx (l+1) v)
      rw [he] at hc
      exact ⟨fun _=>⟨level2,home2,hc.tables,hext.trans hc.ext⟩,fun h0=>⟨level2,hd.step hc h0,hext.trans hc.ext⟩⟩
  · exact .inl ⟨m1,level',home',he,h⟩
  · obtain ⟨home',ht'⟩:=hd.tables
    exact .inr ⟨m1,level',home',pt,he,ht',hext,hd.descends⟩

/-- The entries of a space's PML4 after its activation. -/
def activated (k r : ℕ) (m : Machine) (i : ℕ) : ℕ:=
  if 256 ≤ i ∧ i<512 then m.mem k i
  else if i=0 ∧ m.mem r 0&&&flagPresent=0 then m.mem k 0 else m.mem r i

theorem activate_mem (hne : r≠0 ∧ r≠k) : (activate k r m).mem=update m.mem r (activated k r m):=by
  rw [activate,if_pos hne]
  split
  · rename_i hp
    have hk : (m.write r 0 (m.mem k 0)).mem k=m.mem k:=mem_write_of_ne (Ne.symm hne.2)
    simp only [Machine.fill,hk,mem_write_self,update_apply]
    simp only [Machine.write,update_idem]
    congr 2
    funext i
    simp [activated,hp]
  · rename_i hp
    simp only [Machine.fill]
    congr 1
    funext i
    simp [activated,hp]

theorem activate_used (k r : ℕ) (m : Machine) : (activate k r m).used=m.used:=by
  unfold activate
  split
  · split <;> rfl
  · rfl

theorem activated_cases (k r : ℕ) (m : Machine) (i : ℕ) : activated k r m i=m.mem r i ∨
    activated k r m i=m.mem k i ∧ (256 ≤ i ∨ i=0):=by
  unfold activated
  split
  · rename_i h
    exact .inr ⟨rfl,.inl h.1⟩
  split
  · rename_i h
    exact .inr ⟨by rw [h.1],.inr h.1⟩
  · exact .inl rfl

theorem activate_tables (ht : Tables m level home) (hr : level r=some 3) (hk : level k=some 3) :
    Tables (activate k r m) level home:=by
  by_cases hne : r≠0 ∧ r≠k
  · have hcopy:=ht.copyRoot hr hk fun i=>(activated_cases k r m i).imp_right And.left
    exact (hcopy.of_mem_eq (activate_mem hne) (activate_used k r m)).1
  · rw [activate,if_neg hne]
    exact ht

/-- The states of the virtual memory manager in which the given complete spaces exist, the
kernel's first. -/
inductive Built : ℕ→List ℕ→Machine→Prop
  | init {m₀ m : Machine} {k : ℕ} : init m₀=some (k,m)→Built k [k] m
  | create {m m' : Machine} {k r : ℕ} {spaces : List ℕ} :
      Built k spaces m→createUserSpace k m=(r,true,m')→Built k (r::spaces) m'
  | createFailed {m m' : Machine} {k r : ℕ} {spaces : List ℕ} :
      Built k spaces m→createUserSpace k m=(r,false,m')→Built k spaces m'
  | map {m : Machine} {k r : ℕ} {spaces : List ℕ} (virt phys flags : ℕ) :
      Built k spaces m → r∈spaces→Built k spaces (mapPage r virt phys flags m).2
  | activate {m : Machine} {k r : ℕ} {spaces : List ℕ} :
      Built k spaces m → r∈spaces→Built k spaces (activate k r m)

theorem mapPage_tables (ht : Tables m level home) (hr : level r=some 3) (v p flags : ℕ) :
    ∃level' home',Tables (mapPage r v p flags m).2 level' home' ∧ Keeps m (mapPage r v p flags m).2 level level':=by
  rcases mapPage_walk ht hr v p flags with ⟨m1,level',home',he,ht',hext⟩ | ⟨m1,level',home',pt,he,ht',hext,hd⟩
  · rw [he]
    exact ⟨level',home',ht',hext.keeps⟩
  · rw [he]
    exact ⟨level',home',ht'.writePage (hd.level_eq ht'.forest (hext.level_eq hr)) _ _,hext.level_eq,hext.fresh,hext.used⟩

theorem Built.tables {spaces : List ℕ} (h : Built k spaces m) :
    ∃level home,Tables m level home ∧ level k=some 3 ∧ ∀r∈spaces,level r=some 3:=by
  induction h with
  | init h=>
    obtain ⟨level,home,ht,hk,-⟩:=init_spec h
    exact ⟨level,home,ht,hk,by simpa using hk⟩
  | create _ he ih=>
    obtain ⟨level,home,ht,hk,hs⟩:=ih
    obtain ⟨level',hn⟩:=createUserSpace_spec ht hk
    rw [he] at hn
    obtain ⟨home',ht'⟩:=hn.tables
    refine ⟨level',home',ht',hn.level_eq hk,fun r hr=>?_⟩
    rcases List.mem_cons.mp hr with rfl | hr
    · exact (hn.root (hn.full rfl).1).1
    · exact hn.level_eq (hs r hr)
  | createFailed _ he ih=>
    obtain ⟨level,home,ht,hk,hs⟩:=ih
    obtain ⟨level',hn⟩:=createUserSpace_spec ht hk
    rw [he] at hn
    obtain ⟨home',ht'⟩:=hn.tables
    exact ⟨level',home',ht',hn.level_eq hk,fun r hr=>hn.level_eq (hs r hr)⟩
  | map v p f _ hr ih=>
    obtain ⟨level,home,ht,hk,hs⟩:=ih
    obtain ⟨level',home',ht',hkeep⟩:=mapPage_tables ht (hs _ hr) v p f
    exact ⟨level',home',ht',hkeep.level_eq hk,fun r hr=>hkeep.level_eq (hs r hr)⟩
  | activate _ hr ih=>
    obtain ⟨level,home,ht,hk,hs⟩:=ih
    exact ⟨level,home,activate_tables ht (hs _ hr) hk,hk,hs⟩

def Canonical (v : ℕ) : Prop:=v<2^47 ∨ 2^64-2^47≤v ∧ v<2^64

theorem sameWalk_of_page (h : a/4096=v/4096) : SameWalk a v:=by
  intro l hl
  simp only [tableIdx,Nat.pow_add,←Nat.div_div_eq_div_mul]
  rw [show 2^12=4096 from rfl,h]

theorem page_of_sameWalk (h : SameWalk a v) (ha : Canonical a) (hv : Canonical v) : a/4096=v/4096:=by
  have h0:=h 0 (by decide)
  have h1:=h 1 (by decide)
  have h2:=h 2 (by decide)
  have h3:=h 3 (by decide)
  simp only [tableIdx,Canonical] at h0 h1 h2 h3 ha hv
  omega

theorem mapPage_spec (ht : Tables m level home) (hr : level r=some 3) (v : ℕ) (hp : p%4096=0)
    (hp' : p<2^52) (hf : flags&&&flagPresent≠0) (hf' : flags&&&physMask=0) : ((mapPage r v p flags m).1=true →
    (∀a,SameWalk a v→virtToPhys r a (mapPage r v p flags m).2=p+a%4096) ∧
    ∀r' a,level r'=some 3→¬SameWalk a v→virtToPhys r' a (mapPage r v p flags m).2=virtToPhys r' a m) ∧
    ((mapPage r v p flags m).1=false →
    ∀r' a,level r'=some 3→virtToPhys r' a (mapPage r v p flags m).2=virtToPhys r' a m):=by
  rcases mapPage_walk ht hr v p flags with ⟨m1,level',home',he,-,hext⟩ | ⟨m1,level',home',pt,he,ht',hext,hd⟩
  · rw [he]
    exact ⟨fun h=>by simp at h,fun _ r' a hr'=>hext.same hr' a⟩
  rw [he]
  obtain ⟨hsame,hother⟩:=ht'.writeLeaf (hext.level_eq hr) hd ((p&&&physMask)|||flags)
  have hfield:=field_of_bounds hp hp'
  have hphys : entryPhys (p|||flags)=p:=(or_and_of_and_eq_zero hf').trans hfield
  have hpres : (p|||flags)&&&flagPresent≠0:=by
    rwa [or_and_of_left_eq_zero (and_eq_zero_of_field hfield rfl)]
  refine ⟨fun _=>⟨fun a ha=>?_,fun r' a hr' hne=>?_⟩,fun h=>by simp at h⟩
  · rw [hsame a ha,hfield]
    simp [decode,hpres,hphys,Slot.value,pageAddr]
  · rw [hother r' a (hext.level_eq hr') hne]
    exact hext.same hr' a

/-- A successful `map_page` maps the page it was given and no other; a failed one changes
no translation. -/
theorem mapPage_translation {spaces : List ℕ} (virt phys flags : ℕ) (hb : Built k spaces m) (hr : r∈spaces)
    (hv : Canonical virt) (hp : phys%4096=0) (hp' : phys<2^52) (hf : flags&&&flagPresent≠0)
    (hf' : flags&&&physMask=0) : ((mapPage r virt phys flags m).1=true →
    (∀a,a/4096=virt/4096→virtToPhys r a (mapPage r virt phys flags m).2=phys+a%4096) ∧
    ∀a,Canonical a→a/4096≠virt/4096→virtToPhys r a (mapPage r virt phys flags m).2=virtToPhys r a m) ∧
    ((mapPage r virt phys flags m).1=false→∀a,virtToPhys r a (mapPage r virt phys flags m).2=virtToPhys r a m):=by
  obtain ⟨level,home,ht,-,hs⟩:=hb.tables
  obtain ⟨hok,hfail⟩:=mapPage_spec ht (hs r hr) virt hp hp' hf hf'
  refine ⟨fun h=>?_,fun h a=>hfail h r a (hs r hr)⟩
  obtain ⟨hsame,hother⟩:=hok h
  exact ⟨fun a ha=>hsame a (sameWalk_of_page ha),
    fun a ha hne=>hother r a (hs r hr) fun hw=>hne (page_of_sameWalk hw ha hv)⟩

/-- A page below 1 GiB of the kernel's space is mapped, which splits a huge page. -/
theorem mapPage_translation_split : ∃m,Built 0x1000 [0x1000] m ∧
    virtToPhys 0x1000 0x400123 (mapPage 0x1000 0x400000 0x9000 3 m).2=0x9123 ∧
    virtToPhys 0x1000 0x401123 (mapPage 0x1000 0x400000 0x9000 3 m).2=0x401123:=by
  have hb : Built 0x1000 [0x1000] _:=.init (show
    init ⟨fun _ _=>0,[],[0x1000,0x2000,0x3000,0x4000,0x5000,0x6000],[]⟩=some (0x1000,_) from rfl)
  obtain ⟨h₁,h₂⟩:=(mapPage_translation 0x400000 0x9000 3 hb (List.mem_singleton_self _) (by simp [Canonical])
    (by decide) (by decide) (by decide) (by decide)).1 (by decide)
  refine ⟨_,hb,h₁ 0x400123 (by decide),(h₂ 0x401123 (by simp [Canonical]) (by decide)).trans (by decide)⟩

end Knail.PageTables
