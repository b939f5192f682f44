import Knail.PageTables
import Knail.RadixTables
import Knail.WordBits

/-!
# Page tables as a forest

Entries decode to slots of a radix tree, `virt_to_phys` is the lookup in it, and
`get_or_create` extends the forest of tables without changing any translation.
-/
namespace Knail.PageTables

open Function

variable {m m' : Machine} {level level' : ℕ→Option ℕ} {home home' : ℕ→Option ℕ×ℕ}
  {t i c e f k r a : ℕ} {l u : ℕ} {g : ℕ→ℕ} {m'' : Machine} {level'' : ℕ→Option ℕ}

/-- The slot that an entry of a table of the given level stands for. The huge bit counts
in page directories only. -/
def decode (l e : ℕ) : Slot ℕ ℕ:=
  if e&&&flagPresent=0 then .absent
  else if l=0 ∨ l=1 ∧ e&&&flagHuge≠0 then .page (entryPhys e)
  else .table (entryPhys e)

def slots (m : Machine) : Slots ℕ ℕ ℕ:=fun l t i=>decode l (m.mem t i)

/-- The physical address behind a page of the given level. -/
def pageAddr (l p virt : ℕ) : ℕ:=p+virt%2^(12+9*l)

theorem virtToPhys_eq (r a : ℕ) (m : Machine) : virtToPhys r a m=(lookup (slots m) tableIdx pageAddr 3 r a).getD 0:=by
  simp only [virtToPhys,pml4Idx,pdptIdx,pdIdx,ptIdx]
  by_cases h4 : m.mem r (tableIdx 3 a)&&&flagPresent=0
  · simp [lookup,slots,decode,h4]
  obtain ⟨pdpt,hpdpt⟩ : ∃pdpt,entryPhys (m.mem r (tableIdx 3 a))=pdpt:=⟨_,rfl⟩
  by_cases h3 : m.mem pdpt (tableIdx 2 a)&&&flagPresent=0
  · simp [lookup,slots,decode,h4,hpdpt,h3]
  obtain ⟨pd,hpd⟩ : ∃pd,entryPhys (m.mem pdpt (tableIdx 2 a))=pd:=⟨_,rfl⟩
  by_cases h2 : m.mem pd (tableIdx 1 a)&&&flagPresent=0
  · simp [lookup,slots,decode,h4,hpdpt,h3,hpd,h2]
  by_cases hh : m.mem pd (tableIdx 1 a)&&&flagHuge=0
  · by_cases h1 : m.mem (entryPhys (m.mem pd (tableIdx 1 a))) (tableIdx 0 a)&&&flagPresent=0
    · simp [lookup,slots,decode,h4,hpdpt,h3,hpd,h2,hh,h1]
    · simp [lookup,slots,decode,h4,hpdpt,h3,hpd,h2,hh,h1,pageAddr]
  · simp [lookup,slots,decode,h4,hpdpt,h3,hpd,h2,hh,pageAddr]

theorem entryPhys_eq (e : ℕ) : entryPhys e=e/4096%2^40*4096:=and_field e 12 40

theorem IsFrame.bounds (hf : IsFrame f) : f%4096=0 ∧ f<2^52:=by
  have h:=entryPhys_eq f
  rw [entryPhys,hf.2] at h
  omega

theorem field_of_bounds (h1 : f%4096=0) (h2 : f<2^52) : f&&&physMask=f:=by
  have h:=entryPhys_eq f
  rw [entryPhys] at h
  omega

theorem isFrame_of_bounds (h0 : f≠0) (h1 : f%4096=0) (h2 : f<2^52) : IsFrame f:=⟨h0,field_of_bounds h1 h2⟩

theorem IsFrame.and_eq_zero (hf : IsFrame f) (hk : physMask&&&k=0) : f&&&k=0:=
  and_eq_zero_of_field hf.2 hk

/-- The flags that intermediate entries are given. -/
def TableFlags (f : ℕ) : Prop:=f=3 ∨ f=7

theorem tableFlags_spec (flags : ℕ) : TableFlags (tableFlags flags):=by
  unfold tableFlags
  split
  · exact .inr rfl
  · exact .inl rfl

theorem entry_table (hc : IsFrame c) (hf : TableFlags f) :
    entryPhys (c|||f)=c ∧ (c|||f)&&&flagPresent≠0 ∧ (c|||f)&&&flagHuge=0 ∧ entryBase (c|||f)=c:=by
  have hp : (c|||f)&&&flagPresent=f&&&flagPresent:=or_and_of_left_eq_zero (hc.and_eq_zero rfl)
  have hh : (c|||f)&&&flagHuge=f&&&flagHuge:=or_and_of_left_eq_zero (hc.and_eq_zero rfl)
  have hb : c&&&0xFFFFFFFFFFFFF000=c:=by
    rw [←hc.2,Nat.and_assoc]
    rfl
  rw [hp,hh,entryPhys,entryBase]
  rcases hf with rfl | rfl
  · exact ⟨(or_and_of_and_eq_zero rfl).trans hc.2,by decide,by decide,(or_and_of_and_eq_zero rfl).trans hb⟩
  · exact ⟨(or_and_of_and_eq_zero rfl).trans hc.2,by decide,by decide,(or_and_of_and_eq_zero rfl).trans hb⟩

theorem decode_table (hc : IsFrame c) (hf : TableFlags f) (k : ℕ) : decode (k+1) (c|||f) = .table c:=by
  obtain ⟨h1,h2,h3,-⟩:=entry_table hc hf
  simp [decode,h1,h2,h3]

@[simp] theorem decode_zero (l : ℕ) : decode l 0 = .absent:=by simp [decode]

theorem or_user (e : ℕ) : entryPhys (e|||flagUser)=entryPhys e ∧
    (e|||flagUser)&&&flagPresent=e&&&flagPresent ∧ (e|||flagUser)&&&flagHuge=e&&&flagHuge ∧
    entryBase (e|||flagUser)=entryBase e:=
  ⟨or_and_of_and_eq_zero rfl,or_and_of_and_eq_zero rfl,or_and_of_and_eq_zero rfl,or_and_of_and_eq_zero rfl⟩

/-- The tables of all address spaces, with a level for each; PML4s have level 3. -/
structure Tables (m : Machine) (level : ℕ→Option ℕ) (home : ℕ→Option ℕ×ℕ) : Prop where
  forest : Forest (slots m) 3 level home
  used : ∀{t l},level t=some l→t∈m.used
  frame : ∀{t l},level t=some l→IsFrame t
  /-- Huge pages are aligned to 2 MiB. -/
  huge : ∀{t i},level t=some 1→m.mem t i&&&flagPresent≠0→m.mem t i&&&flagHuge≠0 →
    entryPhys (m.mem t i)%0x200000=0
  /-- There are no huge pages above the page directories. -/
  flat : ∀{t l i},level t=some (l+2)→m.mem t i&&&flagPresent≠0→m.mem t i&&&flagHuge=0
  /-- Links have no bits above the address. -/
  plain : ∀{t l i u},level t=some (l+1)→slots m (l+1) t i = .table u→entryBase (m.mem t i)=u

/-- What `Tables` says about the entries of a table. -/
structure SoundEntry (l e : ℕ) : Prop where
  huge : l=1→e&&&flagPresent≠0→e&&&flagHuge≠0→entryPhys e%0x200000=0
  flat : 2≤l→e&&&flagPresent≠0→e&&&flagHuge=0
  plain : ∀u,1≤l→decode l e = .table u→entryBase e=u

theorem SoundEntry.of_absent (h : e&&&flagPresent=0) : SoundEntry l e:=
  ⟨fun _ hp=>absurd h hp,fun _ hp=>absurd h hp,fun u _ hs=>by simp [decode,h] at hs⟩

theorem SoundEntry.of_table (hc : IsFrame c) (hf : TableFlags f) (l : ℕ) : SoundEntry l (c|||f):=by
  obtain ⟨-,-,hh,hb⟩:=entry_table hc hf
  refine ⟨fun _ _ h=>absurd hh h,fun _ _=>hh,fun u hl hs=>?_⟩
  obtain ⟨l,rfl⟩:=Nat.exists_eq_add_of_le' hl
  rw [decode_table hc hf,Slot.table.injEq] at hs
  exact hb.trans hs

theorem Tables.sound (ht : Tables m level home) (hl : level t=some l) (i : ℕ) : SoundEntry l (m.mem t i) where
  huge:=by
    rintro rfl
    exact ht.huge hl
  flat:=by
    intro h
    obtain ⟨l,rfl⟩:=Nat.exists_eq_add_of_le' h
    exact ht.flat hl
  plain:=by
    intro u h
    obtain ⟨l,rfl⟩:=Nat.exists_eq_add_of_le' h
    exact ht.plain hl

theorem Tables.of_sound (hforest : Forest (slots m) 3 level home) (hused : ∀{t l},level t=some l→t∈m.used)
    (hframe : ∀{t l},level t=some l→IsFrame t)
    (hsound : ∀{t l},level t=some l→∀i,SoundEntry l (m.mem t i)) : Tables m level home where
  forest:=hforest
  used:=hused
  frame:=hframe
  huge:=fun hl=>(hsound hl _).huge rfl
  flat:=fun hl=>(hsound hl _).flat (Nat.le_add_left ..)
  plain:=fun hl=>(hsound hl _).plain _ (Nat.le_add_left ..)

theorem mem_write_self : (m.write t i e).mem t=update (m.mem t) i e:=update_self ..

theorem mem_write_of_ne (hu : u≠t) : (m.write t i e).mem u=m.mem u:=update_of_ne hu _ _

theorem mem_fill_self : (m.fill t g).mem t=g:=update_self ..

theorem mem_fill_of_ne (hu : u≠t) : (m.fill t g).mem u=m.mem u:=
  update_of_ne hu _ _

theorem allocTable_spec (m : Machine) : (allocTable m).1=0 ∧ (allocTable m).2.mem=m.mem ∧ (allocTable m).2.used=m.used ∨
    IsFrame (allocTable m).1 ∧ (allocTable m).1∉m.used ∧
    (allocTable m).2.mem=update m.mem (allocTable m).1 (fun _=>0) ∧
    (allocTable m).2.used=(allocTable m).1::m.used:=by
  unfold allocTable allocFrame
  cases hs : m.supply with
  | nil=>exact .inl ⟨rfl,rfl,rfl⟩
  | cons g rest=>
    by_cases hg : IsFrame g ∧ g∉m.used
    · simp only [hg,and_self,not_false_eq_true,if_true,if_neg hg.1.1]
      exact .inr ⟨trivial,trivial,rfl,rfl⟩
    · simp only [if_neg hg,if_true]
      exact .inl ⟨trivial,trivial,trivial⟩

/-- What a step may do to the tables: existing tables keep their level, new ones come from
frames that were free, and no translation changes. -/
structure Extends (m m' : Machine) (level level' : ℕ→Option ℕ) : Prop where
  level_eq : ∀{t l},level t=some l→level' t=some l
  fresh : ∀{t l},level' t=some l→level t=some l ∨ t∉m.used
  used : ∀{t},t∈m.used→t∈m'.used
  same : ∀{r},level r=some 3→∀a,virtToPhys r a m'=virtToPhys r a m

theorem Extends.refl (m : Machine) (level : ℕ→Option ℕ) : Extends m m level level:=
  ⟨id,.inl,id,fun _ _=>rfl⟩

theorem Extends.trans (h : Extends m m' level level')
    (h' : Extends m' m'' level' level'') : Extends m m'' level level'' where
  level_eq:=fun ht=>h'.level_eq (h.level_eq ht)
  fresh:=by
    intro t l ht
    rcases h'.fresh ht with ht | ht
    · exact h.fresh ht
    · exact .inr fun hu=>ht (h.used hu)
  used:=fun ht=>h'.used (h.used ht)
  same:=fun hr a=>(h'.same (h.level_eq hr) a).trans (h.same hr a)

/-- What a step may do to the tables when translations may change. -/
structure Keeps (m m' : Machine) (level level' : ℕ→Option ℕ) : Prop where
  level_eq : ∀{t l},level t=some l→level' t=some l
  fresh : ∀{t l},level' t=some l→level t=some l ∨ t∉m.used
  used : ∀{t},t∈m.used→t∈m'.used

theorem Extends.keeps (h : Extends m m' level level') : Keeps m m' level level':=⟨h.level_eq,h.fresh,h.used⟩

theorem Keeps.trans (h : Keeps m m' level level') (h' : Keeps m' m'' level' level'') : Keeps m m'' level level'' where
  level_eq:=fun ht=>h'.level_eq (h.level_eq ht)
  fresh:=by
    intro t l ht
    rcases h'.fresh ht with ht | ht
    · exact h.fresh ht
    · exact .inr fun hu=>ht (h.used hu)
  used:=fun ht=>h'.used (h.used ht)

theorem Keeps.data (h : Keeps m m' level level') (hu : f∈m.used) (hl : level f=none) : f∈m'.used ∧ level' f=none:=by
  refine ⟨h.used hu,Option.eq_none_iff_forall_ne_some.mpr fun l hl'=>?_⟩
  rcases h.fresh hl' with h0 | h0
  · simp [hl] at h0
  · exact h0 hu

/-- Every link is an old one or leads from the given entry to a new table. -/
def NewLinks (m m' : Machine) (t i : ℕ) (level level' : ℕ→Option ℕ) : Prop:=
  ∀{u l j v},level' u=some (l+1)→slots m' (l+1) u j = .table v →
    level u=some (l+1) ∧ (slots m (l+1) u j = .table v ∨ u=t ∧ j=i ∧ level v=none)

section

variable (ht : Tables m level home)
include ht

theorem Tables.rewrite (hused : m'.used=m.used) (hmem : ∀t i,entryPhys (m'.mem t i)=entryPhys (m.mem t i) ∧
    m'.mem t i&&&flagPresent=m.mem t i&&&flagPresent ∧
    m'.mem t i&&&flagHuge=m.mem t i&&&flagHuge ∧ entryBase (m'.mem t i)=entryBase (m.mem t i)) :
    Tables m' level home ∧ Extends m m' level level ∧ slots m'=slots m:=by
  have hslots : slots m'=slots m:=by
    funext l t i
    obtain ⟨h1,h2,h3,-⟩:=hmem t i
    simp only [slots,decode,h1,h2,h3]
  refine ⟨.of_sound (hslots▸ht.forest) (fun h=>hused▸ht.used h) ht.frame fun {t l} hl i=>?_,
    ⟨id,.inl,fun h=>hused▸h,?_⟩,hslots⟩
  · obtain ⟨h1,h2,h3,h4⟩:=hmem t i
    obtain ⟨hhuge,hflat,hplain⟩:=ht.sound hl i
    constructor <;> simpa only [decode,h1,h2,h3,h4]
  · intro r _ a
    rw [virtToPhys_eq,virtToPhys_eq,hslots]

/-- Linking a new table in place of an absent entry or a huge page. -/
theorem Tables.link (htl : level t=some (k+1)) (hc : IsFrame c)
    (hcl : level c=none) (hf : TableFlags f) (hused : ∀u,u=c ∨ u∈m.used→u∈m'.used)
    (hmem : m'.mem=update (update m.mem c g) t (update (m.mem t) i (c|||f)))
    (hold : ∀u,slots m (k+1) t i≠.table u) (hg : ∀j u,decode k (g j)≠.table u)
    (hgp : 1≤k→∀j,g j&&&flagPresent=0) (hval : ∀a,tableIdx (k+1) a=i →
    lookup (slots m') tableIdx pageAddr k c a=(slots m (k+1) t i).value pageAddr (k+1) a) :
    Tables m' (update level c (some k)) (update home c (if k+1=3 then none else some t,i)) ∧
    (∀r,level r=some 3→∀a,virtToPhys r a m'=virtToPhys r a m) ∧
    NewLinks m m' t i level (update level c (some k)):=by
  have htc : t≠c:=by
    rintro rfl
    simp [hcl] at htl
  have hc' : m'.mem c=g:=by rw [hmem,update_of_ne (Ne.symm htc),update_self]
  have hmem_of_ne (u : ℕ) (hut : u≠t) (huc : u≠c) : m'.mem u=m.mem u:=by
    rw [hmem,update_of_ne hut,update_of_ne huc]
  have hti (j : ℕ) : m'.mem t j=if j=i then c|||f else m.mem t j:=by
    rw [hmem,update_self,update_apply]
  have hne {u l : ℕ} (hu : level u=some l) : u≠c:=by
    rintro rfl
    simp [hcl] at hu
  have hother {u l : ℕ} (hu : level u=some l) (j : ℕ) (hj : ¬(u=t ∧ j=i)) :
      slots m' l u j=slots m l u j:=by
    by_cases hut : u=t
    · subst hut
      rw [slots,hti,if_neg fun e=>hj ⟨rfl,e⟩]
      rfl
    · rw [slots,hmem_of_ne u hut (hne hu)]
      rfl
  have hnew : slots m' (k+1) t i = .table c:=by
    rw [slots,hti,if_pos rfl,decode_table hc hf]
  have hempty (j u : ℕ) : slots m' k c j≠.table u:=by
    rw [slots,hc']
    exact hg j u
  have hlevel {u l : ℕ} (hu : update level c (some k) u=some l) : u=c ∧ l=k ∨ level u=some l:=by
    by_cases huc : u=c
    · subst huc
      exact .inl ⟨rfl,by simpa using hu.symm⟩
    · exact .inr (by rwa [update_of_ne huc] at hu)
  refine ⟨.of_sound (ht.forest.insert htl hcl hother hnew hempty) (fun hu=>hused _ ((hlevel hu).imp And.left ht.used))
    ?_ ?_,?_,?_⟩
  · intro u l hu
    rcases hlevel hu with ⟨rfl,-⟩ | hu
    · exact hc
    · exact ht.frame hu
  · intro u l hu j
    rcases hlevel hu with ⟨rfl,rfl⟩ | hu
    · rw [hc']
      exact ⟨fun h hp=>absurd (hgp h.ge j) hp,fun h hp=>absurd (hgp (by omega) j) hp,fun v _ hs=>absurd hs (hg j v)⟩
    by_cases hut : u=t
    · subst hut
      rw [hti]
      split
      · exact .of_table hc hf l
      · exact ht.sound hu j
    · rw [hmem_of_ne u hut (hne hu)]
      exact ht.sound hu j
  · intro r hr a
    rw [virtToPhys_eq,virtToPhys_eq]
    exact congrArg (·.getD 0) (lookup_replace ht.forest htl hother hnew hold hval hr a)
  · intro u l j v hu hs
    rcases hlevel hu with ⟨rfl,rfl⟩ | hu
    · exact absurd hs (hempty j v)
    refine ⟨hu,?_⟩
    by_cases hj : u=t ∧ j=i
    · obtain ⟨rfl,rfl⟩:=hj
      obtain rfl : l=k:=by simpa [hu] using htl
      obtain rfl : c=v:=by simpa [hnew] using hs
      exact .inr ⟨rfl,rfl,hcl⟩
    · exact .inl (hother hu j hj▸hs)

theorem Tables.level_eq_none (hcu : c∉m.used) : level c=none:=by
  cases hl : level c with
  | none=>rfl
  | some l=>exact absurd (ht.used hl) hcu

theorem Tables.update_eq {x : Option ℕ} (hcu : c∉m.used) (hl : level t=some l) : update level c x t=some l:=by
  rw [update_of_ne (ne_of_mem_of_not_mem (ht.used hl) hcu),hl]

theorem Tables.extends_update (hcu : c∉m.used) (hused : m'.used=c::m.used)
    (hsame : ∀r,level r=some 3→∀a,virtToPhys r a m'=virtToPhys r a m) :
    Extends m m' level (update level c (some k)) where
  level_eq:=ht.update_eq hcu
  fresh:=by
    intro u l hu
    by_cases huc : u=c
    · exact .inr (huc▸hcu)
    · exact .inl (by rwa [update_of_ne huc] at hu)
  used:=fun hu=>hused▸List.mem_cons_of_mem _ hu
  same:=fun hr a=>hsame _ hr a

theorem Tables.of_mem_eq (hmem : m'.mem=m.mem) (hused : m'.used=m.used) :
    Tables m' level home ∧ Extends m m' level level ∧ slots m'=slots m:=
  ht.rewrite hused fun t i=>by simp [hmem]

end

theorem piece_spec {h : ℕ} (hh : h%0x200000=0) (hlt : h<2^52) (hi : i<512) (hp : e&&&flagPresent≠0) :
    decode 0 ((h+i*0x1000)|||(e&&&0xFFF&&&0xFFFFFFFFFFFFFF7F)) = .page (h+i*0x1000):=by
  have hmask : e&&&0xFFF&&&0xFFFFFFFFFFFFFF7F&&&physMask=0:=by
    rw [Nat.and_assoc,Nat.and_assoc]
    exact Nat.and_zero e
  have hflag : e&&&0xFFF&&&0xFFFFFFFFFFFFFF7F&&&flagPresent=e&&&flagPresent:=by
    rw [Nat.and_assoc,Nat.and_assoc]
    rfl
  have hfield : (h+i*0x1000)&&&physMask=h+i*0x1000:=field_of_bounds (by omega) (by omega)
  have hpage : (h+i*0x1000)&&&flagPresent=0:=and_eq_zero_of_field hfield rfl
  have h1 : entryPhys ((h+i*0x1000)|||(e&&&0xFFF&&&0xFFFFFFFFFFFFFF7F))=h+i*0x1000:=
    (or_and_of_and_eq_zero hmask).trans hfield
  have h2 : ((h+i*0x1000)|||(e&&&0xFFF&&&0xFFFFFFFFFFFFFF7F))&&&flagPresent≠0:=by
    rw [or_and_of_left_eq_zero hpage,hflag]
    exact hp
  simp [decode,h1,h2]

/-- Everything that `get_or_create` guarantees on a table of level `k + 1`. -/
structure Created (m : Machine) (t i k : ℕ) (r : ℕ×Machine) (level level' : ℕ→Option ℕ)
    (home' : ℕ→Option ℕ×ℕ) : Prop where
  tables : Tables r.2 level' home'
  ext : Extends m r.2 level level'
  other : ∀u∈m.used,u≠t → r.2.mem u=m.mem u
  entries : ∀j,j≠i → r.2.mem t j=m.mem t j
  child : r.1≠0→level' r.1=some k ∧ slots r.2 (k+1) t i = .table r.1
  links : NewLinks m r.2 t i level level'

theorem newLinks_of_slots (t i : ℕ) (level : ℕ→Option ℕ) (hslots : slots m'=slots m) :
    NewLinks m m' t i level level:=
  fun hu hs=>⟨hu,.inl (hslots▸hs)⟩

theorem getOrCreate_absent (ht : Tables m level home) (htl : level t=some (k+1)) (hf : TableFlags f)
    (hp : m.mem t i&&&flagPresent=0) : ∃level' home',Created m t i k (getOrCreate t i f m) level level' home':=by
  have hslot : slots m (k+1) t i = .absent:=by simp [slots,decode,hp]
  have hget : getOrCreate t i f m=if (allocTable m).1=0 then (0,(allocTable m).2)
      else ((allocTable m).1,(allocTable m).2.write t i ((allocTable m).1|||f)):=by
    simp [getOrCreate,hp]
  rcases allocTable_spec m with ⟨h0,hmem,hused⟩ | ⟨hc,hcu,hmem,hused⟩
  · rw [hget,if_pos h0]
    obtain ⟨ht',he,hslots⟩:=ht.of_mem_eq hmem hused
    exact ⟨level,home,ht',he,fun u _ _=>congrFun hmem u,fun j _=>congrFun (congrFun hmem t) j,
      fun h=>absurd rfl h,newLinks_of_slots t i level hslots⟩
  · rw [hget,if_neg hc.1]
    have htc : t≠(allocTable m).1:=fun e=>hcu (e▸ht.used htl)
    set c:=(allocTable m).1
    have hmem' : ((allocTable m).2.write t i (c|||f)).mem =
        update (update m.mem c fun _=>0) t (update (m.mem t) i (c|||f)):=by
      simp only [Machine.write,hmem]
      rw [update_of_ne htc]
    have hused' : ((allocTable m).2.write t i (c|||f)).used=c::m.used:=hused
    obtain ⟨ht',hsame,hlinks⟩:=ht.link htl hc (ht.level_eq_none hcu) hf (by simp [hused']) hmem' (by simp [hslot])
      (by simp) (fun _ _=>rfl) (by
        intro a _
        rw [hslot,Slot.value]
        refine lookup_empty (fun j=>?_) a
        rw [slots,hmem',update_of_ne (Ne.symm htc),update_self,decode_zero])
    refine ⟨_,_,ht',ht.extends_update hcu hused' hsame,fun u hu hut=>?_,fun j hj=>?_,
      fun _=>⟨update_self ..,?_⟩,hlinks⟩
    · rw [hmem',update_of_ne hut,update_of_ne (ne_of_mem_of_not_mem hu hcu)]
    · rw [hmem',update_self,update_of_ne hj]
    · rw [slots,hmem',update_self,update_self]
      exact decode_table hc hf k

theorem withUser_spec (ht : Tables m level home) (t i f : ℕ) :
    Tables (withUser t i f m) level home ∧ Extends m (withUser t i f m) level level ∧
    (withUser t i f m).used=m.used ∧ (∀u,u≠t→(withUser t i f m).mem u=m.mem u) ∧
    (∀j,j≠i→(withUser t i f m).mem t j=m.mem t j) ∧
    (withUser t i f m).mem t i&&&flagPresent=m.mem t i&&&flagPresent ∧ slots (withUser t i f m)=slots m:=by
  unfold withUser
  split
  · have hmem (u j : ℕ) : (m.write t i (m.mem t i|||flagUser)).mem u j =
        if u=t ∧ j=i then m.mem t i|||flagUser else m.mem u j:=by
      by_cases hu : u=t
      · subst hu
        simp [Machine.write,update_apply]
      · simp [Machine.write,hu]
    have hsame : Tables (m.write t i (m.mem t i|||flagUser)) level home ∧
        Extends m (m.write t i (m.mem t i|||flagUser)) level level ∧
        slots (m.write t i (m.mem t i|||flagUser))=slots m:=by
      refine ht.rewrite rfl fun u j=>?_
      rw [hmem]
      split
      · rename_i he
        rw [he.1,he.2]
        exact or_user _
      · exact ⟨rfl,rfl,rfl,rfl⟩
    refine ⟨hsame.1,hsame.2.1,rfl,fun u hu=>?_,fun j hj=>?_,?_,hsame.2.2⟩
    · funext j
      rw [hmem,if_neg fun e=>hu e.1]
    · rw [hmem,if_neg fun e=>hj e.2]
    · rw [hmem,if_pos ⟨rfl,rfl⟩]
      exact (or_user _).2.1
  · exact ⟨ht,.refl _ _,rfl,fun _ _=>rfl,fun _ _=>rfl,rfl,rfl⟩

/-- The entries of the table that takes the place of a huge page. -/
def pieces (e : ℕ) (j : ℕ) : ℕ:=(entryPhys e+j*0x1000)|||(e&&&0xFFF&&&0xFFFFFFFFFFFFFF7F)

theorem splitHuge_eq (hc : IsFrame (allocTable m).1) (htc : t≠(allocTable m).1)
    (hmem : (allocTable m).2.mem=update m.mem (allocTable m).1 fun _=>0) (i f : ℕ) :
    ∃m',splitHuge t i f m=((allocTable m).1,m') ∧ m'.used=(allocTable m).2.used ∧
    m'.mem=update (update m.mem (allocTable m).1 (pieces (m.mem t i))) t
    (update (m.mem t) i ((allocTable m).1|||tableFlags f)):=by
  have hread : (allocTable m).2.mem t i=m.mem t i:=by rw [hmem,update_of_ne htc]
  set c:=(allocTable m).1 with hcdef
  let m':=((allocTable m).2.fill c (pieces (m.mem t i))).write t i (c|||tableFlags f)
  have hmem' : m'.mem=update (update m.mem c (pieces (m.mem t i))) t
      (update (m.mem t) i (c|||tableFlags f)):=by
    simp only [m',Machine.write,Machine.fill,hmem,update_idem]
    rw [update_of_ne htc]
  have hsplit : splitHuge t i f m=(entryPhys (m'.mem t i),m'):=by
    simp only [splitHuge,←hcdef,if_neg hc.1,hread]
    rfl
  refine ⟨m',?_,rfl,hmem'⟩
  rw [hsplit,hmem',update_self,update_self,(entry_table hc (tableFlags_spec f)).1]

theorem splitHuge_spec (ht : Tables m level home) (htl : level t=some 1) (f : ℕ)
    (hp : m.mem t i&&&flagPresent≠0) (hh : m.mem t i&&&flagHuge≠0) :
    ∃level' home',Created m t i 0 (splitHuge t i f m) level level' home':=by
  have hslot : slots m 1 t i = .page (entryPhys (m.mem t i)):=by simp [slots,decode,hp,hh]
  have hal:=ht.huge htl hp hh
  have hlt : entryPhys (m.mem t i)<2^52:=by
    rw [entryPhys_eq]
    omega
  rcases allocTable_spec m with ⟨h0,hmem,hused⟩ | ⟨hc,hcu,hmem,hused⟩
  · have hsplit : splitHuge t i f m=(0,(allocTable m).2):=by simp [splitHuge,h0]
    rw [hsplit]
    obtain ⟨ht',he,hslots⟩:=ht.of_mem_eq hmem hused
    exact ⟨level,home,ht',he,fun u _ _=>congrFun hmem u,fun j _=>congrFun (congrFun hmem t) j,
      fun h=>absurd rfl h,newLinks_of_slots t i level hslots⟩
  · have htc : t≠(allocTable m).1:=fun e=>hcu (e▸ht.used htl)
    obtain ⟨m',hsplit,hused',hmem'⟩:=splitHuge_eq hc htc hmem i f
    set c:=(allocTable m).1
    have hf':=tableFlags_spec f
    rw [hused] at hused'
    rw [hsplit]
    have hpiece (j : ℕ) (hj : j<512) : slots m' 0 c j = .page (entryPhys (m.mem t i)+j*0x1000):=by
      rw [slots,hmem',update_of_ne (Ne.symm htc),update_self]
      exact piece_spec hal hlt hj hp
    have hg (j u : ℕ) : decode 0 (pieces (m.mem t i) j)≠.table u:=by
      unfold decode
      split <;> simp
    obtain ⟨ht',hsame,hlinks⟩:=ht.link htl hc (ht.level_eq_none hcu) hf' (by simp [hused']) hmem' (by simp [hslot]) hg
      (fun h=>by omega) (by
        intro a _
        have hidx : tableIdx 0 a<512:=Nat.mod_lt _ (by decide)
        simp only [lookup,hpiece _ hidx,hslot,Slot.value,Option.some.injEq]
        simp only [pageAddr,tableIdx]
        omega)
    refine ⟨_,_,ht',ht.extends_update hcu hused' hsame,fun u hu hut=>?_,fun j hj=>?_,
      fun _=>⟨update_self ..,?_⟩,hlinks⟩
    · rw [hmem',update_of_ne hut,update_of_ne (ne_of_mem_of_not_mem hu hcu)]
    · rw [hmem',update_self,update_of_ne hj]
    · rw [slots,hmem',update_self,update_self]
      exact decode_table hc hf' 0

theorem getOrCreate_spec (ht : Tables m level home) (htl : level t=some (k+1)) (hf : TableFlags f) (i : ℕ) :
    ∃level' home',Created m t i k (getOrCreate t i f m) level level' home':=by
  by_cases hp : m.mem t i&&&flagPresent=0
  · exact getOrCreate_absent ht htl hf hp
  obtain ⟨ht1,he1,hused1,hother,hentries,hflag,hslots⟩:=withUser_spec ht t i f
  set m1:=withUser t i f m with hm1
  have hp1 : m1.mem t i&&&flagPresent≠0:=by rwa [hflag]
  by_cases hh : m1.mem t i&&&flagHuge=0
  · have hget : getOrCreate t i f m=(entryPhys (m1.mem t i),m1):=by
      simp [getOrCreate,hp,←hm1,hh]
    have hslot : slots m1 (k+1) t i = .table (entryPhys (m1.mem t i)):=by
      simp [slots,decode,hp1,hh]
    rw [hget]
    exact ⟨level,home,ht1,he1,fun u _ hut=>hother u hut,hentries,
      fun _=>⟨(ht1.forest.child htl hslot).1,hslot⟩,newLinks_of_slots t i level hslots⟩
  · obtain rfl : k=0:=by
      rcases Nat.eq_zero_or_pos k with rfl | hk
      · rfl
      · obtain ⟨l,rfl⟩ : ∃l,k=l+1:=⟨k-1,by omega⟩
        exact absurd (ht1.flat htl hp1) hh
    have hget : getOrCreate t i f m=splitHuge t i f m1:=by simp [getOrCreate,hp,←hm1,hh]
    obtain ⟨level',home',hc⟩:=splitHuge_spec ht1 htl f hp1 hh
    rw [hget]
    exact ⟨level',home',hc.tables,he1.trans hc.ext,fun u hu hut=>(hc.other u (hused1▸hu) hut).trans (hother u hut),
      fun j hj=>(hc.entries j hj).trans (hentries j hj),hc.child,fun hu hs=>hslots▸hc.links hu hs⟩

end Knail.PageTables
