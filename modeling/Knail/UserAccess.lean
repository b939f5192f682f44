import Knail.PageTableTranslation

/-!
# What user code can reach

An address is open to user code when every entry of its walk is present and has the user bit. `map_page` for a user
page sets that bit along the walk; addresses below a huge page are opened with it, since its pieces take the bit over.
-/
namespace Knail.PageTables

variable {m m' : Machine} {level level' : ℕ→Option ℕ} {home home' : ℕ→Option ℕ×ℕ} {S S' : List (ℕ×ℕ)}
  {t i c e f k r a v : ℕ} {l u j flags : ℕ}

/-- The entry lets user code pass. The entries at the places `raised` count as user entries. -/
def isOpen (raised : List (ℕ×ℕ)) (m : Machine) (t i : ℕ) : Bool:=
  m.mem t i&&&flagPresent≠0 && (m.mem t i&&&flagUser≠0 || (t,i)∈raised)

/-- The walk of an address below a table of the given level meets open entries only. -/
def openBelow (raised : List (ℕ×ℕ)) (m : Machine) (v : ℕ) : ℕ→ℕ→Bool
  | 0, t=>isOpen raised m t (tableIdx 0 v)
  | l+1, t=>
    let e:=m.mem t (tableIdx (l+1) v)
    isOpen raised m t (tableIdx (l+1) v) &&
      (l=0 && e&&&flagHuge≠0 || openBelow raised m v l (entryPhys e))

def userAccess (pml4 v : ℕ) (m : Machine) : Bool:=openBelow [] m v 3 pml4

/-- The slots of a walk that stops at the first entry that is not open. -/
def userSlots (raised : List (ℕ×ℕ)) (m : Machine) : Slots ℕ ℕ ℕ:=fun l t i=>
  if isOpen raised m t i then decode l (m.mem t i) else .absent

theorem isOpen_iff : isOpen S m t i=true↔m.mem t i&&&flagPresent≠0 ∧ (m.mem t i&&&flagUser≠0 ∨ (t,i)∈S):=by
  simp only [isOpen,Bool.and_eq_true,Bool.or_eq_true,decide_eq_true_eq]

theorem present_of_isOpen (h : isOpen S m t i=true) : m.mem t i&&&flagPresent≠0:=(isOpen_iff.mp h).1

theorem openBelow_eq (S : List (ℕ×ℕ)) (m : Machine) (v l t : ℕ) :
    openBelow S m v l t=(lookup (userSlots S m) tableIdx pageAddr l t v).isSome:=by
  induction l generalizing t with
  | zero=>
    by_cases ho : isOpen S m t (tableIdx 0 v)=true
    · simp [openBelow,lookup,userSlots,decode,ho,present_of_isOpen ho]
    · simp [openBelow,lookup,userSlots,ho]
  | succ l ih=>
    by_cases ho : isOpen S m t (tableIdx (l+1) v)=true
    · have hp:=present_of_isOpen ho
      by_cases hh : l=0 ∧ m.mem t (tableIdx (l+1) v)&&&flagHuge≠0
      · obtain ⟨rfl,hh⟩:=hh
        simp [openBelow,lookup,userSlots,decode,ho,hp,hh]
      have hd : decode (l+1) (m.mem t (tableIdx (l+1) v)) = .table (entryPhys (m.mem t (tableIdx (l+1) v))):=by
        rw [decode,if_neg hp,if_neg (by omega)]
      have hh' : (decide (l=0) && decide (m.mem t (tableIdx (l+1) v)&&&flagHuge≠0))=false:=by
        simpa using hh
      rw [openBelow,lookup,userSlots,if_pos ho,hd,ho,hh',ih]
      rfl
    · simp [openBelow,lookup,userSlots,ho]

theorem slots_of_userSlots (h : userSlots S m l t i = .table u) : slots m l t i = .table u:=by
  rw [userSlots] at h
  split at h
  · exact h
  · cases h

theorem Tables.userForest (ht : Tables m level home) (S : List (ℕ×ℕ)) : Forest (userSlots S m) 3 level home where
  child:=fun hl hs=>ht.forest.child hl (slots_of_userSlots hs)

theorem userLookup_congr (ht : Tables m level home) (hl : level t=some k)
    (hS : ∀p,(∃l,level p.1=some l)→(p∈S'↔p∈S)) (a : ℕ) :
    lookup (userSlots S' m) tableIdx pageAddr k t a=lookup (userSlots S m) tableIdx pageAddr k t a:=by
  refine lookup_congr (ht.userForest S) (fun {u l} hu j=>?_) hl a
  have hiff : isOpen S' m u j=true↔isOpen S m u j=true:=by rw [isOpen_iff,isOpen_iff,hS (u,j) ⟨l,hu⟩]
  exact if_congr hiff rfl rfl

theorem userSlots_of_ne (hne : (u,j)≠(t,i)) (hmem : m'.mem u j=m.mem u j) (l : ℕ) :
    userSlots S m' l u j=userSlots ((t,i)::S) m l u j:=by
  have hiff : isOpen S m' u j=true↔isOpen ((t,i)::S) m u j=true:=by
    rw [isOpen_iff,isOpen_iff,hmem,List.mem_cons,or_iff_right hne]
  rw [userSlots,userSlots,hmem]
  exact if_congr hiff rfl rfl

theorem or_user_and_user (e : ℕ) : (e|||flagUser)&&&flagUser≠0:=by
  rw [Nat.and_comm,Nat.and_or_distrib_left,Nat.and_self]
  exact Nat.ne_of_gt (Nat.lt_of_lt_of_le (by decide) Nat.right_le_or)

theorem decode_or_user (l e : ℕ) : decode l (e|||flagUser)=decode l e:=by
  obtain ⟨hphys,hpres,hhuge,-⟩:=or_user e
  rw [decode,decode,hphys,hpres,hhuge]

theorem userSlots_raise (t i : ℕ) (m : Machine) (S : List (ℕ×ℕ)) :
    userSlots S (m.write t i (m.mem t i|||flagUser))=userSlots ((t,i)::S) m:=by
  funext l u j
  by_cases hu : (u,j)=(t,i)
  · obtain ⟨rfl,rfl⟩:=Prod.mk.inj hu
    have hmem : (m.write u j (m.mem u j|||flagUser)).mem u j=m.mem u j|||flagUser:=by
      rw [mem_write_self,Function.update_self]
    have hiff : isOpen S (m.write u j (m.mem u j|||flagUser)) u j=true↔isOpen ((u,j)::S) m u j=true:=by
      rw [isOpen_iff,isOpen_iff,hmem,(or_user _).2.1]
      exact and_congr_right fun _=>⟨fun _=>.inr List.mem_cons_self,fun _=>.inl (or_user_and_user _)⟩
    rw [userSlots,userSlots,hmem,decode_or_user]
    exact if_congr hiff rfl rfl
  · refine userSlots_of_ne hu ?_ l
    by_cases hut : u=t
    · subst hut
      rw [mem_write_self,Function.update_of_ne fun h=>hu (by rw [h])]
    · rw [mem_write_of_ne hut]

theorem userSlots_cons (h : m.mem t i&&&flagPresent=0 ∨ m.mem t i&&&flagUser≠0) (S : List (ℕ×ℕ)) :
    userSlots ((t,i)::S) m=userSlots S m:=by
  funext l u j
  by_cases hu : (u,j)=(t,i)
  · obtain ⟨rfl,rfl⟩:=Prod.mk.inj hu
    have hiff : isOpen ((u,j)::S) m u j=true↔isOpen S m u j=true:=by
      rw [isOpen_iff,isOpen_iff]
      exact and_congr_right fun hp=>⟨fun _=>.inl (h.resolve_left hp),fun _=>.inr List.mem_cons_self⟩
    exact if_congr hiff rfl rfl
  · exact (userSlots_of_ne hu rfl l).symm

theorem userSlots_congr (hmem : m'.mem=m.mem) (S : List (ℕ×ℕ)) : userSlots S m'=userSlots S m:=by
  funext l u j
  rw [userSlots,userSlots,isOpen,isOpen,hmem]

theorem userLookup_link {g : ℕ→ℕ} (ht : Tables m level home) (htl : level t=some (k+1)) (hc : IsFrame c)
    (hcl : level c=none)
    (hmem : m'.mem=Function.update (Function.update m.mem c g) t (Function.update (m.mem t) i (c|||7)))
    (hold : ∀u,userSlots ((t,i)::S) m (k+1) t i≠.table u)
    (hval : ∀a,tableIdx (k+1) a=i→lookup (userSlots S m') tableIdx pageAddr k c a =
    (userSlots ((t,i)::S) m (k+1) t i).value pageAddr (k+1) a) (hr : level r=some 3) (a : ℕ) :
    lookup (userSlots S m') tableIdx pageAddr 3 r a=lookup (userSlots ((t,i)::S) m) tableIdx pageAddr 3 r a:=by
  have hti : m'.mem t i=c|||7:=by rw [hmem,Function.update_self,Function.update_self]
  refine lookup_replace (ht.userForest _) htl ?_ ?_ hold hval hr a
  · intro u l hu j hj
    refine userSlots_of_ne (fun he=>hj (Prod.mk.inj he)) ?_ l
    have huc : u≠c:=by
      rintro rfl
      simp [hcl] at hu
    by_cases hut : u=t
    · subst hut
      rw [hmem,Function.update_self,Function.update_of_ne fun h=>hj ⟨rfl,h⟩]
    · rw [hmem,Function.update_of_ne hut,Function.update_of_ne huc]
  · have hopen : isOpen S m' t i=true:=by
      rw [isOpen_iff,hti]
      refine ⟨(entry_table hc (.inr rfl)).2.1,.inl ?_⟩
      rw [or_and_of_left_eq_zero (hc.and_eq_zero rfl)]
      decide
    rw [userSlots,if_pos hopen,hti]
    exact decode_table hc (.inr rfl) k

theorem withUser_user (t i : ℕ) (m : Machine) : withUser t i 7 m=m.write t i (m.mem t i|||flagUser):=if_pos (by decide)

theorem pieces_user (hal : entryPhys e%0x200000=0) (hu : e&&&flagUser≠0) (hj : j<512) :
    pieces e j&&&flagUser≠0:=by
  have hlt : entryPhys e<2^52:=by
    rw [entryPhys_eq]
    omega
  have hfield : (entryPhys e+j*0x1000)&&&physMask=entryPhys e+j*0x1000:=
    field_of_bounds (by omega) (by omega)
  have hflag : e&&&0xFFF&&&0xFFFFFFFFFFFFFF7F&&&flagUser=e&&&flagUser:=by
    rw [Nat.and_assoc,Nat.and_assoc]
    rfl
  rwa [pieces,or_and_of_left_eq_zero (and_eq_zero_of_field hfield rfl),hflag]

/-- A huge page for users is split into user pages. -/
theorem splitHuge_access (ht : Tables m level home) (htl : level t=some 1) (hp : m.mem t i&&&flagPresent≠0)
    (hh : m.mem t i&&&flagHuge≠0) (hu : m.mem t i&&&flagUser≠0) (hr : level r=some 3) (a : ℕ) :
    lookup (userSlots S (splitHuge t i 7 m).2) tableIdx pageAddr 3 r a =
    lookup (userSlots ((t,i)::S) m) tableIdx pageAddr 3 r a:=by
  have hopen : isOpen ((t,i)::S) m t i=true:=isOpen_iff.mpr ⟨hp,.inl hu⟩
  rcases allocTable_spec m with ⟨h0,hmem,-⟩ | ⟨hc,hcu,hmem,-⟩
  · have hsplit : splitHuge t i 7 m=(0,(allocTable m).2):=by simp [splitHuge,h0]
    rw [hsplit,userSlots_congr hmem,userSlots_cons (.inr hu)]
  have htc : t≠(allocTable m).1:=fun e=>hcu (e▸ht.used htl)
  obtain ⟨m',hsplit,-,hmem'⟩:=splitHuge_eq hc htc hmem i 7
  set c:=(allocTable m).1
  have hal:=ht.huge htl hp hh
  have hlt : entryPhys (m.mem t i)<2^52:=by
    rw [entryPhys_eq]
    omega
  have hslot : userSlots ((t,i)::S) m 1 t i = .page (entryPhys (m.mem t i)):=by
    simp [userSlots,hopen,decode,hp,hh]
  rw [hsplit]
  refine userLookup_link ht htl hc (ht.level_eq_none hcu) hmem' (by simp [hslot]) (fun a _=>?_) hr a
  have hidx : tableIdx 0 a<512:=Nat.mod_lt _ (by decide)
  have hpiece : m'.mem c (tableIdx 0 a)=pieces (m.mem t i) (tableIdx 0 a):=by
    rw [hmem',Function.update_of_ne (Ne.symm htc),Function.update_self]
  have hdec : decode 0 (pieces (m.mem t i) (tableIdx 0 a)) = .page (entryPhys (m.mem t i)+tableIdx 0 a*0x1000):=
    piece_spec hal hlt hidx hp
  have hpopen : isOpen S m' c (tableIdx 0 a)=true:=by
    refine isOpen_iff.mpr ⟨fun h0=>?_,.inl (by rw [hpiece]; exact pieces_user hal hu hidx)⟩
    rw [hpiece] at h0
    simp [decode,h0] at hdec
  simp only [lookup,userSlots,hpopen,if_true,hpiece,hdec]
  rw [←userSlots,hslot,Slot.value,Option.some.injEq]
  simp only [pageAddr,tableIdx]
  omega

/-- A step down for a user page opens the entry that it passes, whether or not it succeeds. -/
theorem getOrCreate_access (ht : Tables m level home) (htl : level t=some (k+1)) (i : ℕ) (S : List (ℕ×ℕ))
    (hr : level r=some 3) (a : ℕ) : lookup (userSlots S (getOrCreate t i 7 m).2) tableIdx pageAddr 3 r a =
    lookup (userSlots ((t,i)::S) m) tableIdx pageAddr 3 r a:=by
  by_cases hp : m.mem t i&&&flagPresent=0
  · have hget : getOrCreate t i 7 m=if (allocTable m).1=0 then (0,(allocTable m).2)
        else ((allocTable m).1,(allocTable m).2.write t i ((allocTable m).1|||7)):=by
      simp [getOrCreate,hp]
    have hslot : userSlots ((t,i)::S) m (k+1) t i = .absent:=if_neg fun h=>present_of_isOpen h hp
    rcases allocTable_spec m with ⟨h0,hmem,-⟩ | ⟨hc,hcu,hmem,-⟩
    · rw [hget,if_pos h0,userSlots_congr hmem,userSlots_cons (.inl hp)]
    have htc : t≠(allocTable m).1:=fun e=>hcu (e▸ht.used htl)
    rw [hget,if_neg hc.1]
    set c:=(allocTable m).1
    have hmem' : ((allocTable m).2.write t i (c|||7)).mem =
        Function.update (Function.update m.mem c fun _=>0) t (Function.update (m.mem t) i (c|||7)):=by
      simp only [Machine.write,hmem]
      rw [Function.update_of_ne htc]
    refine userLookup_link ht htl hc (ht.level_eq_none hcu) hmem' (by simp [hslot]) (fun a _=>?_) hr a
    rw [hslot,Slot.value]
    refine lookup_empty (fun j=>?_) a
    rw [userSlots,hmem',Function.update_of_ne (Ne.symm htc),Function.update_self,decode_zero,ite_self]
  · have hraise:=userSlots_raise t i m
    obtain ⟨ht1,-,-,-,-,hflag,-⟩:=withUser_spec ht t i 7
    rw [withUser_user] at ht1 hflag
    have hentry : (m.write t i (m.mem t i|||flagUser)).mem t i=m.mem t i|||flagUser:=by
      rw [mem_write_self,Function.update_self]
    have hget : getOrCreate t i 7 m=if (m.write t i (m.mem t i|||flagUser)).mem t i&&&flagHuge≠0 then
        splitHuge t i 7 (m.write t i (m.mem t i|||flagUser))
        else (entryPhys ((m.write t i (m.mem t i|||flagUser)).mem t i),m.write t i (m.mem t i|||flagUser)):=by
      simp only [getOrCreate,if_pos hp,withUser_user]
    have hp1 : (m.write t i (m.mem t i|||flagUser)).mem t i&&&flagPresent≠0:=by rwa [hflag]
    have hu1 : (m.write t i (m.mem t i|||flagUser)).mem t i&&&flagUser≠0:=by
      rw [hentry]
      exact or_user_and_user _
    rw [hget,←hraise]
    set m1:=m.write t i (m.mem t i|||flagUser)
    by_cases hh : m1.mem t i&&&flagHuge≠0
    · obtain rfl : k=0:=by
        rcases Nat.eq_zero_or_pos k with rfl | hk
        · rfl
        · obtain ⟨l,rfl⟩ : ∃l,k=l+1:=⟨k-1,by omega⟩
          exact absurd (ht1.flat htl hp1) hh
      rw [if_pos hh,splitHuge_access ht1 htl hp1 hh hu1 hr,userSlots_cons (.inr hu1)]
    · rw [if_neg hh]

theorem getOrCreate_child (ht : Tables m level home) (htl : level t=some (k+2)) (i : ℕ) :
    m.mem t i&&&flagPresent≠0 ∧ (getOrCreate t i 7 m).1=entryPhys (m.mem t i) ∧
    slots m (k+2) t i = .table (entryPhys (m.mem t i)) ∨
    m.mem t i&&&flagPresent=0 ∧ level (getOrCreate t i 7 m).1=none:=by
  by_cases hp : m.mem t i&&&flagPresent=0
  · refine .inr ⟨hp,?_⟩
    have hget : (getOrCreate t i 7 m).1=(allocTable m).1:=by
      simp only [getOrCreate,hp,ne_eq,not_true_eq_false,if_false]
      split
      · exact (by assumption : (allocTable m).1=0).symm
      · rfl
    rw [hget]
    rcases allocTable_spec m with ⟨h0,-⟩ | ⟨-,hcu,-⟩
    · rw [h0]
      exact Option.eq_none_iff_forall_ne_some.mpr fun l hl=>(ht.frame hl).1 rfl
    · exact ht.level_eq_none hcu
  · have hh:=ht.flat htl hp
    have hslot : slots m (k+2) t i = .table (entryPhys (m.mem t i)):=by simp [slots,decode,hp,hh]
    refine .inl ⟨hp,?_,hslot⟩
    have hentry : (m.write t i (m.mem t i|||flagUser)).mem t i=m.mem t i|||flagUser:=by
      rw [mem_write_self,Function.update_self]
    obtain ⟨hphys,-,hhuge,-⟩:=or_user (m.mem t i)
    simp only [getOrCreate,if_pos hp,withUser_user,hentry,hphys,hhuge,hh,ne_eq,not_true_eq_false,if_false]

/-- The entries of the walk of an address above the page tables, as far as they are there. -/
def walkEntries (pml4 virt : ℕ) (m : Machine) : List (ℕ×ℕ):=
  let l4e:=m.mem pml4 (pml4Idx virt)
  (pml4,pml4Idx virt) ::
    if l4e&&&flagPresent=0 then []
    else
      let l3e:=m.mem (entryPhys l4e) (pdptIdx virt)
      (entryPhys l4e,pdptIdx virt) ::
        if l3e&&&flagPresent=0 then [] else [(entryPhys l3e,pdIdx virt)]

theorem tableFlags_user (hf : flags&&&flagUser≠0) : tableFlags flags=7:=if_pos hf

theorem userLookup_write {pt : ℕ} (ht : Tables m level home) (hr : level r=some 3)
    (hpt : Descends (slots m) tableIdx pt 3 r v) (hne : ¬SameWalk a v) :
    lookup (userSlots [] (m.write pt (ptIdx v) e)) tableIdx pageAddr 3 r a =
    lookup (userSlots [] m) tableIdx pageAddr 3 r a:=by
  have hother {u l : ℕ} (_ : level u=some l) (j : ℕ) (hj : ¬(u=pt ∧ j=ptIdx v)) :
      userSlots [] (m.write pt (ptIdx v) e) l u j=userSlots [] m l u j:=by
    have hmem : (m.write pt (ptIdx v) e).mem u j=m.mem u j:=by
      by_cases hut : u=pt
      · subst hut
        rw [mem_write_self,Function.update_of_ne fun h=>hj ⟨rfl,h⟩]
      · rw [mem_write_of_ne hut]
    rw [userSlots,userSlots,isOpen,isOpen,hmem]
  refine (lookup_set (ht.userForest []) (hpt.level_eq ht.forest hr) hother hr a).2 ?_
  rintro ⟨hd,h0⟩
  have hd':=hd.mono slots_of_userSlots
  refine hne fun l hl=>?_
  rcases Nat.eq_zero_or_pos l with rfl | hl0
  · exact h0
  · exact (hd'.unique ht.forest hpt hr hr (Nat.le_refl _)).2 l hl0 hl

/-- The places that the steps have raised are, in the tables that were there, those of the walk. -/
theorem places_of_children {m1 : Machine} {level1 : ℕ→Option ℕ} {home1 : ℕ→Option ℕ×ℕ} {pdpt pd : ℕ}
    (ht : Tables m level home) (hr : level r=some 3) (c1 : Created m r (pml4Idx v) 2 (pdpt,m1) level level1 home1)
    (hl1 : level1 pdpt=some 2) (hchild1 : m.mem r (pml4Idx v)&&&flagPresent≠0 ∧ pdpt=entryPhys (m.mem r (pml4Idx v)) ∧
    slots m 3 r (pml4Idx v) = .table (entryPhys (m.mem r (pml4Idx v))) ∨
    m.mem r (pml4Idx v)&&&flagPresent=0 ∧ level pdpt=none)
    (hchild2 : m1.mem pdpt (pdptIdx v)&&&flagPresent≠0 ∧ pd=entryPhys (m1.mem pdpt (pdptIdx v)) ∧
    slots m1 2 pdpt (pdptIdx v) = .table (entryPhys (m1.mem pdpt (pdptIdx v))) ∨
    m1.mem pdpt (pdptIdx v)&&&flagPresent=0 ∧ level1 pd=none) (p : ℕ×ℕ) (hp : ∃l,level p.1=some l) :
    p∈[(r,pml4Idx v),(pdpt,pdptIdx v),(pd,pdIdx v)]↔p∈walkEntries r v m:=by
  obtain ⟨l,hl⟩:=hp
  have hno {t i : ℕ} (ht : level t=none) : p≠(t,i):=by
    rintro rfl
    simp [ht] at hl
  have hpd (h : level1 pd=none) : level pd=none:=by
    cases hold : level pd with
    | none=>rfl
    | some l=>simp [c1.ext.level_eq hold] at h
  rcases hchild1 with ⟨hp1,rfl,hs1⟩ | ⟨hp1,hfresh⟩
  · have hl:=(ht.forest.child hr hs1).1
    have hne : entryPhys (m.mem r (pml4Idx v))≠r:=by
      intro he
      rw [he,hr] at hl
      cases hl
    have hmem:=c1.other _ (ht.used hl) hne
    rw [hmem] at hchild2
    rcases hchild2 with ⟨hp2,rfl,-⟩ | ⟨hp2,hfresh⟩
    · simp [walkEntries,hp1,hp2]
    · simp [walkEntries,hp1,hp2,hno (hpd hfresh)]
  · have hpd' : level pd=none:=by
      rcases hchild2 with ⟨-,-,hs2⟩ | ⟨-,hfresh2⟩
      · have hold:=(c1.links hl1 hs2).1
        simp [hfresh] at hold
      · exact hpd hfresh2
    simp [walkEntries,hp1,hno hfresh,hno hpd']

/-- After `map_page` for a user page, whether or not it succeeds, the other addresses are open that are
open with the entries of the page's walk raised. -/
theorem mapPage_access {phys : ℕ} (ht : Tables m level home) (hr : level r=some 3) (hf : flags&&&flagUser≠0)
    (hne : ¬SameWalk a v) : lookup (userSlots [] (mapPage r v phys flags m).2) tableIdx pageAddr 3 r a =
    lookup (userSlots (walkEntries r v m) m) tableIdx pageAddr 3 r a:=by
  have hflags:=tableFlags_user hf
  obtain ⟨level1,home1,c1⟩:=getOrCreate_spec ht hr (.inr rfl) (pml4Idx v)
  have ha1 (S : List (ℕ×ℕ)):=getOrCreate_access ht hr (pml4Idx v) S hr a
  have hchild1:=getOrCreate_child ht hr (pml4Idx v)
  rcases hg1 : getOrCreate r (pml4Idx v) 7 m with ⟨pdpt,m1⟩
  rw [hg1] at c1 ha1 hchild1
  have hr1:=c1.ext.level_eq hr
  by_cases h1 : pdpt=0
  · have hmap : mapPage r v phys flags m=(false,m1):=by simp [mapPage,hflags,hg1,h1]
    rw [hmap,ha1]
    rcases hchild1 with ⟨-,he,hs⟩ | ⟨hp,-⟩
    · exact absurd (he.symm.trans h1) (ht.frame (ht.forest.child hr hs).1).1
    · rw [walkEntries,if_pos hp]
  obtain ⟨hl1,-⟩:=c1.child h1
  obtain ⟨level2,home2,c2⟩:=getOrCreate_spec c1.tables hl1 (.inr rfl) (pdptIdx v)
  have ha2 (S : List (ℕ×ℕ)):=getOrCreate_access c1.tables hl1 (pdptIdx v) S hr1 a
  have hchild2:=getOrCreate_child c1.tables hl1 (pdptIdx v)
  rcases hg2 : getOrCreate pdpt (pdptIdx v) 7 m1 with ⟨pd,m2⟩
  rw [hg2] at c2 ha2 hchild2
  have hr2:=c2.ext.level_eq hr1
  have hplaces:=places_of_children ht hr c1 hl1 hchild1 hchild2
  by_cases h2 : pd=0
  · have hmap : mapPage r v phys flags m=(false,m2):=by simp [mapPage,hflags,hg1,h1,hg2,h2]
    rw [hmap,ha2,ha1]
    refine userLookup_congr ht hr (fun p hp=>?_) a
    have hpd : p≠(pd,pdIdx v):=by
      rintro rfl
      obtain ⟨l,hl⟩:=hp
      exact (ht.frame hl).1 h2
    rw [←hplaces p hp]
    simp [hpd]
  obtain ⟨hl2,-⟩:=c2.child h2
  obtain ⟨level3,home3,c3⟩:=getOrCreate_spec c2.tables hl2 (.inr rfl) (pdIdx v)
  have ha3:=getOrCreate_access c2.tables hl2 (pdIdx v) [] hr2 a
  rcases hg3 : getOrCreate pd (pdIdx v) 7 m2 with ⟨pt,m3⟩
  rw [hg3] at c3 ha3
  have hwalk : lookup (userSlots [] m3) tableIdx pageAddr 3 r a=lookup (userSlots (walkEntries r v m) m) tableIdx pageAddr 3 r a:=by
    rw [ha3,ha2,ha1]
    exact userLookup_congr ht hr hplaces a
  by_cases h3 : pt=0
  · have hmap : mapPage r v phys flags m=(false,m3):=by simp [mapPage,hflags,hg1,h1,hg2,h2,hg3,h3]
    rw [hmap]
    exact hwalk
  have hmap : mapPage r v phys flags m=(true,m3.write pt (ptIdx v) ((phys&&&physMask)|||flags)):=by
    simp [mapPage,hflags,hg1,h1,hg2,h2,hg3,h3]
  rw [hmap,←hwalk]
  exact userLookup_write c3.tables (c3.ext.level_eq hr2) ((((ht.descent hr v).step c1 h1).step c2 h2).step c3 h3).descends hne

/-- The states in which a space was made by `create_user_space`, complete or not, and pages were
mapped in it. -/
inductive UserBuilt (k : ℕ) : ℕ→Machine→Prop
  | create {m m' : Machine} {r : ℕ} {full : Bool} {spaces : List ℕ} :
      Built k spaces m→createUserSpace k m=(r,full,m') → r≠0→UserBuilt k r m'
  | map {m : Machine} {r : ℕ} (virt phys flags : ℕ) : UserBuilt k r m→UserBuilt k r (mapPage r virt phys flags m).2

theorem UserBuilt.tables (h : UserBuilt k r m) : ∃level home,Tables m level home ∧ level r=some 3:=by
  induction h with
  | create hb he hr=>
    obtain ⟨level,home,ht,hk,-⟩:=hb.tables
    obtain ⟨level',hn⟩:=createUserSpace_spec ht hk
    rw [he] at hn
    obtain ⟨home',ht'⟩:=hn.tables
    exact ⟨level',home',ht',(hn.root hr).1⟩
  | map v p f _ ih=>
    obtain ⟨level,home,ht,hr⟩:=ih
    obtain ⟨level',home',ht',hkeep⟩:=mapPage_tables ht hr v p f
    exact ⟨level',home',ht',hkeep.level_eq hr⟩

/-- The addresses lie in different pages. A walk looks at the lower 48 bits. -/
def Apart (a v : ℕ) : Prop:=a/4096%2^36≠v/4096%2^36

instance (a v : ℕ) : Decidable (Apart a v):=inferInstanceAs (Decidable (_≠_))

theorem Apart.not_sameWalk (h : Apart a v) : ¬SameWalk a v:=by
  intro hw
  have h0:=hw 0 (by decide)
  have h1:=hw 1 (by decide)
  have h2:=hw 2 (by decide)
  have h3:=hw 3 (by decide)
  simp only [tableIdx,Apart] at h h0 h1 h2 h3
  omega

theorem openBelow_mono (hS : S⊆S') (h : openBelow S m v l t=true) : openBelow S' m v l t=true:=by
  have hopen {t i : ℕ} (h : isOpen S m t i=true) : isOpen S' m t i=true:=by
    rw [isOpen_iff] at h ⊢
    exact ⟨h.1,h.2.imp_right fun hp=>hS hp⟩
  induction l generalizing t with
  | zero=>exact hopen h
  | succ l ih=>
    simp only [openBelow,Bool.and_eq_true,Bool.or_eq_true] at h ⊢
    exact ⟨hopen h.1,h.2.imp_right ih⟩

/-- Mapping a user page leaves the access to the other pages alone exactly when none of them is closed
by nothing but the entries that it shares with the new page. -/
theorem mapPage_access_iff {virt phys flags : ℕ} (hb : UserBuilt k r m) (hf : flags&&&flagUser≠0) :
    (∀a,Apart a virt→userAccess r a (mapPage r virt phys flags m).2=userAccess r a m) ↔
    ∀a,Apart a virt → openBelow (walkEntries r virt m) m a 3 r=true→userAccess r a m=true:=by
  obtain ⟨level,home,ht,hr⟩:=hb.tables
  have hafter (a : ℕ) (ha : Apart a virt) :
      userAccess r a (mapPage r virt phys flags m).2=openBelow (walkEntries r virt m) m a 3 r:=by
    rw [userAccess,openBelow_eq,openBelow_eq,mapPage_access ht hr hf ha.not_sameWalk]
  refine forall_congr' fun a=>forall_congr' fun ha=>?_
  rw [hafter a ha]
  refine ⟨fun h ho=>h.symm.trans ho,fun h=>?_⟩
  cases ho : openBelow (walkEntries r virt m) m a 3 r with
  | true=>exact (h ho).symm
  | false=>
    refine (Bool.eq_false_iff.mpr fun hu=>?_).symm
    rw [openBelow_mono (List.nil_subset _) hu] at ho
    cases ho

/-- A machine with some free frames, after `vmm::init` and one `create_user_space`. -/
def userMachine (frames : List ℕ) : Machine:=
  match init ⟨fun _ _=>0,[],[0x1000,0x2000,0x3000,0x4000,0x5000,0x6000,0x7000,0x8000]++frames,[]⟩ with
  | none=>⟨fun _ _=>0,[],[],[]⟩
  | some (k,m)=>(createUserSpace k m).2.2

theorem userMachine_built (frames : List ℕ) : UserBuilt 0x1000 0x6000 (userMachine frames):=by
  have hb : Built 0x1000 [0x1000] _:=.init (show init ⟨fun _ _=>0,[],
    [0x1000,0x2000,0x3000,0x4000,0x5000,0x6000,0x7000,0x8000]++frames,[]⟩=some (0x1000,_) from rfl)
  exact .create hb rfl (by decide)

/-- A user page at 512 GiB, where nothing is mapped, opens nothing else. -/
theorem mapPage_access_high : (mapPage 0x6000 0x8000000000 0xC000 7 (userMachine [0x9000,0xA000,0xB000])).1=true ∧
    ∀a,Apart a 0x8000000000 →
    userAccess 0x6000 a (mapPage 0x6000 0x8000000000 0xC000 7 (userMachine [0x9000,0xA000,0xB000])).2 =
    userAccess 0x6000 a (userMachine [0x9000,0xA000,0xB000]):=by
  refine ⟨by decide,(mapPage_access_iff (userMachine_built _) (by decide)).mpr fun a _ ho=>?_⟩
  have hclosed : ∀i<512,isOpen (walkEntries 0x6000 0x8000000000 (userMachine [0x9000,0xA000,0xB000]))
      (userMachine [0x9000,0xA000,0xB000]) 0x6000 i=false:=by
    decide +kernel
  have hidx : tableIdx 3 a<512:=Nat.mod_lt _ (by decide)
  rw [openBelow,hclosed _ hidx] at ho
  cases ho

/-- A user page at 4 MiB opens the page of the kernel's identity map behind it, also when there is no
frame to split the huge page. -/
theorem user_page_opens_neighbour :
    (UserBuilt 0x1000 0x6000 (userMachine [0x9000]) ∧ userAccess 0x6000 0x401000 (userMachine [0x9000])=false ∧
    (mapPage 0x6000 0x400000 0xA000 7 (userMachine [0x9000])).1=true ∧
    userAccess 0x6000 0x401000 (mapPage 0x6000 0x400000 0xA000 7 (userMachine [0x9000])).2=true) ∧
    UserBuilt 0x1000 0x6000 (userMachine []) ∧ userAccess 0x6000 0x401000 (userMachine [])=false ∧
    (mapPage 0x6000 0x400000 0xA000 7 (userMachine [])).1=false ∧
    userAccess 0x6000 0x401000 (mapPage 0x6000 0x400000 0xA000 7 (userMachine [])).2=true:=
  ⟨⟨userMachine_built _,by decide,by decide,by decide⟩,userMachine_built _,by decide,by decide,by decide⟩

end Knail.PageTables
