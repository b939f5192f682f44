import Knail.DescriptorCopies

/-!
# `dup2` as one step

The caller of `dup2` expects all or nothing. The handler takes the old descriptor out of its slot first and drops it,
narrows `newfd` to 32 bits behind the check of its range, and does not look at the table if both numbers are equal.
-/
namespace Knail.Descriptors

open Vfs Option Function

variable {w : World} {t f c oldfd newfd : ℕ} {tab : FDTable} {copy : Option ℕ} {lost : List ℕ}

namespace FDTable

def IsOpen (tab : FDTable) (fd : ℕ) : Prop:=fd < maxFds ∧ (tab.fds fd).isSome

instance (tab : FDTable) (fd : ℕ) : Decidable (tab.IsOpen fd):=inferInstanceAs (Decidable (_ ∧ _))

theorem lookup_cases (tab : FDTable) (fd : ℕ) :
    (∃f,tab.lookup fd = .ok f ∧ fd < maxFds ∧ tab.fds fd=some f) ∨ tab.lookup fd = .error .badFileDescriptor ∧ ¬tab.IsOpen fd:=by
  unfold lookup IsOpen
  by_cases h : maxFds≤fd
  · exact .inr ⟨if_pos h,by omega⟩
  rw [if_neg h]
  cases hf : tab.fds fd with
  | none=>exact .inr ⟨rfl,by simp⟩
  | some f=>exact .inl ⟨f,rfl,by omega,rfl⟩

theorem remove_cases (tab : FDTable) (fd : ℕ) :
    (∃f tab',tab.remove fd = .ok (f,tab') ∧ fd < maxFds ∧ tab.fds fd=some f ∧ tab'.fds=update tab.fds fd none) ∨
    tab.remove fd = .error .badFileDescriptor ∧ ¬tab.IsOpen fd:=by
  unfold remove IsOpen
  by_cases h : maxFds≤fd
  · exact .inr ⟨if_pos h,by omega⟩
  rw [if_neg h]
  cases hf : tab.fds fd with
  | none=>exact .inr ⟨rfl,by simp⟩
  | some f=>exact .inl ⟨f,_,rfl,by omega,rfl,rfl⟩

theorem installAt_toI32 (h : u32 newfd < maxFds) (hn : tab.fds (u32 newfd)=none) :
    tab.installAt c (toI32 newfd) = .ok (u32 newfd,tab.put (u32 newfd) c):=by
  have hi : toI32 newfd=u32 newfd:=if_pos (by simp only [maxFds] at h; omega)
  rw [hi,installAt,if_neg (by omega),Int.toNat_natCast,if_neg (by omega),hn]
  rfl

theorem installAt_toI32_refused (h : maxFds≤u32 newfd ∨ (tab.fds (u32 newfd)).isSome) :
    ∃e,tab.installAt c (toI32 newfd) = .error e:=by
  have hlt : u32 newfd<4294967296:=Nat.mod_lt _ (by decide)
  by_cases hneg : u32 newfd<2147483648
  · have hi : toI32 newfd=u32 newfd:=if_pos hneg
    rw [hi,installAt,if_neg (by omega),Int.toNat_natCast]
    by_cases hmax : maxFds≤u32 newfd
    · exact ⟨_,if_pos hmax⟩
    · rw [if_neg hmax,if_pos (h.resolve_left hmax)]
      exact ⟨_,rfl⟩
  · have hi : toI32 newfd=u32 newfd-4294967296:=if_neg hneg
    rw [hi,installAt,if_pos (by omega)]
    exact ⟨_,rfl⟩

end FDTable

theorem Balanced.dup_close {s : Store} {held : List ℕ} (h : Balanced s held) (hm : Supply s [some c]) (hf : f∈held) :
    ∃s' d,s.dup f (some c)=(.ok c,s') ∧ s.files f=some d ∧ s'.files=update s.files c (some d) ∧
    s'.close (some c)=s:=by
  obtain ⟨d,hd,-⟩:=h.refers f hf
  have hnone : s.files c=none:=isNone_iff_eq_none.mp (hm.2 c (by simp)).1
  obtain ⟨s',hs',hcopies⟩:=(WithCopies.refl s held).dup h hf hnone
  have hb:=h.dup hm hf
  rw [hs'] at hb
  refine ⟨s',d,hs',hd,?_,hcopies.closeAll h hb.1⟩
  simp only [Store.dup,hd,Prod.mk.injEq] at hs'
  rw [←hs'.2]

theorem WellCounted.dupInto_cases (h : WellCounted lost w) (ht : w.fdTable t=some tab) (hf : f∈tab.entries)
    (hm : Supply w.store [copy]) (newfd : ℕ) : w.dupInto t tab f newfd copy=(eNospace,w) ∧
    (copy=none ∨ maxFds≤u32 newfd ∨ (tab.fds (u32 newfd)).isSome) ∨
    ∃c s d,copy=some c ∧ u32 newfd < maxFds ∧ tab.fds (u32 newfd)=none ∧ w.store.files f=some d ∧
    s.files=update w.store.files c (some d) ∧
    w.dupInto t tab f newfd copy=((u32 newfd : ℤ),(w.setStore s).setTable t (tab.put (u32 newfd) c)):=by
  have hb:=h.split ht
  have hmem : f∈tab.entries++w.others lost t:=List.mem_append_left _ hf
  cases copy with
  | none=>
    obtain ⟨d,hd,-⟩:=hb.refers f hmem
    exact .inl ⟨by simp only [World.dupInto,Store.dup,hd]; rfl,.inl rfl⟩
  | some c=>
    obtain ⟨s,d,hdup,hd,hfiles,hclose⟩:=hb.dup_close hm hmem
    by_cases hslot : u32 newfd < maxFds ∧ tab.fds (u32 newfd)=none
    · refine .inr ⟨c,s,d,rfl,hslot.1,hslot.2,hd,hfiles,?_⟩
      simp only [World.dupInto,hdup,FDTable.installAt_toI32 hslot.1 hslot.2]
    have hrefused : maxFds≤u32 newfd ∨ (tab.fds (u32 newfd)).isSome:=by
      rw [←not_isSome_iff_eq_none] at hslot
      grind
    obtain ⟨e,he⟩:=FDTable.installAt_toI32_refused (c:=c) hrefused
    refine .inl ⟨?_,.inr hrefused⟩
    simp only [World.dupInto,hdup,he,hclose]
    rfl

/-- `newfd` refers to a new descriptor for the vnode of `oldfd`, what it referred to is closed, and no
other slot has changed. -/
structure Replaced (w w' : World) (t oldfd newfd : ℕ) : Prop where
  copied : ∃f d c d',(w.table t).fds oldfd=some f ∧ w.store.files f=some d ∧ (w'.table t).fds newfd=some c ∧
    w.store.files c=none ∧ w'.store.files c=some d' ∧ d'.node=d.node
  closed : ∀e,(w.table t).fds newfd=some e→w'.store.files e=none
  slots : ∀i≠newfd,(w'.table t).fds i=(w.table t).fds i
  tables : ∀u≠t,w'.table u=w.table u

def Store.refcount (s : Store) (n : ℕ) : Option ℕ:=(s.nodes n).map (·.vnode.refcount)

/-- All or nothing, from the result of the call and the state after it. -/
def AtomicDup2 (w : World) (t oldfd newfd : ℕ) (res : ℤ×World) : Prop:=
  (res.1=newfd ∧ (Replaced w res.2 t oldfd newfd ∨ oldfd=newfd ∧ (w.table t).IsOpen newfd ∧ res.2=w) ∨
    res.1<0 ∧ res.2.table=w.table ∧ ∀n,res.2.store.refcount n=w.store.refcount n) ∧
  (¬(w.table t).IsOpen oldfd ∨ maxFds≤newfd → res.1<0)

/-- What has to be so of the table for that. Equal numbers have to be open, or be negative as a result;
otherwise `newfd` has to be closed, and if it is out of range it must not be narrowed into an
empty slot. -/
def FDTable.CanDup2 (tab : FDTable) (oldfd newfd : ℕ) (copy : Option ℕ) : Prop:=
  if oldfd=newfd then tab.IsOpen newfd ∨ 9223372036854775808≤newfd
  else ¬tab.IsOpen oldfd ∨ ¬tab.IsOpen newfd ∧
    (newfd < maxFds ∨ copy=none ∨ maxFds≤u32 newfd ∨ (tab.fds (u32 newfd)).isSome)

theorem atomicDup2_of_error {e : ℤ} (he : e<0) : AtomicDup2 w t oldfd newfd (e,w):=
  ⟨.inr ⟨he,rfl,fun _=>rfl⟩,fun _=>he⟩

theorem atomicDup2_same_iff (hlt : newfd<18446744073709551616) :
    AtomicDup2 w t newfd newfd (toI64 newfd,w)↔(w.table t).IsOpen newfd ∨ 9223372036854775808≤newfd:=by
  have hu : u64 newfd=newfd:=Nat.mod_eq_of_lt hlt
  by_cases hneg : 9223372036854775808≤newfd
  · have hi : toI64 newfd<0:=by
      rw [toI64,hu,if_neg (by omega)]
      omega
    exact ⟨fun _=>.inr hneg,fun _=>atomicDup2_of_error hi⟩
  · have hi : toI64 newfd=newfd:=by
      rw [toI64,hu,if_pos (by omega)]
    rw [hi]
    constructor
    · intro ha
      by_contra hc
      have hneg' : (newfd : ℤ)<0:=ha.2 (.inl fun ho=>hc (.inl ho))
      omega
    · intro hc
      have ho:=hc.resolve_right hneg
      exact ⟨.inl ⟨rfl,.inr ⟨rfl,ho,rfl⟩⟩,fun hbad=>absurd hbad (by have:=ho.1; grind)⟩

/-- Nothing is closed for a descriptor that is replaced, and an error does not bring it back. -/
theorem not_atomicDup2_of_open (h : WellCounted lost w) (ht : w.fdTable t=some tab) (hm : Supply w.store [copy])
    (hl : tab.lookup oldfd = .ok f) (ho : tab.IsOpen newfd) (hne : oldfd≠newfd) :
    ¬AtomicDup2 w t oldfd newfd (w.handleDup2 t oldfd newfd copy):=by
  obtain ⟨htask,htab⟩:=World.fdTable_eq_some ht
  rcases tab.remove_cases newfd with ⟨g,tab',hr,hmax,hg,hfds⟩ | ⟨-,hclosed⟩
  case inr => exact absurd ho hclosed
  have hsplit : w.handleDup2 t oldfd newfd copy=(w.setTable t tab').dupInto t tab' f newfd copy:=by
    simp only [World.handleDup2,ht,if_neg hne,hl,hr]
    rfl
  have hw:=h.lose ht (FDTable.entries_remove hr)
  have ht' : (w.setTable t tab').fdTable t=some tab':=by
    simp [World.fdTable,World.setTable,htask]
  have hf : f∈tab'.entries:=by
    obtain ⟨hold,hf⟩:=FDTable.lookup_ok hl
    refine mem_filled.mpr ⟨oldfd,hold,?_⟩
    rw [hfds,update_of_ne hne,hf]
  have hslot : (w.table t).fds newfd=some g:=htab▸hg
  rintro ⟨hres,-⟩
  rw [hsplit] at hres
  rcases hw.dupInto_cases ht' hf hm newfd with ⟨hd,-⟩ | ⟨c,s,d,rfl,-,-,-,hfiles,hd⟩
  · rw [hd] at hres
    rcases hres with ⟨hnew,-⟩ | ⟨-,htable,-⟩
    · simp only [eNospace] at hnew
      omega
    · have hslot':=congrArg (fun table : ℕ→FDTable=>(table t).fds newfd) htable
      simp [World.setTable,hfds,hslot] at hslot'
  · rw [hd] at hres
    rcases hres with ⟨-,hrep | ⟨heq,-⟩⟩ | ⟨hneg,-⟩
    · have hnone : s.files g=none:=hrep.closed g hslot
      have hfresh : w.store.files c=none:=isNone_iff_eq_none.mp (hm.2 c (by simp)).1
      obtain ⟨e,he,-⟩:=(h.split ht).refers g (List.mem_append_left _ (mem_filled.mpr ⟨newfd,hmax,hg⟩))
      have hgc : g≠c:=by
        rintro rfl
        simp [he] at hfresh
      rw [hfiles,update_of_ne hgc] at hnone
      simp [World.setTable,he] at hnone
    · exact hne heq
    · omega

/-- A number out of the range of the table, or that of an empty slot. -/
theorem atomicDup2_iff_of_closed (h : WellCounted lost w) (ht : w.fdTable t=some tab) (hm : Supply w.store [copy])
    (hl : tab.lookup oldfd = .ok f) (ho : ¬tab.IsOpen newfd) (hne : oldfd≠newfd) :
    AtomicDup2 w t oldfd newfd (w.handleDup2 t oldfd newfd copy) ↔
    newfd < maxFds ∨ copy=none ∨ maxFds≤u32 newfd ∨ (tab.fds (u32 newfd)).isSome:=by
  obtain ⟨htask,htab⟩:=World.fdTable_eq_some ht
  obtain ⟨hold,hf⟩:=FDTable.lookup_ok hl
  rcases tab.remove_cases newfd with ⟨g,-,-,hmax,hg,-⟩ | ⟨hr,-⟩
  case inl => exact absurd ⟨hmax,by simp [hg]⟩ ho
  have hsplit : w.handleDup2 t oldfd newfd copy=w.dupInto t tab f newfd copy:=by
    simp only [World.handleDup2,ht,if_neg hne,hl,hr]
  rw [hsplit]
  rcases h.dupInto_cases ht (FDTable.mem_of_lookup hl) hm newfd with
    ⟨hd,hcase⟩ | ⟨c,s,d,rfl,hlt,hnone,hd,hfiles,hres⟩
  · rw [hd]
    exact ⟨fun _=>.inr hcase,fun _=>atomicDup2_of_error (by decide)⟩
  rw [hres]
  have hright : ¬(some c=none ∨ maxFds≤u32 newfd ∨ (tab.fds (u32 newfd)).isSome):=by
    simp [hnone,hlt]
  constructor
  · intro ha
    by_contra hbad
    have hneg : (u32 newfd : ℤ)<0:=ha.2 (.inr (by grind))
    omega
  · intro hcase
    have hmax : newfd < maxFds:=hcase.resolve_right hright
    have hu : u32 newfd=newfd:=Nat.mod_eq_of_lt (by simp only [maxFds] at hmax; omega)
    rw [hu] at hnone ⊢
    refine ⟨.inl ⟨rfl,.inl ?_⟩,fun hbad=>?_⟩
    · constructor
      case copied =>
        exact ⟨f,d,c,d,htab▸hf,hd,by simp [World.setTable,FDTable.put],
          isNone_iff_eq_none.mp (hm.2 c (by simp)).1,by simp [World.setTable,World.setStore,hfiles],rfl⟩
      case closed =>
        intro e he
        simp [htab,hnone] at he
      case slots =>
        intro i hi
        simp [World.setTable,FDTable.put,htab,hi]
      case tables =>
        intro u hu
        simp [World.setTable,World.setStore,hu]
    · have hopen : (w.table t).IsOpen oldfd:=⟨hold,by simp [htab,hf]⟩
      grind

/-- The handler is one step exactly from the tables that allow it. -/
theorem dup2_atomic_iff (h : WellCounted lost w) (hm : Supply w.store [copy]) (hlt : newfd<18446744073709551616) :
    AtomicDup2 w t oldfd newfd (w.handleDup2 t oldfd newfd copy) ↔
    (t∈w.tasks→(w.table t).CanDup2 oldfd newfd copy):=by
  by_cases ht : t∈w.tasks
  · have htab : w.fdTable t=some (w.table t):=if_pos ht
    simp only [ht,true_imp_iff,FDTable.CanDup2]
    by_cases hne : oldfd=newfd
    · subst hne
      rw [if_pos rfl,World.handleDup2,htab]
      simpa using atomicDup2_same_iff hlt
    rw [if_neg hne]
    rcases (w.table t).lookup_cases oldfd with ⟨f,hl,hold⟩ | ⟨hl,hclosed⟩
    · have hopen : (w.table t).IsOpen oldfd:=⟨hold.1,by simp [hold.2]⟩
      by_cases ho : (w.table t).IsOpen newfd
      · simp [not_atomicDup2_of_open h htab hm hl ho hne,hopen,ho]
      · simp [atomicDup2_iff_of_closed h htab hm hl ho hne,hopen,ho]
    · have herror : w.handleDup2 t oldfd newfd copy=(eBadf,w):=by
        simp [World.handleDup2,htab,hne,hl]
      simp only [herror,hclosed,not_false_eq_true,true_or,iff_true]
      exact atomicDup2_of_error (by decide)
  · have herror : w.handleDup2 t oldfd newfd copy=(eBadf,w):=by
      simp [World.handleDup2,World.fdTable,ht]
    simp only [herror,ht,false_imp_iff,iff_true]
    exact atomicDup2_of_error (by decide)

theorem exists_wellCounted (hr : Reach Booted step Op.Valid w) : ∃lost,WellCounted lost w:=by
  refine hr.invariant (I:=fun w=>∃lost,WellCounted lost w) (fun w0 h0=>⟨[],h0.wellCounted⟩) ?_
  rintro w1 w2 op ⟨lost,h⟩ hv hs
  obtain ⟨lost',h',-⟩:=h.step hv hs
  exact ⟨lost',h'⟩

/-- A file is open as 3 and 4, and 5 is closed: 3 can be copied to 5. -/
theorem dup2_atomic_closed : ∃w,Reach Booted step Op.Valid w ∧ w.tasks=[7] ∧
    AtomicDup2 w 7 3 5 (w.handleDup2 7 3 5 (fileAt 6)):=by
  have h₀ : Reach Booted step Op.Valid bootedWorld:=.start bootedWorld_booted
  obtain ⟨w,hw,⟨htasks,hm⟩,hc⟩:=h₀.exists_replay opened
    (fun w=>(w.tasks=[7] ∧ Supply w.store [fileAt 6]) ∧
      (w.table 7).fds 5=none) (by decide +kernel)
  obtain ⟨lost,h⟩:=exists_wellCounted hw
  refine ⟨w,hw,htasks,(dup2_atomic_iff h hm (by decide)).2 fun _=>?_⟩
  exact .inr ⟨fun ho=>by simp [FDTable.IsOpen,hc] at ho,.inl (by decide)⟩

/-- A file is open as 3 and 4. Copying 3 to 4 leaves the old descriptor of 4 open without a slot, 9 is copied
to itself although it is closed, and a number beyond 32 bits is installed as 5. -/
theorem dup2_not_atomic : ∃w,Reach Booted step Op.Valid w ∧ Supply w.store [fileAt 6] ∧
    ¬AtomicDup2 w 7 3 4 (w.handleDup2 7 3 4 (fileAt 6)) ∧ ¬AtomicDup2 w 7 9 9 (w.handleDup2 7 9 9 (fileAt 6)) ∧
    ¬AtomicDup2 w 7 3 4294967301 (w.handleDup2 7 3 4294967301 (fileAt 6)):=by
  have h₀ : Reach Booted step Op.Valid bootedWorld:=.start bootedWorld_booted
  obtain ⟨w,hw,hm,htask,h₃,h₄,h₉,h₅⟩:=h₀.exists_replay opened
    (fun w=>Supply w.store [fileAt 6] ∧ 7∈w.tasks ∧ (w.table 7).fds 3=fileAt 4 ∧ (w.table 7).IsOpen 4 ∧
      ¬(w.table 7).IsOpen 9 ∧ (w.table 7).fds 5=none) (by decide +kernel)
  obtain ⟨lost,h⟩:=exists_wellCounted hw
  have ht : w.fdTable 7=some (w.table 7):=if_pos htask
  have hl : (w.table 7).lookup 3 = .ok (KernelHeap.heapStart+64*4):=by
    simp [FDTable.lookup,maxFds,h₃,fileAt]
  refine ⟨w,hw,hm,not_atomicDup2_of_open h ht hm hl h₄ (by decide),?_,?_⟩
  · have hsame : w.handleDup2 7 9 9 (fileAt 6)=(toI64 9,w):=by
      simp [World.handleDup2,ht]
    rw [hsame,atomicDup2_same_iff (by decide)]
    simpa using h₉
  · have hclosed : ¬(w.table 7).IsOpen 4294967301:=fun ho=>absurd ho.1 (by decide)
    rw [atomicDup2_iff_of_closed h ht hm hl hclosed (by decide)]
    simp [maxFds,fileAt,u32,h₅]

end Knail.Descriptors
