import Knail.UpperHalf

/-!
# The frames of a space under construction

From the creation of a space on, every frame in use was in use before, was handed out for a page or taken by the heap,
or is a table of the space. The tables hang below the lower half of the PML4, so `destroy_user_space` finds them all.
-/
namespace Knail.PageTables

open List Option

variable {m m' m₀ : Machine} {level level' owner owner' : ℕ→Option ℕ} {home : ℕ→Option ℕ×ℕ}
  {P Q taken : ℕ→Prop} {t i f k r u v : ℕ} {full : Bool} {l n j : ℕ}

/-- The frames of the given kind were freed, and nothing else happened. -/
structure Releases (P : ℕ→Prop) (m m' : Machine) : Prop where
  mem : m'.mem=m.mem
  used : ∀u,u∈m'.used↔u∈m.used ∧ ¬P u

/-- The calls `free_frame(f)` for the frames of a list, in turn. -/
def freeFrames (fs : List ℕ) (m : Machine) : Machine:=fs.foldl (fun m f=>freeFrame f m) m

theorem freeFrames_append (fs gs : List ℕ) (m : Machine) : freeFrames (fs++gs) m=freeFrames gs (freeFrames fs m):=
  foldl_append ..

theorem freeFrames_mem (fs : List ℕ) (m : Machine) : (freeFrames fs m).mem=m.mem:=by
  induction fs generalizing m with
  | nil=>rfl
  | cons f fs ih=>exact ih (freeFrame f m)

theorem freeFrames_used (fs : List ℕ) (m : Machine) : u∈(freeFrames fs m).used↔u∈m.used ∧ u∉fs:=by
  induction fs generalizing m with
  | nil=>simp [freeFrames]
  | cons f fs ih=>
    have hf : u∈(freeFrame f m).used↔u∈m.used ∧ u≠f:=by simp [freeFrame]
    have hi:=ih (freeFrame f m)
    rw [hf,and_assoc] at hi
    simpa [freeFrames] using hi

/-- The step consists of freeing the frames of the given kind, each of them once. -/
def FreesOnce (P : ℕ→Prop) (m m' : Machine) : Prop:=
  ∃fs : List ℕ,fs.Nodup ∧ (∀u,u∈fs↔P u) ∧ m'=freeFrames fs m

namespace FreesOnce

theorem refl (m : Machine) : FreesOnce (fun _=>False) m m:=⟨[],nodup_nil,by simp,rfl⟩

theorem congr (h : FreesOnce P m m') (hPQ : ∀u,P u↔Q u) : FreesOnce Q m m':=by
  obtain ⟨fs,hn,hfs,hm⟩:=h
  exact ⟨fs,hn,fun u=>(hfs u).trans (hPQ u),hm⟩

theorem mem (h : FreesOnce P m m') : m'.mem=m.mem:=by
  obtain ⟨fs,-,-,rfl⟩:=h
  exact freeFrames_mem fs m

theorem trans {m'' : Machine} (h : FreesOnce P m m') (h' : FreesOnce Q m' m'') (hPQ : ∀u,P u→¬Q u) :
    FreesOnce (fun u=>P u ∨ Q u) m m'':=by
  obtain ⟨fs,hn,hfs,rfl⟩:=h
  obtain ⟨gs,hn',hgs,rfl⟩:=h'
  refine ⟨fs++gs,nodup_append.mpr ⟨hn,hn',?_⟩,fun u=>by simp [hfs,hgs],(freeFrames_append ..).symm⟩
  rintro u hu v hv rfl
  exact hPQ u ((hfs u).mp hu) ((hgs u).mp hv)

theorem freeFrame (f : ℕ) (m : Machine) : FreesOnce (· = f) m (freeFrame f m):=
  ⟨[f],by simp,by simp,rfl⟩

theorem foldl {step : Machine→ℕ→Machine} {P : ℕ→ℕ→Prop} {xs : List ℕ} (hxs : xs.Nodup) (m : Machine)
    (hstep : ∀m',m'.mem=m.mem→∀x,FreesOnce (P x) m' (step m' x)) (hP : ∀{x y u},P x u→P y u→x=y) :
    FreesOnce (fun u=>∃x∈xs,P x u) m (xs.foldl step m):=by
  induction xs generalizing m with
  | nil=>exact (refl m).congr (by simp)
  | cons x xs ih=>
    obtain ⟨hx,hxs⟩:=nodup_cons.mp hxs
    have h1:=hstep m rfl x
    have h2:=ih hxs (step m x) fun m' hm'=>hstep m' (hm'.trans h1.mem)
    refine (h1.trans h2 ?_).congr fun u=>by simp
    rintro u hu ⟨y,hy,hu'⟩
    exact hx (hP hu hu'▸hy)

theorem releases (h : FreesOnce P m m') : Releases P m m':=by
  obtain ⟨fs,-,hfs,rfl⟩:=h
  exact ⟨freeFrames_mem fs m,fun u=>by rw [freeFrames_used,hfs]⟩

end FreesOnce

/-- The table `u` is found below the table `t` of the given level, in a PML4 below its lower half. -/
def Hangs (m : Machine) : ℕ→ℕ→ℕ→Prop
  | 0, _, _=>False
  | l+1, t, u=>∃i < if l=2 then 256 else 512,∃v,slots m (l+1) t i = .table v ∧ (u=v ∨ Hangs m l v u)

theorem Hangs.level_lt (h : Hangs m l t u) (ht : Tables m level home) (htl : level t=some l) :
    ∃j<l,level u=some j:=by
  induction l generalizing t with
  | zero=>exact absurd h id
  | succ l ih=>
    obtain ⟨i,-,v,hv,hu⟩:=h
    have hvl:=(ht.forest.child htl hv).1
    rcases hu with rfl | hu
    · exact ⟨l,Nat.lt_succ_self l,hvl⟩
    · obtain ⟨j,hj,hul⟩:=ih hu hvl
      exact ⟨j,Nat.lt_succ_of_lt hj,hul⟩

theorem Hangs.ne (h : Hangs m l t u) (ht : Tables m level home) (htl : level t=some l) : u≠t:=by
  rintro rfl
  obtain ⟨j,hj,hul⟩:=h.level_lt ht htl
  rw [htl,Option.some.injEq] at hul
  omega

section

variable (ht : Tables m level home)
include ht

theorem Tables.eq_of_hangs {v' : ℕ} (hl : l<3) (hv : level v=some l)
    (hv' : level v'=some l) (hu : u=v ∨ Hangs m l v u) (hu' : u=v' ∨ Hangs m l v' u) : v=v':=by
  induction l generalizing v v' with
  | zero=>exact (hu.resolve_right id).symm.trans (hu'.resolve_right id)
  | succ l ih=>
    rcases hu with rfl | hu <;> rcases hu' with rfl | hu'
    · rfl
    · obtain ⟨j,hj,hul⟩:=hu'.level_lt ht hv'
      rw [hv,Option.some.injEq] at hul
      omega
    · obtain ⟨j,hj,hul⟩:=hu.level_lt ht hv
      rw [hv',Option.some.injEq] at hul
      omega
    · obtain ⟨i,-,w,hw,hu⟩:=hu
      obtain ⟨i',-,w',hw',hu'⟩:=hu'
      obtain ⟨hwl,hwh⟩:=ht.forest.child hv hw
      obtain ⟨hwl',hwh'⟩:=ht.forest.child hv' hw'
      -- the tables below are the same one, and it has one home
      obtain rfl:=ih (by omega) hwl hwl' hu hu'
      have hne : l+1≠3:=by omega
      rw [hwh,if_neg hne,if_neg hne,Prod.mk.injEq] at hwh'
      exact some.inj hwh'.1

/-- A loop over the entries of a table that frees the tables below it. -/
theorem Tables.freesOnce (hl : l<3) (skip : ℕ→Prop) [DecidablePred skip]
    (sub : ℕ→Machine→Machine) (htl : level t=some (l+1))
    (hskip : ∀i,¬skip (m.mem t i)↔∃v,slots m (l+1) t i = .table v)
    (hsub : ∀{v m'},level v=some l→m'.mem=m.mem→FreesOnce (Hangs m l v) m' (sub v m')) (hm : m'.mem=m.mem) :
    FreesOnce (fun u=>∃i<n,∃v,slots m (l+1) t i = .table v ∧ (u=v ∨ Hangs m l v u)) m'
    ((List.range n).foldl (fun m i=>
    if skip (m.mem t i) then m else freeFrame (entryBase (m.mem t i)) (sub (entryBase (m.mem t i)) m)) m'):=by
  have hturn (m1 : Machine) (hm1 : m1.mem=m'.mem) (i : ℕ) :
      FreesOnce (fun u=>∃v,slots m (l+1) t i = .table v ∧ (u=v ∨ Hangs m l v u)) m1
        (if skip (m1.mem t i) then m1 else freeFrame (entryBase (m1.mem t i)) (sub (entryBase (m1.mem t i)) m1)):=by
    rw [hm1,hm]
    by_cases hs : skip (m.mem t i)
    · rw [if_pos hs]
      refine (FreesOnce.refl m1).congr fun u=>?_
      simp only [false_iff]
      rintro ⟨v,hv,-⟩
      exact (hskip i).mpr ⟨v,hv⟩ hs
    · rw [if_neg hs]
      obtain ⟨v,hv⟩:=(hskip i).mp hs
      have hvl:=(ht.forest.child htl hv).1
      rw [ht.plain htl hv]
      refine ((hsub hvl (hm1.trans hm)).trans (.freeFrame v _) fun u hu=>hu.ne ht hvl).congr fun u=>?_
      simp [hv,or_comm]
  have hapart {i j u : ℕ} (hi : ∃v,slots m (l+1) t i = .table v ∧ (u=v ∨ Hangs m l v u))
      (hj : ∃v,slots m (l+1) t j = .table v ∧ (u=v ∨ Hangs m l v u)) : i=j:=by
    obtain ⟨v,hv,hu⟩:=hi
    obtain ⟨v',hv',hu'⟩:=hj
    obtain ⟨hvl,hvh⟩:=ht.forest.child htl hv
    obtain ⟨hvl',hvh'⟩:=ht.forest.child htl hv'
    obtain rfl:=ht.eq_of_hangs hl hvl hvl' hu hu'
    rw [hvh] at hvh'
    exact congrArg Prod.snd hvh'
  refine (FreesOnce.foldl nodup_range m' hturn hapart).congr fun u=>?_
  simp

theorem Tables.freesOnce_freePd (htl : level t=some 1) (hm : m'.mem=m.mem) :
    FreesOnce (Hangs m 1 t) m' (freePd t m'):=by
  refine ht.freesOnce (by decide) (fun e=>e&&&flagPresent=0 ∨ e&&&flagHuge≠0) (fun _ m=>m) htl
    (fun i=>?_) (fun _ _=>(FreesOnce.refl _)) hm
  simp only [slots,decode]
  split <;> rename_i hp
  · simp [hp]
  · by_cases hh : m.mem t i&&&flagHuge=0 <;> simp [hp,hh]

theorem Tables.freesOnce_freePdpt (htl : level t=some 2) (hm : m'.mem=m.mem) :
    FreesOnce (Hangs m 2 t) m' (freePdpt t m'):=by
  refine ht.freesOnce (by decide) (fun e=>e&&&flagPresent=0 ∨ e&&&flagHuge≠0) freePd htl
    (fun i=>?_) ht.freesOnce_freePd hm
  simp only [slots,decode]
  split <;> rename_i hp
  · simp [hp]
  · simp [hp,ht.flat htl hp]

theorem Tables.freesOnce_destroy (hr : level r=some 3) :
    FreesOnce (fun u=>u=r ∨ Hangs m 3 r u) m (destroyUserSpace r m):=by
  have hloop:=ht.freesOnce (n:=256) (by decide) (fun e=>e&&&flagPresent=0) freePdpt hr
    (fun i=>by simp only [slots,decode]; split <;> rename_i hp <;> simp [hp]) ht.freesOnce_freePdpt rfl
  unfold destroyUserSpace
  rw [if_neg (ht.frame hr).1]
  refine (FreesOnce.trans hloop (.freeFrame r _) fun u hu=>?_).congr fun u=>or_comm
  exact Hangs.ne (l:=3) hu ht hr

theorem Tables.releases_destroy (hr : level r=some 3) :
    Releases (fun u=>u=r ∨ Hangs m 3 r u) m (destroyUserSpace r m):=
  (ht.freesOnce_destroy hr).releases

end

/-- What is known of a space with the PML4 `r`, created in the state `m₀`. -/
structure Ledger (k : ℕ) (m₀ : Machine) (r : ℕ) (m : Machine) (level owner : ℕ→Option ℕ) (taken : ℕ→Prop) :
    Prop where
  isolated : Isolated k m₀ (rootOnly k) [r] m level owner
  /-- A table of the space is linked from another one, a PDPT from the lower half of the PML4. -/
  linked : ∀{u l},level u=some l → owner u=some r→u≠r →
    l=2 ∧ (∃i<256,slots m 3 r i = .table u) ∨
      l<2 ∧ ∃t i,owner t=some r ∧ level t=some (l+1) ∧ i<512 ∧ slots m (l+1) t i = .table u
  old : ∀u∈m₀.used,u∈m.used ∧ (owner u=some r→level u=none)
  new : ∀u∈m.used,u∈m₀.used ∨ taken u ∨ owner u=some r ∧ (level u).isSome

theorem getOrCreate_used (t i f : ℕ) (m : Machine) : (getOrCreate t i f m).2.used=m.used ∨
    (getOrCreate t i f m).1≠0 ∧ (getOrCreate t i f m).2.used=(getOrCreate t i f m).1::m.used:=by
  unfold getOrCreate
  split
  · dsimp only
    split
    · unfold splitHuge
      dsimp only
      rcases allocTable_spec (withUser t i f m) with ⟨h0,-,hused⟩ | ⟨hc,-,-,hused⟩
      · rw [if_pos h0]
        exact .inl (hused.trans (withUser_used ..))
      rw [if_neg hc.1]
      have hflags : TableFlags (if f&&&flagUser≠0 then flagPresent|||flagWrite|||flagUser
          else flagPresent|||flagWrite):=tableFlags_spec f
      rw [mem_write_self,Function.update_self,(entry_table hc hflags).1]
      exact .inr ⟨hc.1,hused.trans (congrArg _ (withUser_used ..))⟩
    · exact .inl (withUser_used ..)
  · dsimp only
    rcases allocTable_spec m with ⟨h0,-,hused⟩ | ⟨hc,-,-,hused⟩
    · rw [if_pos h0]
      exact .inl hused
    · rw [if_neg hc.1]
      exact .inr ⟨hc.1,hused⟩

theorem getOrCreate_slots (ht : Tables m level home) (htl : level t=some (j+1)) (hf : TableFlags f)
    (hv : level v=some (l+1)) (hs : slots m (l+1) v n = .table u) :
    slots (getOrCreate t i f m).2 (l+1) v n = .table u:=by
  obtain ⟨level',home',c⟩:=getOrCreate_spec ht htl hf i
  by_cases hvt : v=t
  · subst hvt
    by_cases hn : n=i
    · subst hn
      obtain ⟨hp,-⟩:=of_decode_table hs
      have hh : m.mem v n&&&flagHuge=0:=by
        by_contra hh
        rcases Nat.eq_zero_or_pos l with rfl | hl
        · simp [slots,decode,hp,hh] at hs
        · obtain ⟨l,rfl⟩:=Nat.exists_eq_succ_of_ne_zero hl.ne'
          exact hh (ht.flat hv hp)
      rw [getOrCreate_linked hp hh,(withUser_spec ht v n f).2.2.2.2.2.2]
      exact hs
    · rw [slots,c.entries n hn]
      exact hs
  · rw [slots,c.other v (ht.used hv) hvt]
    exact hs

namespace Ledger

section

variable (h : Ledger k m₀ r m level owner taken)
include h

theorem mono {taken' : ℕ→Prop} (ht : ∀u,taken u→taken' u) : Ledger k m₀ r m level owner taken':=
  ⟨h.isolated,h.linked,h.old,fun u hu=>(h.new u hu).imp_right (Or.imp_left (ht u))⟩

theorem root : level r=some 3 ∧ owner r=some r:=
  h.isolated.roots r mem_cons_self

/-- A table is looked up or made for the space. -/
theorem getOrCreate (htl : level t=some (j+1))
    (hto : owner t=some r) (hj : j=2 ∧ t=r ∧ i<256 ∨ j<2 ∧ i<512) (hf : TableFlags f)
    (hchild : ∀u,slots m (j+1) t i = .table u → owner u=some r) :
    ∃level' owner',Ledger k m₀ r (getOrCreate t i f m).2 level' owner' taken ∧
    Keeps m (getOrCreate t i f m).2 level level' ∧
    ((getOrCreate t i f m).1≠0→level' (getOrCreate t i f m).1=some j ∧ owner' (getOrCreate t i f m).1=some r):=by
  obtain ⟨home,ht⟩:=h.isolated.tables
  obtain ⟨level1,home1,c⟩:=getOrCreate_spec ht htl hf i
  have hslots {v l n u : ℕ} (hv : level v=some (l+1)) (hs : slots m (l+1) v n = .table u) :
      slots (PageTables.getOrCreate t i f m).2 (l+1) v n = .table u:=getOrCreate_slots ht htl hf hv hs
  have hused:=getOrCreate_used t i f m
  obtain ⟨level',hi',hkeep,hnew⟩:=h.isolated.getOrCreate_owned (claimed level owner r) (rootOnly_self k) htl
    (h.isolated.kernel_ne hto) hf (hto▸hchild) claimed_of_some fun hl=>(claimed_of_none hl).trans hto.symm
  rw [hto] at hnew
  obtain ⟨home',ht'⟩:=hi'.tables
  have hlink:=fun h0=>(c.child h0).2
  generalize PageTables.getOrCreate t i f m=g at *
  have hmine {u l : ℕ} (hl : level u=some l) (ho : owner u=some r) :
      level' u=some l ∧ claimed level owner r u=some r:=⟨hkeep.level_eq hl,(claimed_of_some hl).trans ho⟩
  refine ⟨level',claimed level owner r,⟨hi',?_,?_,?_⟩,hkeep,hnew⟩
  · intro u l hl ho hur
    rcases hkeep.fresh hl with hl0 | hu
    · rw [claimed_of_some hl0] at ho
      rcases h.linked hl0 ho hur with ⟨rfl,n,hn,hs⟩ | ⟨hlt,v,n,hvo,hvl,hn,hs⟩
      · exact .inl ⟨rfl,n,hn,hslots h.root.1 hs⟩
      · exact .inr ⟨hlt,v,n,(hmine hvl hvo).2,(hmine hvl hvo).1,hn,hslots hvl hs⟩
    · obtain ⟨h0,rfl⟩ : g.1≠0 ∧ u=g.1:=by
        have hu':=ht'.used hl
        rcases hused with he | ⟨h0,he⟩
        · exact absurd (he▸hu') hu
        · rw [he] at hu'
          exact ⟨h0,(mem_cons.mp hu').resolve_right hu⟩
      obtain rfl : j=l:=by simpa [hl,eq_comm] using (hnew h0).1
      rcases hj with ⟨rfl,rfl,hi⟩ | ⟨hlt,hi⟩
      · exact .inl ⟨rfl,i,hi,hlink h0⟩
      · exact .inr ⟨hlt,t,i,(hmine htl hto).2,(hmine htl hto).1,hi,hlink h0⟩
  · intro u hu
    obtain ⟨hu',hn⟩:=h.old u hu
    refine ⟨hkeep.used hu',fun ho=>eq_none_iff_forall_ne_some.mpr fun l hl=>?_⟩
    rcases hkeep.fresh hl with hl0 | hu0
    · rw [claimed_of_some hl0] at ho
      simp [hn ho] at hl0
    · exact hu0 hu'
  · intro u hu
    have hold (hu : u∈m.used) : u∈m₀.used ∨ taken u ∨ claimed level owner r u=some r ∧ (level' u).isSome:=by
      refine (h.new u hu).imp_right (Or.imp_right fun ⟨ho,hl⟩=>?_)
      obtain ⟨l,hl⟩:=isSome_iff_exists.mp hl
      exact ⟨(hmine hl ho).2,by simp [(hmine hl ho).1]⟩
    rcases hused with he | ⟨h0,he⟩
    · exact hold (he▸hu)
    rw [he] at hu
    rcases mem_cons.mp hu with rfl | hu
    · exact .inr (.inr ⟨(hnew h0).2,by simp [(hnew h0).1]⟩)
    · exact hold hu

theorem congr (hi : Isolated k m₀ (rootOnly k) [r] m' level owner)
    (hused : m'.used=m.used) (hroot : ∀{i u},i<256→slots m 3 r i = .table u→slots m' 3 r i = .table u)
    (hslots : ∀{t l i u},l<2 → owner t=some r→level t=some (l+1)→slots m (l+1) t i = .table u →
    slots m' (l+1) t i = .table u) : Ledger k m₀ r m' level owner taken:=by
  refine ⟨hi,fun hl ho hur=>?_,by rw [hused]; exact h.old,by rw [hused]; exact h.new⟩
  rcases h.linked hl ho hur with ⟨rfl,n,hn,hs⟩ | ⟨hlt,v,n,hvo,hvl,hn,hs⟩
  · exact .inl ⟨rfl,n,hn,hroot hn hs⟩
  · exact .inr ⟨hlt,v,n,hvo,hvl,hn,hslots hlt hvo hvl hs⟩

theorem writePage (htl : level t=some 0) (hto : owner t=some r) (i e : ℕ) :
    Ledger k m₀ r (m.write t i e) level owner taken:=by
  have hslots {v l n u : ℕ} (hv : level v=some (l+1)) (hs : slots m (l+1) v n = .table u) :
      slots (m.write t i e) (l+1) v n = .table u:=by
    rw [slots_write]
    · exact hs
    · rintro ⟨rfl,-⟩
      simp [htl] at hv
  exact h.congr (h.isolated.writePage (rootOnly_self k) htl (h.isolated.kernel_ne hto) i e) rfl (fun _=>hslots h.root.1)
    fun _ _=>hslots

theorem mapPage (hv : v<2^47) (hlow : pml4Idx v=0→¬SharesLow k r m)
    (p flags : ℕ) : ∃level' owner',Ledger k m₀ r (mapPage r v p flags m).2 level' owner' taken ∧
    Keeps m (mapPage r v p flags m).2 level level':=by
  have hidx (l : ℕ) : tableIdx l v<512:=Nat.mod_lt _ (by decide)
  obtain ⟨hrl,hro⟩:=h.root
  obtain ⟨m1,he,hm⟩ | ⟨m1,pt,he,level',owner',h',e,hl,ho,-⟩:=mapPage_rule p
    (P:=fun l t m1=>∃level' owner',Ledger k m₀ r m1 level' owner' taken ∧ Keeps m m1 level level' ∧
      level' t=some l ∧ owner' t=some r ∧ (l=3→t=r) ∧
        ∀u,slots m1 l t (tableIdx l v) = .table u → owner' u=some r)
    (Q:=fun m1=>∃level' owner',Ledger k m₀ r m1 level' owner' taken ∧ Keeps m m1 level level')
    ⟨level,owner,h,(Extends.refl m level).keeps,hrl,hro,fun _=>rfl,
      fun u hs=>h.isolated.root_owner mem_cons_self (pml4Idx_lt hv) hlow hs⟩
    fun {l t m1 c m2} hlt hp he=>by
      obtain ⟨level1,owner1,h1,e1,hl1,ho1,hroot,hchild⟩:=hp
      have hj : l=2 ∧ t=r ∧ tableIdx (l+1) v<256 ∨ l<2 ∧ tableIdx (l+1) v<512:=by
        by_cases hl : l=2
        · subst hl
          exact .inl ⟨rfl,hroot rfl,pml4Idx_lt hv⟩
        · exact .inr ⟨by omega,hidx _⟩
      obtain ⟨level2,owner2,h2,e2,hc⟩:=h1.getOrCreate hl1 ho1 hj (tableFlags_spec flags) hchild
      rw [he] at h2 e2 hc
      refine ⟨fun _=>⟨level2,owner2,h2,e1.trans e2⟩,fun h0=>?_⟩
      obtain ⟨hl2,ho2⟩:=hc h0
      exact ⟨level2,owner2,h2,e1.trans e2,hl2,ho2,fun h=>absurd h hlt.ne,
        fun u hs=>(h2.isolated.child_owner hl2 hlt.ne hs).trans ho2⟩
  · rw [he]
    exact hm
  · rw [he]
    exact ⟨level',owner',h'.writePage hl ho _ _,e.level_eq,e.fresh,e.used⟩

theorem allocFrame :
    Ledger k m₀ r (allocFrame m).2 level owner fun u=>(allocFrame m).1≠0 ∧ u=(allocFrame m).1 ∨ taken u:=by
  obtain ⟨hmem,hused,-⟩:=allocFrame_frame m
  have hslots : slots (PageTables.allocFrame m).2=slots m:=by
    funext l t i
    rw [slots,hmem]
    rfl
  have hnew : ∀u∈(PageTables.allocFrame m).2.used,
      (PageTables.allocFrame m).1≠0 ∧ u=(PageTables.allocFrame m).1 ∨ u∈m.used:=by
    unfold PageTables.allocFrame
    split
    · exact fun _=>.inr
    split
    case isTrue hf => exact fun _ hu=>(mem_cons.mp hu).imp_left fun he=>⟨hf.1.1,he⟩
    case isFalse => exact fun _=>.inr
  refine ⟨h.isolated.allocFrame,by rw [hslots]; exact h.linked,fun u hu=>?_,fun u hu=>?_⟩
  · exact (h.old u hu).imp_left (hused u)
  rcases hnew u hu with he | hu
  · exact .inr (.inl (.inl he))
  · exact (h.new u hu).imp_right (Or.imp_left .inr)

end

theorem freeFrame (h : Ledger k m₀ r m level owner fun u=>u=f ∨ taken u) (hf : f∉m₀.used) (hl : level f=none) :
    Ledger k m₀ r (freeFrame f m) level owner taken:=by
  obtain ⟨home,ht⟩:=h.isolated.tables
  have hne {t l : ℕ} (htl : level t=some l) : t≠f:=by
    rintro rfl
    simp [hl] at htl
  have hrel:=(FreesOnce.freeFrame f m).releases
  have hslots : slots (PageTables.freeFrame f m)=slots m:=rfl
  refine ⟨⟨⟨home,ht.congr (fun _=>rfl) fun htl=>(hrel.used _).mpr ⟨ht.used htl,hne htl⟩⟩,h.isolated.roots,
    h.isolated.links,?_⟩,by rw [hslots]; exact h.linked,fun u hu=>?_,fun u hu=>?_⟩
  · have htouch : Touches (· = f) m (PageTables.freeFrame f m):=touches_cons rfl rfl
    intro t l ht0
    exact h.isolated.kernel_of htouch (fun _ htl ho=>⟨htl,ho,rfl,hne htl⟩) ht0
  · obtain ⟨hu',hn⟩:=h.old u hu
    exact ⟨(hrel.used u).mpr ⟨hu',ne_of_mem_of_not_mem hu hf⟩,hn⟩
  · obtain ⟨hu',huf⟩:=(hrel.used u).mp hu
    exact (h.new u hu').imp_right (Or.imp_left fun hu=>hu.resolve_left huf)

section

variable (h : Ledger k m₀ r m level owner taken)
include h

theorem activate : Ledger k m₀ r (activate k r m) level owner taken:=by
  obtain ⟨home,ht⟩:=h.isolated.tables
  have hkr : r≠k:=(h.isolated.kernel_ne h.root.2 (rootOnly_self k)).symm
  have hmem:=activate_mem (m:=m) ⟨(ht.frame h.root.1).1,hkr⟩
  refine h.congr (h.isolated.activate (rootOnly_self k) mem_cons_self) (activate_used k r m) (fun {i u} hi hs=>?_)
    fun {t l i u} hl _ htl hs=>?_
  · have hp:=(of_decode_table hs).1
    rw [slots,hmem,Function.update_self,activated,if_neg (by omega),if_neg]
    · exact hs
    · rintro ⟨rfl,h0⟩
      exact hp h0
  · have htr : t≠r:=by
      rintro rfl
      rw [h.root.1,Option.some.injEq] at htl
      omega
    rw [slots,hmem,Function.update_of_ne htr]
    exact hs

theorem spares (hi : Isolated k m₀ (rootOnly k) [r] m' level' owner') (hs : Spares m m' level level' owner owner') :
    Ledger k m₀ r m' level' owner' fun u=>u∉m.used ∨ taken u:=by
  refine ⟨hi,fun hl ho hur=>?_,fun u hu=>?_,fun u _=>?_⟩
  · obtain ⟨hl0,ho0⟩:=hs.back hl ho
    rcases h.linked hl0 ho0 hur with ⟨rfl,n,hn,hslot⟩ | ⟨hlt,v,n,hvo,hvl,hn,hslot⟩
    · refine .inl ⟨rfl,n,hn,?_⟩
      rw [slots,(hs.kept h.root.1 h.root.2).2.2]
      exact hslot
    obtain ⟨hvl',hvo',hmem⟩:=hs.kept hvl hvo
    refine .inr ⟨hlt,v,n,hvo',hvl',hn,?_⟩
    rw [slots,hmem]
    exact hslot
  · obtain ⟨hu',hn⟩:=h.old u hu
    refine ⟨hs.keeps.used hu',fun ho=>eq_none_iff_forall_ne_some.mpr fun l hl=>?_⟩
    obtain ⟨hl0,ho0⟩:=hs.back hl ho
    simp [hn ho0] at hl0
  · by_cases hu : u∈m.used
    · refine (h.new u hu).imp_right (Or.imp .inr fun hown=>?_)
      obtain ⟨l,hl⟩:=isSome_iff_exists.mp hown.2
      obtain ⟨hl',ho',-⟩:=hs.kept hl hown.1
      exact ⟨ho',by simp [hl']⟩
    · exact .inr (.inl (.inl hu))

theorem expandPage (hheap : m₀.mem k 288&&&flagPresent≠0) (h1 : heapStart≤v) (h2 : v<heapMax) :
    ∃level' owner',Ledger k m₀ r (expandPage k v m) level' owner' (fun u=>u∉m.used ∨ taken u) ∧
    Spares m (expandPage k v m) level level' owner owner':=by
  have hia:=h.isolated.allocFrame
  obtain ⟨hmem,hused,-⟩:=allocFrame_frame m
  have hsa : Spares m (PageTables.allocFrame m).2 level level owner owner:=
    ⟨fun hl ho=>⟨hl,ho,by rw [hmem]⟩,fun hl ho=>⟨hl,ho⟩,id,.inl,fun hu=>hused _ hu⟩
  unfold PageTables.expandPage
  generalize PageTables.allocFrame m=a at hia hsa
  obtain ⟨phys,m1⟩:=a
  dsimp only at hia hsa ⊢
  split
  · exact ⟨level,owner,h.spares hia hsa,hsa⟩
  have hp : m1.mem k (pml4Idx v)&&&flagPresent≠0:=by
    rw [pml4Idx_heap h1 h2,(hia.kernel (rootOnly_self k)).2.2.1]
    exact hheap
  obtain ⟨level',owner',hi',hs'⟩:=hia.mapPage_kernel hp phys
  exact ⟨level',owner',h.spares hi' (hsa.trans hs'),hsa.trans hs'⟩

end

end Ledger

theorem isolated_rootOnly (ht : Tables m level home) (hk : level k=some 3) :
    Isolated k m (rootOnly k) [] m level fun _=>none:=by
  refine ⟨⟨home,ht⟩,by simp,fun _ _=>.inl rfl,fun hu=>?_⟩
  obtain rfl:=eq_of_rootOnly hu
  rw [rootOnly_self] at hu
  exact ⟨hk.trans hu,rfl,rfl,id⟩

/-- The frames that a new space takes: its PML4 and, if it is complete, two tables below. -/
theorem createUserSpace_used (hc : createUserSpace k m=(r,full,m')) (hu : u∈m'.used) :
    u∈m.used ∨ u=r ∨ ∃pdpt,slots m' 3 r 0 = .table pdpt ∧ (u=pdpt ∨ slots m' 2 pdpt 0 = .table u):=by
  have hflags : TableFlags (flagPresent|||flagWrite):=.inl rfl
  simp only [createUserSpace] at hc
  rcases allocTable_spec m with ⟨h1,-,hused1⟩ | ⟨hf1,hn1,hmem1,hused1⟩
  · rw [if_pos h1] at hc
    cases hc
    exact .inl (hused1▸hu)
  rw [if_neg hf1.1] at hc
  generalize (allocTable m).1=pml4, (allocTable m).2=m1 at *
  have hused1' : (m1.fill pml4 fun i=>if i<256 then 0 else m1.mem pml4 i).used=pml4::m.used:=hused1
  generalize (m1.fill pml4 fun i=>if i<256 then 0 else m1.mem pml4 i)=m2 at *
  rcases allocTable_spec m2 with ⟨h2,-,hused2⟩ | ⟨hf2,hn2,hmem2,hused2⟩
  · rw [if_pos h2] at hc
    cases hc
    rw [hused2,hused1'] at hu
    exact (mem_cons.mp hu).symm.imp_right .inl
  rw [if_neg hf2.1] at hc
  generalize (allocTable m2).1=pdpt, (allocTable m2).2=m3 at *
  rcases allocTable_spec m3 with ⟨h3,-,hused3⟩ | ⟨hf3,hn3,hmem3,hused3⟩
  · rw [if_pos h3] at hc
    cases hc
    simp only [freeFrame,hused3,hused2,hused1',mem_filter,mem_cons,decide_eq_true_eq] at hu
    tauto
  rw [if_neg hf3.1] at hc
  generalize (allocTable m3).1=pd, (allocTable m3).2=m4 at *
  simp only [Prod.mk.injEq] at hc
  obtain ⟨rfl,-,rfl⟩:=hc
  have hpdpt : pdpt≠pml4:=fun e=>hn2 (by simp [hused1',e])
  have hpd : pd≠pdpt:=fun e=>hn3 (by simp [hused2,e])
  have hpd' : pd≠pml4:=fun e=>hn3 (by simp [hused2,hused1',e])
  replace hu : u∈m4.used:=hu
  rw [hused3,hused2,hused1'] at hu
  rcases mem_cons.mp hu with rfl | hu
  · refine .inr (.inr ⟨pdpt,?_,.inr ?_⟩)
    · simp [slots,mem_fill_self,mem_fill_of_ne hpd'.symm,mem_write_of_ne hpdpt.symm,mem_write_self,
        decode_table hf2 hflags]
    · simp [slots,mem_fill_of_ne hpdpt,mem_fill_of_ne hpd.symm,mem_write_self,decode_table hf3 hflags]
  rcases mem_cons.mp hu with rfl | hu
  · simp [slots,mem_fill_self,mem_fill_of_ne hpd'.symm,mem_write_of_ne hpdpt.symm,mem_write_self,
      decode_table hf2 hflags]
  · exact (mem_cons.mp hu).symm.imp_right .inl

/-- A new space has its tables and nothing else. -/
theorem ledger_create (ht : Tables m level home) (hk : level k=some 3) (hc : createUserSpace k m=(r,full,m'))
    (hr : r≠0) : ∃level' owner',Ledger k m r m' level' owner' fun _=>False:=by
  obtain ⟨level',hi,hn⟩:=(isolated_rootOnly ht hk).createUserSpace_claimed (rootOnly_self k)
  have hused {u : ℕ}:=createUserSpace_used (u:=u) hc
  rw [hc] at hi hn
  rw [if_neg hr] at hi
  obtain ⟨home',ht'⟩:=hn.tables
  obtain ⟨hrl,hru⟩:=hn.root hr
  have hr0:=ht.level_eq_none hru
  -- the tables below the PML4 are new
  have hpdpt {pdpt : ℕ} (hs : slots m' 3 r 0 = .table pdpt) : level pdpt=none ∧ level' pdpt=some 2:=by
    refine ⟨?_,(ht'.forest.child hrl hs).1⟩
    rcases hn.links hrl hs with ⟨hl,-⟩ | ⟨-,hl | ⟨-,hi,-⟩⟩
    · simp [hr0] at hl
    · exact hl
    · omega
  have hpd {pdpt u : ℕ} (hs : slots m' 3 r 0 = .table pdpt) (hs' : slots m' 2 pdpt 0 = .table u) :
      level u=none ∧ level' u=some 1:=by
    obtain ⟨hl0,hl'⟩:=hpdpt hs
    refine ⟨?_,(ht'.forest.child hl' hs').1⟩
    rcases hn.links hl' hs' with ⟨hl,-⟩ | ⟨-,hl | ⟨-,hi,-⟩⟩
    · simp [hl0] at hl
    · exact hl
    · omega
  have hclaimed {u : ℕ} (ho : claimed level (fun _=>none) r u=some r) : level u=none:=by
    unfold claimed at ho
    split at ho
    · assumption
    · cases ho
  have hfresh {u l : ℕ} (hl : level' u=some l) (ho : claimed level (fun _=>none) r u=some r) : u∉m.used:=
    (hn.fresh hl).resolve_left (by simp [hclaimed ho])
  refine ⟨level',_,hi,fun {u l} hl ho hur=>?_,fun u hu=>?_,fun u hu=>?_⟩
  · rcases hused (ht'.used hl) with hu | hu | ⟨pdpt,hs,rfl | hs'⟩
    · exact absurd hu (hfresh hl ho)
    · exact absurd hu hur
    · refine .inl ⟨?_,0,by decide,hs⟩
      simpa [hl] using (hpdpt hs).2
    · obtain rfl : l=1:=by simpa [hl] using (hpd hs hs').2
      exact .inr ⟨by decide,pdpt,0,claimed_of_none (hpdpt hs).1,(hpdpt hs).2,by decide,hs'⟩
  · refine ⟨hn.used u hu,fun ho=>eq_none_iff_forall_ne_some.mpr fun l hl=>?_⟩
    exact hfresh hl ho hu
  · rcases hused hu with hu | rfl | ⟨pdpt,hs,rfl | hs'⟩
    · exact .inl hu
    · exact .inr (.inr ⟨claimed_of_none hr0,by simp [hrl]⟩)
    · exact .inr (.inr ⟨claimed_of_none (hpdpt hs).1,by simp [(hpdpt hs).2]⟩)
    · exact .inr (.inr ⟨claimed_of_none (hpd hs hs').1,by simp [(hpd hs hs').2]⟩)

/-- The tables that hang below the PML4 are those of the space. -/
theorem Ledger.hangs_iff (h : Ledger k m₀ r m level owner taken) (hlow : ¬SharesLow k r m) :
    u=r ∨ Hangs m 3 r u↔owner u=some r ∧ (level u).isSome:=by
  obtain ⟨home,ht⟩:=h.isolated.tables
  obtain ⟨hrl,hro⟩:=h.root
  constructor
  · rintro (rfl | ⟨i,hi,v,hv,hu⟩)
    · exact ⟨hro,by simp [hrl]⟩
    have hvl:=(ht.forest.child hrl hv).1
    have hvo:=h.isolated.root_owner mem_cons_self hi (fun _=>hlow) hv
    rcases hu with rfl | ⟨j,-,w,hw,hu⟩
    · exact ⟨hvo,by simp [hvl]⟩
    have hwl:=(ht.forest.child hvl hw).1
    have hwo:=(h.isolated.child_owner hvl (by decide) hw).trans hvo
    rcases hu with rfl | ⟨n,-,x,hx,rfl | hu⟩
    · exact ⟨hwo,by simp [hwl]⟩
    · exact ⟨(h.isolated.child_owner hwl (by decide) hx).trans hwo,by simp [(ht.forest.child hwl hx).1]⟩
    · exact absurd hu id
  · rintro ⟨ho,hl⟩
    obtain ⟨l,hl⟩:=isSome_iff_exists.mp hl
    by_cases hur : u=r
    · exact .inl hur
    refine .inr ?_
    have hne {t l : ℕ} (htl : level t=some l) (hlt : l<3) : t≠r:=by
      rintro rfl
      rw [hrl,Option.some.injEq] at htl
      omega
    -- follow the links upwards, one case for each level
    have h2 {t : ℕ} (htl : level t=some 2) (hto : owner t=some r) : ∃i<256,slots m 3 r i = .table t:=by
      rcases h.linked htl hto (hne htl (by decide)) with ⟨-,hs⟩ | ⟨hlt,-⟩
      · exact hs
      · omega
    have h1 {t : ℕ} (htl : level t=some 1) (hto : owner t=some r) :
        ∃i<256,∃v,slots m 3 r i = .table v ∧ ∃j<512,slots m 2 v j = .table t:=by
      rcases h.linked htl hto (hne htl (by decide)) with ⟨h',-⟩ | ⟨-,v,j,hvo,hvl,hj,hs⟩
      · omega
      · obtain ⟨i,hi,hv⟩:=h2 hvl hvo
        exact ⟨i,hi,v,hv,j,hj,hs⟩
    rcases h.linked hl ho hur with ⟨rfl,i,hi,hs⟩ | ⟨hlt,t,n,hto,htl,hn,hs⟩
    · exact ⟨i,hi,u,hs,.inl rfl⟩
    obtain rfl | rfl : l=0 ∨ l=1:=by omega
    · obtain ⟨i,hi,v,hv,j,hj,hs'⟩:=h1 htl hto
      exact ⟨i,hi,v,hv,.inr ⟨j,hj,t,hs',.inr ⟨n,hn,u,hs,.inl rfl⟩⟩⟩
    · obtain ⟨i,hi,hv⟩:=h2 htl hto
      exact ⟨i,hi,t,hv,.inr ⟨n,hn,u,hs,.inl rfl⟩⟩

theorem Ledger.destroy (h : Ledger k m₀ r m level owner taken) (hlow : ¬SharesLow k r m) :
    (∀u∈m₀.used,u∈(destroyUserSpace r m).used) ∧ ∀u∈(destroyUserSpace r m).used,u∈m₀.used ∨ taken u:=by
  obtain ⟨home,ht⟩:=h.isolated.tables
  have hrel:=ht.releases_destroy h.root.1
  simp only [hrel.used,h.hangs_iff hlow,not_and,not_isSome_iff_eq_none]
  refine ⟨h.old,fun u ⟨hu,hn⟩=>?_⟩
  rcases h.new u hu with hu | hu | ⟨ho,hl⟩
  · exact .inl hu
  · exact .inr hu
  · simp [hn ho] at hl

end Knail.PageTables
