import Knail.ReferenceCounts

/-!
# Ownership of descriptors

A descriptor sits in one slot, or it was lost by `dup2`; no slot refers to a descriptor that was
closed, and what a call closes is there to be closed. The counts of the tables are right.
-/
namespace Knail.Descriptors

open Vfs List Function

variable {s s' : Store} {held : List ℕ} {f : ℕ} {op : Op} {is : List ℕ} {mem : List (Option ℕ)}

/-- The descriptor is closed because the table has no slot for it. -/
def FDTable.rejected (tab : FDTable) (f : ℕ) : List ℕ:=
  match tab.install f with
  | .error _=>[f]
  | .ok _=>[]

/-- What `fdtable::clone` closes after a failure, and the store then. -/
def FDTable.cloneClosing (src : FDTable) : List ℕ→List (Option ℕ)→FDTable→Store→Store×List ℕ
  | [], _, _, s=>(s,[])
  | i::is, mem, dst, s=>
    match src.fds i with
    | none=>cloneClosing src is mem dst s
    | some f=>
      match s.dup f (mem.head?.join) with
      | (.error _,s)=>(s,dst.entries)
      | (.ok c,s)=>cloneClosing src is mem.tail (dst.put i c) s

/-- The descriptors that a call hands to `vfs::close`, in their order, and the store before that. -/
def World.closing (w : World) : Op→Store×List ℕ
  | .openPath t path resolved created flags fd=>
    if path then
      match w.fdTable t with
      | none=>(w.store,[])
      | some tab=>
        match w.store.vfsOpen resolved created flags fd with
        | (.error _,s)=>(s,[])
        | (.ok f,s)=>(s,tab.rejected f)
    else (w.store,[])
  | .close t fd=>
    match w.fdTable t with
    | none=>(w.store,[])
    | some tab=>
      match tab.remove fd with
      | .error _=>(w.store,[])
      | .ok (f,_)=>(w.store,[f])
  | .dup t fd copy=>
    match w.fdTable t with
    | none=>(w.store,[])
    | some tab=>
      match tab.lookup fd with
      | .error _=>(w.store,[])
      | .ok f=>
        match w.store.dup f copy with
        | (.error _,s)=>(s,[])
        | (.ok c,s)=>(s,tab.rejected c)
  | .dup2 t oldfd newfd copy=>
    match w.fdTable t with
    | none=>(w.store,[])
    | some tab=>
      if oldfd=newfd then (w.store,[])
      else
        match tab.lookup oldfd with
        | .error _=>(w.store,[])
        | .ok f=>
          match w.store.dup f copy with
          | (.error _,s)=>(s,[])
          | (.ok c,s)=>
            let tab':=match tab.remove newfd with
              | .error _=>tab
              | .ok (_,tab')=>tab'
            match tab'.installAt c (toI32 newfd) with
            | .error _=>(s,[c])
            | .ok _=>(s,[])
  | .pipe t fds buffer node rfd wfd=>
    if fds then
      match w.fdTable t with
      | none=>(w.store,[])
      | some tab=>
        match w.store.pipe buffer node rfd wfd with
        | (.error _,s)=>(s,[])
        | (.ok (r,wr),s)=>
          match tab.install r with
          | .error _=>(s,[r,wr])
          | .ok (_,tab₁)=>
            match tab₁.install wr with
            | .error _=>(s,[r,wr])
            | .ok _=>(s,[])
    else (w.store,[])
  | .exit t=>
    match w.fdTable t with
    | none=>(w.store,[])
    | some tab=>(w.store,tab.entries)
  | .fork t _ table mem=>
    match w.fdTable t, table with
    | none, _ | _, false=>(w.store,[])
    | some src, true=>src.cloneClosing (List.range maxFds) mem .empty w.store
  | .spawn t tty mem=>((w.spawn t tty mem).store,[])

def Store.closeAll (s : Store) (fs : List ℕ) : Store:=fs.foldl (fun s f=>s.close (some f)) s

/-- Every descriptor of a list is there when its turn comes to be closed. -/
def Store.ClosesLive (s : Store) : List ℕ→Prop
  | []=>True
  | f::fs=>(s.files f).isSome ∧ (s.close (some f)).ClosesLive fs

theorem Balanced.closesLive {fs : List ℕ} (h : Balanced s (fs++held)) : s.ClosesLive fs:=by
  induction fs generalizing s with
  | nil=>trivial
  | cons f fs ih=>
    obtain ⟨d,hd,-⟩:=h.refers f mem_cons_self
    exact ⟨by rw [hd]; rfl,ih h.close⟩

theorem FDTable.store_cloneLoop (src : FDTable) (is : List ℕ) (mem : List (Option ℕ)) (dst : FDTable) (s : Store) :
    (src.cloneLoop is mem dst s).2 = (src.cloneClosing is mem dst s).1.closeAll (src.cloneClosing is mem dst s).2:=by
  induction is generalizing mem dst s with
  | nil=>rfl
  | cons i is ih=>
    rw [cloneLoop,cloneClosing]
    cases src.fds i with
    | none=>exact ih ..
    | some f=>
      dsimp only
      rcases s.dup f mem.head?.join with ⟨e | c,s1⟩
      · rfl
      · exact ih ..

theorem World.store_installOrClose (w : World) (t : ℕ) (tab : FDTable) (f : ℕ) :
    (w.installOrClose t tab f).2.store=w.store.closeAll (tab.rejected f):=by
  unfold World.installOrClose FDTable.rejected
  cases tab.install f <;> rfl

/-- The store after a call is the one that it has made, with those descriptors closed. -/
theorem store_step {w w' : World} (h : step w op=some w') : w'.store=(w.closing op).1.closeAll (w.closing op).2:=by
  cases op <;> cases h
  case openPath t path resolved created flags fd =>
    dsimp only [World.handleOpen,World.closing]
    split
    · cases w.fdTable t with
      | none=>rfl
      | some tab=>
        rcases w.store.vfsOpen resolved created flags fd with ⟨e | f,s1⟩
        · rfl
        · exact World.store_installOrClose ..
    · rfl
  case close t fd =>
    dsimp only [World.handleClose,World.closing]
    cases w.fdTable t with
    | none=>rfl
    | some tab=>
      dsimp only
      cases tab.remove fd <;> rfl
  case dup t fd copy =>
    dsimp only [World.handleDup,World.closing]
    cases w.fdTable t with
    | none=>rfl
    | some tab=>
      dsimp only
      cases tab.lookup fd with
      | error e=>rfl
      | ok f=>
        dsimp only
        rcases w.store.dup f copy with ⟨e | c,s1⟩
        · rfl
        · exact World.store_installOrClose ..
  case dup2 t oldfd newfd copy =>
    dsimp only [World.handleDup2,World.closing]
    cases w.fdTable t with
    | none=>rfl
    | some tab=>
      dsimp only
      split
      · rfl
      cases tab.lookup oldfd with
      | error e=>rfl
      | ok f=>
        cases tab.remove newfd with
        | error e=>
          dsimp only [World.dupInto]
          rcases w.store.dup f copy with ⟨e | c,s1⟩
          · rfl
          · dsimp only
            cases tab.installAt c (toI32 newfd) <;> rfl
        | ok p=>
          dsimp only [World.dupInto,World.setStore,World.setTable,Store.close]
          rcases w.store.dup f copy with ⟨e | c,s1⟩
          · rfl
          · dsimp only
            cases p.2.installAt c (toI32 newfd) <;> rfl
  case pipe t fds buffer node rfd wfd =>
    dsimp only [World.handlePipe,World.closing]
    split
    · cases w.fdTable t with
      | none=>rfl
      | some tab=>
        rcases w.store.pipe buffer node rfd wfd with ⟨e | ⟨r,wr⟩,s1⟩
        · rfl
        dsimp only
        cases tab.install r with
        | error e=>rfl
        | ok p=>
          dsimp only
          cases p.2.install wr <;> rfl
    · rfl
  case exit t =>
    dsimp only [World.exit,World.closing]
    cases w.fdTable t <;> rfl
  case fork t child table mem =>
    dsimp only [World.fork,World.closing,FDTable.clone]
    cases w.fdTable t with
    | none=>rfl
    | some src=>
      cases table with
      | false=>rfl
      | true=>
        have hs:=src.store_cloneLoop (List.range maxFds) mem .empty w.store
        dsimp only
        rw [←hs]
        rcases src.cloneLoop (List.range maxFds) mem .empty w.store with ⟨_ | tab,s1⟩ <;> rfl
  case spawn t tty mem => rfl

theorem Balanced.rejected {tab : FDTable} (h : Balanced s (f::held)) : ∃rest,Balanced s (tab.rejected f++rest):=by
  unfold FDTable.rejected
  cases tab.install f with
  | error e=>exact ⟨held,h⟩
  | ok p=>exact ⟨f::held,h⟩

theorem Balanced.cloneClosing {src : FDTable} (hsrc : ∀f∈src.entries,f∈held) (his : is.Nodup) {dst : FDTable} (hdst : ∀i∈is,i < maxFds ∧ dst.fds i=none)
    (h : Balanced s (dst.entries++held)) (hm : Supply s mem) :
    ∃rest,Balanced (src.cloneClosing is mem dst s).1 ((src.cloneClosing is mem dst s).2++rest):=by
  induction is generalizing mem dst s with
  | nil=>exact ⟨_,h⟩
  | cons i is ih=>
    obtain ⟨hi,his⟩:=nodup_cons.mp his
    obtain ⟨hlt,hnone⟩:=hdst i mem_cons_self
    unfold FDTable.cloneClosing
    cases hf : src.fds i with
    | none=>exact ih his (fun j hj=>hdst j (mem_cons_of_mem _ hj)) h hm
    | some f=>
      have hmem : f∈dst.entries++held:=mem_append_right _ (hsrc f (mem_filled.mpr ⟨i,hlt,hf⟩))
      have hm' : Supply s (mem.head?.join::mem.tail):=by cases mem <;> exact hm
      have hdup:=h.dup hm' hmem
      dsimp only
      generalize s.dup f mem.head?.join=r at hdup ⊢
      rcases r with ⟨e | c,s1⟩
      · exact ⟨held,hdup.1⟩
      refine ih his (fun j hj=>?_) (hdup.1.perm ?_) hdup.2
      · obtain ⟨hjlt,hjn⟩:=hdst j (mem_cons_of_mem _ hj)
        exact ⟨hjlt,(update_of_ne (ne_of_mem_of_not_mem hj hi) _ _).trans hjn⟩
      · exact ((FDTable.entries_put hlt hnone).append_right held).symm

section World

variable {w w' : World} {t : ℕ} {tab tab' : FDTable} {lost : List ℕ}

/-- What a call closes is among the descriptors then. -/
theorem WellCounted.closing (h : WellCounted lost w) (hv : op.Valid w) :
    ∃rest,Balanced (w.closing op).1 ((w.closing op).2++rest):=by
  have hnone : ∃rest,Balanced w.store ([]++rest):=⟨_,h.balanced⟩
  cases op with
  | openPath t path resolved created flags fd=>
    dsimp only [World.closing]
    split
    · cases ht : w.fdTable t with
      | none=>exact hnone
      | some tab=>
        have hopen:=(h.split ht).vfsOpen hv.1 hv.2 resolved flags
        generalize w.store.vfsOpen resolved created flags fd=r at hopen ⊢
        rcases r with ⟨e | f,s1⟩
        · exact ⟨_,hopen.1⟩
        · exact hopen.1.rejected
    · exact hnone
  | close t fd=>
    dsimp only [World.closing]
    cases ht : w.fdTable t with
    | none=>exact hnone
    | some tab=>
      dsimp only
      cases hr : tab.remove fd with
      | error e=>exact hnone
      | ok p=>exact ⟨_,(h.split ht).perm ((FDTable.entries_remove hr).append_right _)⟩
  | dup t fd copy=>
    dsimp only [World.closing]
    cases ht : w.fdTable t with
    | none=>exact hnone
    | some tab=>
      dsimp only
      cases hl : tab.lookup fd with
      | error e=>exact hnone
      | ok f=>
        have hdup:=(h.split ht).dup hv (mem_append_left _ (FDTable.mem_of_lookup hl))
        dsimp only
        generalize w.store.dup f copy=r at hdup ⊢
        rcases r with ⟨e | c,s1⟩
        · exact ⟨_,hdup.1⟩
        · exact hdup.1.rejected
  | dup2 t oldfd newfd copy=>
    dsimp only [World.closing]
    cases ht : w.fdTable t with
    | none=>exact hnone
    | some tab=>
      dsimp only
      split
      · exact hnone
      cases hl : tab.lookup oldfd with
      | error e=>exact hnone
      | ok f=>
        have hdup:=(h.split ht).dup hv (mem_append_left _ (FDTable.mem_of_lookup hl))
        dsimp only
        generalize w.store.dup f copy=r at hdup ⊢
        rcases r with ⟨e | c,s1⟩
        · exact ⟨_,hdup.1⟩
        · dsimp only
          split <;> exact ⟨_,hdup.1⟩
  | pipe t fds buffer node rfd wfd=>
    dsimp only [World.closing]
    split
    · cases ht : w.fdTable t with
      | none=>exact hnone
      | some tab=>
        rcases (h.split ht).pipe hv.1 hv.2 with ⟨r,wr,s1,he,hb⟩ | ⟨e,he⟩
        · rw [he]
          dsimp only
          split
          · exact ⟨_,hb⟩
          · split <;> exact ⟨_,hb⟩
        · rw [he]
          exact hnone
    · exact hnone
  | exit t=>
    dsimp only [World.closing]
    cases ht : w.fdTable t with
    | none=>exact hnone
    | some tab=>exact ⟨_,h.split ht⟩
  | fork t child table mem=>
    dsimp only [World.closing]
    cases ht : w.fdTable t with
    | none=>exact hnone
    | some src=>
      cases table with
      | false=>exact hnone
      | true=>
        have hsrc (f : ℕ) (hf : f∈src.entries) : f∈w.held++lost:=
          (World.held_perm ht).mem_iff.mpr (mem_append_left _ hf)
        refine Balanced.cloneClosing hsrc nodup_range (fun i hi=>⟨mem_range.mp hi,rfl⟩) ?_ hv.1
        exact h.balanced
  | spawn t tty mem=>exact ⟨_,(h.spawn hv.1 hv.2).balanced⟩

end World

/-- The count of a table is the number of its slots in use. -/
def FDTable.Counted (tab : FDTable) : Prop:=tab.count=tab.entries.length

namespace FDTable

variable {tab tab' : FDTable} {i : ℕ}

theorem length_entries_le (tab : FDTable) : tab.entries.length ≤ maxFds:=
  (length_filterMap_le ..).trans_eq length_range

section

variable (h : tab.Counted)
include h

theorem Counted.put (hi : i < maxFds) (hn : tab.fds i=none) : (tab.put i f).Counted:=by
  have hlen:=(entries_put (f:=f) hi hn).length_eq
  have hle:=(tab.put i f).length_entries_le
  have hmax : maxFds=64:=rfl
  rw [length_cons] at hlen
  change u32 (tab.count+1)=_
  rw [h,u32]
  omega

theorem Counted.install (hok : tab.install f = .ok (i,tab')) : tab'.Counted:=by
  obtain ⟨hi,hn,rfl⟩:=install_ok hok
  exact h.put hi hn

theorem Counted.installAt {fd r : ℤ} (hok : tab.installAt f fd = .ok (r,tab')) : tab'.Counted:=by
  obtain ⟨hi,hn,rfl⟩:=installAt_ok hok
  exact h.put hi hn

theorem Counted.remove (hok : tab.remove i = .ok (f,tab')) : tab'.Counted:=by
  have hlen:=(entries_remove hok).length_eq
  have hle:=tab.length_entries_le
  have hmax : maxFds=64:=rfl
  rw [length_cons] at hlen
  have hcount : tab'.count=pred32 tab.count:=by
    unfold FDTable.remove at hok
    split at hok
    · cases hok
    split at hok
    · cases hok
    · cases hok
      rfl
  rw [Counted,hcount,h,pred32,u32]
  omega

theorem Counted.installOk (res : Except KError ℕ) (fd : ℤ) : (tab.installOk res fd).Counted:=by
  unfold FDTable.installOk
  cases res with
  | error e=>exact h
  | ok f=>
    dsimp only
    cases hok : tab.installAt f fd with
    | error e=>exact h
    | ok p=>exact h.installAt hok

end

theorem counted_empty : empty.Counted:=by
  rfl

theorem Counted.cloneLoop {src dst : FDTable} (his : is.Nodup)
    (hdst : ∀i∈is,i < maxFds ∧ dst.fds i=none) (h : dst.Counted)
    (hok : (src.cloneLoop is mem dst s).1=some tab) : tab.Counted:=by
  induction is generalizing mem dst s with
  | nil=>
    cases hok
    exact h
  | cons i is ih=>
    obtain ⟨hi,his⟩:=nodup_cons.mp his
    obtain ⟨hlt,hnone⟩:=hdst i mem_cons_self
    unfold FDTable.cloneLoop at hok
    cases hf : src.fds i with
    | none=>
      rw [hf] at hok
      exact ih his (fun j hj=>hdst j (mem_cons_of_mem _ hj)) h hok
    | some f=>
      rw [hf] at hok
      dsimp only at hok
      generalize s.dup f mem.head?.join=r at hok
      rcases r with ⟨e | c,s1⟩
      · cases hok
      refine ih his (fun j hj=>?_) (h.put hlt hnone) hok
      obtain ⟨hjlt,hjn⟩:=hdst j (mem_cons_of_mem _ hj)
      exact ⟨hjlt,(update_of_ne (ne_of_mem_of_not_mem hj hi) _ _).trans hjn⟩

end FDTable

section World

variable {w w' : World} {t : ℕ} {tab tab' : FDTable} {lost : List ℕ}

/-- The tables of the live tasks have the right counts. -/
def World.Counted (w : World) : Prop:=∀t∈w.tasks,(w.table t).Counted

section

variable (h : w.Counted)
include h

theorem World.Counted.fdTable (ht : w.fdTable t=some tab) : tab.Counted:=by
  obtain ⟨hmem,rfl⟩:=World.fdTable_eq_some ht
  exact h t hmem

theorem World.Counted.setTable (htab : tab.Counted) : (w.setTable t tab).Counted:=by
  intro u hu
  simp only [World.setTable,update_apply]
  split
  · exact htab
  · exact h u hu

theorem World.Counted.addTask (htab : tab.Counted) :
    World.Counted {store:=s,tasks:=t::w.tasks,table:=update w.table t tab}:=by
  intro u hu
  simp only [update_apply]
  split
  case isTrue => exact htab
  case isFalse hne => exact h u ((mem_cons.mp hu).resolve_left hne)

theorem World.Counted.installOrClose (htab : tab.Counted) : (w.installOrClose t tab f).2.Counted:=by
  unfold World.installOrClose
  cases hi : tab.install f with
  | error e=>exact h
  | ok p=>exact h.setTable (htab.install hi)

theorem World.Counted.dupInto (htab : tab.Counted) {newfd : ℕ} {copy : Option ℕ} :
    (w.dupInto t tab f newfd copy).2.Counted:=by
  unfold World.dupInto
  rcases w.store.dup f copy with ⟨e | c,s1⟩
  · exact h
  dsimp only
  cases hi : tab.installAt c (toI32 newfd) with
  | error e=>exact h
  | ok p=>exact World.Counted.setTable h (htab.installAt hi)

theorem World.Counted.step (hs : step w op=some w') : w'.Counted:=by
  cases op <;> cases hs
  case openPath t path resolved created flags fd =>
    unfold World.handleOpen
    split
    · cases ht : w.fdTable t with
      | none=>exact h
      | some tab=>
        rcases w.store.vfsOpen resolved created flags fd with ⟨e | f,s1⟩
        · exact h
        · exact World.Counted.installOrClose h (h.fdTable ht)
    · exact h
  case close t fd =>
    unfold World.handleClose
    cases ht : w.fdTable t with
    | none=>exact h
    | some tab=>
      dsimp only
      cases hr : tab.remove fd with
      | error e=>exact h
      | ok p=>exact h.setTable ((h.fdTable ht).remove hr)
  case dup t fd copy =>
    unfold World.handleDup
    cases ht : w.fdTable t with
    | none=>exact h
    | some tab=>
      dsimp only
      cases tab.lookup fd with
      | error e=>exact h
      | ok f=>
        dsimp only
        rcases w.store.dup f copy with ⟨e | c,s1⟩
        · exact h
        · exact World.Counted.installOrClose h (h.fdTable ht)
  case dup2 t oldfd newfd copy =>
    unfold World.handleDup2
    cases ht : w.fdTable t with
    | none=>exact h
    | some tab=>
      dsimp only
      split
      · exact h
      cases tab.lookup oldfd with
      | error e=>exact h
      | ok f=>
        cases hr : tab.remove newfd with
        | error e=>exact h.dupInto (h.fdTable ht)
        | ok p=>
          have htab:=(h.fdTable ht).remove hr
          exact World.Counted.dupInto (h.setTable htab) htab
  case pipe t fds buffer node rfd wfd =>
    unfold World.handlePipe
    split
    · cases ht : w.fdTable t with
      | none=>exact h
      | some tab=>
        rcases w.store.pipe buffer node rfd wfd with ⟨e | ⟨r,wr⟩,s1⟩
        · exact h
        dsimp only
        cases hi : tab.install r with
        | error e=>exact h
        | ok p=>
          have h1:=(h.fdTable ht).install hi
          dsimp only
          cases hj : p.2.install wr with
          | ok q=>exact World.Counted.setTable h (h1.install hj)
          | error e=>
            refine h.setTable ?_
            cases hr : p.2.remove p.1 with
            | error e=>exact h1
            | ok q=>exact h1.remove hr
    · exact h
  case exit t =>
    unfold World.exit
    cases w.fdTable t with
    | none=>exact h
    | some tab=>exact fun u hu=>h u (mem_of_mem_erase hu)
  case fork t child table mem =>
    unfold World.fork
    cases hc : FDTable.clone (w.fdTable t) table mem w.store with
    | mk res s1=>
      cases res with
      | none=>exact h
      | some tab=>
        refine h.addTask ?_
        unfold FDTable.clone at hc
        split at hc
        · cases hc
        · cases hc
        · exact FDTable.counted_empty.cloneLoop nodup_range (fun i hi=>⟨mem_range.mp hi,rfl⟩)
            (congrArg Prod.fst hc)
  case spawn t tty mem =>
    refine h.addTask ?_
    exact ((FDTable.counted_empty.installOk ..).installOk ..).installOk ..

end

theorem World.mem_entries (hi : i < maxFds) (hf : (w.table t).fds i=some f) : f∈(w.table t).entries:=
  mem_filled.mpr ⟨i,hi,hf⟩

theorem WellCounted.slot_unique (h : WellCounted lost w) {u j : ℕ} (ht : t∈w.tasks) (hu : u∈w.tasks)
    (hi : i < maxFds) (hj : j < maxFds) (hf : (w.table t).fds i=some f) (hf' : (w.table u).fds j=some f) : t=u ∧ i=j:=by
  have htab : w.fdTable t=some (w.table t):=if_pos ht
  have hnodup:=nodup_append.mp (h.split htab).nodup
  obtain rfl : t=u:=by
    by_contra hne
    have hmem : f∈w.others lost t:=by
      refine mem_append_left _ (mem_flatMap.mpr ⟨u,?_,World.mem_entries hj hf'⟩)
      exact h.tasks_nodup.mem_erase_iff.mpr ⟨Ne.symm hne,hu⟩
    exact hnodup.2.2 f (World.mem_entries hi hf) f hmem rfl
  exact ⟨rfl,filled_inj hnodup.1 hi hj hf hf'⟩

/-- In every run each descriptor has one slot, a slot holds no closed descriptor, what is closed
was open, and the tables count their slots in use. -/
theorem descriptors_owned (h : Reach Booted step Op.Valid w) : (∀t∈w.tasks,∀u∈w.tasks,∀i < maxFds,∀j < maxFds,∀f,
    (w.table t).fds i=some f→(w.table u).fds j=some f→t=u ∧ i=j) ∧
    (∀t∈w.tasks,∀i < maxFds,∀f,(w.table t).fds i=some f→(w.store.files f).isSome) ∧
    (∀op w',op.Valid w→step w op=some w' →
    w'.store=(w.closing op).1.closeAll (w.closing op).2 ∧ (w.closing op).1.ClosesLive (w.closing op).2) ∧
    ∀t∈w.tasks,(w.table t).count=((List.range maxFds).filter fun i=>((w.table t).fds i).isSome).length:=by
  obtain ⟨⟨lost,hw⟩,hcount⟩ : (∃lost,WellCounted lost w) ∧ w.Counted:=by
    refine h.invariant (I:=fun w=>(∃lost,WellCounted lost w) ∧ w.Counted) (fun w₀ h₀=>?_) ?_
    · exact ⟨⟨[],h₀.wellCounted⟩,by simp [World.Counted,h₀.tasks]⟩
    rintro w₁ w₂ op ⟨⟨lost,hw⟩,hc⟩ hv hs
    obtain ⟨lost',hw',-⟩:=hw.step hv hs
    exact ⟨⟨lost',hw'⟩,hc.step hs⟩
  refine ⟨fun t ht u hu i hi j hj f hf hf'=>hw.slot_unique ht hu hi hj hf hf',fun t ht i hi f hf=>?_,
    fun op w' hv hs=>⟨store_step hs,(hw.closing hv).elim fun _=>Balanced.closesLive⟩,fun t ht=>?_⟩
  · have hmem : f∈w.held:=mem_flatMap.mpr ⟨t,ht,World.mem_entries hi hf⟩
    obtain ⟨d,hd,-⟩:=hw.balanced.refers f (mem_append_left _ hmem)
    rw [hd]
    rfl
  · exact (hcount t ht).trans length_filled

/-- A task opens a file twice, drops one descriptor by `dup2`, and forks. -/
theorem descriptors_owned_forked : ∃w,Reach Booted step Op.Valid w ∧ w.tasks=[8,7] ∧
    ∀t∈w.tasks,(w.table t).count=((List.range maxFds).filter fun i=>((w.table t).fds i).isSome).length:=by
  have h₀ : Reach Booted step Op.Valid bootedWorld:=.start bootedWorld_booted
  obtain ⟨w,hw,htasks⟩:=h₀.exists_replay
    (opened++[.dup2 7 3 4 (fileAt 6),.fork 7 8 true [fileAt 11,fileAt 12,fileAt 13,fileAt 14,fileAt 15]])
    (fun w=>w.tasks=[8,7]) (by decide +kernel)
  exact ⟨w,hw,htasks,(descriptors_owned hw).2.2.2⟩

end World

end Knail.Descriptors
