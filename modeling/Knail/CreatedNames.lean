import Knail.NewEntries

/-!
# Names of created entries

`fat_create` looks for the name it is given, and stores what `encode_83` leaves of it. If the name does
not fit, or looks like that of a deleted entry, it is not found again.
-/
namespace Knail.Fat32

open Vfs List Option

variable {m : Mount} {root c first : ℕ} {d d' d'' : Disk} {xs ys : List ℕ} {p q : ℕ×ℕ} {name : List UInt8} {de : ℕ→UInt8}
  {chain : Option (ℕ×ℕ)→List ℕ} {o : Option (ℕ×ℕ)} {dfn : Fat32Node} {type : VType} {alloc : Bool×Bool} {v : VNode}

/-- The entry is in use and has a short name: `dir_find` can return it. -/
def Findable (d : Disk) (p : ℕ×ℕ) : Prop:=
  entryOf d p 0≠0 ∧ entryOf d p 0≠0xE5 ∧ entryOf d p 11≠attrLfn ∧ entryOf d p 11&&&attrVolumeId=0

instance (d : Disk) (p : ℕ×ℕ) : Decidable (Findable d p):=inferInstanceAs (Decidable (_ ∧ _))

/-- The entries of a directory have different names of eleven bytes. -/
def DistinctNames (m : Mount) (d : Disk) (xs : List ℕ) : Prop:=
  ∀p∈dirSlots m xs,∀q∈dirSlots m xs,Findable d p→Findable d q→(∀i<11,entryOf d p i=entryOf d q i)→p=q

theorem findVisit_of_findable (h : Findable d p) (hm : nameMatches (entryOf d p) name=true) :
    findVisit name p.1 p.2 (entryOf d p)=some (some (entryOf d p,p.1,p.2)):=by
  rw [findVisit,if_neg h.1,if_neg,if_pos hm]
  rintro (h1 | h2 | h3)
  exacts [h.2.1 h1,h.2.2.1 h2,h3 h.2.2.2]

theorem findVisit_of_ne_zero (h0 : entryOf d p 0≠0) (h : Findable d p→nameMatches (entryOf d p) name=false) :
    findVisit name p.1 p.2 (entryOf d p)=none:=by
  rw [findVisit,if_neg h0]
  split
  · rfl
  rename_i hskip
  rw [not_or,not_or,not_not] at hskip
  rw [h ⟨h0,hskip⟩]
  rfl

theorem Ended.not_matches {slots : List (ℕ×ℕ)} (h : Ended (viewOf d) slots)
    (hnone : (slots.findSome? fun p=>findVisit name p.1 p.2 (entryOf d p)).join=none) :
    ∀p∈slots,Findable d p→nameMatches (entryOf d p) name=false:=by
  induction slots with
  | nil=>exact fun p hp=>absurd hp not_mem_nil
  | cons q slots ih=>
    obtain ⟨hq,hrest⟩:=pairwise_cons.mp h
    rw [findSome?_cons] at hnone
    by_cases h0 : entryOf d q 0=0
    · intro p hp hfind
      obtain rfl | hp:=mem_cons.mp hp
      exacts [absurd h0 hfind.1,absurd (hq p hp h0) hfind.1]
    have hqno : Findable d q→nameMatches (entryOf d q) name=false:=by
      intro hfind
      refine Bool.eq_false_iff.mpr fun hm=>?_
      rw [findVisit_of_findable hfind hm] at hnone
      cases hnone
    rw [findVisit_of_ne_zero h0 hqno] at hnone
    intro p hp
    obtain rfl | hp:=mem_cons.mp hp
    exacts [hqno,ih hrest hnone p hp]

/-- A directory with the clusters `xs` has the clusters `ys` now, and a new entry. -/
structure EntryCreated (m : Mount) (d d' : Disk) (xs ys : List ℕ) (p : ℕ×ℕ) (de : ℕ→UInt8) : Prop where
  volume : Volume m d'
  linked : Linked (table m d') ys
  nodup : ys.Nodup
  grows : xs <+: ys
  first : ∃l r,dirSlots m ys=l++p::r ∧ ∀q∈l,q≠p ∧ entryOf d' q 0≠0
  self : ∀i<32,entryOf d' p i=de i
  other : ∀q∈dirSlots m ys,q≠p→entryOf d' q 0=0 ∨ q∈dirSlots m xs ∧ ∀i<32,entryOf d' q i=entryOf d q i

/-- A place for the entry was found, clusters outside of the directory were written, and then the entry. -/
theorem Volume.entryCreated {d1 d2 : Disk} (hv : Volume m d) (hw : Wrote m d d1 xs ys 0 [])
    (hfree : FirstFree d1 p (dirSlots m ys)) (hk : Kept m d1 d2) (htable : ∀y∈ys,table m d2 y=table m d1 y)
    (hcells : ∀y∈ys,∀b<clusterBytes m,cell m d2 y b=cell m d1 y b) (hs : SlotWritten m d2 d' p)
    (hself : ∀i<32,entryOf d' p i=de i) : EntryCreated m d d' xs ys p de:=by
  have hv1:=hw.kept.volume hv
  have hr (y : ℕ) (hy : y∈ys) : InRange m y:=inRange_of_ne_free (hw.grows.linked.ne_free hy)
  obtain ⟨l,r,hslots,-,hbefore⟩:=hfree
  obtain ⟨c,-,hpc⟩:=mem_dirSlots.mp (show p∈dirSlots m ys by simp [hslots])
  have hsame (q : ℕ×ℕ) (hq : q∈dirSlots m ys) (hne : q≠p) (i : ℕ) (hi : i<32) : entryOf d' q i=entryOf d1 q i:=by
    obtain ⟨y,hy,hqy⟩:=mem_dirSlots.mp hq
    rw [hs.entryOf_eq hpc hqy hne hi,entryOf_congr hv1.geometry hqy (hcells y hy) hi]
  have hcell:=hw.cell_eq hv.geometry.clusterBytes_pos
  constructor
  case volume => exact hs.kept.volume (hk.volume hv1)
  case linked =>
    rw [hs.table_eq]
    exact hw.grows.linked.congr htable
  case nodup => exact hw.grows.nodup
  case grows =>
    obtain ⟨ds,rfl,-⟩:=hw.grows.extend
    exact prefix_append xs ds
  case first =>
    have hn:=nodup_dirSlots (m:=m) (fun y hy=>(hr y hy).1) hw.grows.nodup
    rw [hslots] at hn
    refine ⟨l,r,hslots,fun q hq=>?_⟩
    have hne : q≠p:=by
      rintro rfl
      exact (nodup_append.mp hn).2.2 q hq q mem_cons_self rfl
    refine ⟨hne,?_⟩
    rw [hsame q (by simp [hslots,hq]) hne 0 (by omega)]
    exact (hbefore q hq).1
  case self => exact hself
  case other =>
    intro q hq hne
    obtain ⟨y,hy,hqy⟩:=mem_dirSlots.mp hq
    by_cases hold : y∈xs
    · refine .inr ⟨mem_dirSlots.mpr ⟨y,hold,hqy⟩,fun i hi=>?_⟩
      rw [hsame q hq hne i hi,entryOf_congr hv.geometry hqy (hcell.1 y hold) hi]
    obtain ⟨b,hb,hentry⟩:=entryOf_eq_cell hv.geometry hqy
    refine .inl ?_
    rw [hsame q hq hne 0 (by omega),hentry d1 0 (by omega),hcell.2 y hy hold _ (by omega)]

/-- What `fat_create` did if it returns a vnode. -/
theorem Volume.fatCreate_eq_some (hv : Volume m d) (hl : Linked (table m d) (dfn.firstCluster::xs))
    (hn : (dfn.firstCluster::xs).Nodup) (h : fatCreate m dfn name type alloc d=some (some v,d')) :
    ∃p c ys,dirFind m dfn.firstCluster name d=some none ∧ makeVnode (createEntry name type c) p.1 p.2 alloc=some v ∧
    EntryCreated m d d' (dfn.firstCluster::xs) ys p (createEntry name type c):=by
  have hfound:=hv.dirFind_eq name hl hn
  cases hjoin : ((dirSlots m (dfn.firstCluster::xs)).findSome? fun p=>findVisit name p.1 p.2 (entryOf d p)).join with
  | some e=>
    rw [hjoin] at hfound
    simp [fatCreate,hfound] at h
  | none=>
    rw [hjoin] at hfound
    obtain ⟨hnone,-⟩ | ⟨p,d1,ys,hplace,hw,hfree⟩:=hv.findFreeDirent_eq hl hn
    · simp [fatCreate,hfound,hnone] at h
    have hv1:=hw.kept.volume hv
    obtain ⟨x,hx,hpx⟩:=mem_dirSlots.mp (show p∈dirSlots m ys by
      obtain ⟨l,r,hslots,-⟩:=hfree
      simp [hslots])
    have hr : InRange m x:=inRange_of_ne_free (hw.grows.linked.ne_free hx)
    have hp:=hv.geometry.direntPlace_of_mem hr hpx
    by_cases htype : type = .dir
    · subst htype
      obtain hmake | ⟨c,d2,hmake,hnew⟩:=hv1.makeDir_eq dfn.firstCluster
      · simp [fatCreate,hfound,hplace,hmake] at h
      obtain ⟨d3,hwrite,hs,hde⟩:=(hnew.kept.volume hv1).writeDirentAt_eq hp (createEntry name .dir c)
      simp only [fatCreate,hfound,hplace,if_pos,hmake,hwrite,Option.some.injEq,Prod.mk.injEq] at h
      obtain ⟨hmade,rfl⟩:=h
      have hne (y : ℕ) (hy : y∈ys) : y≠c:=by
        rintro rfl
        exact hw.grows.linked.ne_free hy hnew.free
      exact ⟨p,c,ys,hfound,hmade,hv.entryCreated hw hfree hnew.kept (fun y hy=>hnew.other y (hne y hy))
        (fun y hy=>hnew.cells y (inRange_of_ne_free (hw.grows.linked.ne_free hy)) (hne y hy)) hs hde⟩
    · obtain ⟨d3,hwrite,hs,hde⟩:=hv1.writeDirentAt_eq hp (createEntry name type 0)
      simp only [fatCreate,hfound,hplace,if_neg htype,hwrite,Option.some.injEq,Prod.mk.injEq] at h
      obtain ⟨hmade,rfl⟩:=h
      exact ⟨p,0,ys,hfound,hmade,hv.entryCreated hw hfree (.refl hv1.mirrored) (fun _ _=>rfl)
        (fun _ _ _ _=>rfl) hs hde⟩

theorem nameMatches_createEntry (hstr : 0∉name) (type : VType) (c : ℕ) :
    nameMatches (createEntry name type c) name=true↔Name83 name:=by
  exact nameMatches_newEntry hstr _

theorem map_toLower_decode83 (e : ℕ→UInt8) : (decode83 e).map toLower =
    joinParts ((trimSpaces ((List.range 8).map e)).map toLower)
    ((trimSpaces ((List.range 3).map fun i=>e (8+i))).map toLower):=by
  have hlow (flag : Prop) [Decidable flag] (xs : List UInt8) :
      (if flag then xs.map toLower else xs).map toLower=xs.map toLower:=by
    split
    · simp [Function.comp_def,toLower_toLower]
    · rfl
  rw [decode83,map_append,hlow,joinParts]
  by_cases hext : trimSpaces ((List.range 3).map fun i=>e (8+i))=[]
  · simp [hext]
  · rw [if_neg hext,map_cons,hlow,(toLower_eq_iff (show Caseless 46 by decide) 46).mpr rfl,
      if_neg (mt map_eq_nil_iff.mp hext)]

theorem nameMatches_congr {e e' : ℕ→UInt8} (h : ∀i<11,e' i=e i) : nameMatches e' name=nameMatches e name:=by
  have hbase : (List.range 8).map e'=(List.range 8).map e:=
    map_congr_left fun i hi=>h i (Nat.lt_trans (mem_range.mp hi) (by decide))
  have hext : ((List.range 3).map fun i=>e' (8+i))=(List.range 3).map fun i=>e (8+i):=by
    refine map_congr_left fun i hi=>h _ ?_
    have:=mem_range.mp hi
    omega
  have hlow : (decode83 e').map toLower=(decode83 e).map toLower:=by
    rw [map_toLower_decode83,map_toLower_decode83,hbase,hext]
  have htake (xs : List UInt8) : (xs.takeWhile (· ≠ 0)).map toLower=(xs.map toLower).takeWhile (· ≠ 0):=by
    have hzero : (fun c=>decide (c≠(0 : UInt8))) ∘ toLower=fun c=>decide (c≠0):=by
      funext c
      simp [toLower_eq_iff (show Caseless 0 by decide)]
    rw [takeWhile_map,hzero]
  rw [nameMatches,nameMatches,htake,htake,hlow]

theorem createEntry_of_lt {i : ℕ} (hi : i<20) (c : ℕ) : createEntry name type c i=createEntry name type 0 i:=by
  rw [createEntry,createEntry,putCluster_of_lt (by omega),putCluster_of_lt (by omega)]

theorem createEntry_deleted (h : name.head? = some 0xE5) (type : VType) (c : ℕ) : createEntry name type c 0=0xE5:=by
  obtain ⟨rest,rfl⟩:=head?_eq_some_iff.mp h
  rfl

theorem makeVnode_priv {sector offset : ℕ} (h : makeVnode de sector offset alloc=some v) :
    ∃fn,v.priv=some fn ∧ fn.direntSector=sector ∧ fn.direntOffset=offset:=by
  obtain ⟨_ | _,_ | _⟩:=alloc
  · cases h
  · cases h
  · cases h
  · obtain rfl:=some.inj h
    exact ⟨_,rfl,rfl,rfl⟩

theorem Findable.congr (h : Findable d' q) (he : ∀i<32,d'.data q.1 (q.2+i)=d.data q.1 (q.2+i)) : Findable d q:=by
  have h0 : entryOf d' q 0=entryOf d q 0:=he 0 (by omega)
  have h1 : entryOf d' q 11=entryOf d q 11:=he 11 (by omega)
  rw [Findable,h0,h1] at h
  exact h

namespace EntryCreated

variable {c : ℕ}

theorem old (hc : EntryCreated m d d' xs ys p de) (hq : q∈dirSlots m ys) (hne : q≠p) (hfind : Findable d' q) :
    q∈dirSlots m xs ∧ Findable d q ∧ ∀i<32,entryOf d' q i=entryOf d q i:=by
  obtain hzero | ⟨hold,hsame⟩:=hc.other q hq hne
  · exact absurd hzero hfind.1
  · exact ⟨hold,hfind.congr hsame,hsame⟩

theorem findable (hc : EntryCreated m d d' xs ys p (createEntry name type c)) (hstr : 0∉name)
    (hdel : name.head?≠some 0xE5) : Findable d' p:=by
  obtain ⟨hzero,hE5,-,hattr,-⟩:=createEntry_spec hstr hdel type (show 0<4294967296 by decide)
  rw [Findable,hc.self 0 (by omega),hc.self 11 (by omega),createEntry_of_lt (by omega) c,createEntry_of_lt (by omega) c,
    hattr]
  refine ⟨hzero,hE5,?_⟩
  split <;> decide

theorem nameMatches_self (hc : EntryCreated m d d' xs ys p (createEntry name type c)) (hstr : 0∉name) :
    nameMatches (entryOf d' p) name=true↔Name83 name:=by
  rw [nameMatches_congr fun i hi=>hc.self i (by omega),nameMatches_createEntry hstr]

theorem dirFind_eq (hc : EntryCreated m d d' xs (first::ys) p (createEntry name type c)) (hstr : 0∉name)
    (hdel : name.head?≠some 0xE5) (hfits : Name83 name)
    (hold : ∀q∈dirSlots m xs,Findable d q→nameMatches (entryOf d q) name=false) :
    dirFind m first name d'=some (some (entryOf d' p,p.1,p.2)):=by
  obtain ⟨l,r,hslots,hl⟩:=hc.first
  have hbefore : (l.findSome? fun q=>findVisit name q.1 q.2 (entryOf d' q))=none:=by
    refine findSome?_eq_none_iff.mpr fun q hq=>findVisit_of_ne_zero (hl q hq).2 fun hfind=>?_
    obtain ⟨hmem,hfind,hsame⟩:=hc.old (by simp [hslots,hq]) (hl q hq).1 hfind
    rw [nameMatches_congr fun i hi=>hsame i (by omega)]
    exact hold q hmem hfind
  rw [hc.volume.dirFind_eq name hc.linked hc.nodup,hslots,findSome?_append,hbefore,none_or,findSome?_cons,
    findVisit_of_findable (hc.findable hstr hdel) ((hc.nameMatches_self hstr).mpr hfits)]
  rfl

theorem distinctNames (hc : EntryCreated m d d' xs ys p (createEntry name type c)) (hstr : 0∉name) (hfits : Name83 name)
    (hold : ∀q∈dirSlots m xs,Findable d q→nameMatches (entryOf d q) name=false) (hdist : DistinctNames m d xs) :
    DistinctNames m d' ys:=by
  -- another entry with the bytes of the new one would match the name
  have hself (q : ℕ×ℕ) (hq : q∈dirSlots m ys) (hfind : Findable d' q)
      (heq : ∀i<11,entryOf d' q i=entryOf d' p i) : q=p:=by
    by_contra hne
    obtain ⟨hmem,hfind,hsame⟩:=hc.old hq hne hfind
    have hmatch:=(hc.nameMatches_self hstr).mpr hfits
    rw [←nameMatches_congr heq,nameMatches_congr fun i hi=>hsame i (by omega),hold q hmem hfind] at hmatch
    cases hmatch
  intro q hq q' hq' hfind hfind' heq
  by_cases hp : q=p
  · subst hp
    exact (hself q' hq' hfind' fun i hi=>(heq i hi).symm).symm
  by_cases hp' : q'=p
  · subst hp'
    exact hself q hq hfind heq
  obtain ⟨hmem,hfind,hsame⟩:=hc.old hq hp hfind
  obtain ⟨hmem',hfind',hsame'⟩:=hc.old hq' hp' hfind'
  refine hdist q hmem q' hmem' hfind hfind' fun i hi=>?_
  rw [←hsame i (by omega),←hsame' i (by omega),heq i hi]

end EntryCreated

/-- The entry that `fat_create` has made is the one that `dir_find` finds under its name, and no other
one has the same eleven bytes, exactly if the name fits and does not look like a deleted one. -/
theorem created_entry_found_iff (h : Tidy m root d chain) (ho : Below (kids m (viewOf d) chain) o)
    (hdir : Owner.IsDir (viewOf d) o) (hhead : (chain o).head? = some dfn.firstCluster) (hdist : DistinctNames m d (chain o))
    (hstr : 0∉name) (hcreate : fatCreate m dfn name type alloc d=some (some v,d')) : (∃fn ys,v.priv=some fn ∧
    dirFind m dfn.firstCluster name d' =
    some (some (entryOf d' (fn.direntSector,fn.direntOffset),fn.direntSector,fn.direntOffset)) ∧
    Linked (table m d') ys ∧ ys.head? = some dfn.firstCluster ∧ DistinctNames m d' ys) ↔
    Name83 name ∧ name.head?≠some 0xE5:=by
  obtain ⟨cs,hcs⟩:=head?_eq_some_iff.mp hhead
  have hl:=h.tree.chains.linked o ho
  have hn:=h.tree.chains.nodup o ho
  have hended:=h.tree.ended o ho hdir
  rw [hcs] at hl hn hended hdist
  obtain ⟨p,c,ys,hnone,hmade,hc⟩:=h.volume.fatCreate_eq_some hl hn hcreate
  obtain ⟨fn,hfn,hsector,hoffset⟩:=makeVnode_priv hmade
  rw [h.volume.dirFind_eq name hl hn,some_inj] at hnone
  have hold:=hended.not_matches hnone
  obtain ⟨ys,rfl⟩ : ∃zs,ys=dfn.firstCluster::zs:=by
    obtain ⟨zs,rfl⟩:=hc.grows
    exact ⟨cs++zs,rfl⟩
  constructor
  · rintro ⟨fn',ys',hfn',hfind,-⟩
    obtain rfl:=some.inj (hfn'.symm.trans hfn)
    rw [hsector,hoffset] at hfind
    obtain ⟨-,-,-,hE5,-,-,hmatch⟩:=hc.volume.mem_of_dirFind hc.linked hc.nodup hfind
    refine ⟨(hc.nameMatches_self hstr).mp hmatch,fun hdel=>hE5 ?_⟩
    rw [hc.self 0 (by omega),createEntry_deleted hdel]
  · rintro ⟨hfits,hdel⟩
    refine ⟨fn,dfn.firstCluster::ys,hfn,?_,hc.linked,rfl,hc.distinctNames hstr hfits hold hdist⟩
    rw [hsector,hoffset]
    exact hc.dirFind_eq hstr hdel hfits hold

theorem smallDisk_distinctNames : DistinctNames smallMount smallDisk [2]:=fun p hp _ _ hfind=>
  absurd (smallDisk_entries p hp) hfind.1

def longName (c : UInt8) : List UInt8:=List.replicate 8 65++[c]

/-- A name of nine letters is not found after its entry was made. So another one with the same eight
letters gets an entry with the same eleven bytes. -/
theorem long_names_collide : (∃chain,Tidy smallMount 2 smallDisk chain ∧ chain none=[2]) ∧
    DistinctNames smallMount smallDisk [2] ∧ ∃v d v' d',
    fatCreate smallMount ⟨2,true,0,0,false⟩ (longName 66) .file (true,true) smallDisk=some (some v,d) ∧
    dirFind smallMount 2 (longName 66) d=some none ∧
    fatCreate smallMount ⟨2,true,0,0,false⟩ (longName 67) .file (true,true) d=some (some v',d') ∧
    ¬DistinctNames smallMount d' [2]:=by
  refine ⟨⟨_,smallDisk_tidy,rfl⟩,smallDisk_distinctNames,?_⟩
  have hrun : (fatCreate smallMount ⟨2,true,0,0,false⟩ (longName 66) .file (true,true) smallDisk).any (fun r=>
      r.1.isSome && (dirFind smallMount 2 (longName 66) r.2).any Option.isNone &&
      (fatCreate smallMount ⟨2,true,0,0,false⟩ (longName 67) .file (true,true) r.2).any fun r' : Option VNode×Disk=>r'.1.isSome &&
        decide (Findable r'.2 (3,0) ∧ Findable r'.2 (3,32) ∧ ∀i<(11 : ℕ),entryOf r'.2 (3,0) i=entryOf r'.2 (3,32) i)) =
      true:=by
    decide +kernel
  obtain ⟨⟨v,d⟩,hcreate,hP⟩:=(any_eq_true _ _).mp hrun
  simp only [Bool.and_eq_true] at hP
  obtain ⟨⟨hv,hfind⟩,hrest⟩:=hP
  obtain ⟨⟨v',d'⟩,hcreate',hP'⟩:=(any_eq_true _ _).mp hrest
  simp only [Bool.and_eq_true,decide_eq_true_eq] at hP'
  obtain ⟨hv',hfirst,hsecond,hsame⟩:=hP'
  obtain ⟨v,rfl⟩:=isSome_iff_exists.mp hv
  obtain ⟨v',rfl⟩:=isSome_iff_exists.mp hv'
  obtain ⟨r,hr,hnone⟩:=(any_eq_true _ _).mp hfind
  refine ⟨v,d,v',d',hcreate,?_,hcreate',fun hdist=>?_⟩
  · rw [hr,isNone_iff_eq_none.mp hnone]
  · exact absurd (hdist (3,0) (by decide) (3,32) (by decide) hfirst hsecond hsame) (by decide)

/-- A name that fits. -/
theorem created_entry_found_small : ∃v d fn,
    fatCreate smallMount ⟨2,true,0,0,false⟩ [97,46,66] .file (true,true) smallDisk=some (some v,d) ∧
    v.priv=some fn ∧ dirFind smallMount 2 [97,46,66] d =
    some (some (entryOf d (fn.direntSector,fn.direntOffset),fn.direntSector,fn.direntOffset)):=by
  have hrun : (fatCreate smallMount ⟨2,true,0,0,false⟩ [97,46,66] .file (true,true) smallDisk).any
      (fun r=>r.1.isSome)=true:=by
    decide +kernel
  obtain ⟨⟨v,d⟩,hcreate,hv⟩:=(any_eq_true _ _).mp hrun
  obtain ⟨v,rfl⟩:=isSome_iff_exists.mp hv
  obtain ⟨fn,ys,hfn,hfind,-⟩:=(created_entry_found_iff smallDisk_tidy .root trivial rfl smallDisk_distinctNames
    (by decide) hcreate).mpr (by decide)
  exact ⟨v,d,fn,hcreate,hfn,hfind⟩

end Knail.Fat32
