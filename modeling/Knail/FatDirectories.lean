import Knail.FatChains
import Mathlib.Data.Finset.Card
import Mathlib.Order.Interval.Finset.Nat

/-!
# Directories as lists of entries

The clusters of a directory have room for entries of 32 bytes, in the order of the chain. The
searches of the driver are searches in the list of these places.
-/
namespace Knail.Fat32

open Vfs List

variable {m : Mount} {d d' : Disk} {c x n first : ℕ} {xs ys : List ℕ} {name : List UInt8} {p q : ℕ×ℕ}
  {c' sectors s : ℕ}

theorem length_le_totalClusters (hr : ∀x∈xs,InRange m x) (hn : xs.Nodup) : xs.length ≤ m.totalClusters:=by
  have hsub : xs.toFinset⊆Finset.Ico 2 (m.totalClusters+2):=by
    intro y hy
    obtain ⟨hlow,hhigh⟩:=hr y (mem_toFinset.mp hy)
    exact Finset.mem_Ico.mpr ⟨hlow,hhigh⟩
  have hcard:=Finset.card_le_card hsub
  rw [toFinset_card_of_nodup hn,Nat.card_Ico] at hcard
  omega

theorem chain_length_le (hl : Linked (table m d) xs) (hn : xs.Nodup) : xs.length ≤ m.totalClusters:=
  length_le_totalClusters (fun _ hx=>inRange_of_ne_free (hl.ne_free hx)) hn

theorem u32_clusterToLba (m : Mount) (c : ℕ) : u32 (clusterToLba m c)=clusterToLba m c:=Nat.mod_mod ..

section FindSome

variable {α β γ : Type*}

theorem findSome?_congr {f g : α→Option β} {l : List α} (h : ∀a∈l,f a=g a) : l.findSome? f=l.findSome? g:=by
  induction l with
  | nil=>rfl
  | cons a l ih=>
    rw [findSome?_cons,findSome?_cons,h a mem_cons_self,ih fun b hb=>h b (mem_cons_of_mem _ hb)]

theorem findSome?_flatMap (f : β→Option γ) (g : α→List β) (l : List α) :
    (l.flatMap g).findSome? f=l.findSome? fun a=>(g a).findSome? f:=by
  induction l with
  | nil=>rfl
  | cons a l ih=>
    rw [flatMap_cons,findSome?_append,findSome?_cons,ih]
    cases (g a).findSome? f <;> rfl

end FindSome

def clusterSlots (m : Mount) (c : ℕ) : List (ℕ×ℕ):=
  (List.range m.sectorsPerCluster).flatMap fun s=>
    (List.range 16).map fun e=>(m.dataStart+((c-2)*m.sectorsPerCluster+s),e*32)

def dirSlots (m : Mount) (xs : List ℕ) : List (ℕ×ℕ):=xs.flatMap (clusterSlots m)

def entryOf (d : Disk) (p : ℕ×ℕ) : ℕ→UInt8:=entryAt (d.data p.1) p.2

theorem mem_clusterSlots : p∈clusterSlots m c↔∃s < m.sectorsPerCluster,∃e<16,
    p=(m.dataStart+((c-2)*m.sectorsPerCluster+s),e*32):=by
  simp only [clusterSlots,mem_flatMap,mem_map,mem_range,eq_comm]

theorem mem_dirSlots : p∈dirSlots m xs↔∃c∈xs,p∈clusterSlots m c:=mem_flatMap

theorem clusterSlots_cons (c : ℕ) (hpos : 0 < m.sectorsPerCluster) :
    ∃t,clusterSlots m c=(m.dataStart+(c-2)*m.sectorsPerCluster,0)::t:=by
  obtain ⟨k,hk⟩:=Nat.exists_eq_add_one_of_ne_zero (Nat.ne_of_gt hpos)
  rw [clusterSlots,hk,@range_succ_eq_map k,flatMap_cons]
  exact ⟨_,rfl⟩

theorem cluster_unique (hc : 2 ≤ c) (hc' : 2 ≤ c') (h : p∈clusterSlots m c) (h' : p∈clusterSlots m c') : c=c':=by
  obtain ⟨s,hs,e,-,rfl⟩:=mem_clusterSlots.mp h
  obtain ⟨s',hs',e',-,heq⟩:=mem_clusterSlots.mp h'
  exact (cell_sector_inj hc hc' hs hs' (congrArg Prod.fst heq)).1

theorem nodup_clusterSlots (m : Mount) (c : ℕ) : (clusterSlots m c).Nodup:=by
  refine nodup_flatMap.mpr ⟨fun s _=>?_,?_⟩
  · refine nodup_range.map fun e e' he=>?_
    have:=congrArg Prod.snd he
    omega
  · refine nodup_range.imp fun {s s'} hne p hp hp'=>hne ?_
    obtain ⟨e,-,rfl⟩:=mem_map.mp hp
    obtain ⟨e',-,he⟩:=mem_map.mp hp'
    have:=congrArg Prod.fst he
    omega

theorem nodup_dirSlots (hlow : ∀c∈xs,2 ≤ c) (hn : xs.Nodup) : (dirSlots m xs).Nodup:=by
  refine nodup_flatMap.mpr ⟨fun c _=>nodup_clusterSlots m c,hn.imp_of_mem fun hc hc' hne p hp hp'=>hne ?_⟩
  exact cluster_unique (hlow _ hc) (hlow _ hc') hp hp'

theorem entryOf_eq_cell (hg : Geometry m d.sectors) (h : p∈clusterSlots m c) :
    ∃b,b+32 ≤ clusterBytes m ∧ ∀(d : Disk),∀i<32,entryOf d p i=cell m d c (b+i):=by
  obtain ⟨s,hs,e,he,rfl⟩:=mem_clusterSlots.mp h
  rw [hg.clusterBytes_eq]
  refine ⟨s*512+e*32,by omega,fun d i hi=>?_⟩
  have hdiv : (s*512+e*32+i)/512=s:=by omega
  have hmod : (s*512+e*32+i)%512=e*32+i:=by omega
  rw [entryOf,entryAt,cell,hdiv,hmod]

theorem entryOf_congr (hg : Geometry m d.sectors) (h : p∈clusterSlots m c)
    (hcells : ∀b<clusterBytes m,cell m d' c b=cell m d c b) {i : ℕ} (hi : i<32) : entryOf d' p i=entryOf d p i:=by
  obtain ⟨b,hb,hcell⟩:=entryOf_eq_cell hg h
  rw [hcell d' i hi,hcell d i hi,hcells _ (by omega)]

theorem slots_disjoint (h : p∈clusterSlots m c) (h' : q∈clusterSlots m c') (hne : p≠q)
    (hsector : p.1=q.1) : p.2+32≤q.2 ∨ q.2+32≤p.2:=by
  obtain ⟨s,-,e,-,rfl⟩:=mem_clusterSlots.mp h
  obtain ⟨s',-,e',-,rfl⟩:=mem_clusterSlots.mp h'
  have hee : e≠e':=by
    rintro rfl
    exact hne (Prod.ext hsector rfl)
  omega

/-- A place for a directory entry in the data region. -/
def DirentPlace (m : Mount) (sector offset : ℕ) : Prop:=
  m.dataStart ≤ sector ∧ sector < m.dataStart+m.totalClusters*m.sectorsPerCluster ∧ offset+32≤512

theorem Geometry.direntPlace (hg : Geometry m sectors) (hc : InRange m c) {offset : ℕ}
    (hs : s < m.sectorsPerCluster) (ho : offset+32≤512) : DirentPlace m (u32 (clusterToLba m c+s)) offset:=by
  obtain ⟨hlba,hlt⟩:=hg.lba_eq hc hs
  rw [hlba]
  exact ⟨by omega,hlt,ho⟩

theorem Geometry.direntPlace_of_mem (hg : Geometry m sectors) (hc : InRange m c) (h : p∈clusterSlots m c) :
    DirentPlace m p.1 p.2:=by
  obtain ⟨s,hs,e,he,rfl⟩:=mem_clusterSlots.mp h
  have hplace:=hg.direntPlace hc hs (by omega : e*32+32≤512)
  rwa [(hg.lba_eq hc hs).1] at hplace

theorem Volume.scanCluster_eq {α : Type} (hv : Volume m d) (hc : InRange m c)
    (visit : ℕ→ℕ→(ℕ→UInt8)→Option (Option α)) :
    scanCluster m d visit c=(clusterSlots m c).findSome? fun p=>visit p.1 p.2 (entryOf d p):=by
  rw [scanCluster,clusterSlots,findSome?_flatMap]
  refine findSome?_congr fun s hs=>?_
  obtain ⟨hlba,hlt⟩:=hv.geometry.lba_eq hc (mem_range.mp hs)
  rw [findSome?_map,hlba]
  dsimp only
  rw [devRead_of_lt (Nat.lt_of_lt_of_le hlt hv.geometry.end_le)]
  rfl

theorem Volume.dirFindLoop_eq (hv : Volume m d) (name : List UInt8) (hl : Linked (table m d) (x::xs))
    (hlen : (x::xs).length<n) : dirFindLoop m name d n x =
    some ((dirSlots m (x::xs)).findSome? fun p=>findVisit name p.1 p.2 (entryOf d p)).join:=by
  induction xs generalizing x n with
  | nil=>
    obtain ⟨n,rfl⟩:=Nat.exists_eq_add_of_lt hlen
    have hr : InRange m x:=inRange_of_ne_free (hl.ne_free mem_cons_self)
    obtain ⟨h1,h2⟩:=isEoc_of_inRange hv.geometry hr
    have heoc:=hv.readFat_last hr hl
    rw [length_singleton,Nat.add_comm 1 n,dirFindLoop,if_neg (by simp [h1,h2]),hv.scanCluster_eq hr,dirSlots,
      flatMap_singleton]
    split
    · rename_i hscan
      rw [hscan]
      rfl
    rename_i hscan
    rw [dirFindLoop,if_pos (.inl heoc),hscan]
    rfl
  | cons y ys ih=>
    obtain ⟨n,rfl⟩ : ∃k,n=k+1:=⟨n-1,by omega⟩
    have hr : InRange m x:=inRange_of_ne_free (hl.ne_free mem_cons_self)
    obtain ⟨h1,h2⟩:=isEoc_of_inRange hv.geometry hr
    rw [dirFindLoop,if_neg (by simp [h1,h2]),hv.scanCluster_eq hr,dirSlots,flatMap_cons,findSome?_append]
    split
    · rename_i hscan
      rw [hscan]
      rfl
    rename_i hscan
    rw [hscan,hv.readFat_next hr hl.1,Option.none_or]
    exact ih hl.2 (by simpa using hlen)

theorem Volume.dirFind_eq (hv : Volume m d) (name : List UInt8) (hl : Linked (table m d) (first::xs))
    (hn : (first::xs).Nodup) : dirFind m first name d =
    some ((dirSlots m (first::xs)).findSome? fun p=>findVisit name p.1 p.2 (entryOf d p)).join:=
  hv.dirFindLoop_eq name hl (Nat.lt_succ_of_le (chain_length_le hl hn))

theorem Volume.freeDirentLoop_eq (hv : Volume m d) (hl : Linked (table m d) (x::xs)) (hlen : (x::xs).length≤n) :
    freeDirentLoop m d n x = match (dirSlots m (x::xs)).findSome? fun p=>freeVisit p.1 p.2 (entryOf d p) with
    | some r=>some (.inl r)
    | none=>some (.inr ((x::xs).getLast (cons_ne_nil x xs))):=by
  induction xs generalizing x n with
  | nil=>
    obtain ⟨n,rfl⟩ : ∃k,n=k+1:=⟨n-1,by simp at hlen; omega⟩
    have hr : InRange m x:=inRange_of_ne_free (hl.ne_free mem_cons_self)
    rw [freeDirentLoop,if_neg (isEoc_of_inRange hv.geometry hr).2,hv.scanCluster_eq hr,dirSlots,flatMap_singleton]
    cases (clusterSlots m x).findSome? fun p=>freeVisit p.1 p.2 (entryOf d p) with
    | some r=>rfl
    | none=>
      rw [if_pos (.inl (hv.readFat_last hr hl))]
      rfl
  | cons y ys ih=>
    obtain ⟨n,rfl⟩ : ∃k,n=k+1:=⟨n-1,by simp at hlen; omega⟩
    have hr : InRange m x:=inRange_of_ne_free (hl.ne_free mem_cons_self)
    have hry : InRange m y:=inRange_of_ne_free (hl.ne_free (by simp))
    obtain ⟨h1,h2⟩:=isEoc_of_inRange hv.geometry hry
    rw [freeDirentLoop,if_neg (isEoc_of_inRange hv.geometry hr).2,hv.scanCluster_eq hr,dirSlots,flatMap_cons,
      findSome?_append]
    split
    · rename_i hscan
      rw [hscan]
      rfl
    rename_i hscan
    rw [hscan,hv.readFat_next hr hl.1,if_neg (by simp [h1,h2]),Option.none_or]
    exact ih hl.2 (by simpa using hlen)

theorem Wrote.cell_eq (h : Wrote m d d' xs ys n []) (hpos : 0<clusterBytes m) :
    (∀y∈xs,∀b<clusterBytes m,cell m d' y b=cell m d y b) ∧ ∀y∈ys,y∉xs→∀b<clusterBytes m,cell m d' y b=0:=by
  obtain ⟨ds,rfl,-⟩:=h.grows.extend
  have hbyte {i b : ℕ} (hi : i<(xs++ds).length) (hb : b<clusterBytes m) :
      cell m d' ((xs++ds).getD i 0) b=if i<xs.length then cell m d (xs.getD i 0) b else 0:=by
    have hlt:=mul_add_lt hi hb
    have hq:=h.bytes (i*clusterBytes m+b) hlt
    rw [if_neg (by simp only [length_nil]; omega)] at hq
    have hdiv : (i*clusterBytes m+b)/clusterBytes m=i:=by
      rw [Nat.mul_comm,Nat.mul_add_div hpos,Nat.div_eq_of_lt hb,Nat.add_zero]
    have hmod : (i*clusterBytes m+b)%clusterBytes m=b:=by
      rw [Nat.mul_comm,Nat.mul_add_mod,Nat.mod_eq_of_lt hb]
    have hiff : i*clusterBytes m+b<xs.length*clusterBytes m↔i<xs.length:=by
      rw [←Nat.div_lt_iff_lt_mul hpos,hdiv]
    simpa only [byteAt,hdiv,hmod,hiff] using hq
  constructor
  · intro y hy b hb
    obtain ⟨i,hi,rfl⟩:=getElem_of_mem hy
    have hcell:=hbyte (show i<(xs++ds).length by rw [length_append]; omega) hb
    rwa [if_pos hi,getD_append _ _ _ _ hi,getD_eq_getElem _ _ hi] at hcell
  · intro y hy hnew b hb
    obtain ⟨i,hi,rfl⟩:=getElem_of_mem hy
    have hge : ¬i<xs.length:=by
      intro hlt
      rw [getElem_append_left hlt] at hnew
      exact hnew (getElem_mem hlt)
    have hcell:=hbyte hi hb
    rwa [if_neg hge,getD_eq_getElem _ _ hi] at hcell

def FirstFree (d : Disk) (p : ℕ×ℕ) (slots : List (ℕ×ℕ)) : Prop:=
  ∃l r,slots=l++p::r ∧ (entryOf d p 0=0 ∨ entryOf d p 0=0xE5) ∧
    ∀q∈l,entryOf d q 0≠0 ∧ entryOf d q 0≠0xE5

theorem freeVisit_eq_none {e : ℕ→UInt8} {o : ℕ} (h : freeVisit s o e=none) : e 0≠0 ∧ e 0≠0xE5:=by
  unfold freeVisit at h
  split at h
  · cases h
  · rename_i hfree
    exact not_or.mp hfree

/-- `find_free_dirent` finds the first free place of a directory, which is in a new cluster if there
is none in the others. -/
theorem Volume.findFreeDirent_eq (hv : Volume m d) (hl : Linked (table m d) (first::xs)) (hn : (first::xs).Nodup) :
    (findFreeDirent m first d=some (none,d) ∧ Full m d) ∨
    ∃p d' ys,findFreeDirent m first d=some (some p,d') ∧ Wrote m d d' (first::xs) ys 0 [] ∧
    FirstFree d' p (dirSlots m ys):=by
  have hloop:=hv.freeDirentLoop_eq hl (Nat.le_succ_of_le (chain_length_le hl hn))
  cases hfind : (dirSlots m (first::xs)).findSome? fun p=>freeVisit p.1 p.2 (entryOf d p) with
  | some r=>
    rw [hfind] at hloop
    obtain ⟨l,p,t,hslots,hvisit,hbefore⟩:=findSome?_eq_some_iff.mp hfind
    unfold freeVisit at hvisit
    split at hvisit
    · rename_i hfree
      obtain rfl:=Option.some.inj hvisit
      refine .inr ⟨p,d,first::xs,by simp [findFreeDirent,hloop],.refl hv hl hn 0,l,t,hslots,hfree,?_⟩
      exact fun q hq=>freeVisit_eq_none (hbefore q hq)
    · cases hvisit
  | none=>
    rw [hfind] at hloop
    have hused:=findSome?_eq_none_iff.mp hfind
    obtain ⟨as,y,has⟩ : ∃as y,first::xs=as++[y]:=by
      obtain h | h:=eq_nil_or_concat (first::xs)
      exacts [absurd h (by simp),by simpa [concat_eq_append] using h]
    have hlast : (first::xs).getLast (cons_ne_nil first xs)=y:=by simp [has]
    rw [hlast] at hloop
    rw [has] at hl hn ⊢
    have hy : InRange m y:=inRange_of_ne_free (hl.ne_free (by simp))
    rcases hv.fresh_spec with ⟨he,hfull⟩ | ⟨c,d1,d2,he,hc0,hz,hf⟩
    · exact .inl ⟨by simp [findFreeDirent,hloop,he],hfull⟩
    obtain ⟨d3,hw,hfw,hcell⟩:=hf.link hv hy.2
    have hwrote:=hf.wrote_snoc hv hl hn hfw hcell 0
    have hcells:=hwrote.cell_eq hv.geometry.clusterBytes_pos
    obtain ⟨hlba,-⟩:=hv.geometry.lba_eq hf.inRange hv.geometry.perCluster_pos
    rw [Nat.add_zero,u32_clusterToLba,Nat.add_zero] at hlba
    obtain ⟨t,ht⟩:=clusterSlots_cons c hv.geometry.perCluster_pos
    have hnew : c∉as++[y]:=fun hm=>hl.ne_free hm hf.free
    have hsplit : dirSlots m (as++[y,c])=dirSlots m (as++[y])++clusterSlots m c:=by
      simp [dirSlots]
    refine .inr ⟨(clusterToLba m c,0),d3,as++[y,c],by simp [findFreeDirent,hloop,he,hc0,hz,hw],hwrote,
      dirSlots m (as++[y]),t,?_,.inl ?_,fun q hq=>?_⟩
    · rw [hsplit,ht,hlba]
    · have hp : (clusterToLba m c,0)∈clusterSlots m c:=by
        rw [ht,hlba]
        exact mem_cons_self
      obtain ⟨b,hb,hentry⟩:=entryOf_eq_cell hv.geometry hp
      rw [hentry d3 0 (by omega),hcells.2 c (by simp) hnew _ (by omega)]
    · rw [has] at hused
      obtain ⟨x,hx,hqx⟩:=mem_dirSlots.mp hq
      rw [entryOf_congr hv.geometry hqx (hcells.1 x hx) (by omega)]
      exact freeVisit_eq_none (hused q hq)

end Knail.Fat32
