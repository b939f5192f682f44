import Knail.FaultyDevices
import Knail.Transitions

/-!
# Clusters that are handed out

Files get clusters from `alloc_cluster` and release them on a device that fails at arbitrary times. As long as every
cluster handed out is marked, and a release reaches all copies of the table or not even the first, no two files share
one.
-/
namespace Knail.Fat32

open Function List Option

variable {m : Mount} {s s' : Faulty} {c v f : ℕ} {sectors : ℕ}

theorem inRange_of_lt (hlo : 2 ≤ c) (hhi : c<u32 (m.totalClusters+2)) : InRange m c:=by
  refine ⟨hlo,?_⟩
  unfold u32 at hhi
  omega

section

variable (hg : Geometry m sectors)
include hg

theorem Geometry.tableSector_eq (hc : InRange m c) : tableSector c=c*4/512:=by
  rw [tableSector,hg.u32_offset hc.2]

theorem Geometry.tableOffset_eq (hc : InRange m c) : tableOffset c=c*4%512:=by
  rw [tableOffset,hg.u32_offset hc.2]

theorem Geometry.tableSector_lt (hc : InRange m c) : tableSector c < m.fatSize:=by
  rw [hg.tableSector_eq hc]
  exact hg.table_lt hc.2

theorem Geometry.table_eq (d : Disk) (hc : InRange m c) :
    table m d c=linkOf (getLE (d.data (copySector m (tableSector c) 0)) 4 (tableOffset c)%0x10000000):=by
  rw [table_of_inRange hc,entry,hg.copySector_eq hg.numFats_pos (hg.tableSector_lt hc),hg.tableSector_eq hc,
    hg.tableOffset_eq hc]

end

theorem linkOf_eq_free : linkOf v = .free↔v=0:=by
  unfold linkOf
  split
  · simp_all
  · split <;> simp_all

theorem Geometry.markedIn_iff (hg : Geometry m sectors) {d : Disk} (hc : InRange m c) :
    MarkedIn m d 0 c↔table m d c≠.free:=by
  rw [hg.table_eq d hc,Ne,linkOf_eq_free,MarkedIn]

theorem Geometry.isCopy_iff_eq {k b : ℕ} (hg : Geometry m sectors) (hc : InRange m c) (hb : InRange m b)
    (hk : k ≤ m.numFats) (hpos : 0<k) :
    IsCopy m (tableSector c) 0 k (copySector m (tableSector b) 0)↔tableSector b=tableSector c:=by
  have hsb:=hg.tableSector_lt hb
  have hsc:=hg.tableSector_lt hc
  constructor
  · rintro ⟨g,-,hgk,heq⟩
    rw [hg.copySector_eq hg.numFats_pos hsb,hg.copySector_eq (by omega) hsc] at heq
    exact (mul_add_inj hsb hsc (by omega : 0*m.fatSize+tableSector b=g*m.fatSize+tableSector c)).2
  · intro heq
    exact ⟨0,le_rfl,by omega,by rw [heq]⟩

theorem Geometry.table_of_copiesWritten {d d' : Disk} {k : ℕ} (hg : Geometry m d.sectors) (hc : InRange m c)
    (hk : k ≤ m.numFats) (hpos : 0<k)
    (hw : CopiesWritten m (tableSector c) (tableUpdate (d.data (copySector m (tableSector c) 0)) c v) 0 k d d') :
    table m d'=update (table m d) c (linkOf (v%0x10000000)):=by
  funext b
  by_cases hb : InRange m b
  · rw [update_apply,hg.table_eq d' hb]
    by_cases hsector : tableSector b=tableSector c
    · rw [hw.copies _ ((hg.isCopy_iff_eq hc hb hk hpos).mpr hsector)]
      by_cases hbc : b=c
      · subst hbc
        rw [if_pos rfl,getLE_tableUpdate]
      have hdisj : tableOffset b+4≤tableOffset c ∨ tableOffset c+4≤tableOffset b:=by
        rw [hg.tableSector_eq hb,hg.tableSector_eq hc] at hsector
        rw [hg.tableOffset_eq hb,hg.tableOffset_eq hc]
        omega
      rw [if_neg hbc,tableUpdate,getLE_putLE_of_disjoint hdisj,hg.table_eq d hb,hsector]
    · have hbc : b≠c:=by
        rintro rfl
        exact hsector rfl
      rw [if_neg hbc,hw.others _ fun h=>hsector ((hg.isCopy_iff_eq hc hb hk hpos).mp h),hg.table_eq d hb]
  · have hbc : b≠c:=by
      rintro rfl
      exact hb hc
    rw [update_of_ne hbc,table,table,if_neg hb,if_neg hb]

theorem Geometry.writeFat_faulty (hg : Geometry m s.disk.sectors) (hc : InRange m c) (v : ℕ) :
    ∃ok s',faultyDevice.writeFat m c v s=(ok,s') ∧ s'.disk.sectors=s.disk.sectors ∧
    (table m s'.disk=update (table m s.disk) c (linkOf (v%0x10000000)) ∨
    ok=false ∧ table m s'.disk=table m s.disk) ∧
    (ok=true↔s.Readable m c ∧ ∀g < m.numFats,(s.after 1).Lands m (tableSector c) 0 g) ∧
    (table m s'.disk=table m s.disk ∨ s.Readable m c ∧ (s.after 1).Lands m (tableSector c) 0 0):=by
  rcases Fat32.writeFat_faulty m c v s with ⟨hr,he⟩ | ⟨hr,k,s',hk,hlands,hstop,he,-,hw⟩
  · exact ⟨false,_,he,rfl,.inr ⟨rfl,rfl⟩,by simp [hr],.inl rfl⟩
  have hok : decide (k=m.numFats)=true↔∀g < m.numFats,(s.after 1).Lands m (tableSector c) 0 g:=by
    rw [decide_eq_true_iff]
    constructor
    · rintro rfl
      exact hlands
    intro hall
    by_contra hne
    exact hstop (by omega) (hall k (by omega))
  rcases Nat.eq_zero_or_pos k with rfl | hpos
  · have hsame : table m s'.disk=table m s.disk:=by
      have hdata : s'.disk.data=s.disk.data:=funext fun lba=>hw.others lba not_isCopy_zero
      funext b
      simp only [table,entry,hdata]
    have hne : ¬0=m.numFats:=by
      have:=hg.numFats_pos
      omega
    exact ⟨_,s',he,hw.sectors,.inr ⟨by simpa using hne,hsame⟩,by simp only [hok,hr,true_and],.inl hsame⟩
  · exact ⟨_,s',he,hw.sectors,.inl (hg.table_of_copiesWritten hc hk hpos hw),by simp only [hok,hr,true_and],
      .inr ⟨hr,hlands 0 hpos⟩⟩

theorem write_faulty (lba : ℕ) (buf : ℕ→UInt8) (s : Faulty) : (faultyDevice.write lba buf s).2.disk=s.disk ∨
    devWrite s.disk lba buf=some (faultyDevice.write lba buf s).2.disk:=by
  simp only [faultyDevice]
  by_cases hfault : s.faults s.time
  · exact .inl (by rw [if_pos hfault]; rfl)
  rw [if_neg hfault]
  cases devWrite s.disk lba buf with
  | none=>exact .inl rfl
  | some d=>exact .inr rfl

/-- The device, and the clusters that were handed out and not released, each with its file. -/
structure Claimed where
  dev : Faulty
  owns : List (ℕ×ℕ)

/-- The ways in which the operations on files use the table: `chain_write`, `fat_create` and `find_free_dirent`
allocate and link, `fat_unlink` releases, all of them look at links, and data is written behind the tables. -/
inductive FatOp
  | look (c : ℕ)
  | alloc (file : ℕ)
  | link (file c v : ℕ)
  | release (file c : ℕ)
  | store (lba : ℕ) (buf : ℕ→UInt8)

/-- A file keeps a cluster whose release is reported as failed. -/
def Claimed.step (m : Mount) (x : Claimed) : FatOp→Option Claimed
  | .look c=>some {x with dev:=(faultyDevice.readFat m c x.dev).2}
  | .alloc file=>
    match faultyDevice.allocCluster m x.dev with
    | (c,dev)=>some ⟨dev,if c=0 then x.owns else (file,c)::x.owns⟩
  | .link _ c v=>some {x with dev:=(faultyDevice.writeFat m c v x.dev).2}
  | .release file c=>
    match faultyDevice.writeFat m c 0 x.dev with
    | (ok,dev)=>some ⟨dev,if ok then x.owns.erase (file,c) else x.owns⟩
  | .store lba buf=>some {x with dev:=(faultyDevice.write lba buf x.dev).2}

/-- A file links its clusters to each other or ends its chain; it releases a cluster when none of its others
leads there, as `fat_unlink` does from the head of the chain on. -/
def FatOp.Valid (m : Mount) (x : Claimed) : FatOp→Prop
  | .look _ | .alloc _=>True
  | .link file c v=>(file,c)∈x.owns ∧ ((file,v)∈x.owns ∨ 0x0FFFFFF8≤v%0x10000000)
  | .release file c=>(file,c)∈x.owns ∧ ∀b,(file,b)∈x.owns→table m x.dev.disk b≠.next c
  | .store lba _=>m.dataStart≤lba

/-- The transfers on which the clusters depend go well: those that mark a cluster, and those of a release unless they
fail before the first copy of the table is written. -/
def FatOp.Lucky (m : Mount) (x : Claimed) : FatOp→Prop
  | .alloc _=>MarksAll m x.dev
  | .release _ c=>x.dev.Readable m c→(x.dev.after 1).Lands m (tableSector c) 0 0 →
    ∀g < m.numFats,(x.dev.after 1).Lands m (tableSector c) 0 g
  | .look _ | .link _ _ _ | .store _ _=>True

/-- Every cluster belongs to one file and is in use, and its link leads to a cluster of the same file. -/
structure Claimed.Apart (m : Mount) (x : Claimed) : Prop where
  geometry : Geometry m x.dev.disk.sectors
  nodup : (x.owns.map Prod.snd).Nodup
  used : ∀p∈x.owns,table m x.dev.disk p.2≠.free
  links : ∀p∈x.owns,∀y,table m x.dev.disk p.2 = .next y→(p.1,y)∈x.owns

namespace Claimed.Apart

variable {x x' : Claimed} {file : ℕ}

section

variable (h : Apart m x)
include h

theorem inRange (hc : (file,c)∈x.owns) : InRange m c:=inRange_of_ne_free (h.used _ hc)

theorem of_table_eq (hsec : s.disk.sectors=x.dev.disk.sectors)
    (ht : table m s.disk=table m x.dev.disk) : Apart m {x with dev:=s} where
  geometry:=hsec▸h.geometry
  nodup:=h.nodup
  used p hp:=by
    rw [ht]
    exact h.used p hp
  links p hp y hy:=h.links p hp y (by rwa [←ht])

theorem free_of_firstFree (hc : x.dev.FirstFree m c) : InRange m c ∧ table m x.dev.disk c = .free:=by
  obtain ⟨hlo,hhi,⟨-,hread⟩,-⟩:=hc
  have hr:=inRange_of_lt hlo hhi
  rw [h.geometry.readFat_eq hr.2] at hread
  exact ⟨hr,by rw [table_of_inRange hr,linkOf_eq_free,hread]⟩

theorem notMem_of_firstFree (hc : x.dev.FirstFree m c) : (file,c)∉x.owns:=
  fun hmem=>h.used _ hmem (h.free_of_firstFree hc).2

theorem alloc (hm : MarksAll m x.dev) (hs : x.step m (.alloc file)=some x') : Apart m x':=by
  simp only [Claimed.step,some.injEq] at hs
  rcases allocCluster_faulty m x.dev with ⟨-,-,he⟩ | ⟨c,hc,he⟩
  · rw [he] at hs
    subst hs
    exact h.of_table_eq rfl rfl
  obtain ⟨hr,hfree⟩:=h.free_of_firstFree hc
  have hmark:=(markedIn_writeFat_iff m c 0 _).mpr (hm c hc 0 h.geometry.numFats_pos)
  have hg : Geometry m (x.dev.after (c-1)).disk.sectors:=h.geometry
  obtain ⟨ok,s',hw,hsec,htable,-,-⟩:=hg.writeFat_faulty hr 0x0FFFFFFF
  rw [he,hw] at hs
  rw [hw,h.geometry.markedIn_iff hr] at hmark
  -- the mark is there, so that the first copy has been written
  have htable : table m s'.disk=update (table m x.dev.disk) c .last:=by
    rcases htable with ht | ⟨-,ht⟩
    · exact ht
    · rw [ht] at hmark
      exact absurd hfree hmark
  rw [if_neg (by have:=hr.1; omega)] at hs
  subst hs
  have hne (p : ℕ×ℕ) (hp : p∈x.owns) : p.2≠c:=by
    rintro rfl
    exact h.notMem_of_firstFree hc hp
  constructor
  case geometry => exact hsec▸h.geometry
  case nodup =>
    refine nodup_cons.mpr ⟨fun hmem=>?_,h.nodup⟩
    obtain ⟨p,hp,heq⟩:=mem_map.mp hmem
    exact hne p hp heq
  case used =>
    intro p hp
    rw [htable]
    rcases mem_cons.mp hp with rfl | hp
    · simp
    · rw [update_of_ne (hne p hp)]
      exact h.used p hp
  case links =>
    intro p hp y hy
    rw [htable] at hy
    rcases mem_cons.mp hp with rfl | hp
    · simp at hy
    · rw [update_of_ne (hne p hp)] at hy
      exact mem_cons_of_mem _ (h.links p hp y hy)

theorem linkOf_of_valid (hv : (file,v)∈x.owns ∨ 0x0FFFFFF8≤v%0x10000000) :
    linkOf (v%0x10000000) = .last ∨ linkOf (v%0x10000000) = .next v ∧ (file,v)∈x.owns:=by
  rcases hv with hv | hv
  · have hr:=h.inRange hv
    have:=h.geometry.clusters_le
    have hmod : v%0x10000000=v:=Nat.mod_eq_of_lt (by have:=hr.2; omega)
    refine .inr ⟨?_,hv⟩
    rw [hmod,linkOf,if_neg (by have:=hr.1; omega),if_neg (by have:=hr.2; omega)]
  · exact .inl (by rw [linkOf,if_neg (by omega),if_pos hv])

theorem link (hv : (FatOp.link file c v).Valid m x) (hs : x.step m (.link file c v)=some x') : Apart m x':=by
  obtain ⟨hc,hv⟩:=hv
  obtain ⟨ok,s',hw,hsec,htable,-,-⟩:=h.geometry.writeFat_faulty (h.inRange hc) v
  simp only [Claimed.step,hw,some.injEq] at hs
  subst hs
  rcases htable with htable | ⟨-,htable⟩
  case inr => exact h.of_table_eq hsec htable
  have hlink:=h.linkOf_of_valid hv
  have hfile (p : ℕ×ℕ) (hp : p∈x.owns) (hpc : p.2=c) : p=(file,c):=
    inj_on_of_nodup_map h.nodup hp hc hpc
  constructor
  case geometry => exact hsec▸h.geometry
  case nodup => exact h.nodup
  case used =>
    intro p hp
    rw [htable,update_apply]
    split
    · rcases hlink with he | ⟨he,-⟩ <;> simp [he]
    · exact h.used p hp
  case links =>
    intro p hp y hy
    rw [htable,update_apply] at hy
    split at hy
    · rename_i hpc
      rcases hlink with he | ⟨he,hmem⟩
      · simp [he] at hy
      obtain rfl : v=y:=by simpa [he] using hy
      rw [hfile p hp hpc]
      exact hmem
    · exact h.links p hp y hy

theorem release (hv : (FatOp.release file c).Valid m x) (hl : (FatOp.release file c).Lucky m x)
    (hs : x.step m (.release file c)=some x') : Apart m x':=by
  obtain ⟨hc,hlast⟩:=hv
  obtain ⟨ok,s',hw,hsec,htable,hok,hfirst⟩:=h.geometry.writeFat_faulty (h.inRange hc) 0
  simp only [Claimed.step,hw,some.injEq] at hs
  subst hs
  cases ok with
  | false=>
    -- not even the first copy was written
    rcases hfirst with hsame | ⟨hread,hland⟩
    · exact h.of_table_eq hsec hsame
    · exact absurd (hok.mpr ⟨hread,hl hread hland⟩) (by simp)
  | true=>
    have htable : table m s'.disk=update (table m x.dev.disk) c .free:=
      htable.resolve_right (by simp)
    have hnodup : x.owns.Nodup:=h.nodup.of_map _
    have hkept (p : ℕ×ℕ) (hp : p∈x.owns.erase (file,c)) : p∈x.owns ∧ p≠(file,c):=
      ⟨mem_of_mem_erase hp,(hnodup.mem_erase_iff.mp hp).1⟩
    have hne (p : ℕ×ℕ) (hp : p∈x.owns.erase (file,c)) : p.2≠c:=
      fun hpc=>(hkept p hp).2 (inj_on_of_nodup_map h.nodup (hkept p hp).1 hc hpc)
    constructor
    case geometry => exact hsec▸h.geometry
    case nodup =>
      exact h.nodup.sublist (erase_sublist.map _)
    case used =>
      intro p hp
      rw [htable,update_of_ne (hne p hp)]
      exact h.used p (hkept p hp).1
    case links =>
      intro p hp y hy
      rw [htable,update_of_ne (hne p hp)] at hy
      refine (mem_erase_of_ne ?_).mpr (h.links p (hkept p hp).1 y hy)
      rintro ⟨⟩
      exact hlast p.2 (hkept p hp).1 hy

theorem store {lba : ℕ} {buf : ℕ→UInt8} (hv : m.dataStart≤lba)
    (hs : x.step m (.store lba buf)=some x') : Apart m x':=by
  simp only [Claimed.step,some.injEq] at hs
  subst hs
  rcases write_faulty lba buf x.dev with hsame | hwrite
  · exact h.of_table_eq (by rw [hsame]) (by rw [hsame])
  rw [devWrite] at hwrite
  split at hwrite
  · have hdisk:=(some.inj hwrite).symm
    refine h.of_table_eq (by rw [hdisk]) (table_congr h.geometry fun l _ hl=>?_)
    rw [hdisk]
    exact update_of_ne (by omega) _ _
  · cases hwrite

theorem step {op : FatOp} (hv : op.Valid m x) (hl : op.Lucky m x) (hs : x.step m op=some x') : Apart m x':=by
  cases op with
  | look c=>
    simp only [Claimed.step,readFat_faulty,some.injEq] at hs
    subst hs
    exact h.of_table_eq rfl rfl
  | alloc file=>exact h.alloc hl hs
  | link file c v=>exact h.link hv hs
  | release file c=>exact h.release hv hl hs
  | store lba buf=>exact h.store hv hs

end

end Claimed.Apart

end Knail.Fat32
