import Knail.AllocationChains
import Knail.Fat32
import Knail.WordBits

/-!
# The allocation table of a volume

Entries of the file allocation table decode to links. On a volume with consistent geometry
and equal copies of the table, `read_fat` reads the link of a cluster, `write_fat` changes
that link and nothing else, and `alloc_cluster` takes a free cluster.
-/
namespace Knail.Fat32

open Function

variable {m : Mount} {d d' d'' : Disk} {c v f s j lba : ℕ} {i k sector : ℕ}

theorem mul_add_lt {n : ℕ} (hi : i<n) (hs : s<k) : i*k+s<n*k:=by
  have : (i+1)*k≤n*k:=Nat.mul_le_mul_right k hi
  rw [Nat.succ_mul] at this
  omega

theorem mul_add_inj {i' s' : ℕ} (hs : s<k) (hs' : s'<k) (h : i*k+s=i'*k+s') : i=i' ∧ s=s':=by
  have hk : 0<k:=by omega
  have hi : i=i':=by
    have:=congrArg (· / k) h
    simpa [Nat.mul_comm _ k,Nat.mul_add_div hk,Nat.div_eq_of_lt hs,Nat.div_eq_of_lt hs'] using this
  subst hi
  exact ⟨rfl,by omega⟩

/-- The numbers of a mounted volume fit together, and the volume fits the disk. -/
structure Geometry (m : Mount) (sectors : ℕ) : Prop where
  numFats_pos : 0 < m.numFats
  perCluster_pos : 0 < m.sectorsPerCluster
  perCluster_lt : m.sectorsPerCluster<256
  dataStart_eq : m.dataStart=m.fatStart+m.numFats*m.fatSize
  table_le : (m.totalClusters+2)*4 ≤ m.fatSize*512
  clusters_le : m.totalClusters+2≤0x0FFFFFF8
  end_le : m.dataStart+m.totalClusters*m.sectorsPerCluster ≤ sectors
  end_lt : m.dataStart+m.totalClusters*m.sectorsPerCluster<4294967296

def Mirrored (m : Mount) (d : Disk) : Prop:=
  ∀f < m.numFats,∀s < m.fatSize,∀j<512,
    d.data (m.fatStart+f*m.fatSize+s) j=d.data (m.fatStart+s) j

structure Volume (m : Mount) (d : Disk) : Prop where
  geometry : Geometry m d.sectors
  mirrored : Mirrored m d

def entry (m : Mount) (d : Disk) (f c : ℕ) : ℕ:=
  getLE (d.data (m.fatStart+f*m.fatSize+c*4/512)) 4 (c*4%512)

def linkOf (v : ℕ) : Link ℕ:=if v=0 then .free else if 0x0FFFFFF8≤v then .last else .next v

def InRange (m : Mount) (c : ℕ) : Prop:=2 ≤ c ∧ c < m.totalClusters+2

instance (m : Mount) (c : ℕ) : Decidable (InRange m c):=inferInstanceAs (Decidable (_ ∧ _))

/-- The links of the volume. Numbers that are no clusters are in no chain. -/
def table (m : Mount) (d : Disk) (c : ℕ) : Link ℕ:=
  if InRange m c then linkOf (entry m d 0 c%0x10000000) else .free

theorem table_of_inRange (hc : InRange m c) : table m d c=linkOf (entry m d 0 c%0x10000000):=if_pos hc

theorem inRange_of_ne_free (h : table m d c≠.free) : InRange m c:=by
  by_contra hc
  exact h (if_neg hc)

/-- The sectors of the tables and of the clusters. -/
def Inside (m : Mount) (lba : ℕ) : Prop:=
  m.fatStart≤lba ∧ lba < m.dataStart+m.totalClusters*m.sectorsPerCluster

/-- What every operation keeps: the copies are equal, the upper four bits of the entries are
unchanged, and only sectors of the tables and the clusters are written. -/
structure Kept (m : Mount) (d d' : Disk) : Prop where
  sectors : d'.sectors=d.sectors
  mirrored : Mirrored m d'
  high : ∀f < m.numFats,∀c,c*4/512 < m.fatSize →
    entry m d' f c/0x10000000=entry m d f c/0x10000000
  written : ∀lba∈d'.written,lba∈d.written ∨ Inside m lba

theorem Kept.refl (h : Mirrored m d) : Kept m d d:=⟨rfl,h,fun _ _ _ _=>rfl,fun _=>.inl⟩

theorem Kept.trans (h : Kept m d d') (h' : Kept m d' d'') : Kept m d d'' where
  sectors:=h'.sectors.trans h.sectors
  mirrored:=h'.mirrored
  high:=fun f hf c hc=>(h'.high f hf c hc).trans (h.high f hf c hc)
  written:=by
    intro lba hl
    rcases h'.written lba hl with hl | hl
    · exact h.written lba hl
    · exact .inr hl

theorem Kept.volume (h : Kept m d d') (hv : Volume m d) : Volume m d':=
  ⟨h.sectors▸hv.geometry,h.mirrored⟩

section Sectors

variable {sectors : ℕ}

section

variable (hg : Geometry m sectors)
include hg

theorem Geometry.fat_lt (hf : f < m.numFats) (hs : s < m.fatSize) : m.fatStart+f*m.fatSize+s < m.dataStart:=by
  have:=mul_add_lt hf hs
  rw [hg.dataStart_eq]
  omega

theorem Geometry.u32_fat (hf : f < m.numFats) (hs : s < m.fatSize) :
    u32 (m.fatStart+f*m.fatSize+s)=m.fatStart+f*m.fatSize+s:=by
  have:=hg.fat_lt hf hs
  have:=hg.end_lt
  unfold u32
  omega

theorem Geometry.lba_eq (hc : InRange m c) (hs : s < m.sectorsPerCluster) :
    u32 (clusterToLba m c+s)=m.dataStart+((c-2)*m.sectorsPerCluster+s) ∧
    m.dataStart+((c-2)*m.sectorsPerCluster+s) < m.dataStart+m.totalClusters*m.sectorsPerCluster:=by
  obtain ⟨h2,hlt⟩:=hc
  have hi : c-2 < m.totalClusters:=by omega
  have h:=mul_add_lt hi hs
  have:=hg.end_lt
  have:=hg.clusters_le
  have hsub : u32 (4294967294+c)=c-2:=by
    unfold u32
    omega
  have hlba : clusterToLba m c=m.dataStart+(c-2)*m.sectorsPerCluster:=by
    rw [clusterToLba,hsub]
    unfold u32
    omega
  unfold u32
  omega

theorem Geometry.table_lt (hc : c < m.totalClusters+2) : c*4/512 < m.fatSize:=by
  have:=hg.table_le
  omega

theorem Geometry.u32_offset (hc : c < m.totalClusters+2) : u32 (c*4)=c*4:=by
  have:=hg.clusters_le
  unfold u32
  omega

end

end Sectors

theorem devRead_of_lt (h : lba<d.sectors) : devRead d lba=some (d.data lba):=if_pos h

theorem Geometry.fat_lt_sectors (hg : Geometry m sectors) (hf : f < m.numFats) (hs : s < m.fatSize) :
    m.fatStart+f*m.fatSize+s<sectors:=by
  have:=hg.fat_lt hf hs
  have:=hg.end_le
  omega

theorem Geometry.readFat_eq (hg : Geometry m d.sectors) (hc : c < m.totalClusters+2) :
    readFat m c d=entry m d 0 c%0x10000000:=by
  have hs:=hg.table_lt hc
  have hu:=hg.u32_fat hg.numFats_pos hs
  have hlt:=hg.fat_lt_sectors hg.numFats_pos hs
  rw [Nat.zero_mul,Nat.add_zero] at hu hlt
  simp only [readFat,hg.u32_offset hc,hu,devRead_of_lt hlt,entry,Nat.zero_mul,Nat.add_zero]
  exact Nat.and_two_pow_sub_one_eq_mod _ 28

theorem Volume.readFat_eq (hv : Volume m d) (hc : c < m.totalClusters+2) : readFat m c d=entry m d 0 c%0x10000000:=
  hv.geometry.readFat_eq hc

theorem Mirrored.entry_eq (h : Mirrored m d) (hf : f < m.numFats) (hc : c*4/512 < m.fatSize) :
    entry m d f c=entry m d 0 c:=by
  simp only [entry,Nat.zero_mul,Nat.add_zero]
  exact getLE_congr fun j _ hj=>h f hf _ hc j (by omega)

theorem newEntry_bits {old : ℕ} (hold : old<0x100000000) :
    (((v&&&0x0FFFFFFF)|||(old&&&0xF0000000))%0x100000000%0x10000000=v%0x10000000) ∧
    ((v&&&0x0FFFFFFF)|||(old&&&0xF0000000))%0x100000000/0x10000000=old/0x10000000:=by
  have h1 : v&&&0x0FFFFFFF=v%2^28:=Nat.and_two_pow_sub_one_eq_mod _ 28
  have h2 : old&&&0xF0000000=old/2^28%2^4*2^28:=and_field old 28 4
  have h3 : v%2^28|||old/2^28%2^4*2^28=2^28*(old/2^28%2^4)+v%2^28:=by
    rw [Nat.or_comm,Nat.mul_comm,Nat.two_pow_add_eq_or_of_lt (Nat.mod_lt _ (by decide))]
  rw [h1,h2,h3]
  omega

/-- The place of a table sector in a copy, as `write_fat` computes it. -/
def copySector (m : Mount) (sector f : ℕ) : ℕ:=u32 (m.fatStart+f*m.fatSize+sector)

/-- The sector is one of the copies from the `f`-th on. -/
def IsCopy (m : Mount) (sector f n lba : ℕ) : Prop:=∃g,f≤g ∧ g<f+n ∧ lba=copySector m sector g

theorem Geometry.copySector_eq (hg : Geometry m sectors) (hf : f < m.numFats) (hs : sector < m.fatSize) :
    copySector m sector f=m.fatStart+f*m.fatSize+sector:=
  hg.u32_fat hf hs

theorem Geometry.isCopy_iff (hg : Geometry m sectors) (hs : sector < m.fatSize) :
    IsCopy m sector 0 m.numFats lba↔m.fatStart≤lba ∧ lba < m.dataStart ∧ (lba-m.fatStart)%m.fatSize=sector:=by
  constructor
  · rintro ⟨g,-,hlt,rfl⟩
    rw [Nat.zero_add] at hlt
    rw [copySector,hg.u32_fat hlt hs]
    refine ⟨by omega,hg.fat_lt hlt hs,?_⟩
    rw [show m.fatStart+g*m.fatSize+sector-m.fatStart=sector+g*m.fatSize by omega,Nat.add_mul_mod_self_right]
    exact Nat.mod_eq_of_lt hs
  · rintro ⟨h1,h2,h3⟩
    have hdiv:=Nat.div_add_mod (lba-m.fatStart) m.fatSize
    have hlt : (lba-m.fatStart)/m.fatSize < m.numFats:=by
      rw [hg.dataStart_eq] at h2
      exact Nat.div_lt_of_lt_mul (by rw [Nat.mul_comm]; omega)
    refine ⟨(lba-m.fatStart)/m.fatSize,Nat.zero_le _,by omega,?_⟩
    rw [copySector,hg.u32_fat hlt hs,Nat.mul_comm _ m.fatSize]
    omega

theorem Geometry.lt_of_isCopy (hg : Geometry m sectors) (hs : sector < m.fatSize)
    (h : IsCopy m sector 0 m.numFats lba) : lba<sectors:=by
  obtain ⟨g,-,hlt,rfl⟩:=h
  rw [Nat.zero_add] at hlt
  rw [hg.copySector_eq hlt hs]
  exact hg.fat_lt_sectors hlt hs

/-- The copies of a sector from `f` on, `k` of them, were written. -/
structure CopiesWritten (m : Mount) (sector : ℕ) (buf : ℕ→UInt8) (f k : ℕ) (d d' : Disk) : Prop where
  sectors : d'.sectors=d.sectors
  copies : ∀lba,IsCopy m sector f k lba→d'.data lba=buf
  others : ∀lba,¬IsCopy m sector f k lba→d'.data lba=d.data lba

theorem not_isCopy_zero : ¬IsCopy m sector f 0 lba:=by
  rintro ⟨g,h1,h2,-⟩
  omega

theorem isCopy_succ : IsCopy m sector f (k+1) lba↔lba=copySector m sector f ∨ IsCopy m sector (f+1) k lba:=by
  constructor
  · rintro ⟨g,h1,h2,h3⟩
    rcases Nat.eq_or_lt_of_le h1 with rfl | h1
    · exact .inl h3
    · exact .inr ⟨g,h1,by omega,h3⟩
  · rintro (rfl | ⟨g,h1,h2,h3⟩)
    · exact ⟨f,le_rfl,by omega,rfl⟩
    · exact ⟨g,by omega,by omega,h3⟩

theorem CopiesWritten.zero (sector : ℕ) (buf : ℕ→UInt8) (d : Disk) : CopiesWritten m sector buf f 0 d d:=
  ⟨rfl,fun _ h=>absurd h not_isCopy_zero,fun _ _=>rfl⟩

theorem CopiesWritten.cons {buf : ℕ→UInt8} {d1 : Disk}
    (h : CopiesWritten m sector buf (f+1) k d1 d') (hsec : d1.sectors=d.sectors)
    (hdata : d1.data=update d.data (copySector m sector f) buf) : CopiesWritten m sector buf f (k+1) d d' where
  sectors:=h.sectors.trans hsec
  copies lba hlba:=by
    by_cases hrest : IsCopy m sector (f+1) k lba
    · exact h.copies lba hrest
    · obtain rfl:=(isCopy_succ.mp hlba).resolve_right hrest
      rw [h.others _ hrest,hdata,update_self]
  others lba hlba:=by
    rw [isCopy_succ,not_or] at hlba
    rw [h.others lba hlba.2,hdata,update_of_ne hlba.1]

theorem writeCopies_eq (sector : ℕ) (buf : ℕ→UInt8) (n f : ℕ) (h : ∀lba,IsCopy m sector f n lba→lba<d.sectors) :
    ∃d',writeCopies m sector buf n f d=(true,d') ∧ CopiesWritten m sector buf f n d d' ∧
    ∀lba∈d'.written,lba∈d.written ∨ IsCopy m sector f n lba:=by
  induction n generalizing f d with
  | zero=>exact ⟨d,rfl,.zero sector buf d,fun _=>.inl⟩
  | succ n ih=>
    have hlt : u32 (m.fatStart+f*m.fatSize+sector)<d.sectors:=h _ (isCopy_succ.mpr (.inl rfl))
    rw [writeCopies,devWrite,if_pos hlt]
    obtain ⟨d',he,hw,hwritten⟩:=ih (d:={ d with
        data:=update d.data (u32 (m.fatStart+f*m.fatSize+sector)) buf
        written:=u32 (m.fatStart+f*m.fatSize+sector)::d.written }) (f+1)
      fun lba hlba=>h lba (isCopy_succ.mpr (.inr hlba))
    refine ⟨d',he,hw.cons rfl rfl,fun lba hlba=>?_⟩
    rw [isCopy_succ]
    rcases hwritten lba hlba with hmem | hcopy
    · rcases List.mem_cons.mp hmem with hfirst | hold
      · exact .inr (.inl hfirst)
      · exact .inl hold
    · exact .inr (.inr hcopy)

/-- What `write_fat` does to a volume. -/
structure FatWritten (m : Mount) (d d' : Disk) (c v : ℕ) : Prop where
  kept : Kept m d d'
  table_self : InRange m c→table m d' c=linkOf (v%0x10000000)
  table_other : ∀c',c'≠c→table m d' c'=table m d c'
  data : ∀lba,m.dataStart≤lba→d'.data lba=d.data lba

theorem Volume.writeFat_spec (hv : Volume m d) (hc : c < m.totalClusters+2) (v : ℕ) :
    ∃d',writeFat m c v d=(true,d') ∧ FatWritten m d d' c v:=by
  have hg:=hv.geometry
  have hs:=hg.table_lt hc
  have hu:=hg.u32_fat hg.numFats_pos hs
  have hlt:=hg.fat_lt_sectors hg.numFats_pos hs
  rw [Nat.zero_mul,Nat.add_zero] at hu hlt
  simp only [writeFat,hg.u32_offset hc,hu,devRead_of_lt hlt]
  have hold : getLE (d.data (m.fatStart+c*4/512)) 4 (c*4%512)=entry m d 0 c:=by
    simp only [entry,Nat.zero_mul,Nat.add_zero]
  have hbits:=newEntry_bits (v:=v) (getLE_lt (d.data (m.fatStart+c*4/512)) 4 (c*4%512))
  set val:=(v&&&0x0FFFFFFF)|||(getLE (d.data (m.fatStart+c*4/512)) 4 (c*4%512)&&&0xF0000000)
  set buf:=putLE (d.data (m.fatStart+c*4/512)) 4 (c*4%512) val with hbuf
  obtain ⟨d',he,hw,hwr⟩:=writeCopies_eq (c*4/512) buf m.numFats 0 fun _=>hg.lt_of_isCopy hs
  have hin' (f : ℕ) (hf : f < m.numFats):=hw.copies _ ⟨f,Nat.zero_le _,by omega,(hg.copySector_eq hf hs).symm⟩
  have hout' (f s' : ℕ) (hs' : s' < m.fatSize) (hne : s'≠c*4/512) :
      d'.data (m.fatStart+f*m.fatSize+s')=d.data (m.fatStart+f*m.fatSize+s'):=by
    refine hw.others _ fun h=>hne ?_
    obtain ⟨g,-,hlt,e⟩:=h
    rw [hg.copySector_eq (by omega) hs] at e
    exact (mul_add_inj hs' hs (by omega : f*m.fatSize+s'=g*m.fatSize+c*4/512)).2
  have hself (f : ℕ) (hf : f < m.numFats) : entry m d' f c=val%0x100000000:=by
    rw [entry,hin' f hf,hbuf]
    exact getLE_putLE ..
  have hother (f c' : ℕ) (hf : f < m.numFats) (hc' : c'*4/512 < m.fatSize) (hne : c'≠c) :
      entry m d' f c'=entry m d f c':=by
    by_cases hsame : c'*4/512=c*4/512
    · rw [hv.mirrored.entry_eq hf hc']
      simp only [entry,hsame,hin' f hf,hbuf,Nat.zero_mul,Nat.add_zero]
      exact getLE_putLE_of_disjoint (by omega)
    · rw [entry,hout' f _ hc' hsame,entry]
  refine ⟨d',he,⟨hw.sectors,?_,?_,?_⟩,?_,?_,?_⟩
  · intro f hf s' hs' j hj
    have h0:=hin' 0 hg.numFats_pos
    have h0':=hout' 0 s' hs'
    simp only [Nat.zero_mul,Nat.add_zero] at h0 h0'
    by_cases hsame : s'=c*4/512
    · rw [hsame,hin' f hf,h0]
    · rw [hout' f s' hs' hsame,h0' hsame]
      exact hv.mirrored f hf s' hs' j hj
  · intro f hf c' hc'
    by_cases hcc : c'=c
    · subst hcc
      rw [hself f hf,hbits.2,hold,hv.mirrored.entry_eq hf hc']
    · rw [hother f c' hf hc' hcc]
  · intro lba hl
    refine (hwr lba hl).imp_right fun h=>?_
    obtain ⟨h1,h2,-⟩:=(hg.isCopy_iff hs).mp h
    exact ⟨h1,by omega⟩
  · intro hr
    rw [table_of_inRange hr,hself 0 hg.numFats_pos,hbits.1]
  · intro c' hne
    by_cases hr : InRange m c'
    · rw [table_of_inRange hr,table_of_inRange hr,hother 0 c' hg.numFats_pos (hg.table_lt hr.2) hne]
    · rw [table,table,if_neg hr,if_neg hr]
  · intro lba hl
    refine hw.others lba fun h=>?_
    obtain ⟨-,hlt,-⟩:=(hg.isCopy_iff hs).mp h
    omega

theorem table_congr (hg : Geometry m d.sectors)
    (h : ∀lba,m.fatStart≤lba→lba < m.dataStart→d'.data lba=d.data lba) : table m d'=table m d:=by
  funext c
  unfold table
  split
  · rename_i hc
    have hlt:=hg.fat_lt hg.numFats_pos (hg.table_lt hc.2)
    rw [entry,h _ (by omega) hlt,entry]
  · rfl

theorem Volume.devWrite_spec (hv : Volume m d) (h1 : m.dataStart≤lba)
    (h2 : lba < m.dataStart+m.totalClusters*m.sectorsPerCluster) (buf : ℕ→UInt8) :
    ∃d',devWrite d lba buf=some d' ∧ Kept m d d' ∧ table m d'=table m d ∧ d'.data=update d.data lba buf:=by
  have hg:=hv.geometry
  have hlt : lba<d.sectors:=Nat.lt_of_lt_of_le h2 hg.end_le
  rw [devWrite,if_pos hlt]
  have hkeep {l : ℕ} (hl : l < m.dataStart) : update d.data lba buf l=d.data l:=
    update_of_ne (by omega) _ _
  have hkeep' {f s : ℕ} (hf : f < m.numFats) (hs : s < m.fatSize):=hkeep (hg.fat_lt hf hs)
  refine ⟨_,rfl,⟨rfl,?_,?_,?_⟩,table_congr hg fun l _ hl=>hkeep hl,rfl⟩
  · intro f hf s hs j hj
    have h0:=hkeep' hg.numFats_pos hs
    simp only [Nat.zero_mul,Nat.add_zero] at h0
    simp only [hkeep' hf hs,h0]
    exact hv.mirrored f hf s hs j hj
  · intro f hf c hc
    simp only [entry,hkeep' hf hc]
  · intro l hl
    rcases List.mem_cons.mp hl with rfl | hl
    · have:=hg.dataStart_eq
      exact .inr ⟨by omega,h2⟩
    · exact .inl hl

end Knail.Fat32
