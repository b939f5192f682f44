import Knail.TidyVolumes

/-!
# What unlinking writes

Unlinking a file should mark its entry, clear the table entries of its clusters and touch nothing else. The step after
the loop of `fat_unlink` takes the end mark of the chain for one more cluster.
-/
namespace Knail.Fat32

open Function Vfs List

variable {m : Mount} {d d' : Disk} {c x n lba j : ℕ} {xs ys : List ℕ} {p : ℕ×ℕ} {s : ℕ→UInt8}
  {off v : ℕ} {data : ℕ→ℕ→UInt8}

/-- A byte of a table entry whose lower 28 bits are cleared. -/
def clearedByte (j : ℕ) (b : UInt8) : UInt8:=if j%4=3 then b&&&0xF0 else 0

/-- The byte belongs to the table entry of one of the clusters, in some copy of the table. -/
def InEntries (m : Mount) (xs : List ℕ) (lba j : ℕ) : Prop:=
  m.fatStart≤lba ∧ lba < m.dataStart ∧ (lba-m.fatStart)%m.fatSize*128+j/4∈xs

instance (m : Mount) (xs : List ℕ) (lba j : ℕ) : Decidable (InEntries m xs lba j):=inferInstanceAs (Decidable (_ ∧ _))

/-- The bytes of a disk with the entries of some clusters cleared. -/
def clearedData (m : Mount) (xs : List ℕ) (data : ℕ→ℕ→UInt8) (lba j : ℕ) : UInt8:=
  if InEntries m xs lba j then clearedByte j (data lba j) else data lba j

theorem ofNat_high (b : UInt8) : UInt8.ofNat (b.toNat/16*16)=b&&&0xF0:=by
  apply UInt8.toNat_inj.mp
  have hand : b.toNat&&&0xF0=b.toNat/2^4%2^4*2^4:=and_field b.toNat 4 4
  rw [UInt8.toNat_ofNat',UInt8.toNat_and,show (0xF0 : UInt8).toNat=0xF0 from rfl,hand]
  omega

/-- What `write_fat` stores for the value 0. -/
def freedWord (old : ℕ) : ℕ:=(0&&&0x0FFFFFFF)|||(old&&&0xF0000000)

theorem freedWord_eq {old : ℕ} (h : old<0x100000000) : freedWord old=old/0x10000000*0x10000000:=by
  have hand : old&&&0xF0000000=old/2^28%2^4*2^28:=and_field old 28 4
  rw [freedWord,hand,Nat.zero_and,Nat.zero_or]
  omega

theorem putLE_freedWord (s : ℕ→UInt8) (hoff : off%4=0) (j : ℕ) :
    putLE s 4 off (freedWord (getLE s 4 off)) j=if j/4=off/4 then clearedByte j (s j) else s j:=by
  split
  · have hlt:=getLE_lt s 4 off
    obtain ⟨i,hi,rfl⟩ : ∃i<4,j=off+i:=⟨j-off,by omega,by omega⟩
    rw [putLE_add s off _ hi,freedWord_eq hlt,clearedByte]
    by_cases h3 : i=3
    · subst h3
      rw [if_pos (by omega),←ofNat_high,←getLE_div s off hi]
      congr 1
      rw [UInt8.toNat_ofNat']
      omega
    · rw [if_neg (by omega)]
      apply UInt8.toNat_inj.mp
      rw [UInt8.toNat_ofNat']
      obtain rfl | rfl | rfl : i=0 ∨ i=1 ∨ i=2:=by omega
      all_goals
        change _=0
        omega
  · by_cases hlt : j<off
    · exact putLE_of_lt hlt
    · exact putLE_of_le (by omega)

theorem writeCopies_fail {sector : ℕ} (buf : ℕ→UInt8) (n f : ℕ) (hc : IsCopy m sector f n lba) (hlba : d.sectors≤lba) :
    (writeCopies m sector buf n f d).1=false:=by
  induction n generalizing f d with
  | zero=>
    obtain ⟨g,h1,h2,-⟩:=hc
    omega
  | succ n ih=>
    rw [writeCopies,devWrite]
    by_cases hlt : u32 (m.fatStart+f*m.fatSize+sector)<d.sectors
    · rw [if_pos hlt]
      obtain ⟨g,h1,h2,rfl⟩:=hc
      refine ih (f+1) ⟨g,?_,by omega,rfl⟩ hlba
      rcases Nat.eq_or_lt_of_le h1 with rfl | h1
      · exact absurd hlt (Nat.not_lt.mpr hlba)
      · exact h1
    · rw [if_neg hlt]

theorem Volume.writeFat_cleared (hv : Volume m d) (hc : InRange m c) (hw : writeFat m c 0 d=(true,d')) (lba : ℕ)
    (hj : j<512) : d'.data lba j=clearedData m [c] d.data lba j:=by
  have hg:=hv.geometry
  have hs:=hg.table_lt hc.2
  have hlt:=hg.fat_lt_sectors hg.numFats_pos hs
  have hread : u32 (m.fatStart+c*4/512)=m.fatStart+c*4/512:=by
    simpa using hg.u32_fat hg.numFats_pos hs
  rw [Nat.zero_mul,Nat.add_zero] at hlt
  simp only [writeFat,hg.u32_offset hc.2,hread,devRead_of_lt hlt] at hw
  obtain ⟨d'',he,hcopies,-⟩:=writeCopies_eq (c*4/512)
    (putLE (d.data (m.fatStart+c*4/512)) 4 (c*4%512)
      (freedWord (getLE (d.data (m.fatStart+c*4/512)) 4 (c*4%512)))) m.numFats 0 fun _=>hg.lt_of_isCopy hs
  obtain rfl:=congrArg Prod.snd (he.symm.trans hw)
  rw [clearedData]
  by_cases hcopy : IsCopy m (c*4/512) 0 m.numFats lba
  · obtain ⟨h1,h2,h3⟩:=(hg.isCopy_iff hs).mp hcopy
    obtain ⟨g,-,hlt',hlba⟩:=hcopy
    have hsame : d.data (m.fatStart+c*4/512) j=d.data lba j:=by
      rw [Nat.zero_add] at hlt'
      rw [hlba,copySector,hg.u32_fat hlt' hs]
      exact (hv.mirrored g hlt' _ hs j hj).symm
    have hentry : InEntries m [c] lba j↔j/4=c*4%512/4:=by
      rw [InEntries,mem_singleton,h3]
      omega
    rw [hcopies.copies lba ⟨g,Nat.zero_le _,hlt',hlba⟩,putLE_freedWord _ (by omega),hsame,if_congr hentry rfl rfl]
  · rw [hcopies.others lba hcopy,if_neg]
    rintro ⟨h1,h2,h3⟩
    rw [mem_singleton] at h3
    exact hcopy ((hg.isCopy_iff hs).mpr ⟨h1,h2,by omega⟩)

theorem Volume.inEntries_of_entry (hv : Volume m d) (hc : InRange m c) (hj : c*4%512≤j) (hj' : j<c*4%512+4) :
    InEntries m xs (m.fatStart+c*4/512) j↔c∈xs:=by
  have hs:=hv.geometry.table_lt hc.2
  have hlt:=hv.geometry.fat_lt hv.geometry.numFats_pos hs
  rw [Nat.zero_mul,Nat.add_zero] at hlt
  rw [InEntries,Nat.add_sub_cancel_left,Nat.mod_eq_of_lt hs,show c*4/512*128+j/4=c by omega]
  exact ⟨fun h=>h.2.2,fun h=>⟨by omega,hlt,h⟩⟩

theorem Volume.readFat_of_cleared (hv : Volume m d) (hv' : Volume m d')
    (hdata : ∀lba,∀j<512,d'.data lba j=clearedData m xs d.data lba j) (hc : InRange m c) (hx : c∉xs) :
    readFat m c d'=readFat m c d:=by
  rw [hv'.readFat_eq hc.2,hv.readFat_eq hc.2,entry,entry,Nat.zero_mul,Nat.add_zero]
  congr 1
  refine getLE_congr fun j h1 h2=>?_
  rw [hdata _ j (by omega),clearedData,if_neg fun h=>hx ((hv.inEntries_of_entry hc h1 h2).mp h)]

theorem inEntries_cons : InEntries m (x::xs) lba j↔InEntries m [x] lba j ∨ InEntries m xs lba j:=by
  simp only [InEntries,mem_cons,not_mem_nil,or_false]
  tauto

theorem clearedByte_clearedByte (j : ℕ) (b : UInt8) : clearedByte j (clearedByte j b)=clearedByte j b:=by
  unfold clearedByte
  split
  · rw [UInt8.and_assoc]
    rfl
  · rfl

theorem clearedData_cons : clearedData m xs (clearedData m [x] data) lba j=clearedData m (x::xs) data lba j:=by
  have hiff : InEntries m (x::xs) lba j↔InEntries m [x] lba j ∨ InEntries m xs lba j:=inEntries_cons
  unfold clearedData
  by_cases h1 : InEntries m [x] lba j <;> by_cases h2 : InEntries m xs lba j <;>
    simp only [hiff,h1,h2,or_true,or_false,if_true,if_false,clearedByte_clearedByte]

theorem clearedData_congr {data' : ℕ→ℕ→UInt8} (h : data' lba j=data lba j) :
    clearedData m xs data' lba j=clearedData m xs data lba j:=by
  rw [clearedData,clearedData,h]

/-- The loop of `fat_unlink` clears the entries of the chain and touches no other byte. It ends at the
end mark of the chain. -/
theorem Volume.freeChain_cleared (hv : Volume m d) (hl : Linked (table m d) (x::xs)) (hn : (x::xs).Nodup)
    (hlen : (x::xs).length<n) :
    ∃d',freeChain m n x d=some (some (readFat m ((x::xs).getLast (cons_ne_nil x xs)) d),d') ∧
    d'.sectors=d.sectors ∧ ∀lba,∀j<512,d'.data lba j=clearedData m (x::xs) d.data lba j:=by
  induction xs generalizing x d n with
  | nil=>
    obtain ⟨n,rfl⟩:=Nat.exists_eq_add_of_lt hlen
    have hr : InRange m x:=inRange_of_ne_free (hl.ne_free mem_cons_self)
    obtain ⟨h1,-⟩:=isEoc_of_inRange hv.geometry hr
    obtain ⟨d1,he,hw⟩:=hv.writeFat_spec hr.2 0
    refine ⟨d1,?_,hw.kept.sectors,fun lba j hj=>hv.writeFat_cleared hr he lba hj⟩
    rw [length_singleton,Nat.add_comm 1 n,freeChain,if_pos ⟨hr.1,h1⟩,he]
    dsimp only
    rw [freeChain,if_neg (by simp [hv.readFat_last hr hl])]
    rfl
  | cons y ys ih=>
    obtain ⟨n,rfl⟩ : ∃k,n=k+1:=⟨n-1,by omega⟩
    have hr : InRange m x:=inRange_of_ne_free (hl.ne_free mem_cons_self)
    obtain ⟨h1,-⟩:=isEoc_of_inRange hv.geometry hr
    obtain ⟨d1,he,hw⟩:=hv.writeFat_spec hr.2 0
    obtain ⟨hx,hn⟩:=nodup_cons.mp hn
    have hdata1 (lba j : ℕ) (hj : j<512):=hv.writeFat_cleared hr he lba hj
    have hl1:=hl.2.congr fun z hz=>hw.table_other z (ne_of_mem_of_not_mem hz hx)
    obtain ⟨d',hloop,hsec,hdata⟩:=ih (hw.kept.volume hv) hl1 hn (by simpa using hlen)
    have hlast : readFat m ((y::ys).getLast (cons_ne_nil y ys)) d1 =
        readFat m ((x::y::ys).getLast (cons_ne_nil x _)) d:=by
      have hmem:=getLast_mem (cons_ne_nil y ys)
      refine hv.readFat_of_cleared (hw.kept.volume hv) hdata1 (inRange_of_ne_free (hl.2.ne_free hmem)) fun h=>?_
      exact hx (mem_singleton.mp h▸hmem)
    refine ⟨d',?_,hsec.trans hw.kept.sectors,fun lba j hj=>?_⟩
    · rw [freeChain,if_pos ⟨hr.1,h1⟩,he]
      dsimp only
      rw [hv.readFat_next hr hl.1,hloop,hlast]
    · rw [hdata lba j hj,clearedData_congr (hdata1 lba j hj),clearedData_cons]

/-- The disk after an entry was marked and the entries of a chain were cleared. -/
def unlinkedData (m : Mount) (d : Disk) (p : ℕ×ℕ) (xs : List ℕ) (lba j : ℕ) : UInt8:=
  if (lba,j)=p then 0xE5 else clearedData m xs d.data lba j

/-- The table sector of the end marks, if they are taken for clusters. -/
def endSector : ℕ:=0x1FFFFF

def markSector (m : Mount) (f : ℕ) : ℕ:=copySector m endSector f

/-- Clearing the entry of the end mark `v` has no effect: all its sectors are on the device, they are
equal, and the entry is clear. -/
structure Harmless (m : Mount) (sectors : ℕ) (data : ℕ→ℕ→UInt8) (v : ℕ) : Prop where
  onDevice : ∀f < m.numFats,markSector m f<sectors
  equal : ∀f < m.numFats,∀j<512,data (markSector m f) j=data (markSector m 0) j
  clear : getLE (data (markSector m 0)) 4 (v*4%512)%0x10000000=0

theorem u32_mark (hlt : v<0x10000000) : u32 (v*4)=v*4:=by
  unfold u32
  omega

theorem sector_mark (hle : 0x0FFFFFF8≤v) (hlt : v<0x10000000) : v*4/512=endSector:=by
  unfold endSector
  omega

theorem markSector_zero (m : Mount) : u32 (m.fatStart+endSector)=markSector m 0:=by
  rw [markSector,copySector,Nat.zero_mul,Nat.add_zero]

theorem writeFat_mark (hle : 0x0FFFFFF8≤v) (hlt : v<0x10000000) (h : markSector m 0<d.sectors) :
    writeFat m v 0 d=writeCopies m endSector (putLE (d.data (markSector m 0)) 4 (v*4%512)
    (freedWord (getLE (d.data (markSector m 0)) 4 (v*4%512)))) m.numFats 0 d:=by
  simp only [writeFat,u32_mark hlt,sector_mark hle hlt,markSector_zero,devRead_of_lt h,freedWord]

theorem writeFat_off_device (hle : 0x0FFFFFF8≤v) (hlt : v<0x10000000) (h : d.sectors ≤ markSector m 0) :
    writeFat m v 0 d=(false,d):=by
  have hread : devRead d (markSector m 0)=none:=if_neg (Nat.not_lt.mpr h)
  simp only [writeFat,u32_mark hlt,sector_mark hle hlt,markSector_zero,hread]

theorem isEoc_of_le (hle : 0x0FFFFFF8≤v) (hlt : v<0x10000000) : isEoc v=true:=by
  have hand : v&&&0x0FFFFFFF=v%2^28:=Nat.and_two_pow_sub_one_eq_mod _ 28
  rw [isEoc,hand,decide_eq_true_eq]
  omega

theorem putLE_freedWord_of_clear (h : getLE s 4 off%0x10000000=0) (j : ℕ) :
    putLE s 4 off (freedWord (getLE s 4 off)) j=s j:=by
  have hlt:=getLE_lt s 4 off
  have hsame : freedWord (getLE s 4 off)=getLE s 4 off:=by
    rw [freedWord_eq hlt]
    omega
  rw [hsame,putLE_getLE]

theorem getLE_freedWord (s : ℕ→UInt8) (off : ℕ) :
    getLE (putLE s 4 off (freedWord (getLE s 4 off))) 4 off%0x10000000=0:=by
  have hlt:=getLE_lt s 4 off
  rw [getLE_putLE,freedWord_eq hlt]
  omega

/-- The last step of `fat_unlink` succeeds and changes nothing in exactly the harmless case. -/
theorem freeEnd_iff (hpos : 0 < m.numFats) (hle : 0x0FFFFFF8≤v) (hlt : v<0x10000000)
    (hdata : ∀lba,∀j<512,d.data lba j=data lba j) :
    (∃d',freeEnd m (some v,d)=(.ok (),d') ∧ d'.sectors=d.sectors ∧ ∀lba,∀j<512,d'.data lba j=data lba j) ↔
    Harmless m d.sectors data v:=by
  have hcopy {f : ℕ} (hf : f < m.numFats) : IsCopy m endSector 0 m.numFats (markSector m f):=
    ⟨f,Nat.zero_le _,by omega,rfl⟩
  have hword : getLE (d.data (markSector m 0)) 4 (v*4%512)=getLE (data (markSector m 0)) 4 (v*4%512):=
    getLE_congr fun j _ _=>hdata _ j (by omega)
  rw [freeEnd,if_pos ⟨by omega,isEoc_of_le hle hlt⟩]
  by_cases hall : ∀f < m.numFats,markSector m f<d.sectors
  · obtain ⟨d',he,hw,-⟩:=writeCopies_eq endSector (putLE (d.data (markSector m 0)) 4 (v*4%512)
      (freedWord (getLE (d.data (markSector m 0)) 4 (v*4%512)))) m.numFats 0 fun lba h=>by
        obtain ⟨f,-,hf,hlba⟩:=h
        rw [hlba]
        exact hall f (by omega)
    rw [writeFat_mark hle hlt (hall 0 hpos),he]
    constructor
    · rintro ⟨d'',h,-,hsame⟩
      obtain rfl:=congrArg Prod.snd h
      have hbuf (f : ℕ) (hf : f < m.numFats) (j : ℕ) (hj : j<512) : putLE (d.data (markSector m 0)) 4 (v*4%512)
          (freedWord (getLE (d.data (markSector m 0)) 4 (v*4%512))) j=data (markSector m f) j:=by
        rw [←hsame _ j hj,hw.copies _ (hcopy hf)]
      refine ⟨hall,fun f hf j hj=>(hbuf f hf j hj).symm.trans (hbuf 0 hpos j hj),?_⟩
      have hclear:=getLE_freedWord (d.data (markSector m 0)) (v*4%512)
      rwa [getLE_congr fun j _ _=>hbuf 0 hpos j (by omega)] at hclear
    · intro h
      refine ⟨d',rfl,hw.sectors,fun lba j hj=>?_⟩
      by_cases hlba : IsCopy m endSector 0 m.numFats lba
      · rw [hw.copies lba hlba]
        obtain ⟨f,-,hf,hlba⟩:=hlba
        have hlba : lba=markSector m f:=hlba
        rw [putLE_freedWord_of_clear (hword▸h.clear),hdata _ j hj,hlba,h.equal f (by omega) j hj]
      · rw [hw.others lba hlba]
        exact hdata lba j hj
  · refine ⟨?_,fun h=>absurd h.onDevice hall⟩
    rintro ⟨d',h,-⟩
    have hfail : (writeFat m v 0 d).1=false:=by
      by_cases h0 : markSector m 0<d.sectors
      · obtain ⟨f,hf,hoff⟩ : ∃f < m.numFats,d.sectors ≤ markSector m f:=by
          simpa only [not_forall,Nat.not_lt,exists_prop] using hall
        rw [writeFat_mark hle hlt h0]
        exact writeCopies_fail _ _ _ (hcopy hf) hoff
      · exact congrArg Prod.fst (writeFat_off_device hle hlt (Nat.le_of_not_lt h0))
    rcases hw : writeFat m v 0 d with ⟨_ | _,d''⟩
    · rw [hw] at h
      cases h
    · rw [hw] at hfail
      cases hfail

/-- On a sound volume a name is found in a directory, at the place `p`, and belongs to a file with the
chain `xs`. -/
structure FileFound (m : Mount) (d : Disk) (dfn : Fat32Node) (name : List UInt8) (p : ℕ×ℕ) (ds xs : List ℕ) : Prop where
  volume : Volume m d
  dirLinked : Linked (table m d) (dfn.firstCluster::ds)
  dirNodup : (dfn.firstCluster::ds).Nodup
  found : dirFind m dfn.firstCluster name d=some (some (entryOf d p,p.1,p.2))
  file : entryOf d p 11&&&attrDir=0
  rooted : Rooted (entryCluster (entryOf d p)) xs
  linked : Linked (table m d) xs
  nodup : xs.Nodup

/-- The file is unlinked with success, and exactly the bytes that have to change have changed. -/
def Unlinks (m : Mount) (d : Disk) (dfn : Fat32Node) (name : List UInt8) (p : ℕ×ℕ) (xs : List ℕ) : Prop:=
  ∃d',fatUnlink m dfn name d=some (.ok (),d') ∧ d'.sectors=d.sectors ∧
    ∀lba,∀j<512,d'.data lba j=unlinkedData m d p xs lba j

theorem FileFound.marked {dfn : Fat32Node} {name : List UInt8} {ds : List ℕ} (h : FileFound m d dfn name p ds xs) :
    ∃d1,fatUnlink m dfn name d=(freeChain m (m.totalClusters+1) (entryCluster (entryOf d p)) d1).map (freeEnd m) ∧
    SlotWritten m d d1 p ∧ (∀lba j,d1.data lba j=if (lba,j)=p then 0xE5 else d.data lba j) ∧ m.dataStart≤p.1:=by
  obtain ⟨-,hslot,-⟩:=h.volume.mem_of_dirFind h.dirLinked h.dirNodup h.found
  obtain ⟨c,hc,hpc⟩:=mem_dirSlots.mp hslot
  have hr : InRange m c:=inRange_of_ne_free (h.dirLinked.ne_free hc)
  have hplace:=h.volume.geometry.direntPlace_of_mem hr hpc
  have hbuf (j : ℕ) (hj : j<p.2 ∨ p.2+32≤j) : update (d.data p.1) p.2 0xE5 j=d.data p.1 j:=
    update_of_ne (by omega) _ _
  obtain ⟨d1,hread,hwrite,hs,hdata⟩:=h.volume.slotWrite_spec hplace hbuf
  refine ⟨d1,?_,hs,fun lba j=>?_,hplace.1⟩
  · have hfile:=not_not.mpr h.file
    simp only [fatUnlink,h.found,if_neg hfile,hread,hwrite]
  by_cases hl : lba=p.1
  · rw [hl,hdata,update_apply]
    exact if_congr ⟨fun hj=>by rw [hj],fun he=>congrArg Prod.snd he⟩ rfl rfl
  · rw [hs.data lba j (.inl hl),if_neg fun he=>hl (congrArg Prod.fst he)]

theorem clearedData_marked {d1 : Disk} (hdata : ∀lba j,d1.data lba j=if (lba,j)=p then 0xE5 else d.data lba j)
    (hp : m.dataStart≤p.1) (xs : List ℕ) (lba j : ℕ) : clearedData m xs d1.data lba j=unlinkedData m d p xs lba j:=by
  rw [unlinkedData]
  by_cases hplace : (lba,j)=p
  · have hnot : ¬InEntries m xs lba j:=by
      rintro ⟨-,hlt,-⟩
      have hl : lba=p.1:=congrArg Prod.fst hplace
      omega
    rw [if_pos hplace,clearedData,if_neg hnot,hdata,if_pos hplace]
  · rw [if_neg hplace]
    exact clearedData_congr (by rw [hdata,if_neg hplace])

/-- Unlinking does what it should for exactly the files without clusters, and those whose end mark
does no harm where it is taken for a cluster. -/
theorem unlinks_iff {dfn : Fat32Node} {name : List UInt8} {ds : List ℕ} (h : FileFound m d dfn name p ds xs) :
    Unlinks m d dfn name p xs ↔
    ∀c,xs.getLast? = some c→Harmless m d.sectors (unlinkedData m d p xs) (readFat m c d):=by
  obtain ⟨d₁,hunlink,hs,hdata,hp⟩:=h.marked
  have hv₁:=hs.kept.volume h.volume
  rw [Unlinks,hunlink]
  rcases h.rooted with ⟨hlow,rfl⟩ | hhead
  · have hlow:=Nat.not_le.mpr hlow
    refine ⟨fun _ c hc=>absurd hc (by simp),fun _=>⟨d₁,by simp [freeChain,freeEnd,hlow],hs.kept.sectors,fun lba j _=>?_⟩⟩
    rw [←clearedData_marked hdata hp,clearedData,if_neg fun hin=>not_mem_nil hin.2.2]
  obtain ⟨ys,rfl⟩:=head?_eq_some_iff.mp hhead
  set first:=entryCluster (entryOf d p)
  have hchain : Linked (table m d₁) (first::ys):=hs.table_eq▸h.linked
  obtain ⟨d₂,hloop,hsec,hdata₂⟩:=
    hv₁.freeChain_cleared hchain h.nodup (Nat.lt_succ_of_le (chain_length_le hchain h.nodup))
  set last:=(first::ys).getLast (cons_ne_nil first ys) with hlast
  have hlast':=getLast?_eq_some_getLast (cons_ne_nil first ys)
  have hr : InRange m last:=inRange_of_ne_free (h.linked.ne_free (getLast_mem _))
  obtain ⟨hle,hlt⟩:=hv₁.readFat_mark hr (hchain.getLast _)
  have hmark : readFat m last d₁=readFat m last d:=by
    have hfat:=h.volume.geometry.fat_lt h.volume.geometry.numFats_pos (h.volume.geometry.table_lt hr.2)
    rw [hv₁.readFat_eq hr.2,h.volume.readFat_eq hr.2,entry,entry]
    congr 1
    refine getLE_congr fun j _ _=>?_
    rw [hdata,if_neg fun he=>?_]
    have hl:=congrArg Prod.fst he
    omega
  have hsame (lba j : ℕ) (hj : j<512) : d₂.data lba j=unlinkedData m d p (first::ys) lba j:=by
    rw [hdata₂ lba j hj,clearedData_marked hdata hp]
  have hend:=freeEnd_iff h.volume.geometry.numFats_pos hle hlt hsame
  rw [hsec,hs.kept.sectors,hmark] at hend
  rw [hloop,Option.map_some,hmark,hlast']
  simp only [Option.some.injEq,forall_eq']
  exact hend

/-- The small volume with a file A in the root directory, with the given first cluster. The clusters 2
and 3 are chains of their own. -/
def fileDisk (first : ℕ) : Disk where
  sectors:=7
  data:=fun lba=>
    if lba=1 ∨ lba=2 then putLE (putLE (fun _=>0) 4 8 0x0FFFFFFF) 4 12 0x0FFFFFFF
    else if lba=3 then createEntry [65] .file first
    else fun _=>0
  written:=[]

def rootNode : Fat32Node:=⟨2,true,0,0,false⟩

theorem fileDisk_volume (first : ℕ) : Volume smallMount (fileDisk first):=by
  refine ⟨smallDisk_volume.geometry,?_⟩
  intro f hf s hs j _
  have hf' : f=0 ∨ f=1:=by
    simp only [smallMount] at hf
    omega
  obtain rfl : s=0:=by
    simp only [smallMount] at hs
    omega
  rcases hf' with rfl | rfl <;> rfl

/-- An empty file is unlinked as it should be. -/
theorem unlinks_empty : Unlinks smallMount (fileDisk 0) rootNode [65] (3,0) []:=by
  refine (unlinks_iff ⟨fileDisk_volume 0,?_,nodup_singleton 2,?_,by decide,.inl ⟨by decide,rfl⟩,trivial,
    nodup_nil⟩).mpr nofun
  · exact (by decide : table smallMount (fileDisk 0) 2 = .last)
  · rfl

/-- A file of one cluster is unlinked with an error, after its entry is gone. -/
theorem unlink_fails : FileFound smallMount (fileDisk 3) rootNode [65] (3,0) [] [3] ∧
    (∃d',fatUnlink smallMount rootNode [65] (fileDisk 3)=some (.error .ioError,d') ∧ d'.data 3 0=0xE5) ∧
    ¬Unlinks smallMount (fileDisk 3) rootNode [65] (3,0) [3]:=by
  have hrun : (fatUnlink smallMount rootNode [65] (fileDisk 3)).any (fun r=>
      (match r.1 with | .error e => decide (e = .ioError) | .ok _ => false) && decide (r.2.data 3 0=0xE5))=true:=by
    decide +kernel
  obtain ⟨⟨e | u,d'⟩,hd',hP⟩:=(Option.any_eq_true _ _).mp hrun
  · simp only [Bool.and_eq_true,decide_eq_true_eq] at hP
    obtain ⟨rfl,hmark⟩:=hP
    refine ⟨⟨fileDisk_volume 3,?_,nodup_singleton 2,rfl,by decide,.inr rfl,?_,nodup_singleton 3⟩,⟨d',hd',hmark⟩,?_⟩
    · exact (by decide : table smallMount (fileDisk 3) 2 = .last)
    · exact (by decide : table smallMount (fileDisk 3) 3 = .last)
    · rintro ⟨d'',h,-⟩
      cases hd'.symm.trans h
  · cases hP

end Knail.Fat32
