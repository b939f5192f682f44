import Knail.DirectoryWalks

/-!
# Mounting a volume

`fat32::mount` takes the geometry of a volume from the raw bytes of its boot sector. It looks at the size of a
sector and that of a table only. Everything else, the divisor included, is used as it is read, in 32 bits.
-/
namespace Knail.Fat32

open Vfs Option

/-- The fields of the boot sector that `mount` uses. -/
structure Bpb where
  bytesPerSector : ℕ
  sectorsPerCluster : ℕ
  reservedSectors : ℕ
  numFats : ℕ
  totalSectors32 : ℕ
  fatSize32 : ℕ
  rootCluster : ℕ

def Bpb.read (buf : ℕ→UInt8) : Bpb where
  bytesPerSector:=getLE buf 2 11
  sectorsPerCluster:=getLE buf 1 13
  reservedSectors:=getLE buf 2 14
  numFats:=getLE buf 1 16
  totalSectors32:=getLE buf 4 32
  fatSize32:=getLE buf 4 36
  rootCluster:=getLE buf 4 44

def Bpb.dataStart (b : Bpb) : ℕ:=u32 (b.reservedSectors+b.numFats*b.fatSize32)

/-- The difference before the division, in 32 bits. -/
def Bpb.dataSectors (b : Bpb) : ℕ:=u32 (b.totalSectors32+4294967296-b.dataStart)

/-- The fields of the new `Fat32Mount`; the division has no result for a divisor of zero. -/
def Bpb.geometry (b : Bpb) : Option Mount:=
  if b.sectorsPerCluster=0 then none
  else some {
    fatStart:=b.reservedSectors
    dataStart:=b.dataStart
    sectorsPerCluster:=b.sectorsPerCluster
    totalClusters:=b.dataSectors/b.sectorsPerCluster
    fatSize:=b.fatSize32
    numFats:=b.numFats }

/-- What `kmalloc` returns: for the mount, the root and its FAT part, the vnodes of the files, and the entry of
the list of mounts. -/
structure MountMemory where
  mount : Bool
  root : Bool
  node : Bool
  vnodes : ℕ×ℕ→Bool×Bool
  entry : Bool

inductive MountResult
  | error (e : KError)
  | divideError
  /-- The volume is in use, with its root cluster. -/
  | ready (m : Mount) (root : ℕ)

/-- `mount` up to `populate_dir`, from what reading the boot sector gives. -/
def setup (boot : Option (ℕ→UInt8)) (mem : MountMemory) : MountResult:=
  match boot with
  | none=>.error .ioError
  | some buf=>
    let b:=Bpb.read buf
    if b.bytesPerSector≠512 then .error .deviceError
    else if b.fatSize32=0 then .error .filesystemCorrupt
    else if mem.mount=false then .error .outOfMemory
    else
      match b.geometry with
      | none=>.divideError
      | some m=>
        if mem.root=false then .error .outOfMemory
        else if mem.node=false then .error .outOfMemory
        else .ready m b.rootCluster

/-- The checks of `vfs::mount`, from the type of the vnode at the mount point. -/
def vfsMount (point : Option VType) (entry : Bool) : Option KError:=
  match point with
  | none=>some .notFound
  | some type=>if type≠.dir then some .notADirectory else if entry=false then some .outOfMemory else none

/-- `fat32::mount`. There is no result if `populate_dir` does not come back within the given bounds. -/
def mount (boot : Option (ℕ→UInt8)) (mem : MountMemory) (point : Option VType) (turns depth : ℕ) (d : Disk) :
    Option MountResult:=
  match setup boot mem with
  | .ready m root=>
    match populateDir m d mem.vnodes turns depth root with
    | none=>none
    | some _=>
      match vfsMount point mem.entry with
      | some e=>some (.error e)
      | none=>some (.ready m root)
  | r=>some r

structure Sane (b : Bpb) (m : Mount) (root sectors : ℕ) : Prop where
  perCluster : 1 ≤ m.sectorsPerCluster
  numFats : 1 ≤ m.numFats
  noWrap : b.reservedSectors+b.numFats*b.fatSize32=m.dataStart
  dataStart : m.dataStart≤b.totalSectors32
  table : (m.totalClusters+2)*4 ≤ m.fatSize*512
  inDevice : m.dataStart+m.totalClusters*m.sectorsPerCluster ≤ sectors
  root_mem : 2 ≤ root ∧ root ≤ m.totalClusters+1

/-- `mount` gets to the computation of the geometry. -/
def Computes (boot : Option (ℕ→UInt8)) (mem : MountMemory) (b : Bpb) : Prop:=
  boot.map Bpb.read=some b ∧ b.bytesPerSector=512 ∧ b.fatSize32≠0 ∧ mem.mount=true

/-- The computation neither divides by zero nor goes below zero, and `mount` returns an error or has set up a geometry
whose numbers fit together. -/
def MountSafe (boot : Option (ℕ→UInt8)) (mem : MountMemory) (point : Option VType) (d : Disk) : Prop:=
  ∀b,Computes boot mem b→b.sectorsPerCluster≠0 ∧ b.dataStart≤b.totalSectors32 ∧
    ∀m root,setup boot mem = .ready m root →
      (∃turns depth e,mount boot mem point turns depth d=some (.error e)) ∨ Sane b m root d.sectors

/-- The fields of a boot sector that are right for a device. -/
structure Bpb.Consistent (b : Bpb) (sectors : ℕ) : Prop where
  numFats : b.numFats≠0
  tables : b.reservedSectors+b.numFats*b.fatSize32≤b.totalSectors32
  entries : b.totalSectors32-(b.reservedSectors+b.numFats*b.fatSize32)<(b.fatSize32*128-1)*b.sectorsPerCluster
  device : b.totalSectors32 ≤ sectors +
    (b.totalSectors32-(b.reservedSectors+b.numFats*b.fatSize32))%b.sectorsPerCluster
  rootCluster : 2≤b.rootCluster
  root_le : (b.rootCluster-1)*b.sectorsPerCluster ≤
    b.totalSectors32-(b.reservedSectors+b.numFats*b.fatSize32)

variable {b : Bpb} {m : Mount} {boot : Option (ℕ→UInt8)} {mem : MountMemory} {point : Option VType} {d : Disk}
  {root sectors : ℕ}

theorem Computes.total_lt (h : Computes boot mem b) : b.totalSectors32<4294967296:=by
  obtain ⟨hb,-⟩:=h
  obtain ⟨buf,-,rfl⟩:=map_eq_some_iff.mp hb
  exact getLE_lt buf 4 32

theorem setup_of_computes (h : Computes boot mem b) (hm : b.geometry=some m) : setup boot mem =
    if mem.root=false then .error .outOfMemory
    else if mem.node=false then .error .outOfMemory
    else .ready m b.rootCluster:=by
  obtain ⟨hb,hsize,hfat,hmem⟩:=h
  obtain ⟨buf,rfl,rfl⟩:=map_eq_some_iff.mp hb
  simp only [setup,hsize,hfat,hmem,hm]
  rfl

theorem Bpb.geometry_eq_some (h : b.sectorsPerCluster≠0) : b.geometry=some {
    fatStart:=b.reservedSectors
    dataStart:=b.dataStart
    sectorsPerCluster:=b.sectorsPerCluster
    totalClusters:=b.dataSectors/b.sectorsPerCluster
    fatSize:=b.fatSize32
    numFats:=b.numFats }:=if_neg h

theorem Bpb.dataSectors_eq (h : b.dataStart≤b.totalSectors32) (hlt : b.totalSectors32<4294967296) :
    b.dataSectors=b.totalSectors32-b.dataStart:=by
  unfold dataSectors u32
  omega

theorem Bpb.dataStart_eq_iff (hlt : b.totalSectors32<4294967296) :
    b.reservedSectors+b.numFats*b.fatSize32=b.dataStart ∧ b.dataStart≤b.totalSectors32 ↔
    b.reservedSectors+b.numFats*b.fatSize32≤b.totalSectors32:=by
  unfold dataStart u32
  omega

/-- The numbers of the geometry fit together exactly if the fields of the boot sector do. -/
theorem Bpb.sane_iff (hspc : b.sectorsPerCluster≠0) (hfat : b.fatSize32≠0) (hle : b.dataStart≤b.totalSectors32)
    (hlt : b.totalSectors32<4294967296) (hm : b.geometry=some m) :
    Sane b m b.rootCluster sectors↔b.Consistent sectors:=by
  obtain rfl:=some.inj ((geometry_eq_some hspc).symm.trans hm)
  have hdata:=dataSectors_eq hle hlt
  have hpos : 0<b.sectorsPerCluster:=by omega
  have hwrap:=dataStart_eq_iff hlt
  have hdiv:=Nat.div_add_mod b.dataSectors b.sectorsPerCluster
  -- the bounds on the number of clusters, without the division
  have hentries : (b.dataSectors/b.sectorsPerCluster+2)*4≤b.fatSize32*512 ↔
      b.dataSectors<(b.fatSize32*128-1)*b.sectorsPerCluster:=by
    rw [←Nat.div_lt_iff_lt_mul hpos]
    omega
  have hroot (h : 2≤b.rootCluster) : b.rootCluster≤b.dataSectors/b.sectorsPerCluster+1 ↔
      (b.rootCluster-1)*b.sectorsPerCluster≤b.dataSectors:=by
    rw [←Nat.le_div_iff_mul_le hpos]
    omega
  have hdevice : b.dataStart+b.dataSectors/b.sectorsPerCluster*b.sectorsPerCluster ≤ sectors ↔
      b.totalSectors32 ≤ sectors+b.dataSectors%b.sectorsPerCluster:=by
    rw [Nat.mul_comm] at hdiv
    omega
  constructor
  · intro hs
    have hstart : b.reservedSectors+b.numFats*b.fatSize32=b.dataStart:=hs.noWrap
    have hsize : b.totalSectors32-(b.reservedSectors+b.numFats*b.fatSize32)=b.dataSectors:=by omega
    refine ⟨Nat.one_le_iff_ne_zero.mp hs.numFats,hwrap.mp ⟨hstart,hle⟩,?_,?_,hs.root_mem.1,?_⟩
    · rw [hsize]
      exact hentries.mp hs.table
    · rw [hsize]
      exact hdevice.mp hs.inDevice
    · rw [hsize]
      exact (hroot hs.root_mem.1).mp hs.root_mem.2
  · intro hc
    obtain ⟨hstart,-⟩:=hwrap.mpr hc.tables
    have hsize : b.totalSectors32-(b.reservedSectors+b.numFats*b.fatSize32)=b.dataSectors:=by omega
    have hentries':=hc.entries
    have hdevice':=hc.device
    have hroot':=hc.root_le
    rw [hsize] at hentries' hdevice' hroot'
    exact ⟨hpos,Nat.one_le_iff_ne_zero.mpr hc.numFats,hstart,hle,hentries.mpr hentries',hdevice.mpr hdevice',
      hc.rootCluster,(hroot hc.rootCluster).mpr hroot'⟩

/-- `mount` returns an error after it has computed the geometry: there is no memory for the root, or
`populate_dir` comes back and the volume cannot be attached. -/
def Bpb.Refused (b : Bpb) (mem : MountMemory) (point : Option VType) (d : Disk) : Prop:=
  mem.root=false ∨ mem.node=false ∨ (vfsMount point mem.entry).isSome ∧
    ∀m,b.geometry=some m→∃ts,Populates m d mem.vnodes b.rootCluster ts

theorem exists_error_iff (hsetup : setup boot mem = .ready m root) :
    (∃turns depth e,mount boot mem point turns depth d=some (.error e)) ↔
    (vfsMount point mem.entry).isSome ∧ ∃ts,Populates m d mem.vnodes root ts:=by
  simp only [mount,hsetup]
  constructor
  · rintro ⟨turns,depth,e,h⟩
    cases hp : populateDir m d mem.vnodes turns depth root with
    | none=>simp [hp] at h
    | some ts=>
      cases hv : vfsMount point mem.entry with
      | none=>simp [hp,hv] at h
      | some e=>exact ⟨rfl,ts,turns,depth,hp⟩
  · rintro ⟨hv,ts,turns,depth,hp⟩
    obtain ⟨e,hv⟩:=isSome_iff_exists.mp hv
    exact ⟨turns,depth,e,by simp [hp,hv]⟩

/-- Mounting is safe exactly for boot sectors that are refused before the computation, or whose fields neither make it
divide by zero nor go below zero and are consistent, unless the call fails later on. -/
theorem mount_safe_iff (boot : Option (ℕ→UInt8)) (mem : MountMemory) (point : Option VType) (d : Disk) :
    MountSafe boot mem point d↔∀b,Computes boot mem b →
    b.sectorsPerCluster≠0 ∧ b.dataStart≤b.totalSectors32 ∧ (b.Refused mem point d ∨ b.Consistent d.sectors):=by
  refine forall₂_congr fun b hb=>and_congr_right fun hspc=>and_congr_right fun hle=>?_
  have hlt:=hb.total_lt
  obtain ⟨m,hm⟩ : ∃m,b.geometry=some m:=⟨_,Bpb.geometry_eq_some hspc⟩
  have hsane : Sane b m b.rootCluster d.sectors↔b.Consistent d.sectors:=Bpb.sane_iff hspc hb.2.2.1 hle hlt hm
  have hsetup:=setup_of_computes hb hm
  by_cases hmem : mem.root=true ∧ mem.node=true
  · have hready : setup boot mem = .ready m b.rootCluster:=by simp [hsetup,hmem.1,hmem.2]
    have hrefused : b.Refused mem point d↔∃turns depth e,mount boot mem point turns depth d=some (.error e):=by
      rw [exists_error_iff hready]
      simp [Bpb.Refused,hmem.1,hmem.2,hm]
    simp [hready,hrefused,←hsane]
  · have hrefused : b.Refused mem point d:=by
      unfold Bpb.Refused
      grind
    have hnone (m' : Mount) (root : ℕ) : setup boot mem≠.ready m' root:=by
      grind
    simp [hnone,hrefused]

theorem Sane.geometry (h : Sane b m root sectors) (hm : b.geometry=some m) (hlt : b.totalSectors32<4294967296)
    (hspc : b.sectorsPerCluster<256) (hclusters : m.totalClusters+2≤0x0FFFFFF8) : Geometry m sectors:=by
  have hne : b.sectorsPerCluster≠0:=by
    intro hzero
    simp [Bpb.geometry,hzero] at hm
  obtain rfl:=some.inj ((Bpb.geometry_eq_some hne).symm.trans hm)
  have hdata:=Bpb.dataSectors_eq h.dataStart hlt
  have hle:=h.dataStart
  have hmul:=Nat.div_mul_le_self b.dataSectors b.sectorsPerCluster
  exact ⟨h.numFats,h.perCluster,hspc,h.noWrap.symm,h.table,hclusters,h.inDevice,by dsimp only at hle ⊢; omega⟩

/-- A boot sector of zeros but for the size of a sector and that of a table. -/
def zeroDivisor : ℕ→UInt8:=putLE (putLE (fun _=>0) 2 11 512) 4 36 1

/-- A boot sector of a volume that has fewer sectors than its table. -/
def shortVolume : ℕ→UInt8:=putLE (putLE (putLE (putLE (fun _=>0) 2 11 512) 4 36 1) 1 13 1) 1 16 1

/-- The first boot sector makes `mount` divide by zero, the second one makes it go below zero, which gives a volume of
4294967295 clusters. -/
theorem mount_accepts_bad_geometry : setup (some zeroDivisor) ⟨true,true,true,enough,true⟩ = .divideError ∧
    ¬MountSafe (some zeroDivisor) ⟨true,true,true,enough,true⟩ (some .dir) ⟨64,fun _=>zeroDivisor,[]⟩ ∧
    setup (some shortVolume) ⟨true,true,true,enough,true⟩ = .ready ⟨0,1,1,4294967295,1,1⟩ 0 ∧
    ¬MountSafe (some shortVolume) ⟨true,true,true,enough,true⟩ (some .dir) ⟨64,fun _=>shortVolume,[]⟩:=by
  refine ⟨rfl,fun hs=>?_,rfl,fun hs=>?_⟩
  · exact (hs (Bpb.read zeroDivisor) ⟨rfl,by decide,by decide,rfl⟩).1 (by decide)
  · exact absurd (hs (Bpb.read shortVolume) ⟨rfl,by decide,by decide,rfl⟩).2.1 (by decide)

end Knail.Fat32
