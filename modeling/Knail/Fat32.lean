import Knail.ByteWords
import Knail.VfsNodes

/-!
# The FAT32 driver

A disk has a number of sectors; transfers of a sector beyond the last one fail. Loops that
follow a chain of clusters have as many turns as the volume has clusters, and one more; a
loop that does not end by then has no result.
-/
namespace Knail.Fat32

open Vfs

structure Mount where
  fatStart : ℕ
  dataStart : ℕ
  sectorsPerCluster : ℕ
  totalClusters : ℕ
  fatSize : ℕ
  numFats : ℕ

/-- The disk, and the sectors that were written so far. -/
structure Disk where
  sectors : ℕ
  data : ℕ→ℕ→UInt8
  written : List ℕ

def devRead (d : Disk) (lba : ℕ) : Option (ℕ→UInt8):=if lba<d.sectors then some (d.data lba) else none

def devWrite (d : Disk) (lba : ℕ) (buf : ℕ→UInt8) : Option Disk:=
  if lba<d.sectors then
    some {d with data:=Function.update d.data lba buf,written:=lba::d.written}
  else none

/-- The difference `cluster - 2` is unsigned; the addend is the negative of 2. -/
def clusterToLba (m : Mount) (cluster : ℕ) : ℕ:=
  u32 (m.dataStart+u32 (4294967294+cluster)*m.sectorsPerCluster)

def clusterBytes (m : Mount) : ℕ:=u32 (m.sectorsPerCluster*512)

def readFat (m : Mount) (cluster : ℕ) (d : Disk) : ℕ:=
  let fatOffset:=u32 (cluster*4)
  match devRead d (u32 (m.fatStart+fatOffset/512)) with
  | none=>0x0FFFFFFF
  | some buf=>getLE buf 4 (fatOffset%512)&&&0x0FFFFFFF

def writeCopies (m : Mount) (sector : ℕ) (buf : ℕ→UInt8) : ℕ→ℕ→Disk→Bool×Disk
  | 0, _, d=>(true,d)
  | n+1, f, d=>
    match devWrite d (u32 (m.fatStart+f*m.fatSize+sector)) buf with
    | none=>(false,d)
    | some d=>writeCopies m sector buf n (f+1) d

def writeFat (m : Mount) (cluster value : ℕ) (d : Disk) : Bool×Disk:=
  let fatOffset:=u32 (cluster*4)
  match devRead d (u32 (m.fatStart+fatOffset/512)) with
  | none=>(false,d)
  | some buf=>
    let old:=getLE buf 4 (fatOffset%512)
    let buf:=putLE buf 4 (fatOffset%512) ((value&&&0x0FFFFFFF)|||(old&&&0xF0000000))
    writeCopies m (fatOffset/512) buf m.numFats 0 d

def allocFrom (m : Mount) : ℕ→ℕ→Disk→ℕ×Disk
  | 0, _, d=>(0,d)
  | n+1, c, d=>
    if readFat m c d=0 then (c,(writeFat m c 0x0FFFFFFF d).2) else allocFrom m n (c+1) d

def allocCluster (m : Mount) (d : Disk) : ℕ×Disk:=allocFrom m (u32 (m.totalClusters+2)-2) 2 d

def zeroSectors (lba : ℕ) : ℕ→ℕ→Disk→Bool×Disk
  | 0, _, d=>(true,d)
  | n+1, s, d=>
    match devWrite d (u32 (lba+s)) (fun _=>0) with
    | none=>(false,d)
    | some d=>zeroSectors lba n (s+1) d

def zeroCluster (m : Mount) (cluster : ℕ) (d : Disk) : Bool×Disk:=
  zeroSectors (clusterToLba m cluster) m.sectorsPerCluster 0 d

def isEoc (v : ℕ) : Bool:=0x0FFFFFF8≤v&&&0x0FFFFFFF

/-! ## Names of the 8.3 form -/

def toLower (c : UInt8) : UInt8:=if 65 ≤ c ∧ c≤90 then c+32 else c

def toUpper (c : UInt8) : UInt8:=if 97 ≤ c ∧ c≤122 then c-32 else c

def trimSpaces (xs : List UInt8) : List UInt8:=(xs.reverse.dropWhile (· = 32)).reverse

/-- The name of a directory entry, in the case that the reserved byte records. -/
def decode83 (e : ℕ→UInt8) : List UInt8:=
  let base:=trimSpaces ((List.range 8).map e)
  let ext:=trimSpaces ((List.range 3).map fun i=>e (8+i))
  let base:=if e 12&&&0x08≠0 then base.map toLower else base
  let tail:=if ext=[] then [] else 46::if e 12&&&0x10≠0 then ext.map toLower else ext
  base++tail

def encode83 (name : List UInt8) : List UInt8×UInt8:=
  let base:=(name.takeWhile (· ≠ 46)).take 8
  let ext:=((name.dropWhile (· ≠ 46)).drop 1).take 3
  let lower (xs : List UInt8) : Bool:=xs.any fun c=>97 ≤ c ∧ c≤122
  (((base.map toUpper).rightpad 8 32)++((ext.map toUpper).rightpad 3 32),
    (if lower base then 0x08 else 0)|||(if lower ext then 0x10 else 0))

/-- Names are compared without case; the decoded name ends at a zero byte. -/
def nameMatches (e : ℕ→UInt8) (name : List UInt8) : Bool:=
  ((decode83 e).takeWhile (· ≠ 0)).map toLower=name.map toLower

/-! ## Chains of clusters -/

/-- The first loop of `chain_read`; `none` is a chain that ends too early. -/
def skipRead (m : Mount) (d : Disk) : ℕ→ℕ→Option ℕ
  | 0, cluster=>some cluster
  | n+1, cluster=>
    let cluster:=readFat m cluster d
    if isEoc cluster ∨ cluster<2 then none else skipRead m d n cluster

/-- The inner loop of `chain_read`: the position moves into the next clusters. -/
def hop (m : Mount) (d : Disk) : ℕ→ℕ→ℕ→Option (ℕ×ℕ)
  | 0, intra, cluster=>some (intra,cluster)
  | n+1, intra, cluster=>
    if clusterBytes m ≤ intra then
      let cluster:=readFat m cluster d
      if isEoc cluster ∨ cluster<2 then none else hop m d n (intra-clusterBytes m) cluster
    else some (intra,cluster)

/-- The bytes from a position to the end of its sector, at most `len`. -/
def chunk (intra len : ℕ) : ℕ:=min (512-intra%512) len

/-- A turn of the loop of `chain_read`: the bytes of one sector and the place after them. -/
def readTurn (m : Mount) (d : Disk) (cluster intra len : ℕ) : Option (List UInt8×ℕ×ℕ):=
  match hop m d intra intra cluster with
  | none=>none
  | some (intra,cluster)=>
    if isEoc cluster ∨ cluster<2 then none
    else
      match devRead d (u32 (clusterToLba m cluster+intra/512)) with
      | none=>none
      | some buf=>
        some ((List.range (chunk intra len)).map fun i=>buf (intra%512+i),cluster,intra+chunk intra len)

def readTurns (turn : ℕ→ℕ→ℕ→Option (List UInt8×ℕ×ℕ)) : ℕ→ℕ→ℕ→ℕ→List UInt8
  | 0, _, _, _=>[]
  | n+1, cluster, intra, len=>
    if len=0 then []
    else
      match turn cluster intra len with
      | none=>[]
      | some (bytes,cluster,intra)=>bytes++readTurns turn n cluster intra (len-bytes.length)

/-- The loop of `chain_read`. Every turn reads at least one byte. -/
def readLoop (m : Mount) (d : Disk) (cluster intra len : ℕ) : List UInt8:=
  readTurns (readTurn m d) len cluster intra len

def chainRead (m : Mount) (firstCluster offset len : ℕ) (d : Disk) : List UInt8:=
  if len=0 then []
  else
    match skipRead m d (offset/clusterBytes m) firstCluster with
    | none=>[]
    | some cluster=>readLoop m d cluster (offset%clusterBytes m) len

/-- The cluster after the given one; at the end of the chain a new one is linked. -/
def advance (m : Mount) (cluster : ℕ) (d : Disk) : Except KError ℕ×Disk:=
  let nxt:=readFat m cluster d
  if isEoc nxt ∨ nxt<2 then
    let (newc,d):=allocCluster m d
    if newc=0 then (.error .noSpace,d)
    else
      let d:=(zeroCluster m newc d).2
      let (linked,d):=writeFat m cluster newc d
      if linked then (.ok newc,d) else (.error .invalidArgument,d)
  else (.ok nxt,d)

/-- The first loop of `chain_write`. -/
def skipWrite (m : Mount) : ℕ→ℕ→Disk→Except KError ℕ×Disk
  | 0, cluster, d=>(.ok cluster,d)
  | n+1, cluster, d=>
    match advance m cluster d with
    | (.ok cluster,d)=>skipWrite m n cluster d
    | (.error e,d)=>(.error e,d)

def eInval : ℤ:=-22
def eNoSpace : ℤ:=-28

/-- How a turn of the second loop of `chain_write` ends: the loop goes on at a place, or
the function returns, in each case after some bytes. -/
inductive Turn
  | more (cluster intra count : ℕ) (d : Disk)
  | stop (count : ℕ) (d : Disk)
  | inval (d : Disk)

def writeSector (lba byteIn : ℕ) (bytes : List UInt8) (d : Disk) : Option Disk:=
  match devRead d lba with
  | none=>none
  | some buf=>devWrite d lba (putBytes buf byteIn bytes)

def endTurn (count : ℕ) : Except KError ℕ×Disk→Turn
  | (.ok cluster,d)=>.more cluster 0 count d
  | (.error .noSpace,d)=>.stop count d
  | (.error _,d)=>.inval d

/-- Write to one sector; at the end of a cluster move on to the next. -/
def writeTurn (m : Mount) (cluster intra : ℕ) (src : List UInt8) (d : Disk) : Turn:=
  match writeSector (u32 (clusterToLba m cluster+intra/512)) (intra%512) (src.take (chunk intra src.length)) d with
  | none=>.stop 0 d
  | some d=>
    if clusterBytes m ≤ intra+chunk intra src.length ∧ src.drop (chunk intra src.length)≠[] then
      endTurn (chunk intra src.length) (advance m cluster d)
    else .more cluster (intra+chunk intra src.length) (chunk intra src.length) d

/-- The turns, with the bytes that are left to write. -/
def writeTurns (turn : ℕ→ℕ→List UInt8→Disk→Turn) : ℕ→ℕ→ℕ→ℕ→List UInt8→Disk → ℤ×Disk
  | 0, _, _, written, _, d=>(written,d)
  | n+1, cluster, intra, written, src, d=>
    if src=[] then (written,d)
    else
      match turn cluster intra src d with
      | .more cluster intra count d=>writeTurns turn n cluster intra (written+count) (src.drop count) d
      | .stop count d=>((written+count : ℕ),d)
      | .inval d=>(eInval,d)

/-- The second loop of `chain_write`. Every turn writes at least one byte. -/
def writeLoop (m : Mount) (cluster intra : ℕ) (src : List UInt8) (d : Disk) : ℤ×Disk:=
  writeTurns (writeTurn m) src.length cluster intra 0 src d

/-- The chain's first cluster, allocated for an empty file; 0 without space. -/
def startCluster (m : Mount) (firstCluster : ℕ) (d : Disk) : ℕ×Disk:=
  if firstCluster<2 then
    let (cluster,d):=allocCluster m d
    if cluster=0 then (0,d) else (cluster,(zeroCluster m cluster d).2)
  else (firstCluster,d)

/-- The return value and the first cluster of the chain. -/
def chainWrite (m : Mount) (firstCluster offset : ℕ) (src : List UInt8) (d : Disk) : ℤ×ℕ×Disk:=
  if src=[] then (0,firstCluster,d)
  else
    let (cluster,d):=startCluster m firstCluster d
    if cluster=0 then (eNoSpace,firstCluster,d)
    else
      match skipWrite m (offset/clusterBytes m) cluster d with
      | (.error .noSpace,d)=>(eNoSpace,cluster,d)
      | (.error _,d)=>(eInval,cluster,d)
      | (.ok last,d)=>
        let (r,d):=writeLoop m last (offset%clusterBytes m) src d
        (r,cluster,d)

/-! ## Directory entries -/

def attrVolumeId : UInt8:=0x08
def attrDir : UInt8:=0x10
def attrArchive : UInt8:=0x20
def attrLfn : UInt8:=0x0F

def entryAt (buf : ℕ→UInt8) (off i : ℕ) : UInt8:=buf (off+i)

/-- Look at the sectors of a cluster and the 16 entries of each until `visit` returns. A
sector that cannot be read returns nothing. -/
def scanCluster {α : Type} (m : Mount) (d : Disk) (visit : ℕ→ℕ→(ℕ→UInt8)→Option (Option α)) (cluster : ℕ) :
    Option (Option α):=
  (List.range m.sectorsPerCluster).findSome? fun s=>
    let sector:=u32 (clusterToLba m cluster+s)
    match devRead d sector with
    | none=>some none
    | some buf=>(List.range 16).findSome? fun e=>visit sector (e*32) (entryAt buf (e*32))

def writeDirentAt (sector offset : ℕ) (de : ℕ→UInt8) (d : Disk) : Option Disk:=
  match devRead d sector with
  | none=>none
  | some buf=>devWrite d sector (putBytes buf offset ((List.range 32).map de))

/-- How `dir_find` treats an entry. -/
def findVisit (name : List UInt8) (sector offset : ℕ) (e : ℕ→UInt8) : Option (Option ((ℕ→UInt8)×ℕ×ℕ)):=
  if e 0=0 then some none
  else if e 0=0xE5 ∨ e 11=attrLfn ∨ e 11&&&attrVolumeId≠0 then none
  else if nameMatches e name then some (some (e,sector,offset)) else none

def dirFindLoop (m : Mount) (name : List UInt8) (d : Disk) : ℕ→ℕ→Option (Option ((ℕ→UInt8)×ℕ×ℕ))
  | 0, _=>none
  | n+1, cluster=>
    if isEoc cluster ∨ cluster<2 then some none
    else
      match scanCluster m d (findVisit name) cluster with
      | some r=>some r
      | none=>dirFindLoop m name d n (readFat m cluster d)

def dirFind (m : Mount) (dirCluster : ℕ) (name : List UInt8) (d : Disk) : Option (Option ((ℕ→UInt8)×ℕ×ℕ)):=
  dirFindLoop m name d (m.totalClusters+1) dirCluster

/-- How `find_free_dirent` treats an entry. -/
def freeVisit (sector offset : ℕ) (e : ℕ→UInt8) : Option (Option (ℕ×ℕ)):=
  if e 0=0 ∨ e 0=0xE5 then some (some (sector,offset)) else none

/-- The loop of `find_free_dirent`: the result of the search, or the cluster after which a
new one goes. -/
def freeDirentLoop (m : Mount) (d : Disk) : ℕ→ℕ→Option (Option (ℕ×ℕ) ⊕ ℕ)
  | 0, _=>none
  | n+1, cluster=>
    if cluster<2 then some (.inr cluster)
    else
      match scanCluster m d freeVisit cluster with
      | some r=>some (.inl r)
      | none=>
        if isEoc (readFat m cluster d) ∨ readFat m cluster d<2 then some (.inr cluster)
        else freeDirentLoop m d n (readFat m cluster d)

def findFreeDirent (m : Mount) (dirCluster : ℕ) (d : Disk) : Option (Option (ℕ×ℕ)×Disk):=
  match freeDirentLoop m d (m.totalClusters+1) dirCluster with
  | none=>none
  | some (.inl r)=>some (r,d)
  | some (.inr cluster)=>
    let (newc,d):=allocCluster m d
    if newc=0 then some (none,d)
    else
      let (zeroed,d):=zeroCluster m newc d
      if !zeroed then some (none,d)
      else
        let (linked,d):=writeFat m cluster newc d
        if linked then some (some (clusterToLba m newc,0),d) else some (none,d)

/-- Store a cluster number in the two halves that an entry has for it. -/
def putCluster (e : ℕ→UInt8) (off cluster : ℕ) : ℕ→UInt8:=
  putLE (putLE e 2 (off+20) (cluster/65536)) 2 (off+26) cluster

/-! ## Operations on vnodes -/

def fatRead (m : Mount) (size : ℕ) (fn : Fat32Node) (offset len : ℕ) (d : Disk) : List UInt8:=
  if size≤offset then [] else chainRead m fn.firstCluster offset (min len (size-offset)) d

/-- The directory entry of a file gets its size and its first cluster. -/
def updateDirent (fn : Fat32Node) (size : ℕ) (d : Disk) : Disk:=
  if fn.hasDirent then
    match devRead d fn.direntSector with
    | none=>d
    | some buf=>
      let buf:=putCluster (putLE buf 4 (fn.direntOffset+28) size) fn.direntOffset fn.firstCluster
      (devWrite d fn.direntSector buf).getD d
  else d

/-- The result, the new size, the private data and the disk. -/
def fatWrite (m : Mount) (size : ℕ) (fn : Fat32Node) (offset : ℕ) (src : List UInt8) (d : Disk) :
    Except KError ℕ×ℕ×Fat32Node×Disk:=
  let (written,firstCluster,d):=chainWrite m fn.firstCluster offset src d
  let fn:={fn with firstCluster:=firstCluster}
  if written≤0 then (.error .ioError,size,fn,d)
  else
    let fin:=u64 (offset+written.toNat)
    let size:=if size<fin then fin else size
    (.ok written.toNat,size,fn,updateDirent fn size d)

/-- A vnode for a directory entry. The two allocations may fail. -/
def makeVnode (de : ℕ→UInt8) (sector offset : ℕ) (alloc : Bool×Bool) : Option VNode:=
  if !alloc.1 then none
  else if !alloc.2 then none
  else
    let isDir : Bool:=de 11&&&attrDir≠0
    some
      { name:=(decode83 de).takeWhile (· ≠ 0)
        type:=if isDir then .dir else .file
        size:=if isDir then 0 else getLE de 4 28
        data:=none
        dataCapacity:=0
        refcount:=0
        priv:=some
          { firstCluster:=getLE de 2 20*65536|||getLE de 2 26
            isDir:=isDir
            direntSector:=sector
            direntOffset:=offset
            hasDirent:=true } }

/-- An entry with a name and an attribute, everything else zero. -/
def newEntry (name : List UInt8) (reserved attr : UInt8) : ℕ→UInt8:=
  putBytes (fun _=>0) 0 (name++[attr,reserved])

/-- The first sector of a new directory: itself and its parent. -/
def dotEntries (cluster parent : ℕ) : ℕ→UInt8:=
  let dot:=newEntry ([46].rightpad 11 32) 0 attrDir
  let dotdot:=newEntry ([46,46].rightpad 11 32) 0 attrDir
  putCluster (putCluster (putBytes dot 32 ((List.range 32).map dotdot)) 0 cluster) 32 parent

/-- The cluster of a new directory, or `none` when one of the steps fails. -/
def makeDir (m : Mount) (parent : ℕ) (d : Disk) : Option ℕ×Disk:=
  let (cluster,d):=allocCluster m d
  if cluster=0 then (none,d)
  else
    let (zeroed,d):=zeroCluster m cluster d
    if !zeroed then (none,d)
    else
      match devWrite d (clusterToLba m cluster) (dotEntries cluster parent) with
      | none=>(none,d)
      | some d=>(some cluster,d)

def createEntry (name : List UInt8) (type : VType) (first : ℕ) : ℕ→UInt8:=
  putCluster (newEntry (encode83 name).1 (encode83 name).2 (if type = .dir then attrDir else attrArchive)) 0 first

/-- The new vnode. The outer `none` is a loop over the directory that does not end. -/
def fatCreate (m : Mount) (dfn : Fat32Node) (name : List UInt8) (type : VType) (alloc : Bool×Bool) (d : Disk) :
    Option (Option VNode×Disk):=
  match dirFind m dfn.firstCluster name d with
  | none=>none
  | some (some _)=>some (none,d)
  | some none=>
    match findFreeDirent m dfn.firstCluster d with
    | none=>none
    | some (none,d)=>some (none,d)
    | some (some (sector,offset),d)=>
      let (first,d):=if type = .dir then makeDir m dfn.firstCluster d else (some 0,d)
      match first with
      | none=>some (none,d)
      | some first=>
        match writeDirentAt sector offset (createEntry name type first) d with
        | none=>some (none,d)
        | some d=>some (makeVnode (createEntry name type first) sector offset alloc,d)

def entryCluster (e : ℕ→UInt8) : ℕ:=getLE e 2 20*65536|||getLE e 2 26

/-- The loop of `fat_unlink`: the number at which it ends, or `none` after a failed write. -/
def freeChain (m : Mount) : ℕ→ℕ→Disk→Option (Option ℕ×Disk)
  | 0, _, _=>none
  | n+1, cl, d=>
    if 2 ≤ cl ∧ isEoc cl=false then
      match writeFat m cl 0 d with
      | (false,d)=>some (none,d)
      | (true,d')=>freeChain m n (readFat m cl d) d'
    else some (some cl,d)

/-- After the loop the end mark of the chain is taken for a cluster too. -/
def freeEnd (m : Mount) : Option ℕ×Disk→Except KError Unit×Disk
  | (none,d)=>(.error .ioError,d)
  | (some cl,d)=>
    if 2 ≤ cl ∧ isEoc cl then
      match writeFat m cl 0 d with
      | (true,d)=>(.ok (),d)
      | (false,d)=>(.error .ioError,d)
    else (.ok (),d)

/-- The outer `none` is a loop that does not end. -/
def fatUnlink (m : Mount) (dfn : Fat32Node) (name : List UInt8) (d : Disk) : Option (Except KError Unit×Disk):=
  match dirFind m dfn.firstCluster name d with
  | none=>none
  | some none=>some (.error .notFound,d)
  | some (some (de,sector,offset))=>
    if de 11&&&attrDir≠0 then some (.error .isDirectory,d)
    else
      match devRead d sector with
      | none=>some (.error .ioError,d)
      | some buf=>
        match devWrite d sector (Function.update buf offset 0xE5) with
        | none=>some (.error .ioError,d)
        | some d=>(freeChain m (m.totalClusters+1) (entryCluster de) d).map (freeEnd m)

end Knail.Fat32
