import Knail.UnlinkedFiles

/-!
# Allocation on a device that fails

The functions on the table are stated for any device. On one whose transfers fail at arbitrary times `alloc_cluster`
returns a cluster whether it is marked or not; the copies in which it is marked are those written before the first
failure.
-/
namespace Knail.Fat32

/-- A device: transfers of one sector, each of which may fail and change the state of the device. -/
structure BlockDevice (σ : Type) where
  read : ℕ→σ→Option (ℕ→UInt8)×σ
  write : ℕ→(ℕ→UInt8)→σ→Bool×σ

namespace BlockDevice

variable {σ : Type} (D : BlockDevice σ) (m : Mount)

def readFat (cluster : ℕ) (s : σ) : ℕ×σ:=
  let fatOffset:=u32 (cluster*4)
  match D.read (u32 (m.fatStart+fatOffset/512)) s with
  | (none,s)=>(0x0FFFFFFF,s)
  | (some buf,s)=>(getLE buf 4 (fatOffset%512)&&&0x0FFFFFFF,s)

def writeCopies (sector : ℕ) (buf : ℕ→UInt8) : ℕ→ℕ→σ→Bool×σ
  | 0, _, s=>(true,s)
  | n+1, f, s=>
    match D.write (u32 (m.fatStart+f*m.fatSize+sector)) buf s with
    | (false,s)=>(false,s)
    | (true,s)=>writeCopies sector buf n (f+1) s

def writeFat (cluster value : ℕ) (s : σ) : Bool×σ:=
  let fatOffset:=u32 (cluster*4)
  match D.read (u32 (m.fatStart+fatOffset/512)) s with
  | (none,s)=>(false,s)
  | (some buf,s)=>
    let old:=getLE buf 4 (fatOffset%512)
    let buf:=putLE buf 4 (fatOffset%512) ((value&&&0x0FFFFFFF)|||(old&&&0xF0000000))
    D.writeCopies m (fatOffset/512) buf m.numFats 0 s

/-- The search for a free cluster from `c` on. The result of `write_fat` is not looked at. -/
def allocFrom : ℕ→ℕ→σ→ℕ×σ
  | 0, _, s=>(0,s)
  | n+1, c, s=>
    match D.readFat m c s with
    | (v,s)=>if v=0 then (c,(D.writeFat m c 0x0FFFFFFF s).2) else allocFrom n (c+1) s

def allocCluster (s : σ) : ℕ×σ:=D.allocFrom m (u32 (m.totalClusters+2)-2) 2 s

end BlockDevice

def diskDevice : BlockDevice Disk where
  read lba d:=(devRead d lba,d)
  write lba buf d:=
    match devWrite d lba buf with
    | none=>(false,d)
    | some d=>(true,d)

section Disk

variable (m : Mount) (d : Disk)

theorem readFat_diskDevice (c : ℕ) : diskDevice.readFat m c d=(readFat m c d,d):=by
  simp only [BlockDevice.readFat,readFat,diskDevice]
  cases devRead d (u32 (m.fatStart+u32 (c*4)/512)) <;> rfl

theorem writeCopies_diskDevice (sector : ℕ) (buf : ℕ→UInt8) (n f : ℕ) :
    diskDevice.writeCopies m sector buf n f d=writeCopies m sector buf n f d:=by
  induction n generalizing f d with
  | zero=>rfl
  | succ n ih=>
    simp only [BlockDevice.writeCopies,writeCopies,diskDevice]
    cases devWrite d (u32 (m.fatStart+f*m.fatSize+sector)) buf with
    | none=>rfl
    | some d'=>exact ih d' (f+1)

theorem writeFat_diskDevice (c v : ℕ) : diskDevice.writeFat m c v d=writeFat m c v d:=by
  simp only [BlockDevice.writeFat,writeFat,writeCopies_diskDevice]
  simp only [diskDevice]
  cases devRead d (u32 (m.fatStart+u32 (c*4)/512)) <;> rfl

theorem allocCluster_diskDevice : diskDevice.allocCluster m d=allocCluster m d:=by
  have hfrom (n c : ℕ) : diskDevice.allocFrom m n c d=allocFrom m n c d:=by
    induction n generalizing c with
    | zero=>rfl
    | succ n ih=>
      simp only [BlockDevice.allocFrom,allocFrom,readFat_diskDevice,writeFat_diskDevice,ih]
  exact hfrom _ _

end Disk

/-- A disk with the transfers that fail, by their number, and the number of transfers so far. -/
structure Faulty where
  disk : Disk
  faults : ℕ→Bool
  time : ℕ

namespace Faulty

/-- The device after some transfers that did not change the disk. -/
def after (s : Faulty) (n : ℕ) : Faulty:={s with time:=s.time+n}

theorem after_after (s : Faulty) (i j : ℕ) : (s.after i).after j=s.after (i+j):=by
  simp [after,Nat.add_assoc]

end Faulty

def faultyDevice : BlockDevice Faulty where
  read lba s:=(if s.faults s.time then none else devRead s.disk lba,s.after 1)
  write lba buf s:=
    if s.faults s.time then (false,s.after 1)
    else
      match devWrite s.disk lba buf with
      | none=>(false,s.after 1)
      | some d=>(true,{s.after 1 with disk:=d})

variable {m : Mount} {s s' : Faulty} {c v f n : ℕ}

theorem readFat_faulty (m : Mount) (c : ℕ) (s : Faulty) :
    faultyDevice.readFat m c s=(if s.faults s.time then 0x0FFFFFFF else readFat m c s.disk,s.after 1):=by
  simp only [BlockDevice.readFat,readFat,faultyDevice]
  by_cases h : s.faults s.time
  · simp [h]
  · simp only [h]
    cases devRead s.disk (u32 (m.fatStart+u32 (c*4)/512)) <;> rfl

/-- The cluster is read as free, in the search that starts at `c₀`. -/
def Faulty.SeenFree (m : Mount) (s : Faulty) (c₀ c : ℕ) : Prop:=
  s.faults (s.time+(c-c₀))=false ∧ readFat m c s.disk=0

theorem exists_readFat_faulty (m : Mount) (c : ℕ) (s : Faulty) :
    ∃v,faultyDevice.readFat m c s=(v,s.after 1) ∧ (v=0↔s.SeenFree m c c):=by
  refine ⟨_,readFat_faulty m c s,?_⟩
  rw [Faulty.SeenFree,Nat.sub_self,Nat.add_zero]
  cases s.faults s.time <;> simp

theorem Faulty.seenFree_after {c0 c : ℕ} (h : c0<c) : (s.after 1).SeenFree m (c0+1) c↔s.SeenFree m c0 c:=by
  have htime : s.time+1+(c-(c0+1))=s.time+(c-c0):=by omega
  simp only [SeenFree,after,htime]

theorem allocFrom_faulty (m : Mount) (n c0 : ℕ) (s : Faulty) :
    (faultyDevice.allocFrom m n c0 s=(0,s.after n) ∧ ∀c,c0 ≤ c→c<c0+n→¬s.SeenFree m c0 c) ∨
    ∃c,c0 ≤ c ∧ c<c0+n ∧ s.SeenFree m c0 c ∧ (∀b,c0≤b→b<c→¬s.SeenFree m c0 b) ∧
    faultyDevice.allocFrom m n c0 s=(c,(faultyDevice.writeFat m c 0x0FFFFFFF (s.after (c-c0+1))).2):=by
  induction n generalizing c0 s with
  | zero=>exact .inl ⟨rfl,fun c _ _=>by omega⟩
  | succ n ih=>
    obtain ⟨v,hread,hv⟩:=exists_readFat_faulty m c0 s
    simp only [BlockDevice.allocFrom,hread]
    by_cases hfree : s.SeenFree m c0 c0
    · refine .inr ⟨c0,le_rfl,by omega,hfree,fun b _ _=>by omega,?_⟩
      rw [if_pos (hv.mpr hfree),Nat.sub_self,Nat.zero_add]
    rw [if_neg fun h=>hfree (hv.mp h)]
    obtain ⟨he,hnone⟩ | ⟨c,hlo,hhi,hc,hfirst,he⟩:=ih (c0+1) (s.after 1)
    · refine .inl ⟨by rw [he,Faulty.after_after,Nat.add_comm],fun c hlo hhi=>?_⟩
      rcases Nat.eq_or_lt_of_le hlo with rfl | hlt
      · exact hfree
      · rw [←Faulty.seenFree_after hlt]
        exact hnone c hlt (by omega)
    · refine .inr ⟨c,by omega,by omega,(Faulty.seenFree_after (by omega)).mp hc,fun b hlo' hlt=>?_,?_⟩
      · rcases Nat.eq_or_lt_of_le hlo' with rfl | hlt'
        · exact hfree
        · rw [←Faulty.seenFree_after hlt']
          exact hfirst b hlt' hlt
      · rw [he,Faulty.after_after,show 1+(c-(c0+1)+1)=c-c0+1 by omega]

/-- The transfer of the `g`-th of the copies from `f` on succeeds. -/
def Faulty.Lands (m : Mount) (s : Faulty) (sector f g : ℕ) : Prop:=
  s.faults (s.time+g)=false ∧ copySector m sector (f+g)<s.disk.sectors

/-- The copies are written in turn until a transfer fails. -/
theorem writeCopies_faulty (m : Mount) (sector : ℕ) (buf : ℕ→UInt8) (n f : ℕ) (s : Faulty) :
    ∃k s',k≤n ∧ (∀g<k,s.Lands m sector f g) ∧ (k<n→¬s.Lands m sector f k) ∧
    faultyDevice.writeCopies m sector buf n f s=(decide (k=n),s') ∧ s'.faults=s.faults ∧
    CopiesWritten m sector buf f k s.disk s'.disk:=by
  induction n generalizing f s with
  | zero=>exact ⟨0,s,le_rfl,by omega,by omega,rfl,rfl,.zero sector buf s.disk⟩
  | succ n ih=>
    by_cases hland : s.Lands m sector f 0
    · obtain ⟨hfault,hlt⟩:=hland
      rw [Nat.add_zero] at hfault hlt
      let d1 : Disk:={ s.disk with
        data:=Function.update s.disk.data (copySector m sector f) buf
        written:=copySector m sector f::s.disk.written }
      have hwrite : devWrite s.disk (copySector m sector f) buf=some d1:=if_pos hlt
      obtain ⟨k,s',hk,hlands,hstop,he,hfaults,hw⟩:=ih (f+1) {s.after 1 with disk:=d1}
      have hw1:=hw
      have hshift (g : ℕ) : Faulty.Lands m {s.after 1 with disk:=d1} sector (f+1) g↔s.Lands m sector f (g+1):=by
        have h1 : s.time+1+g=s.time+(g+1):=by omega
        have h2 : f+1+g=f+(g+1):=by omega
        simp only [Faulty.Lands,Faulty.after,h1,h2,d1]
      refine ⟨k+1,s',by omega,fun g hg=>?_,fun hlt'=>?_,?_,hfaults,hw1.cons rfl rfl⟩
      · cases g with
        | zero=>exact ⟨hfault,hlt⟩
        | succ g=>exact (hshift g).mp (hlands g (by omega))
      · rw [←hshift]
        exact hstop (by omega)
      have hstep : faultyDevice.write (u32 (m.fatStart+f*m.fatSize+sector)) buf s =
          (true,{s.after 1 with disk:=d1}):=by
        simp only [faultyDevice,hfault,Bool.false_eq_true,if_false]
        rw [←copySector,hwrite]
      simp only [BlockDevice.writeCopies,hstep,he,Nat.add_right_cancel_iff]
    · refine ⟨0,s.after 1,by omega,by omega,fun _=>hland,?_,rfl,.zero sector buf s.disk⟩
      have hstep : faultyDevice.write (u32 (m.fatStart+f*m.fatSize+sector)) buf s=(false,s.after 1):=by
        simp only [faultyDevice]
        by_cases hfault : s.faults s.time
        · rw [if_pos hfault]
        · have hge : ¬copySector m sector f<s.disk.sectors:=fun hlt=>hland ⟨by simpa using hfault,hlt⟩
          rw [if_neg hfault,←copySector,devWrite,if_neg hge]
      simp [BlockDevice.writeCopies,hstep]

/-- The sector of the table with the entry of a cluster, and the place of the entry in it. -/
def tableSector (c : ℕ) : ℕ:=u32 (c*4)/512

@[inherit_doc tableSector]
def tableOffset (c : ℕ) : ℕ:=u32 (c*4)%512

/-- A sector of the table with a new value for a cluster, as `write_fat` makes it. -/
def tableUpdate (buf : ℕ→UInt8) (c v : ℕ) : ℕ→UInt8:=
  putLE buf 4 (tableOffset c) ((v&&&0x0FFFFFFF)|||(getLE buf 4 (tableOffset c)&&&0xF0000000))

def MarkedIn (m : Mount) (d : Disk) (f c : ℕ) : Prop:=
  getLE (d.data (copySector m (tableSector c) f)) 4 (tableOffset c)%0x10000000≠0

theorem getLE_tableUpdate (buf : ℕ→UInt8) (c v : ℕ) :
    getLE (tableUpdate buf c v) 4 (tableOffset c)%0x10000000=v%0x10000000:=by
  rw [tableUpdate,getLE_putLE]
  exact (newEntry_bits (getLE_lt buf 4 (tableOffset c))).1

theorem copySector_zero (m : Mount) (sector : ℕ) : copySector m sector 0=u32 (m.fatStart+sector):=by
  rw [copySector,Nat.zero_mul,Nat.add_zero]

/-- The first transfer of `write_fat` succeeds. -/
def Faulty.Readable (m : Mount) (s : Faulty) (c : ℕ) : Prop:=
  s.faults s.time=false ∧ copySector m (tableSector c) 0<s.disk.sectors

theorem writeFat_faulty (m : Mount) (c v : ℕ) (s : Faulty) :
    (¬s.Readable m c ∧ faultyDevice.writeFat m c v s=(false,s.after 1)) ∨
    (s.Readable m c ∧ ∃k s',k ≤ m.numFats ∧ (∀g<k,(s.after 1).Lands m (tableSector c) 0 g) ∧
    (k < m.numFats→¬(s.after 1).Lands m (tableSector c) 0 k) ∧
    faultyDevice.writeFat m c v s=(decide (k=m.numFats),s') ∧ s'.faults=s.faults ∧
    CopiesWritten m (tableSector c) (tableUpdate (s.disk.data (copySector m (tableSector c) 0)) c v) 0 k s.disk s'.disk):=by
  by_cases hr : s.Readable m c
  · refine .inr ⟨hr,?_⟩
    have hread : faultyDevice.read (u32 (m.fatStart+u32 (c*4)/512)) s =
        (some (s.disk.data (copySector m (tableSector c) 0)),s.after 1):=by
      have hlt:=hr.2
      rw [copySector_zero,tableSector] at hlt
      simp only [faultyDevice,hr.1,Bool.false_eq_true,if_false,devRead_of_lt hlt,copySector_zero,tableSector]
    obtain ⟨k,s',hk,hlands,hstop,he,hfaults,hw⟩:=writeCopies_faulty m (tableSector c)
      (tableUpdate (s.disk.data (copySector m (tableSector c) 0)) c v) m.numFats 0 (s.after 1)
    refine ⟨k,s',hk,hlands,hstop,?_,hfaults,hw⟩
    simp only [BlockDevice.writeFat,hread]
    exact he
  · refine .inl ⟨hr,?_⟩
    have hread : faultyDevice.read (u32 (m.fatStart+u32 (c*4)/512)) s=(none,s.after 1):=by
      simp only [faultyDevice]
      by_cases hfault : s.faults s.time
      · rw [if_pos hfault]
      have hge : ¬u32 (m.fatStart+u32 (c*4)/512)<s.disk.sectors:=by
        intro hlt
        rw [←tableSector,←copySector_zero] at hlt
        exact hr ⟨by simpa using hfault,hlt⟩
      rw [if_neg hfault,devRead,if_neg hge]
    simp only [BlockDevice.writeFat,hread]

/-- A copy will have the cluster in use: it has already, or the transfers go well up to a copy at its place. -/
def Faulty.MarksIn (m : Mount) (s : Faulty) (c f : ℕ) : Prop:=
  MarkedIn m s.disk f c ∨ s.Readable m c ∧ ∃g < m.numFats,
    copySector m (tableSector c) g=copySector m (tableSector c) f ∧ ∀h≤g,(s.after 1).Lands m (tableSector c) 0 h

theorem markedIn_writeFat_iff (m : Mount) (c f : ℕ) (s : Faulty) :
    MarkedIn m (faultyDevice.writeFat m c 0x0FFFFFFF s).2.disk f c↔s.MarksIn m c f:=by
  rcases writeFat_faulty m c 0x0FFFFFFF s with ⟨hr,he⟩ | ⟨hr,k,s',hk,hlands,hstop,he,-,hw⟩
  · rw [he,Faulty.MarksIn]
    simp [hr,Faulty.after]
  rw [he]
  constructor
  · intro hmark
    by_cases hcopy : IsCopy m (tableSector c) 0 k (copySector m (tableSector c) f)
    · obtain ⟨g,-,hg,heq⟩:=hcopy
      exact .inr ⟨hr,g,by omega,heq.symm,fun h hh=>hlands h (by omega)⟩
    · rw [MarkedIn,hw.others _ hcopy] at hmark
      exact .inl hmark
  · intro hmark
    by_cases hcopy : IsCopy m (tableSector c) 0 k (copySector m (tableSector c) f)
    · rw [MarkedIn,hw.copies _ hcopy,getLE_tableUpdate]
      decide
    rcases hmark with hmark | ⟨-,g,hg,heq,hall⟩
    · rwa [MarkedIn,hw.others _ hcopy]
    -- a failure before `g` would be among the transfers that go well
    have hgk : g<k:=by
      by_contra hle
      exact hstop (by omega) (hall k (by omega))
    exact absurd ⟨g,Nat.zero_le _,by omega,heq.symm⟩ hcopy

def Faulty.FirstFree (m : Mount) (s : Faulty) (c : ℕ) : Prop:=
  2 ≤ c ∧ c<u32 (m.totalClusters+2) ∧ s.SeenFree m 2 c ∧ ∀b,2≤b→b<c→¬s.SeenFree m 2 b

theorem allocCluster_faulty (m : Mount) (s : Faulty) : ((faultyDevice.allocCluster m s).1=0 ∧ (∀c,¬s.FirstFree m c) ∧
    faultyDevice.allocCluster m s=(0,s.after (u32 (m.totalClusters+2)-2))) ∨ ∃c,s.FirstFree m c ∧
    faultyDevice.allocCluster m s=(c,(faultyDevice.writeFat m c 0x0FFFFFFF (s.after (c-1))).2):=by
  rcases allocFrom_faulty m (u32 (m.totalClusters+2)-2) 2 s with ⟨he,hnone⟩ | ⟨c,hlo,hhi,hc,hfirst,he⟩
  · refine .inl ⟨by rw [BlockDevice.allocCluster,he],fun c hc=>?_,he⟩
    have hlo:=hc.1
    have hhi:=hc.2.1
    exact hnone c hlo (by omega) hc.2.2.1
  · refine .inr ⟨c,⟨hlo,by omega,hc,hfirst⟩,?_⟩
    rw [BlockDevice.allocCluster,he,show c-2+1=c-1 by omega]

theorem Faulty.FirstFree.unique {b : ℕ} (h : s.FirstFree m c) (h' : s.FirstFree m b) : c=b:=by
  obtain ⟨hlo,-,hc,hfirst⟩:=h
  obtain ⟨hlo',-,hb,hfirst'⟩:=h'
  rcases Nat.lt_trichotomy c b with hlt | heq | hlt
  exacts [absurd hc (hfirst' c hlo hlt),heq,absurd hb (hfirst b hlo' hlt)]

/-- The transfers of `write_fat` behind the search go well, apart from copies that do not need them. -/
def MarksAll (m : Mount) (s : Faulty) : Prop:=
  ∀c,s.FirstFree m c→∀f < m.numFats,(s.after (c-1)).MarksIn m c f

end Knail.Fat32
