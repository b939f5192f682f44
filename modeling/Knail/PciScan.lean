import Mathlib.Tactic.Common
import Mathlib.Data.List.Basic

/-!
# The PCI bus scan

`scan_bus`, `scan_slot` and `scan_func` call each other while they read the configuration space, whose answers may be
anything. The scan still ends: each descent is preceded by one more entry of `dev_list`, and a full list stops it.
-/
namespace Knail.Pci

open List

variable {σ : Type}

structure Device where
  bus : UInt8
  slot : UInt8
  func : UInt8
  vendorId : UInt16
  deviceId : UInt16
  classCode : UInt8
  subclass : UInt8
  progIf : UInt8
  revision : UInt8
  headerType : UInt8
  multifunction : Bool
  irqLine : UInt8
  irqPin : UInt8
  bar : List UInt32
  deriving DecidableEq, Repr

def maxDevices : ℕ:=256

def classBridge : UInt8:=0x06

def subBridgePci : UInt8:=0x04

/-- What the port `0xCFC` reads once an address is written to `0xCF8`, in every state of the hardware. -/
abbrev Host (σ : Type):=UInt32→StateM σ UInt32

def address (bus slot func offset : UInt8) : UInt32:=
  (1 : UInt32) <<< 31|||bus.toUInt32 <<< 16|||slot.toUInt32 <<< 11|||func.toUInt32 <<< 8|||(offset&&&0xFC).toUInt32

def configRead (host : Host σ) (bus slot func offset : UInt8) : StateM σ UInt32:=
  host (address bus slot func offset)

/-- The fields of a header, from the words they are read from. -/
def header (bus slot func : UInt8) (id classRev hdr : UInt32) (bar : List UInt32) (irq : UInt32) : Device where
  bus:=bus
  slot:=slot
  func:=func
  vendorId:=(id&&&0xFFFF).toUInt16
  deviceId:=(id >>> 16).toUInt16
  revision:=(classRev&&&0xFF).toUInt8
  progIf:=(classRev >>> 8&&&0xFF).toUInt8
  subclass:=(classRev >>> 16&&&0xFF).toUInt8
  classCode:=(classRev >>> 24&&&0xFF).toUInt8
  headerType:=(hdr >>> 16&&&0x7F).toUInt8
  multifunction:=hdr >>> 16&&&0x80≠0
  bar:=bar
  irqLine:=(irq&&&0xFF).toUInt8
  irqPin:=(irq >>> 8&&&0xFF).toUInt8

def readBars (host : Host σ) (bus slot func headerType : UInt8) : StateM σ (List UInt32):=
  if headerType=0 then (List.range 6).mapM fun i=>configRead host bus slot func (0x10+UInt8.ofNat i*4)
  else pure (replicate 6 0)

/-- A function without a device has the vendor `0xFFFF`. -/
def readDevice (host : Host σ) (bus slot func : UInt8) : StateM σ (Option Device):=do
  let id ← configRead host bus slot func 0x00
  if id&&&0xFFFF=0xFFFF then return none
  let classRev ← configRead host bus slot func 0x08
  let hdr ← configRead host bus slot func 0x0C
  let bar ← readBars host bus slot func (hdr >>> 16&&&0x7F).toUInt8
  let irq ← configRead host bus slot func 0x3C
  return some (header bus slot func id classRev hdr bar irq)

/-- The hardware and the first `dev_count` entries of `dev_list`. -/
structure Scan (σ : Type) where
  host : σ
  devList : List Device

namespace Scan

/-- `dev_list[dev_count++] = d`. A store outside the array has no result. -/
def store (d : Device) (s : Scan σ) : Option (Scan σ):=
  if s.devList.length < maxDevices then some {s with devList:=s.devList++[d]} else none

def configRead (host : Host σ) (bus slot func offset : UInt8) (s : Scan σ) : UInt32×Scan σ:=
  let (v,h):=Pci.configRead host bus slot func offset s.host
  (v,{s with host:=h})

end Scan

def scanFunc (host : Host σ) (scanBus : UInt8→Scan σ→Option (Scan σ)) (bus slot func : UInt8) (s : Scan σ) :
    Option (Scan σ):=
  if maxDevices ≤ s.devList.length then some s
  else match readDevice host bus slot func s.host with
    | (none,h)=>some {s with host:=h}
    | (some d,h)=>do
      let s ← {s with host:=h}.store d
      if d.classCode=classBridge ∧ d.subclass=subBridgePci then
        let (buses,s):=s.configRead host bus slot func 0x18
        let secondary:=(buses >>> 8&&&0xFF).toUInt8
        if secondary≠0 then scanBus secondary s else return s
      else return s

def scanSlot (host : Host σ) (scanBus : UInt8→Scan σ→Option (Scan σ)) (bus slot : UInt8) (s : Scan σ) :
    Option (Scan σ):=
  let (id,s):=s.configRead host bus slot 0 0x00
  if id&&&0xFFFF=0xFFFF then some s
  else do
    let s ← scanFunc host scanBus bus slot 0 s
    let (hdr,s):=s.configRead host bus slot 0 0x0C
    if hdr >>> 16&&&0x80≠0 then
      [1,2,3,4,5,6,7].foldlM (fun s func=>scanFunc host scanBus bus slot func s) s
    else return s

/-- The values of the loop variable in `scan_bus`. -/
def slots : List UInt8:=(List.range 32).map UInt8.ofNat

/-- The recursion is cut off at a given depth, with no result. -/
def scanBus (host : Host σ) : ℕ→UInt8→Scan σ→Option (Scan σ)
  | 0, _, _=>none
  | n+1, bus, s=>slots.foldlM (fun s slot=>scanSlot host (scanBus host n) bus slot s) s

/-- The loop over the functions of a multifunction host bridge, each one the root of its own bus. -/
def scanHosts (host : Host σ) (n : ℕ) : List UInt8→Scan σ→Option (Scan σ)
  | [], s=>some s
  | func::funcs, s=>
    let (id,s):=s.configRead host 0 0 func 0x00
    if id&&&0xFFFF=0xFFFF then some s
    else do
      let s ← scanBus host n func s
      scanHosts host n funcs s

def init (host : Host σ) (n : ℕ) (h : σ) : Option (Scan σ):=
  let (hdr,s):=Scan.configRead host 0 0 0 0x0C ⟨h,[]⟩
  if ¬hdr >>> 16&&&0x80≠0 then scanBus host n 0 s else scanHosts host n [0,1,2,3,4,5,6,7] s

/-- With a list that has room for `k` more entries the action ends at every depth from `k` on, always in the same
state, and the list keeps to the array. -/
def Ends (k : ℕ) (f : ℕ→Scan σ→Option (Scan σ)) : Prop:=
  ∀s,s.devList.length ≤ maxDevices→maxDevices-s.devList.length≤k →
    ∃s',(∀n,k≤n→f n s=some s') ∧ s.devList.length ≤ s'.devList.length ∧ s'.devList.length ≤ maxDevices

variable {k : ℕ} {host : Host σ} {f g : ℕ→Scan σ→Option (Scan σ)}

theorem Ends.bind (hf : Ends k f) (hg : Ends k g) : Ends k fun n s=>(f n s).bind (g n):=by
  intro s hs hk
  obtain ⟨s1,h1,hle1,hmax1⟩:=hf s hs hk
  obtain ⟨s2,h2,hle2,hmax2⟩:=hg s1 hmax1 (by omega)
  refine ⟨s2,fun n hn=>?_,Nat.le_trans hle1 hle2,hmax2⟩
  simp only [h1 n hn,Option.bind_some,h2 n hn]

theorem ends_some : Ends k fun _ (s : Scan σ)=>some s:=fun s hs _=>⟨s,fun _ _=>rfl,Nat.le_refl _,hs⟩

theorem Ends.foldlM {α : Type*} {step : ℕ→Scan σ→α→Option (Scan σ)} (l : List α)
    (h : ∀a,Ends k fun n s=>step n s a) : Ends k fun n s=>l.foldlM (step n) s:=by
  induction l with
  | nil=>exact ends_some
  | cons a l ih=>exact (h a).bind ih

/-- The one place where the scan descends has stored an entry just before. -/
theorem scanFunc_ends (hrec : ∀j,k=j+1→∀bus,Ends j fun n=>scanBus host (n+1) bus) (bus slot func : UInt8) :
    Ends k fun n=>scanFunc host (scanBus host n) bus slot func:=by
  intro s hs hk
  by_cases hfull : maxDevices ≤ s.devList.length
  · exact ⟨s,fun n _=>if_pos hfull,Nat.le_refl _,hs⟩
  simp only [scanFunc,if_neg hfull]
  cases readDevice host bus slot func s.host with
  | mk d h=>
    cases d with
    | none=>exact ⟨_,fun _ _=>rfl,Nat.le_refl _,hs⟩
    | some d=>
      set s1 : Scan σ:=⟨h,s.devList++[d]⟩ with hs1
      have hlen : s1.devList.length=s.devList.length+1:=by simp [hs1]
      have hstore : ({s with host:=h} : Scan σ).store d=some s1:=if_pos (Nat.lt_of_not_le hfull)
      simp only [hstore,Option.bind_eq_bind,Option.bind_some]
      by_cases hbridge : d.classCode=classBridge ∧ d.subclass=subBridgePci
      · simp only [if_pos hbridge]
        set s2:=(s1.configRead host bus slot func 0x18).2
        split
        · obtain ⟨j,rfl⟩ : ∃j,k=j+1:=Nat.exists_eq_add_one_of_ne_zero (by omega)
          obtain ⟨s',h',hle,hmax⟩:=hrec j rfl _ s2 (show s1.devList.length≤_ by omega)
            (show _-s1.devList.length≤j by omega)
          refine ⟨s',fun n hn=>?_,?_,hmax⟩
          · obtain ⟨n,rfl⟩:=Nat.exists_eq_add_one_of_ne_zero (show n≠0 by omega)
            exact h' n (by omega)
          · exact Nat.le_trans (by omega) (show s1.devList.length ≤ s'.devList.length from hle)
        · exact ⟨s2,fun _ _=>rfl,show _ ≤ s1.devList.length by omega,show s1.devList.length≤_ by omega⟩
      · simp only [if_neg hbridge]
        exact ⟨s1,fun _ _=>rfl,by omega,by omega⟩

theorem scanSlot_ends {bus slot : UInt8} (h : ∀func,Ends k fun n=>scanFunc host (scanBus host n) bus slot func) :
    Ends k fun n=>scanSlot host (scanBus host n) bus slot:=by
  intro s hs hk
  simp only [scanSlot]
  split
  · exact ends_some _ hs hk
  refine ((h 0).bind fun s hs hk=>?_) (s.configRead host bus slot 0 0x00).2 hs hk
  split
  · exact Ends.foldlM [1,2,3,4,5,6,7] h (s.configRead host bus slot 0 0x0C).2 hs hk
  · exact ends_some (s.configRead host bus slot 0 0x0C).2 hs hk

theorem scanBus_ends (k : ℕ) (bus : UInt8) : Ends k fun n=>scanBus host (n+1) bus:=by
  -- the room left in the list bounds the depth of the recursion
  induction k generalizing bus with
  | zero=>
    exact Ends.foldlM slots fun slot=>scanSlot_ends (scanFunc_ends (fun j hj=>absurd hj (by omega)) bus slot)
  | succ k ih=>
    refine Ends.foldlM slots fun slot=>scanSlot_ends (scanFunc_ends (fun j hj=>?_) bus slot)
    obtain rfl:=Nat.succ.inj hj
    exact ih

theorem scanHosts_ends (funcs : List UInt8) : Ends maxDevices fun n=>scanHosts host (n+1) funcs:=by
  induction funcs with
  | nil=>exact ends_some
  | cons func funcs ih=>
    intro s hs hk
    simp only [scanHosts]
    split
    · exact ends_some (s.configRead host 0 0 func 0x00).2 hs hk
    · exact ((scanBus_ends maxDevices func).bind ih) (s.configRead host 0 0 func 0x00).2 hs hk

/-- Whatever the hardware answers, the scan ends at one and the same result for every bound on the depth above
`MAX_DEVICES`, and it stores within `dev_list`. -/
theorem scan_ends (host : Host σ) (h : σ) :
    ∃s',(∀n,maxDevices<n→init host n h=some s') ∧ s'.devList.length ≤ maxDevices:=by
  have hk : maxDevices-([] : List Device).length ≤ maxDevices:=Nat.sub_le _ _
  have hinit : Ends maxDevices fun n (s : Scan σ)=>if ¬(s.configRead host 0 0 0 0x0C).1 >>> 16&&&0x80≠0 then
      scanBus host (n+1) 0 (s.configRead host 0 0 0 0x0C).2
      else scanHosts host (n+1) [0,1,2,3,4,5,6,7] (s.configRead host 0 0 0 0x0C).2:=by
    intro s hs hk
    dsimp only
    split
    · exact scanBus_ends maxDevices 0 (s.configRead host 0 0 0 0x0C).2 hs hk
    · exact scanHosts_ends [0,1,2,3,4,5,6,7] (s.configRead host 0 0 0 0x0C).2 hs hk
  obtain ⟨s',h',-,hmax⟩:=hinit ⟨h,[]⟩ (Nat.zero_le _) hk
  refine ⟨s',fun n hn=>?_,hmax⟩
  obtain ⟨n,rfl⟩:=Nat.exists_eq_add_one_of_ne_zero (Nat.ne_zero_of_lt hn)
  exact h' n (Nat.le_of_lt_succ hn)

end Knail.Pci
