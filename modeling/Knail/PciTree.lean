import Knail.PciScan
import Mathlib.Data.List.Nodup
import Mathlib.Data.List.Perm.Subperm

/-!
# The functions the PCI scan finds

With a fixed configuration space the scan follows the bridges from bus 0. When no two reachable bridges lead to the
same bus, each function has one path of bridges from bus 0, and `dev_list` holds each reachable function once.
-/
namespace Knail.Pci

open List

structure Place where
  bus : UInt8
  slot : UInt8
  func : UInt8
  deriving DecidableEq, Repr

def Device.place (d : Device) : Place:=⟨d.bus,d.slot,d.func⟩

/-- Hardware that answers from a fixed configuration space. -/
def fixed (space : UInt32→UInt32) : Host Unit:=fun a=>pure (space a)

namespace Place

section

variable (space : UInt32→UInt32) (x : Place)

def config (offset : UInt8) : UInt32:=space (address x.bus x.slot x.func offset)

def Present : Prop:=x.config space 0x00&&&0xFFFF≠0xFFFF

def Multifunction : Prop:=x.config space 0x0C >>> 16&&&0x80≠0

def Bridge : Prop:=
  (x.config space 0x08 >>> 24&&&0xFF).toUInt8=classBridge ∧
    (x.config space 0x08 >>> 16&&&0xFF).toUInt8=subBridgePci

def secondary : UInt8:=(x.config space 0x18 >>> 8&&&0xFF).toUInt8

instance : Decidable (x.Present space):=inferInstanceAs (Decidable (_≠_))

instance : Decidable (x.Multifunction space):=inferInstanceAs (Decidable (_≠_))

instance : Decidable (x.Bridge space):=inferInstanceAs (Decidable (_ ∧ _))

/-- A present function of the bus. Functions other than the first count only in a multifunction slot. -/
structure OnBus (bus : UInt8) : Prop where
  bus : x.bus=bus
  slot : x.slot<32
  func : x.func<8
  present : x.Present space
  multi : x.func=0 ∨ Present space {x with func:=0} ∧ Multifunction space {x with func:=0}

end

end Place

variable {space : UInt32→UInt32} {n : ℕ} {bus slot : UInt8} {x y : Place} {p q c : List Place} {l : List (List Place)}
  {descend : UInt8→Scan Unit→Option (Scan Unit)} {below : UInt8→List Place→List (List Place)}

inductive Reachable (space : UInt32→UInt32) : Place→Prop
  | root {x : Place} : x.OnBus space 0→Reachable space x
  | bridge {x y : Place} : Reachable space x→x.Bridge space→x.secondary space≠0 →
      y.OnBus space (x.secondary space)→Reachable space y

/-- What `read_device` reports of a function. -/
def device (space : UInt32→UInt32) (x : Place) : Option Device:=(readDevice (fixed space) x.bus x.slot x.func ()).1

theorem device_absent (h : ¬x.Present space) : device space x=none:=by
  have h : space (address x.bus x.slot x.func 0)&&&0xFFFF=0xFFFF:=not_not.mp h
  change ((if _ then pure none else _ : StateM Unit (Option Device)) ()).1=none
  rw [if_pos h]
  rfl

theorem device_present (h : x.Present space) : ∃d,device space x=some d ∧ d.place=x ∧
    (d.classCode=classBridge ∧ d.subclass=subBridgePci↔x.Bridge space):=by
  have h : ¬space (address x.bus x.slot x.func 0)&&&0xFFFF=0xFFFF:=h
  have hd : ∃bar irq,device space x=some (header x.bus x.slot x.func (x.config space 0x00) (x.config space 0x08)
      (x.config space 0x0C) bar irq):=by
    apply Exists.intro
    apply Exists.intro
    change ((if _ then pure none else _ : StateM Unit (Option Device)) ()).1=_
    rw [if_neg h]
    rfl
  obtain ⟨bar,irq,hd⟩:=hd
  exact ⟨_,hd,rfl,Iff.rfl⟩

/-- The functions that `scan_slot` asks for. -/
def candidates (space : UInt32→UInt32) (bus slot : UInt8) : List Place:=
  if Place.Present space ⟨bus,slot,0⟩ then
    ⟨bus,slot,0⟩::if Place.Multifunction space ⟨bus,slot,0⟩ then [1,2,3,4,5,6,7].map (⟨bus,slot,·⟩) else []
  else []

/-- A function that is found is the head of a path, with the bridges that lead to it behind it. -/
def visit (space : UInt32→UInt32) (below : UInt8→List Place→List (List Place)) (p : List Place) (x : Place) :
    List (List Place):=
  if x.Present space then
    (x::p)::if x.Bridge space ∧ x.secondary space≠0 then below (x.secondary space) (x::p) else []
  else []

/-- The paths that extend a path to a bus, in the order of the scan, as deep as the scan may go. -/
def paths (space : UInt32→UInt32) : ℕ→UInt8→List Place→List (List Place)
  | 0, _, _=>[]
  | n+1, bus, p=>slots.flatMap fun slot=>(candidates space bus slot).flatMap (visit space (paths space n) p)

theorem mem_slots : slot∈slots↔slot<32:=by
  simp only [slots,mem_map,mem_range,UInt8.lt_iff_toNat_lt]
  constructor
  · rintro ⟨n,hn,rfl⟩
    rw [UInt8.toNat_ofNat_of_lt' (by simp [UInt8.size]; omega)]
    exact hn
  · exact fun h=>⟨slot.toNat,h,UInt8.ofNat_toNat⟩

theorem mem_funcs {func : UInt8} : func∈[1,2,3,4,5,6,7]↔func<8 ∧ func≠0:=by
  simp only [mem_cons,not_mem_nil,or_false,UInt8.lt_iff_toNat_lt,ne_eq,←UInt8.toNat_inj]
  simp
  omega

theorem mem_candidates (hslot : slot<32) :
    x∈candidates space bus slot ∧ x.Present space↔x.OnBus space bus ∧ x.slot=slot:=by
  constructor
  · rintro ⟨hx,hp⟩
    unfold candidates at hx
    split at hx
    · rcases mem_cons.mp hx with rfl | hx
      · exact ⟨⟨rfl,hslot,show (0 : UInt8)<8 by decide,hp,.inl rfl⟩,rfl⟩
      split at hx
      · obtain ⟨func,hf,rfl⟩:=mem_map.mp hx
        exact ⟨⟨rfl,hslot,(mem_funcs.mp hf).1,hp,.inr ⟨‹_›,‹_›⟩⟩,rfl⟩
      · cases hx
    · cases hx
  · rintro ⟨⟨rfl,-,hf,hp,hmulti⟩,rfl⟩
    refine ⟨?_,hp⟩
    by_cases h0 : x.func=0
    · have hx : x=⟨x.bus,x.slot,0⟩:=by rw [←h0]
      rw [candidates,if_pos (hx▸hp)]
      exact mem_cons.mpr (.inl hx)
    obtain ⟨hp0,hm⟩:=hmulti.resolve_left h0
    rw [candidates,if_pos hp0,if_pos hm]
    exact mem_cons_of_mem _ (mem_map.mpr ⟨x.func,mem_funcs.mpr ⟨hf,h0⟩,rfl⟩)

theorem nodup_candidates (bus : UInt8) : (slots.flatMap (candidates space bus)).Nodup:=by
  have hslot (slot : UInt8) : ∀x∈candidates space bus slot,x.slot=slot:=by
    intro x hx
    unfold candidates at hx
    split at hx
    · rcases mem_cons.mp hx with rfl | hx
      · rfl
      split at hx
      · obtain ⟨func,-,rfl⟩:=mem_map.mp hx
        rfl
      · cases hx
    · cases hx
  refine nodup_flatMap.mpr ⟨fun slot _=>?_,?_⟩
  · unfold candidates
    split
    · split <;> simp
    · exact nodup_nil
  · have hnd : slots.Nodup:=by decide
    refine hnd.imp fun hne x hx hy=>hne ?_
    exact (hslot _ x hx).symm.trans (hslot _ x hy)

theorem mem_paths_succ : c∈paths space (n+1) bus p ↔
    ∃x,x.OnBus space bus ∧ (c=x::p ∨
    x.Bridge space ∧ x.secondary space≠0 ∧ c∈paths space n (x.secondary space) (x::p)):=by
  have hvisit (x : Place) : c∈visit space (paths space n) p x↔x.Present space ∧ (c=x::p ∨
      x.Bridge space ∧ x.secondary space≠0 ∧ c∈paths space n (x.secondary space) (x::p)):=by
    unfold visit
    split
    · split <;> simp_all
    · simp_all
  simp only [paths,mem_flatMap,hvisit]
  constructor
  · rintro ⟨slot,hs,x,hx,hp,hc⟩
    exact ⟨x,((mem_candidates (mem_slots.mp hs)).mp ⟨hx,hp⟩).1,hc⟩
  rintro ⟨x,hx,hc⟩
  obtain ⟨hm,hp⟩:=(mem_candidates hx.slot).mpr ⟨hx,rfl⟩
  exact ⟨x.slot,mem_slots.mpr hx.slot,x,hm,hp,hc⟩

theorem suffix_of_mem_paths (h : c∈paths space n bus p) :
    ∃x,x::p <:+ c:=by
  induction n generalizing bus p with
  | zero=>cases h
  | succ n ih=>
    obtain ⟨x,-,rfl | ⟨-,-,hc⟩⟩:=mem_paths_succ.mp h
    · exact ⟨x,suffix_rfl⟩
    · obtain ⟨y,hy⟩:=ih hc
      exact ⟨x,(suffix_cons y _).trans hy⟩

theorem nodup_visit (h : ∀bus p,(paths space n bus p).Nodup) :
    (visit space (paths space n) p x).Nodup:=by
  unfold visit
  split
  · refine nodup_cons.mpr ⟨fun hx=>?_,?_⟩
    · split at hx
      · obtain ⟨y,hy⟩:=suffix_of_mem_paths hx
        exact absurd hy.length_le (by simp)
      · cases hx
    · split
      · exact h _ _
      · exact nodup_nil
  · exact nodup_nil

theorem suffix_of_mem_visit (h : c∈visit space (paths space n) p x) :
    x::p <:+ c:=by
  unfold visit at h
  split at h
  · rcases mem_cons.mp h with rfl | h
    · exact suffix_rfl
    split at h
    · obtain ⟨y,hy⟩:=suffix_of_mem_paths h
      exact (suffix_cons y _).trans hy
    · cases h
  · cases h

theorem disjoint_visit (hxy : x≠y) :
    Disjoint (visit space (paths space n) p x) (visit space (paths space n) p y):=by
  intro c hx hy
  have hlen : (x::p).length=(y::p).length:=rfl
  have hsuf:=suffix_of_suffix_length_le (suffix_of_mem_visit hx) (suffix_of_mem_visit hy) (Nat.le_of_eq hlen)
  exact hxy (cons.inj (hsuf.eq_of_length hlen)).1

theorem nodup_paths (n : ℕ) (bus : UInt8) (p : List Place) : (paths space n bus p).Nodup:=by
  induction n generalizing bus p with
  | zero=>exact nodup_nil
  | succ n ih=>
    rw [paths,←flatMap_assoc]
    exact nodup_flatMap.mpr ⟨fun x _=>nodup_visit ih,(nodup_candidates bus).imp fun hxy=>disjoint_visit hxy⟩

inductive IsPath (space : UInt32→UInt32) : List Place→Prop
  | root {x : Place} : x.OnBus space 0→IsPath space [x]
  | bridge {x y : Place} {p : List Place} : IsPath space (x::p)→x.Bridge space→x.secondary space≠0 →
      y.OnBus space (x.secondary space)→IsPath space (y::x::p)

theorem IsPath.reachable (h : IsPath space c) : ∃x p,c=x::p ∧ Reachable space x:=by
  induction h with
  | root hx=>exact ⟨_,_,rfl,.root hx⟩
  | bridge _ hb hs hy ih=>
    obtain ⟨x,p,he,hr⟩:=ih
    obtain ⟨rfl,rfl⟩:=cons.inj he
    exact ⟨_,_,rfl,.bridge hr hb hs hy⟩

theorem Reachable.isPath (h : Reachable space x) : ∃p,IsPath space (x::p):=by
  induction h with
  | root hx=>exact ⟨[],.root hx⟩
  | bridge _ hb hs hy ih=>
    obtain ⟨p,hp⟩:=ih
    exact ⟨_,.bridge hp hb hs hy⟩

theorem isPath_of_mem_paths
    (hp : ∀y : Place,y.OnBus space bus→IsPath space (y::p)) (h : c∈paths space n bus p) : IsPath space c:=by
  induction n generalizing bus p with
  | zero=>cases h
  | succ n ih=>
    obtain ⟨x,hx,rfl | ⟨hb,hs,hc⟩⟩:=mem_paths_succ.mp h
    · exact hp x hx
    · exact ih (fun y hy=>.bridge (hp x hx) hb hs hy) hc

theorem mem_paths_cons (h : x::q∈paths space n bus p)
    (hb : x.Bridge space) (hs : x.secondary space≠0) (hy : y.OnBus space (x.secondary space)) :
    y::x::q∈paths space (n+1) bus p:=by
  induction n generalizing bus p with
  | zero=>cases h
  | succ n ih=>
    obtain ⟨z,hz,he | ⟨hzb,hzs,hc⟩⟩:=mem_paths_succ.mp h
    · obtain ⟨rfl,rfl⟩:=cons.inj he
      exact mem_paths_succ.mpr ⟨x,hz,.inr ⟨hb,hs,mem_paths_succ.mpr ⟨y,hy,.inl rfl⟩⟩⟩
    · exact mem_paths_succ.mpr ⟨z,hz,.inr ⟨hzb,hzs,ih hc⟩⟩

theorem IsPath.mem_paths (h : IsPath space c) (hn : c.length≤n) : c∈paths space n 0 []:=by
  induction h generalizing n with
  | root hx=>
    obtain ⟨n,rfl⟩:=Nat.exists_eq_add_one_of_ne_zero (Nat.ne_zero_of_lt hn)
    exact mem_paths_succ.mpr ⟨_,hx,.inl rfl⟩
  | bridge _ hb hs hy ih=>
    obtain ⟨n,rfl⟩:=Nat.exists_eq_add_one_of_ne_zero (Nat.ne_zero_of_lt hn)
    exact mem_paths_cons (ih (Nat.le_of_succ_le_succ hn)) hb hs hy

/-- No two reachable bridges lead to the same bus. -/
def Unshared (space : UInt32→UInt32) : Prop:=
  ∀x y,Reachable space x→Reachable space y→x.Bridge space→y.Bridge space→x.secondary space≠0 →
    x.secondary space=y.secondary space→x=y

/-- There is one path to each function. -/
theorem IsPath.eq_of_head (hone : Unshared space) (hp : IsPath space (x::p))
    (hq : IsPath space (x::q)) : p=q:=by
  induction p generalizing x q with
  | nil=>
    cases hp with
    | root hx=>
      cases hq with
      | root=>rfl
      | bridge _ _ hs hy=>exact absurd (hy.bus.symm.trans hx.bus) hs
  | cons y p ih=>
    cases hp with
    | bridge hpy hb hs hx=>
      cases hq with
      | root hx'=>exact absurd (hx.bus.symm.trans hx'.bus) hs
      | bridge hqz hb' hs' hx'=>
        obtain ⟨_,_,he,hy⟩:=hpy.reachable
        obtain ⟨rfl,-⟩:=cons.inj he
        obtain ⟨_,_,he,hz⟩:=hqz.reachable
        obtain ⟨rfl,-⟩:=cons.inj he
        obtain rfl:=hone _ _ hy hz hb hb' hs (hx.bus.symm.trans hx'.bus)
        rw [ih hpy hqz]

/-- As long as there is room, the action appends the functions at the heads of the given paths. -/
def Adds (space : UInt32→UInt32) (f : Scan Unit→Option (Scan Unit)) (g : List (List Place)) : Prop:=
  ∀s s',f s=some s'→s.devList.length+g.length ≤ maxDevices →
    s'.devList=s.devList++g.filterMap fun c=>c.head?.bind (device space)

theorem Adds.bind {f f' : Scan Unit→Option (Scan Unit)} {g g' : List (List Place)} (h : Adds space f g)
    (h' : Adds space f' g') : Adds space (fun s=>(f s).bind f') (g++g'):=by
  intro s s' hs hlen
  obtain ⟨s1,h1,h2⟩:=Option.bind_eq_some_iff.mp hs
  rw [length_append] at hlen
  have hs1:=h s s1 h1 (by omega)
  have hle : (g.filterMap fun c=>c.head?.bind (device space)).length≤g.length:=length_filterMap_le _ _
  rw [h' s1 s' h2 (by rw [hs1,length_append]; omega),hs1,filterMap_append,append_assoc]

theorem Adds.foldlM {α : Type} {step : Scan Unit→α→Option (Scan Unit)} {g : α→List (List Place)} (l : List α)
    (h : ∀a,Adds space (fun s=>step s a) (g a)) : Adds space (fun s=>l.foldlM step s) (l.flatMap g):=by
  induction l with
  | nil=>
    intro s s' hs _
    cases hs
    simp
  | cons a l ih=>exact (h a).bind ih

theorem scanFunc_adds (h : ∀bus p,Adds space (descend bus) (below bus p))
    (p : List Place) (x : Place) :
    Adds space (scanFunc (fixed space) descend x.bus x.slot x.func) (visit space below p x):=by
  intro s s' hs hlen
  by_cases hfull : maxDevices ≤ s.devList.length
  · rw [scanFunc,if_pos hfull] at hs
    cases hs
    have hnil : visit space below p x=[]:=length_eq_zero_iff.mp (by omega)
    simp [hnil]
  have hread : readDevice (fixed space) x.bus x.slot x.func s.host=(device space x,()):=rfl
  by_cases hp : x.Present space
  swap
  · simp only [scanFunc,if_neg hfull,hread,device_absent hp,Option.some.injEq] at hs
    simp [visit,hp,←hs]
  obtain ⟨d,hd,-,hbridge⟩:=device_present hp
  have hstore : s.store d=some {s with devList:=s.devList++[d]}:=if_pos (Nat.lt_of_not_le hfull)
  have hs : (if d.classCode=classBridge ∧ d.subclass=subBridgePci then
      if x.secondary space≠0 then descend (x.secondary space) {s with devList:=s.devList++[d]}
      else some {s with devList:=s.devList++[d]} else some {s with devList:=s.devList++[d]})=some s':=by
    simp only [scanFunc,if_neg hfull,hread,hd] at hs
    rw [show ({s with host:=()} : Scan Unit)=s from rfl,hstore] at hs
    exact hs
  by_cases hb : x.Bridge space ∧ x.secondary space≠0
  · rw [if_pos (hbridge.mpr hb.1),if_pos hb.2] at hs
    have hv : visit space below p x=(x::p)::below (x.secondary space) (x::p):=by
      rw [visit,if_pos hp,if_pos hb]
    rw [hv,length_cons] at hlen
    rw [hv,h _ (x::p) _ _ hs (by simp; omega)]
    simp [hd]
  · have hv : visit space below p x=[x::p]:=by rw [visit,if_pos hp,if_neg hb]
    have hs' : some {s with devList:=s.devList++[d]}=some s':=by
      by_cases hb' : x.Bridge space
      · rwa [if_pos (hbridge.mpr hb'),if_neg fun hs=>hb ⟨hb',hs⟩] at hs
      · rwa [if_neg fun hd=>hb' (hbridge.mp hd)] at hs
    cases hs'
    simp [hv,hd]

theorem scanSlot_adds (h : ∀bus p,Adds space (descend bus) (below bus p))
    (p : List Place) (bus slot : UInt8) :
    Adds space (scanSlot (fixed space) descend bus slot) ((candidates space bus slot).flatMap (visit space below p)):=by
  have hf (func : UInt8):=scanFunc_adds h p ⟨bus,slot,func⟩
  have hnone : Adds space some []:=by
    intro s s' hs _
    cases hs
    simp
  intro s s' hs hlen
  change (if space (address bus slot 0 0x00)&&&0xFFFF=0xFFFF then some s
    else (scanFunc (fixed space) descend bus slot 0 s).bind fun s=>
      if space (address bus slot 0 0x0C) >>> 16&&&0x80≠0 then
        [1,2,3,4,5,6,7].foldlM (fun s func=>scanFunc (fixed space) descend bus slot func s) s else some s)=some s' at hs
  by_cases hp : Place.Present space ⟨bus,slot,0⟩
  · rw [if_neg (show ¬space (address bus slot 0 0x00)&&&0xFFFF=0xFFFF from hp)] at hs
    rw [candidates,if_pos hp] at hlen ⊢
    by_cases hm : Place.Multifunction space ⟨bus,slot,0⟩
    · simp only [if_pos (show space (address bus slot 0 0x0C) >>> 16&&&0x80≠0 from hm)] at hs
      rw [if_pos hm,flatMap_cons,flatMap_map] at hlen ⊢
      exact ((hf 0).bind (Adds.foldlM [1,2,3,4,5,6,7] hf)) s s' hs hlen
    simp only [if_neg (show ¬space (address bus slot 0 0x0C) >>> 16&&&0x80≠0 from hm)] at hs
    rw [if_neg hm,flatMap_cons,flatMap_nil] at hlen ⊢
    exact ((hf 0).bind hnone) s s' hs hlen
  · rw [if_pos (show space (address bus slot 0 0x00)&&&0xFFFF=0xFFFF from not_not.mp hp)] at hs
    rw [candidates,if_neg hp,flatMap_nil] at hlen ⊢
    exact hnone s s' hs hlen

theorem scanBus_adds (n : ℕ) (bus : UInt8) (p : List Place) :
    Adds space (scanBus (fixed space) n bus) (paths space n bus p):=by
  induction n generalizing bus p with
  | zero=>exact fun s s' hs=>absurd hs (by simp [scanBus])
  | succ n ih=>exact Adds.foldlM slots fun slot=>scanSlot_adds ih p bus slot

theorem place_of_device {d : Device} (h : device space x=some d) : d.place=x:=by
  by_cases hp : x.Present space
  · obtain ⟨d',hd,hplace,-⟩:=device_present hp
    obtain rfl:=Option.some.inj (h.symm.trans hd)
    exact hplace
  · simp [device_absent hp] at h

theorem Reachable.present (h : Reachable space x) : x.Present space:=by
  cases h with
  | root hx=>exact hx.present
  | bridge _ _ _ hx=>exact hx.present

/-- The functions of a list of paths as the scan stores them. -/
theorem map_place (h : ∀c∈l,IsPath space c) :
    (l.filterMap fun c=>c.head?.bind (device space)).map Device.place=l.filterMap head?:=by
  induction l with
  | nil=>rfl
  | cons c l ih=>
    obtain ⟨x,p,rfl,hx⟩:=(h c mem_cons_self).reachable
    obtain ⟨d,hd,hplace,-⟩:=device_present hx.present
    simp [hd,hplace,ih fun c hc=>h c (mem_cons_of_mem _ hc)]

theorem mem_heads : x∈l.filterMap head?↔∃p,x::p∈l:=by
  simp only [mem_filterMap,head?_eq_some_iff]
  constructor
  · rintro ⟨c,hc,p,rfl⟩
    exact ⟨p,hc⟩
  · rintro ⟨p,hp⟩
    exact ⟨x::p,hp,p,rfl⟩

/-- Different paths lead to different functions. -/
theorem nodup_heads (hone : Unshared space) (hl : l.Nodup) (h : ∀c∈l,IsPath space c) :
    (l.filterMap head?).Nodup ∧ (l.filterMap head?).length=l.length:=by
  induction l with
  | nil=>exact ⟨nodup_nil,rfl⟩
  | cons c l ih=>
    obtain ⟨x,p,rfl,-⟩:=(h c mem_cons_self).reachable
    obtain ⟨hc,hl⟩:=nodup_cons.mp hl
    obtain ⟨hnd,hlen⟩:=ih hl fun c hc=>h c (mem_cons_of_mem _ hc)
    rw [filterMap_cons_some (show head? (x::p)=some x from rfl)]
    refine ⟨nodup_cons.mpr ⟨fun hx=>hc ?_,hnd⟩,by rw [length_cons,length_cons,hlen]⟩
    obtain ⟨q,hq⟩:=mem_heads.mp hx
    rwa [IsPath.eq_of_head hone (h _ mem_cons_self) (h _ (mem_cons_of_mem _ hq))]

/-- When no bus is shared and the reachable functions fit in `dev_list`, the scan of a single host leaves each
reachable function in the list once, with what `read_device` reports of it, and nothing else. -/
theorem init_finds_reachable (hhost : ¬Place.Multifunction space ⟨0,0,0⟩)
    (hone : Unshared space)
    (hroom : ∀l : List Place,l.Nodup→(∀x∈l,Reachable space x)→l.length ≤ maxDevices) :
    ∃s',(∀n,maxDevices<n→init (fixed space) n ()=some s') ∧ (s'.devList.map Device.place).Nodup ∧
    (∀x,x∈s'.devList.map Device.place↔Reachable space x) ∧ ∀d∈s'.devList,device space d.place=some d:=by
  have hends : Ends maxDevices fun n=>scanBus (fixed space) (n+1) 0:=scanBus_ends maxDevices 0
  obtain ⟨s',hbus,-⟩:=hends ⟨(),[]⟩ (Nat.zero_le _) (Nat.sub_le _ _)
  have hscan (n : ℕ) (hn : maxDevices<n) : scanBus (fixed space) n 0 ⟨(),[]⟩=some s':=by
    obtain ⟨n,rfl⟩:=Nat.exists_eq_add_one_of_ne_zero (Nat.ne_zero_of_lt hn)
    exact hbus n (Nat.le_of_lt_succ hn)
  have hpath (n : ℕ) : ∀c∈paths space n 0 [],IsPath space c:=fun c hc=>isPath_of_mem_paths (fun y hy=>.root hy) hc
  have hreach (n : ℕ) : ∀x∈(paths space n 0 []).filterMap head?,Reachable space x:=by
    intro x hx
    obtain ⟨p,hp⟩:=mem_heads.mp hx
    obtain ⟨y,q,he,hy⟩:=(hpath n _ hp).reachable
    rwa [(cons.inj he).1]
  have hnd (n : ℕ):=nodup_heads hone (nodup_paths n 0 []) (hpath n)
  have hlist (n : ℕ) (hn : maxDevices<n) :
      s'.devList=(paths space n 0 []).filterMap fun c=>c.head?.bind (device space):=by
    refine scanBus_adds n 0 [] ⟨(),[]⟩ s' (hscan n hn) ?_
    rw [length_nil,Nat.zero_add,←(hnd n).2]
    exact hroom _ (hnd n).1 (hreach n)
  have hplaces (n : ℕ) (hn : maxDevices<n) : s'.devList.map Device.place=(paths space n 0 []).filterMap head?:=by
    rw [hlist n hn,map_place (hpath n)]
  refine ⟨s',fun n hn=>(if_pos hhost).trans (hscan n hn),?_,fun x=>⟨fun hx=>?_,fun hx=>?_⟩,fun d hd=>?_⟩
  · rw [hplaces _ (Nat.lt_succ_self _)]
    exact (hnd _).1
  · rw [hplaces _ (Nat.lt_succ_self _)] at hx
    exact hreach _ x hx
  · obtain ⟨p,hp⟩:=hx.isPath
    rw [hplaces (maxDevices+1+(x::p).length) (by omega)]
    exact mem_heads.mpr ⟨p,hp.mem_paths (Nat.le_add_left _ _)⟩
  · rw [hlist _ (Nat.lt_succ_self _),mem_filterMap] at hd
    obtain ⟨c,hc,hd⟩:=hd
    obtain ⟨x,-,hx⟩:=Option.bind_eq_some_iff.mp hd
    rwa [place_of_device hx]

/-- A host bridge, a bridge to bus 1 in slot 1, and a device on bus 1. -/
def bridged (a : UInt32) : UInt32:=
  if a=address 0 0 0 0x00 ∨ a=address 0 1 0 0x00 ∨ a=address 1 0 0 0x00 then 0x12378086
  else if a=address 0 1 0 0x08 then 0x06040000
  else if a=address 0 1 0 0x18 then 0x00000100
  else if a=address 0 0 0 0x0C then 0
  else 0xFFFFFFFF

def bridgedPlaces : List Place:=[⟨0,0,0⟩,⟨0,1,0⟩,⟨1,0,0⟩]

theorem init_finds_reachable_bridged : ∃s',(∀n,maxDevices<n→init (fixed bridged) n ()=some s') ∧
    (s'.devList.map Device.place).Nodup ∧ ⟨1,0,0⟩∈s'.devList.map Device.place:=by
  have hbus (bus : UInt8) (hb : bus=0 ∨ bus=1) (x : Place) (hx : x.OnBus bridged bus) :
      x∈bridgedPlaces:=by
    have hfunc : x.func∈[0,1,2,3,4,5,6,7]:=by
      by_cases h0 : x.func=0
      · exact mem_cons.mpr (.inl h0)
      · exact mem_cons_of_mem _ (mem_funcs.mpr ⟨hx.func,h0⟩)
    have hall : ∀bus∈[0,1],∀slot∈slots,∀func∈[0,1,2,3,4,5,6,7],Place.Present bridged ⟨bus,slot,func⟩ →
        (⟨bus,slot,func⟩ : Place)∈bridgedPlaces:=by decide +kernel
    refine hall x.bus ?_ x.slot (mem_slots.mpr hx.slot) x.func hfunc hx.present
    rw [hx.bus]
    simpa using hb
  have hreach (x : Place) (hx : Reachable bridged x) : x∈bridgedPlaces:=by
    induction hx with
    | root hx=>exact hbus 0 (.inl rfl) _ hx
    | @bridge x y _ hb _ hy ih=>
      have hsec : ∀x∈bridgedPlaces,x.Bridge bridged→x.secondary bridged=1:=by decide +kernel
      exact hbus 1 (.inr rfl) _ (hsec x ih hb▸hy)
  have hone : Unshared bridged:=by
    intro x y hx hy hbx hby _ _
    have hb : ∀x∈bridgedPlaces,x.Bridge bridged→x=⟨0,1,0⟩:=by decide +kernel
    rw [hb x (hreach x hx) hbx,hb y (hreach y hy) hby]
  have hroom (l : List Place) (hl : l.Nodup) (hx : ∀x∈l,Reachable bridged x) : l.length ≤ maxDevices:=by
    have hsub : l⊆bridgedPlaces:=fun x hm=>hreach x (hx x hm)
    exact Nat.le_trans (subperm_of_subset hl hsub).length_le (by decide)
  obtain ⟨s',hs',hnd,hmem,-⟩:=init_finds_reachable (by decide +kernel) hone hroom
  refine ⟨s',hs',hnd,(hmem _).mpr ?_⟩
  have hroot : Reachable bridged ⟨0,1,0⟩:=.root ⟨rfl,by decide,by decide,by decide +kernel,.inl rfl⟩
  exact hroot.bridge (by decide +kernel) (by decide +kernel) ⟨by decide +kernel,by decide,by decide,by decide +kernel,.inl rfl⟩

end Knail.Pci
