import Knail.FreeFrames
import Knail.SpawnSuccess

/-!
# The page tables under the heap

The heap lies in one GiB, below one page directory. A page of it takes a frame, the first page of each 2 MiB a page
table as well, and the very first page the two tables above.
-/
namespace Knail.PageTables

open Spawn (Plenty)

variable {m m' m₁ : Machine} {level : ℕ→Option ℕ} {home : ℕ→Option ℕ×ℕ} {t i l u k e p pd : ℕ}

theorem plenty_zero (m : Machine) : Plenty 0 m:=⟨[],m.supply,rfl,rfl,List.nodup_nil,by simp⟩

theorem plenty_succ {n : ℕ} : Plenty (n+1) m↔(allocFrame m).1≠0 ∧ Plenty n (allocFrame m).2:=
  ⟨Plenty.alloc,fun h=>.of_alloc h.1 h.2⟩

theorem plenty_congr (hu : m'.used=m.used) (hs : m'.supply=m.supply) (n : ℕ) : Plenty n m'↔Plenty n m:=
  ⟨fun h=>h.congr hu.symm hs.symm,fun h=>h.congr hu hs⟩

theorem plenty_write (n t i w : ℕ) (m : Machine) : Plenty n (m.write t i w)↔Plenty n m:=
  plenty_congr (show (m.write t i w).used=m.used from rfl) rfl n

theorem getOrCreate_of_table (ht : Tables m level home) (htl : level t=some (l+1))
    (hs : slots m (l+1) t i = .table u) : getOrCreate t i (tableFlags kernelRw) m=(u,m):=by
  obtain ⟨hp,he⟩:=of_decode_table hs
  have hh : m.mem t i&&&flagHuge=0:=by
    cases l with
    | zero=>
      by_contra hh
      simp [slots,decode,hp,hh] at hs
    | succ l=>exact ht.flat htl hp
  rw [getOrCreate_linked hp hh,he]
  rfl

theorem getOrCreate_of_absent (ht : Tables m level home) (htl : level t=some (l+1)) (hs : slots m (l+1) t i = .absent) :
    (allocFrame m).1=0 ∧ (getOrCreate t i (tableFlags kernelRw) m).1=0 ∨
    (allocFrame m).1≠0 ∧ ∃c m₁ level1 home1,getOrCreate t i (tableFlags kernelRw) m=(c,m₁) ∧ c≠0 ∧
    (∀n,Plenty n m₁↔Plenty n (allocFrame m).2) ∧ (∀l j,slots m₁ l c j = .absent) ∧
    Created m t i l (c,m₁) level level1 home1:=by
  have hp : m.mem t i&&&flagPresent=0:=by
    by_contra hp
    unfold slots decode at hs
    rw [if_neg hp] at hs
    split at hs <;> cases hs
  obtain ⟨level1,home1,hc⟩:=getOrCreate_spec ht htl (tableFlags_spec kernelRw) i
  have hget : getOrCreate t i (tableFlags kernelRw) m=if (allocFrame m).1=0 then (0,(allocFrame m).2)
      else ((allocFrame m).1,((allocFrame m).2.fill (allocFrame m).1 fun _=>0).write t i
        ((allocFrame m).1|||tableFlags kernelRw)):=by
    simp only [getOrCreate,hp,allocTable,ne_eq,not_true_eq_false,if_false]
    by_cases h0 : (allocFrame m).1=0
    · simp [h0]
    · simp [h0]
  rcases Spawn.allocFrame_cases m with ⟨h0,-⟩ | ⟨hf,hnew,hused⟩
  · refine .inl ⟨h0,?_⟩
    rw [hget,if_pos h0]
  rw [if_neg hf.1] at hget
  have hne : (allocFrame m).1≠t:=fun he=>hnew (he▸ht.used htl)
  rw [hget] at hc
  refine .inr ⟨hf.1,_,_,level1,home1,hget,hf.1,plenty_congr rfl rfl,fun l j=>?_,hc⟩
  rw [slots,mem_write_of_ne hne,mem_fill_self]
  rfl

/-- Below the directory of the heap there is a page table for every 2 MiB that the heap reaches
into, and nothing else. -/
def Directory (k pd e : ℕ) (m : Machine) : Prop:=
  ∃pdpt,slots m 3 k 288 = .table pdpt ∧ slots m 2 pdpt 0 = .table pd ∧ ∀j<512,
    (heapStart+j*0x200000<e→∃pt,slots m 1 pd j = .table pt) ∧
      (e≤heapStart+j*0x200000→slots m 1 pd j = .absent)

theorem heap_indices (h1 : heapStart≤e) (h2 : e<heapMax) :
    pml4Idx e=288 ∧ pdptIdx e=0 ∧ pdIdx e=(e-heapStart)/0x200000 ∧ pdIdx e<512:=by
  refine ⟨pml4Idx_heap h1 h2,?_⟩
  simp only [heapStart,heapMax,pdptIdx,pdIdx,tableIdx] at *
  omega

theorem Directory.mapPage_eq (hd : Directory k pd e m) (ht : Tables m level home) (hk : level k=some 3)
    (h1 : heapStart≤u) (h2 : u<heapMax) (p : ℕ) : level pd=some 1 ∧ mapPage k u p kernelRw m =
    if (getOrCreate pd (pdIdx u) (tableFlags kernelRw) m).1=0 then
    (false,(getOrCreate pd (pdIdx u) (tableFlags kernelRw) m).2)
    else (true,(getOrCreate pd (pdIdx u) (tableFlags kernelRw) m).2.write
    (getOrCreate pd (pdIdx u) (tableFlags kernelRw) m).1 (ptIdx u) ((p&&&physMask)|||kernelRw)):=by
  obtain ⟨pdpt,hs3,hs2,-⟩:=hd
  obtain ⟨hi3,hi2,-,-⟩:=heap_indices h1 h2
  have hl2:=(ht.forest.child hk hs3).1
  have hl1:=(ht.forest.child hl2 hs2).1
  refine ⟨hl1,?_⟩
  simp only [mapPage,hi3,hi2,getOrCreate_of_table ht hk hs3,getOrCreate_of_table ht hl2 hs2,
    if_neg (ht.frame hl2).1,if_neg (ht.frame hl1).1]

/-- The page tables that the page at the end of the heap needs, with the directory in place. -/
def newTables (e : ℕ) : ℕ:=if e%0x200000=0 then 1 else 0

/-- The page at the end of the heap is mapped if there is a frame for its page table or no need
for one. -/
theorem Directory.mapPage (hd : Directory k pd e m) (ht : Tables m level home) (hk : level k=some 3)
    (h1 : heapStart≤e) (h2 : e<heapMax) (hal : e%4096=0) (p : ℕ) :
    Plenty (newTables e) m ∧ (∃m',mapPage k e p kernelRw m=(true,m') ∧ Directory k pd (e+4096) m' ∧
    ∀n,Plenty n m'↔Plenty (newTables e+n) m) ∨
    ¬Plenty (newTables e) m ∧ (mapPage k e p kernelRw m).1=false ∧ slots m 1 pd (pdIdx e) = .absent:=by
  obtain ⟨hl1,heq⟩:=hd.mapPage_eq ht hk h1 h2 p
  obtain ⟨pdpt,hs3,hs2,hall⟩:=hd
  obtain ⟨-,-,hi,hlt⟩:=heap_indices h1 h2
  have hl2:=(ht.forest.child hk hs3).1
  obtain ⟨hthere,habsent⟩:=hall (pdIdx e) hlt
  rw [heq]
  by_cases hnew : e%0x200000=0
  · have hs:=habsent (by simp only [heapStart] at *; omega)
    have hcost : newTables e=1:=if_pos hnew
    rcases getOrCreate_of_absent ht hl1 hs with ⟨h0,hg⟩ | ⟨h0,pt,m₁,level1,home1,hg,hpt,hoff,-,hc⟩
    · refine .inr ⟨?_,by rw [if_pos hg],hs⟩
      rw [hcost]
      exact fun ho=>(plenty_succ.mp ho).1 h0
    obtain ⟨hptl,hlink⟩:=hc.child hpt
    refine .inl ⟨by rw [hcost]; exact plenty_succ.mpr ⟨h0,plenty_zero _⟩,_,by rw [hg,if_neg hpt],?_,fun n=>?_⟩
    · have hne {t l : ℕ} (htl : level t=some (l+1)) : t≠pt:=by
        rintro rfl
        have:=hc.ext.level_eq htl
        simp [hptl] at this
      have hkpd : k≠pd:=by
        rintro rfl
        simp [hk] at hl1
      have hpdptpd : pdpt≠pd:=by
        rintro rfl
        simp [hl2] at hl1
      refine ⟨pdpt,?_,?_,fun j hj=>?_⟩
      · rw [slots,mem_write_of_ne (hne hk),hc.other k (ht.used hk) hkpd]
        exact hs3
      · rw [slots,mem_write_of_ne (hne hl2),hc.other pdpt (ht.used hl2) hpdptpd]
        exact hs2
      rw [slots,mem_write_of_ne (hne hl1)]
      by_cases hji : j=pdIdx e
      · subst hji
        refine ⟨fun _=>⟨pt,hlink⟩,fun hle=>?_⟩
        omega
      · rw [hc.entries j hji]
        refine ⟨fun hj'=>(hall j hj).1 ?_,fun hj'=>(hall j hj).2 ?_⟩
        all_goals simp only [heapStart] at *; omega
    · rw [plenty_write,hoff n,hcost,Nat.add_comm,plenty_succ]
      exact (and_iff_right h0).symm
  · obtain ⟨pt,hs⟩:=hthere (by simp only [heapStart] at *; omega)
    have hcost : newTables e=0:=if_neg hnew
    have hptl:=(ht.forest.child hl1 hs).1
    rw [getOrCreate_of_table ht hl1 hs,if_neg (ht.frame hptl).1]
    refine .inl ⟨by rw [hcost]; exact plenty_zero m,_,rfl,?_,fun n=>?_⟩
    · have hslots {t l j : ℕ} (htl : level t=some (l+1)) (w : ℕ) :
          slots (m.write pt (ptIdx e) w) (l+1) t j=slots m (l+1) t j:=by
        refine slots_write ?_
        rintro ⟨rfl,-⟩
        simp [hptl] at htl
      refine ⟨pdpt,(hslots hk _).trans hs3,(hslots hl2 _).trans hs2,fun j hj=>?_⟩
      rw [hslots hl1]
      refine ⟨fun hj'=>(hall j hj).1 ?_,fun hj'=>(hall j hj).2 ?_⟩
      all_goals simp only [heapStart] at *; omega
    · rw [plenty_write,hcost,Nat.zero_add]

/-- The heap is mapped up to its end, and its page tables are those that this took. -/
structure HeapPages (k e : ℕ) (m : Machine) : Prop where
  tables : ∃level home,Tables m level home ∧ level k=some 3
  aligned : e%4096=0
  low : heapStart≤e
  high : e≤heapMax
  mapped : ∀a,heapStart≤a→a<e→virtToPhys k a m≠0
  directory : e=heapStart ∧ slots m 3 k 288 = .absent ∨ heapStart<e ∧ ∃pd,Directory k pd e m

/-- The page tables that the page at the end of the heap needs. -/
def tablesFor (e : ℕ) : ℕ:=if e=heapStart then 3 else newTables e

theorem Directory.unmapped (hd : Directory k pd e m) (h1 : heapStart≤u) (h2 : u<heapMax)
    (hs : slots m 1 pd (pdIdx u) = .absent) : virtToPhys k u m=0:=by
  obtain ⟨pdpt,hs3,hs2,-⟩:=hd
  obtain ⟨hi3,hi2,-,-⟩:=heap_indices h1 h2
  rw [virtToPhys_eq]
  simp only [pml4Idx,pdptIdx,pdIdx] at hi3 hi2 hs
  simp [lookup,hi3,hi2,hs3,hs2,hs]

namespace HeapPages

section

variable (h : HeapPages k e m)
include h

theorem congr (hmem : m'.mem=m.mem) (hused : ∀u∈m.used,u∈m'.used) : HeapPages k e m':=by
  obtain ⟨level,home,ht,hk⟩:=h.tables
  have hslots : slots m'=slots m:=by
    unfold slots
    rw [hmem]
  refine ⟨⟨level,home,ht.congr (fun _=>by rw [hmem]) fun hl=>hused _ (ht.used hl),hk⟩,h.aligned,h.low,h.high,
    fun a h1 h2=>?_,?_⟩
  · simp only [virtToPhys,hmem]
    exact h.mapped a h1 h2
  · simp only [Directory,hslots]
    exact h.directory

theorem allocFrame : HeapPages k e (allocFrame m).2:=
  h.congr (allocFrame_frame m).1 (allocFrame_frame m).2.1

theorem extend (hlt : e<heapMax) (hp : IsFrame p)
    (hm : mapPage k e p kernelRw m=(true,m')) (hd : Directory k pd (e+4096) m') : HeapPages k (e+4096) m':=by
  obtain ⟨level,home,ht,hk⟩:=h.tables
  obtain ⟨hb1,hb2⟩:=hp.bounds
  obtain ⟨level',home',ht',hkeep⟩:=mapPage_tables ht hk e p kernelRw
  obtain ⟨hok,-⟩:=mapPage_spec ht hk e hb1 hb2 (show kernelRw&&&flagPresent≠0 by decide) (by decide)
  rw [hm] at ht' hkeep hok
  obtain ⟨hsame,hother⟩:=hok rfl
  have hal:=h.aligned
  have hlow:=h.low
  refine ⟨⟨level',home',ht',hkeep.level_eq hk⟩,by omega,by omega,?_,fun a h1 h2=>?_,.inr ⟨by omega,pd,hd⟩⟩
  · simp only [heapMax] at hlt ⊢
    omega
  by_cases ha : e≤a
  · have hw : SameWalk a e:=sameWalk_of_page (by omega)
    have hpos:=hp.1
    rw [hsame a hw]
    omega
  · have hcan {v : ℕ} (h1 : heapStart≤v) (h2 : v<heapMax) : Canonical v:=by
      refine .inr ?_
      simp only [heapStart,heapMax] at h1 h2
      omega
    have hw : ¬SameWalk a e:=by
      intro hw
      have:=page_of_sameWalk hw (hcan h1 (by omega)) (hcan hlow hlt)
      omega
    rw [hother k a hk hw]
    exact h.mapped a h1 (by omega)

/-- The page at the end of the heap is mapped exactly if there are frames for the tables that it
needs. -/
theorem mapPage (hlt : e<heapMax) (hp : IsFrame p) :
    Plenty (tablesFor e) m ∧ (∃m',mapPage k e p kernelRw m=(true,m') ∧ HeapPages k (e+4096) m' ∧
    ∀n,Plenty n m'↔Plenty (tablesFor e+n) m) ∨ ¬Plenty (tablesFor e) m ∧ (mapPage k e p kernelRw m).1=false ∧
    ∀a,e≤a→a<e+4096→virtToPhys k a m=0:=by
  obtain ⟨level,home,ht,hk⟩:=h.tables
  rcases h.directory with ⟨rfl,hs3⟩ | ⟨hne,pd,hd⟩
  · obtain ⟨hi3,hi2,-,-⟩:=heap_indices le_rfl hlt
    have hunmapped (a : ℕ) (h1 : heapStart≤a) (h2 : a<heapStart+4096) : virtToPhys k a m=0:=by
      have hi:=pml4Idx_heap h1 (by simp only [heapStart,heapMax] at *; omega)
      rw [virtToPhys_eq]
      simp only [pml4Idx] at hi
      simp [lookup,hi,hs3]
    have hcost : tablesFor heapStart=3:=if_pos rfl
    rcases getOrCreate_of_absent ht hk hs3 with ⟨h0,hg⟩ | ⟨h0,pdpt,m₁,level1,home1,hg1,hpdpt,hoff1,hz1,c1⟩
    · refine .inr ⟨fun ho=>(plenty_succ.mp ho).1 h0,?_,hunmapped⟩
      simp [mapPage,hi3,hg]
    obtain ⟨hl2,hlink1⟩:=c1.child hpdpt
    rcases getOrCreate_of_absent c1.tables hl2 (hz1 2 0) with
      ⟨h0',hg⟩ | ⟨h0',pd,m2,level2,home2,hg2,hpd,hoff2,hz2,c2⟩
    · refine .inr ⟨fun ho=>?_,?_,hunmapped⟩
      · exact (plenty_succ.mp ((hoff1 2).mpr (plenty_succ.mp ho).2)).1 h0'
      · simp [mapPage,hi3,hi2,hg1,hpdpt,hg]
    obtain ⟨hl1,hlink2⟩:=c2.child hpd
    -- from there on it is a page below an empty directory
    have hkl:=c1.ext.level_eq hk
    have hkne : k≠pdpt:=by
      rintro rfl
      simp [hkl] at hl2
    have hlink1' : slots m2 3 k 288 = .table pdpt:=by
      rw [slots,c2.other k (c1.tables.used hkl) hkne]
      exact hlink1
    have hd : Directory k pd heapStart m2:=
      ⟨pdpt,hlink1',hlink2,fun j _=>⟨fun hj=>by omega,fun _=>hz2 1 j⟩⟩
    have hk2:=c2.ext.level_eq hkl
    have heq : mapPage k heapStart p kernelRw m=mapPage k heapStart p kernelRw m2:=by
      rw [(hd.mapPage_eq c2.tables hk2 le_rfl hlt p).2]
      simp [mapPage,hi3,hi2,hg1,hpdpt,hg2,hpd]
    have hoff (n : ℕ) : Plenty n m2↔Plenty (2+n) m:=by
      have ho1:=plenty_succ.trans ((and_iff_right h0).trans (hoff1 (n+1)).symm)
      have ho2:=plenty_succ.trans ((and_iff_right h0').trans (hoff2 n).symm)
      rw [Nat.add_comm,ho1,ho2]
    have hone : newTables heapStart=1:=rfl
    rcases hd.mapPage c2.tables hk2 le_rfl hlt (by decide) p with ⟨ho,m',hm,hd',hoff'⟩ | ⟨ho,hm,-⟩
    · rw [hone,hoff] at ho
      refine .inl ⟨ho,m',heq.trans hm,h.extend hlt hp (heq.trans hm) hd',fun n=>?_⟩
      rw [hoff',hone,hoff]
      exact iff_of_eq (congrArg (Plenty · m) (by omega))
    · rw [hone,hoff] at ho
      exact .inr ⟨ho,by rw [heq]; exact hm,hunmapped⟩
  · have hcost : tablesFor e=newTables e:=if_neg (by omega)
    rw [hcost]
    rcases hd.mapPage ht hk h.low hlt h.aligned p with ⟨ho,m',hm,hd',hoff⟩ | ⟨ho,hm,hs⟩
    · exact .inl ⟨ho,m',hm,h.extend hlt hp hm hd',hoff⟩
    refine .inr ⟨ho,hm,fun a h1 h2=>?_⟩
    have hal:=h.aligned
    have hmax : a<heapMax:=by
      simp only [heapMax] at hlt ⊢
      omega
    refine hd.unmapped (by omega) hmax ?_
    rw [(heap_indices h.low hlt).2.2.1] at hs
    rw [(heap_indices (by omega) hmax).2.2.1]
    have : (a-heapStart)/0x200000=(e-heapStart)/0x200000:=by
      simp only [heapStart] at *
      omega
    rw [this]
    exact hs

end

end HeapPages

end Knail.PageTables
