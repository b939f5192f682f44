import Knail.DirectoryWalks

/-!
# Directories without an end

A chain of clusters on the disk may lead back to itself, and the entry of a directory may lead to a
directory around it. The driver follows such links without end, unless an entry on the way makes it
return.
-/
namespace Knail.Fat32

open Vfs List

variable {m : Mount} {c n k index real : ℕ} {d : Disk} {cs : List ℕ} {p : ℕ×ℕ} {name : List UInt8}
  {sub : ℕ→Option (List VTree)} {alloc : ℕ×ℕ→Bool×Bool} {sector offset : ℕ} {e : ℕ→UInt8} {ts : List VTree}

def NonFailing (d : Disk) : Prop:=∀lba<4294967296,lba<d.sectors

theorem NonFailing.canRead (h : NonFailing d) (m : Mount) (c : ℕ) : CanRead m d c:=fun _ _=>h _ (Nat.mod_lt _ (by decide))

def EndsSearch (name : List UInt8) (e : ℕ→UInt8) : Prop:=
  e 0=0 ∨ e 0≠0xE5 ∧ e 11≠attrLfn ∧ e 11&&&attrVolumeId=0 ∧ nameMatches e name=true

instance (name : List UInt8) (e : ℕ→UInt8) : Decidable (EndsSearch name e):=inferInstanceAs (Decidable (_ ∨ _))

theorem findVisit_eq_none : findVisit name sector offset e=none↔¬EndsSearch name e:=by
  unfold findVisit EndsSearch
  by_cases h0 : e 0=0
  · simp [h0]
  by_cases hskip : e 0=0xE5 ∨ e 11=attrLfn ∨ e 11&&&attrVolumeId≠0
  · simp only [h0,hskip,if_true,if_false,false_or,true_iff]
    tauto
  simp only [h0,hskip,if_false,false_or]
  by_cases hm : nameMatches e name=true
  · simp only [hm,if_true,reduceCtorEq,false_iff]
    tauto
  · simp [hm]

theorem findSome?_places {α : Type} (hd : NonFailing d) {visit : ℕ→ℕ→(ℕ→UInt8)→Option (Option α)} :
    scanCluster m d visit c=none↔∀p∈places m c,visit p.1 p.2 (entryOf d p)=none:=by
  rw [scanCluster_places (hd.canRead m c),findSome?_eq_none_iff]

theorem exists_dirFindLoop_iff (hd : NonFailing d) : (∃n r,dirFindLoop m name d n c=some r) ↔
    ∃k,EndOfChain ((nextCluster m d)^[k] c) ∨
    ∃p∈places m ((nextCluster m d)^[k] c),EndsSearch name (entryOf d p):=by
  refine exists_loop_iff (dirFindLoop m name d) (nextCluster m d)
    (fun c=>EndOfChain c ∨ ∃p∈places m c,EndsSearch name (entryOf d p))
    (fun _=>True) (fun _=>rfl) (fun n c _ hstop=>?_) (fun n c _ hgo=>⟨?_,trivial⟩) trivial
  · by_cases hend : EndOfChain c
    · exact ⟨none,if_pos hend⟩
    obtain ⟨p,hp,hends⟩:=hstop.resolve_left hend
    have hscan : scanCluster m d (findVisit name) c≠none:=fun hnone=>
      findVisit_eq_none.mp ((findSome?_places hd).mp hnone p hp) hends
    obtain ⟨r,hr⟩:=Option.ne_none_iff_exists'.mp hscan
    refine ⟨r,(if_neg hend).trans ?_⟩
    rw [hr]
  · rw [not_or] at hgo
    refine (if_neg hgo.1).trans ?_
    rw [(findSome?_places hd).mpr fun p hp=>findVisit_eq_none.mpr fun h=>hgo.2 ⟨p,hp,h⟩]
    rfl

theorem freeVisit_eq_none_iff : freeVisit sector offset e=none↔¬(e 0=0 ∨ e 0=0xE5):=by
  unfold freeVisit
  split <;> simp_all

theorem exists_freeDirentLoop_iff (hd : NonFailing d) : (∃n r,freeDirentLoop m d n c=some r) ↔
    ∃k,(nextCluster m d)^[k] c<2 ∨ EndOfChain (nextCluster m d ((nextCluster m d)^[k] c)) ∨
    ∃p∈places m ((nextCluster m d)^[k] c),entryOf d p 0=0 ∨ entryOf d p 0=0xE5:=by
  refine exists_loop_iff (freeDirentLoop m d) (nextCluster m d)
    (fun c=>c<2 ∨ EndOfChain (nextCluster m d c) ∨ ∃p∈places m c,entryOf d p 0=0 ∨ entryOf d p 0=0xE5)
    (fun _=>True) (fun _=>rfl) (fun n c _ hstop=>?_) (fun n c _ hgo=>⟨?_,trivial⟩) trivial
  · by_cases hlow : c<2
    · exact ⟨.inr c,if_pos hlow⟩
    rw [freeDirentLoop,if_neg hlow]
    cases hscan : scanCluster m d freeVisit c with
    | some r=>exact ⟨.inl r,rfl⟩
    | none=>
      obtain hend | ⟨p,hp,hfree⟩:=hstop.resolve_left hlow
      · exact ⟨.inr c,if_pos hend⟩
      · exact absurd hfree (freeVisit_eq_none_iff.mp ((findSome?_places hd).mp hscan p hp))
  · rw [not_or,not_or] at hgo
    rw [freeDirentLoop,if_neg hgo.1,(findSome?_places hd).mpr fun p hp=>
      freeVisit_eq_none_iff.mpr fun h=>hgo.2.2 ⟨p,hp,h⟩]
    exact if_neg hgo.2.1

/-- The entries of a cluster that are shown, before one that was never used. -/
def shownIn (m : Mount) (d : Disk) (c : ℕ) : ℕ:=(liveSlots (viewOf d) (places m c)).length

/-- The entries that are shown in the first clusters of a chain. -/
def shownBefore (m : Mount) (d : Disk) (c : ℕ) : ℕ→ℕ
  | 0=>0
  | k+1=>shownBefore m d c k+shownIn m d ((nextCluster m d)^[k] c)

theorem any_eq_true_iff {slots : List (ℕ×ℕ)} :
    (slots.any fun p=>(viewOf d p).first=0)=true↔∃p∈slots,entryOf d p 0=0:=by
  simp only [any_eq_true,decide_eq_true_eq]
  rfl

/-- A turn of the loop, with the cluster and the number of entries that were passed. -/
def readdirStep (m : Mount) (d : Disk) (s : ℕ×ℕ) : ℕ×ℕ:=(nextCluster m d s.1,s.2+shownIn m d s.1)

theorem iterate_readdirStep (k : ℕ) (c : ℕ) :
    (readdirStep m d)^[k] (c,0)=((nextCluster m d)^[k] c,shownBefore m d c k):=by
  induction k with
  | zero=>rfl
  | succ k ih=>rw [Function.iterate_succ_apply',ih,Function.iterate_succ_apply',readdirStep,shownBefore]

theorem exists_readdirLoop_iff (hd : NonFailing d) : (∃n r,readdirLoop m d index n c 0=some r) ↔
    ∃k,EndOfChain ((nextCluster m d)^[k] c) ∨ (∃p∈places m ((nextCluster m d)^[k] c),entryOf d p 0=0) ∨
    index<shownBefore m d c (k+1):=by
  have hslots (c real : ℕ) (hreal : real ≤ index):=
    (readdirCluster_places (hd.canRead m c) real).trans (readdirSlots_eq _ hreal)
  have hloop:=exists_loop_iff (a:=(c,0)) (fun n s=>readdirLoop m d index n s.1 s.2) (readdirStep m d)
    (fun s=>EndOfChain s.1 ∨ (∃p∈places m s.1,entryOf d p 0=0) ∨ index<s.2+shownIn m d s.1)
    (fun s=>s.2 ≤ index) (fun _=>rfl) ?_ ?_ (Nat.zero_le _)
  · rw [hloop]
    simp only [iterate_readdirStep]
    rfl
  · rintro n ⟨c,real⟩ hreal hstop
    by_cases hend : EndOfChain c
    · exact ⟨.error .endOfFile,if_pos hend⟩
    have herror : ∃r,readdirCluster m d index c real = .error r:=by
      rw [hslots c real hreal]
      cases hget : (liveSlots (viewOf d) (places m c))[index-real]? with
      | some p=>exact ⟨_,rfl⟩
      | none=>
        obtain hzero | hlt:=hstop.resolve_left hend
        · exact ⟨_,if_pos (any_eq_true_iff.mpr hzero)⟩
        have:=getElem?_eq_none_iff.mp hget
        rw [shownIn] at hlt
        dsimp only at hlt hreal
        omega
    obtain ⟨r,hr⟩:=herror
    refine ⟨r,(if_neg hend).trans ?_⟩
    rw [hr]
  · rintro n ⟨c,real⟩ hreal hgo
    rw [not_or,not_or] at hgo
    dsimp only at hgo hreal
    have hok : readdirCluster m d index c real = .ok (real+shownIn m d c):=by
      rw [hslots c real hreal,getElem?_eq_none_iff.mpr (by rw [←shownIn]; omega)]
      exact if_neg (mt any_eq_true_iff.mp hgo.2.1)
    refine ⟨(if_neg hgo.1).trans ?_,by dsimp only [readdirStep]; omega⟩
    rw [hok]
    rfl

/-- The walk of `populate_dir` leads from a cluster on to another one: to the next in the chain, or to
the first of a directory. -/
def Leads (m : Mount) (d : Disk) (alloc : ℕ×ℕ→Bool×Bool) (c' c : ℕ) : Prop:=
  ¬EndOfChain c ∧ ((∀p∈places m c,entryOf d p 0≠0) ∧ c'=nextCluster m d c ∨
    ∃p∈madeSlots d alloc (places m c),(viewOf d p).IsDir ∧ c'=(viewOf d p).cluster)

section

variable (hd : NonFailing d)
include hd

theorem populateCluster_eq (c : ℕ) (ts : List VTree) : populateCluster m d sub alloc c ts =
    ((madeSlots d alloc (places m c)).mapM (entryTree sub d)).map fun us=>
    ((places m c).any fun p=>(viewOf d p).first=0,us.reverse++ts):=by
  rw [populateCluster_places (hd.canRead m c),populateSlots_eq]

theorem populateLoop_append (ts us : List VTree) :
    populateLoop m d sub alloc n c (us++ts)=(populateLoop m d sub alloc n c us).map (· ++ ts):=by
  induction n generalizing c us with
  | zero=>rfl
  | succ n ih=>
    rw [populateLoop,populateLoop]
    by_cases hend : isEoc c=true ∨ c<2
    · rw [if_pos hend,if_pos hend,Option.map_some]
    rw [if_neg hend,if_neg hend,populateCluster_eq hd,populateCluster_eq hd]
    cases (madeSlots d alloc (places m c)).mapM (entryTree sub d) with
    | none=>rfl
    | some vs=>
      rw [Option.map_some,Option.map_some,←append_assoc]
      cases (places m c).any fun p=>decide ((viewOf d p).first=0) with
      | true=>rfl
      | false=>exact ih _

theorem acc_of_populateLoop (hsub : ∀c ts,sub c=some ts→Acc (Leads m d alloc) c) {us : List VTree}
    (h : populateLoop m d sub alloc n c ts=some us) : Acc (Leads m d alloc) c:=by
  induction n generalizing c ts with
  | zero=>cases h
  | succ n ih=>
    refine Acc.intro c fun c' hc'=>?_
    obtain ⟨hend,hlead⟩:=hc'
    rw [populateLoop,if_neg (show ¬(isEoc c=true ∨ c<2) from hend),populateCluster_eq hd] at h
    cases hm : (madeSlots d alloc (places m c)).mapM (entryTree sub d) with
    | none=>
      rw [hm] at h
      cases h
    | some vs=>
      rw [hm,Option.map_some] at h
      obtain ⟨hzero,rfl⟩ | ⟨p,hp,hdir,rfl⟩:=hlead
      · have hany : ((places m c).any fun p=>(viewOf d p).first=0)=false:=
          Bool.eq_false_iff.mpr fun hany=>by
            obtain ⟨p,hp,h0⟩:=any_eq_true_iff.mp hany
            exact hzero p hp h0
        rw [hany] at h
        exact ih h
      · obtain ⟨t,-,ht⟩:=exists_of_forall₂ (mapM_eq_some.mp hm) hp
        rw [entryTree,if_pos hdir] at ht
        obtain ⟨ws,hws,-⟩:=Option.map_eq_some_iff.mp ht
        exact hsub _ ws hws

theorem acc_of_populateDir {depth : ℕ} (h : populateDir m d alloc n depth c=some ts) : Acc (Leads m d alloc) c:=by
  induction depth generalizing c ts with
  | zero=>cases h
  | succ depth ih=>exact acc_of_populateLoop hd (fun _ _=>ih) h

/-- `populate_dir` returns exactly if its walk does not go on for ever. -/
theorem exists_populates_iff_acc : (∃ts,Populates m d alloc c ts)↔Acc (Leads m d alloc) c:=by
  constructor
  · rintro ⟨ts,n,depth,h⟩
    exact acc_of_populateDir hd h
  intro hacc
  induction hacc with
  | intro c _ ih=>
    by_cases hend : EndOfChain c
    · exact ⟨[],1,1,if_pos hend⟩
    -- one bound for the calls in this cluster and for the rest of the chain
    have hdirs (c' : ℕ) (hc' : c'∈((madeSlots d alloc (places m c)).filter fun p=>(viewOf d p).IsDir).map fun p=>
        (viewOf d p).cluster) : ∃ts,Populates m d alloc c' ts:=by
      obtain ⟨p,hp,rfl⟩:=mem_map.mp hc'
      obtain ⟨hp,hdir⟩:=mem_filter.mp hp
      exact ih _ ⟨hend,.inr ⟨p,hp,of_decide_eq_true hdir,rfl⟩⟩
    obtain ⟨n1,depth1,hsub⟩:=exists_populateDir hdirs
    have htrees (n : ℕ) (hn : n1≤n) (depth : ℕ) (hdepth : depth1≤depth) :
        ∃us,(madeSlots d alloc (places m c)).mapM (entryTree (populateDir m d alloc n depth) d)=some us:=by
      obtain ⟨us,hus⟩:=exists_forall₂ (R:=fun p t=>entryTree (populateDir m d alloc n depth) d p=some t)
        fun p (hp : p∈madeSlots d alloc (places m c)) => by
          by_cases hdir : (viewOf d p).IsDir
          · obtain ⟨ts,hts⟩:=hsub n hn depth hdepth _
              (mem_map_of_mem (mem_filter.mpr ⟨hp,decide_eq_true hdir⟩))
            exact ⟨_,by rw [entryTree,if_pos hdir,hts,Option.map_some]⟩
          · exact ⟨_,if_neg hdir⟩
      exact ⟨us,mapM_eq_some.mpr hus⟩
    cases hany : (places m c).any fun p=>decide ((viewOf d p).first=0) with
    | true=>
      obtain ⟨us,hus⟩:=htrees (n1+1) (Nat.le_succ _) depth1 (Nat.le_refl _)
      refine ⟨us.reverse++[],n1+1,depth1+1,(if_neg hend).trans ?_⟩
      rw [populateCluster_eq hd,hus,Option.map_some,hany]
    | false=>
      have hnone (p : ℕ×ℕ) (hp : p∈places m c) : entryOf d p 0≠0:=fun h0=>
        Bool.eq_false_iff.mp hany (any_eq_true_iff.mpr ⟨p,hp,h0⟩)
      obtain ⟨ts,n2,depth2,hts⟩:=ih _ ⟨hend,.inl ⟨hnone,rfl⟩⟩
      obtain ⟨us,hus⟩:=htrees (max n1 n2+1) (by omega) (max depth1 depth2) (by omega)
      have hmore : populateDir m d alloc (max n1 n2) (max depth1 depth2+1) (nextCluster m d c)=some ts:=
        populateDir_mono (Nat.le_max_right n1 n2) (by omega) hts
      have hrest:=
        populateLoop_mono (fun c ts h=>populateDir_mono (Nat.le_succ _) (Nat.le_refl _) h) (Nat.le_refl _) hmore
      refine ⟨ts++(us.reverse++[]),max n1 n2+1,max depth1 depth2+1,(if_neg hend).trans ?_⟩
      rw [populateCluster_eq hd,hus,Option.map_some,hany]
      refine (populateLoop_append hd (us.reverse++[]) []).trans ?_
      exact congrArg (Option.map (· ++ (us.reverse++[]))) hrest

theorem not_populates (h : Leads m d alloc c c) (ts : List VTree) : ¬Populates m d alloc c ts:=by
  intro hts
  have hacc:=(exists_populates_iff_acc hd).mp ⟨ts,hts⟩
  induction hacc with
  | intro c _ ih=>exact ih c h h hts

end

/-- On a device without failures, `dir_find`, `fat_readdir` and `find_free_dirent` return exactly if the
chain ends or has an entry at which they return, and `populate_dir` exactly if it cannot go on for ever
from cluster to cluster and from directory to directory. -/
theorem walks_end_iff (hd : NonFailing d) (m : Mount) (c : ℕ) :
    (∀name,(∃n r,dirFindLoop m name d n c=some r)↔∃k,EndOfChain ((nextCluster m d)^[k] c) ∨
    ∃p∈places m ((nextCluster m d)^[k] c),EndsSearch name (entryOf d p)) ∧
    (∀index,(∃n r,readdirLoop m d index n c 0=some r)↔∃k,EndOfChain ((nextCluster m d)^[k] c) ∨
    (∃p∈places m ((nextCluster m d)^[k] c),entryOf d p 0=0) ∨ index<shownBefore m d c (k+1)) ∧
    ((∃n r,freeDirentLoop m d n c=some r)↔∃k,(nextCluster m d)^[k] c<2 ∨
    EndOfChain (nextCluster m d ((nextCluster m d)^[k] c)) ∨
    ∃p∈places m ((nextCluster m d)^[k] c),entryOf d p 0=0 ∨ entryOf d p 0=0xE5) ∧
    ∀alloc,(∃ts,Populates m d alloc c ts)↔Acc (Leads m d alloc) c:=
  ⟨fun _=>exists_dirFindLoop_iff hd,fun _=>exists_readdirLoop_iff hd,exists_freeDirentLoop_iff hd,
    fun _=>exists_populates_iff_acc hd⟩

def loopMount : Mount:=⟨1,2,1,1,1,1⟩

/-- A directory of one cluster, which is linked to itself. All entries are parts of long names. -/
def loopDisk : Disk where
  sectors:=4294967296
  data:=fun lba i=>if lba=1 then if i=8 then 2 else 0 else if i%32=11 then attrLfn else 65
  written:=[]

theorem loopDisk_iterate (k : ℕ) : (nextCluster loopMount loopDisk)^[k] 2=2:=Function.iterate_fixed (by decide) k

theorem shownBefore_loopDisk (k : ℕ) : shownBefore loopMount loopDisk 2 k=0:=by
  induction k with
  | zero=>rfl
  | succ k ih=>
    rw [shownBefore,ih,loopDisk_iterate]
    decide

/-- On a chain that leads back to its first cluster nothing ends. -/
theorem cyclic_directory_never_ends : NonFailing loopDisk ∧ (∀n,dirFindLoop loopMount [66] loopDisk n 2=none) ∧
    (∀n,readdirLoop loopMount loopDisk 0 n 2 0=none) ∧ (∀n,freeDirentLoop loopMount loopDisk n 2=none) ∧
    ∀n depth,populateDir loopMount loopDisk enough n depth 2=none:=by
  have hd : NonFailing loopDisk:=fun _ h=>h
  have hnone {ρ : Type} {loop : ℕ→Option ρ} (h : ¬ ∃n r,loop n=some r) (n : ℕ) : loop n=none:=
    Option.eq_none_iff_forall_ne_some.mpr fun r hr=>h ⟨n,r,hr⟩
  refine ⟨hd,hnone ?_,hnone ?_,hnone ?_,fun n depth=>Option.eq_none_iff_forall_ne_some.mpr fun ts hts=>?_⟩
  · rw [exists_dirFindLoop_iff hd]
    simp only [loopDisk_iterate,exists_const]
    decide
  · rw [exists_readdirLoop_iff hd]
    simp only [loopDisk_iterate,shownBefore_loopDisk,exists_const]
    decide
  · rw [exists_freeDirentLoop_iff hd]
    simp only [loopDisk_iterate,exists_const]
    decide
  · exact not_populates hd ⟨by decide,.inl ⟨by decide,by decide⟩⟩ ts ⟨n,depth,hts⟩

/-- On the same disk the walks end where they begin at a number that stands for the end of a chain. -/
theorem walks_end_iff_loopDisk : NonFailing loopDisk ∧ (∃n r,dirFindLoop loopMount [66] loopDisk n 0=some r) ∧
    ∃ts,Populates loopMount loopDisk enough 0 ts:=by
  have hd : NonFailing loopDisk:=fun _ h=>h
  obtain ⟨hfind,-,-,hpopulate⟩:=walks_end_iff hd loopMount 0
  exact ⟨hd,(hfind [66]).mpr ⟨0,.inl (by decide)⟩,(hpopulate enough).mpr (Acc.intro 0 fun _ h=>absurd h.1 (by decide))⟩

end Knail.Fat32
