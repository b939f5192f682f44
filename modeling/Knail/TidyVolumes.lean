import Knail.VolumeTree

/-!
# Volumes in order

On a volume in order every cluster in use belongs to the root directory or to an entry that is
found from there. Creating, writing and unlinking keep a volume in order, with the exceptions that
the lemmas name.
-/
namespace Knail.Fat32

open Function Vfs List Option

variable {m : Mount} {root c x n : ℕ} {d d' d'' : Disk} {xs ys : List ℕ} {p q : ℕ×ℕ}
  {chain : Option (ℕ×ℕ)→List ℕ} {o : Option (ℕ×ℕ)} {e : ℕ→UInt8} {pos : ℕ} {bs : List UInt8}
  {name : List UInt8}

def viewOf (d : Disk) (p : ℕ×ℕ) : EntryView:=⟨entryOf d p 0,entryOf d p 11,entryCluster (entryOf d p)⟩

theorem entryCluster_congr {e' : ℕ→UInt8} (h : ∀i<32,e' i=e i) : entryCluster e'=entryCluster e:=by
  rw [entryCluster,entryCluster,getLE_congr fun j _ hj=>h j (by omega),getLE_congr fun j _ hj=>h j (by omega)]

theorem viewOf_congr (h : ∀i<32,entryOf d' p i=entryOf d p i) : viewOf d' p=viewOf d p:=by
  rw [viewOf,viewOf,h 0 (by omega),h 11 (by omega),entryCluster_congr h]

structure Tidy (m : Mount) (root : ℕ) (d : Disk) (chain : Option (ℕ×ℕ)→List ℕ) : Prop where
  volume : Volume m d
  tree : Hierarchy m root (table m d) (viewOf d) chain

theorem two_le_of_ne_free (c : ℕ) (h : table m d c≠.free) : 2 ≤ c:=(inRange_of_ne_free h).1

structure SlotWritten (m : Mount) (d d' : Disk) (p : ℕ×ℕ) : Prop where
  kept : Kept m d d'
  table_eq : table m d'=table m d
  data : ∀lba j,lba≠p.1 ∨ j<p.2 ∨ p.2+32≤j→d'.data lba j=d.data lba j

theorem Volume.slotWrite_spec (hv : Volume m d) (hp : DirentPlace m p.1 p.2) {buf : ℕ→UInt8}
    (hbuf : ∀j,j<p.2 ∨ p.2+32≤j→buf j=d.data p.1 j) :
    ∃d',devRead d p.1=some (d.data p.1) ∧ devWrite d p.1 buf=some d' ∧ SlotWritten m d d' p ∧ d'.data p.1=buf:=by
  obtain ⟨d',he,hk,ht,hd⟩:=hv.devWrite_spec hp.1 hp.2.1 buf
  refine ⟨d',devRead_of_lt (Nat.lt_of_lt_of_le hp.2.1 hv.geometry.end_le),he,⟨hk,ht,fun lba j hj=>?_⟩,?_⟩
  · rw [hd]
    by_cases hl : lba=p.1
    · rw [hl,update_self]
      exact hbuf j (hj.resolve_left (not_not.mpr hl))
    · rw [update_of_ne hl]
  · rw [hd,update_self]

theorem SlotWritten.entryOf_eq (h : SlotWritten m d d' p) {c' : ℕ} (hp : p∈clusterSlots m c) (hq : q∈clusterSlots m c')
    (hne : q≠p) {i : ℕ} (hi : i<32) : entryOf d' q i=entryOf d q i:=by
  refine h.data q.1 (q.2+i) ?_
  by_cases hsector : q.1=p.1
  · have:=slots_disjoint hq hp hne hsector
    omega
  · exact .inl hsector

theorem SlotWritten.viewOf_eq (h : SlotWritten m d d' p) {c' : ℕ} (hp : p∈clusterSlots m c) (hq : q∈clusterSlots m c')
    (hne : q≠p) : viewOf d' q=viewOf d q:=
  viewOf_congr fun _ hi=>h.entryOf_eq hp hq hne hi

theorem putCluster_of_lt {off j : ℕ} (h : j<off+20 ∨ off+28≤j) : putCluster e off c j=e j:=by
  rw [putCluster]
  obtain h | h:=h
  · rw [putLE_of_lt (by omega),putLE_of_lt (by omega)]
  · rw [putLE_of_le (by omega),putLE_of_le (by omega)]

theorem Volume.updateDirent_eq (hv : Volume m d) {fn : Fat32Node} (hd : fn.hasDirent=true)
    (hp : DirentPlace m fn.direntSector fn.direntOffset) (hc : fn.firstCluster<4294967296) (size : ℕ) :
    SlotWritten m d (updateDirent fn size d) (fn.direntSector,fn.direntOffset) ∧
    viewOf (updateDirent fn size d) (fn.direntSector,fn.direntOffset) =
    {viewOf d (fn.direntSector,fn.direntOffset) with cluster:=fn.firstCluster}:=by
  have hbuf (j : ℕ) (hj : j<fn.direntOffset+20 ∨ fn.direntOffset+32≤j) :
      putCluster (putLE (d.data fn.direntSector) 4 (fn.direntOffset+28) size) fn.direntOffset fn.firstCluster j =
        d.data fn.direntSector j:=by
    rw [putCluster_of_lt (by omega)]
    obtain hj | hj:=hj
    exacts [putLE_of_lt (by omega),putLE_of_le (by omega)]
  obtain ⟨d',hread,hwrite,hs,hdata⟩:=hv.slotWrite_spec (p:=(fn.direntSector,fn.direntOffset)) hp fun j hj=>
    hbuf j (by dsimp only at hj; omega)
  have hupdate : updateDirent fn size d=d':=by
    rw [updateDirent,if_pos hd]
    rw [hread]
    dsimp only
    rw [hwrite,getD_some]
  rw [hupdate]
  refine ⟨hs,?_⟩
  have hentry (i : ℕ) : entryOf d' (fn.direntSector,fn.direntOffset) i=putCluster
      (putLE (d.data fn.direntSector) 4 (fn.direntOffset+28) size) fn.direntOffset fn.firstCluster (fn.direntOffset+i):=by
    exact congrFun hdata _
  have hcluster : entryCluster (entryOf d' (fn.direntSector,fn.direntOffset))=fn.firstCluster:=by
    rw [funext hentry,entryCluster,getLE_shift,getLE_shift]
    exact cluster_putCluster _ _ hc
  rw [viewOf,hcluster,hentry,hentry,hbuf _ (by omega),hbuf _ (by omega)]
  rfl

def freeClusters (m : Mount) (d : Disk) : List ℕ:=
  (List.range (m.totalClusters+2)).filter fun c=>InRange m c ∧ table m d c = .free

theorem mem_freeClusters : c∈freeClusters m d↔InRange m c ∧ table m d c = .free:=by
  simp only [freeClusters,mem_filter,mem_range,decide_eq_true_eq]
  exact ⟨fun h=>h.2,fun h=>⟨h.1.2,h⟩⟩

theorem Wrote.length_le (h : Wrote m d d' xs ys pos bs) (hl : Linked (table m d) xs)
    (hn : xs.Nodup) (hfull : Full m d') : xs.length+(freeClusters m d).length≤ys.length:=by
  obtain ⟨ds,hds,-⟩:=h.grows.extend
  have hnodup : (xs++freeClusters m d).Nodup:=by
    refine nodup_append.mpr ⟨hn,nodup_range.filter _,?_⟩
    rintro y hy _ hfree rfl
    exact hl.ne_free hy (mem_freeClusters.mp hfree).2
  rw [←length_append]
  refine (hnodup.subperm fun y hy=>?_).length_le
  obtain hy | hy:=mem_append.mp hy
  · rw [hds]
    exact mem_append_left _ hy
  obtain ⟨hr,hfree⟩:=mem_freeClusters.mp hy
  by_contra hmem
  exact hfull y hr (h.spare y hmem hfree)

theorem Rooted.lt {first sectors : ℕ} (h : Rooted first xs) (hg : Geometry m sectors) (hl : Linked (table m d) xs) :
    first<4294967296:=by
  obtain ⟨hlt,-⟩ | hhead:=h
  · omega
  obtain ⟨cs,rfl⟩:=head?_eq_some_iff.mp hhead
  have hr : InRange m first:=inRange_of_ne_free (hl.ne_free mem_cons_self)
  have:=hg.clusters_le
  have:=hr.2
  omega

namespace Tidy

section

variable (h : Tidy m root d chain)
include h

theorem viewOf_of_file (ho : Below (kids m (viewOf d) chain) o) (hfile : ¬Owner.IsDir (viewOf d) o) (hw : Wrote m d d' (chain o) xs pos bs) (hq : DirPlace m (viewOf d) chain q) :
    viewOf d' q=viewOf d q:=by
  obtain ⟨o',ho',hdir,hq⟩:=hq
  obtain ⟨c,hc,hqc⟩:=mem_dirSlots.mp hq
  have hne : o'≠o:=by
    rintro rfl
    exact hfile hdir
  obtain ⟨hnot,hused⟩:=h.tree.chains.other ho ho' hne hc
  refine viewOf_congr fun i hi=>entryOf_congr h.volume.geometry hqc ?_ hi
  exact hw.cells c (inRange_of_ne_free hused) (hw.grows.notMem hnot hused)

theorem viewOf_of_dir (ho : Below (kids m (viewOf d) chain) o)
    (hw : Wrote m d d' (chain o) xs pos []) (hq : DirPlace m (viewOf d) chain q) : viewOf d' q=viewOf d q:=by
  obtain ⟨o',ho',-,hq⟩:=hq
  obtain ⟨c,hc,hqc⟩:=mem_dirSlots.mp hq
  refine viewOf_congr fun i hi=>entryOf_congr h.volume.geometry hqc ?_ hi
  by_cases he : o'=o
  · subst he
    exact (hw.cell_eq h.volume.geometry.clusterBytes_pos).1 c hc
  · obtain ⟨hnot,hused⟩:=h.tree.chains.other ho ho' he hc
    exact hw.cells c (inRange_of_ne_free hused) (hw.grows.notMem hnot hused)

theorem growDir (ho : Below (kids m (viewOf d) chain) o) (hdir : Owner.IsDir (viewOf d) o)
    (hw : Wrote m d d' (chain o) xs pos []) :
    Tidy m root d' (update chain o xs) ∧ Below (kids m (viewOf d') (update chain o xs)) o ∧
    Owner.IsDir (viewOf d') o:=by
  have hview {q : ℕ×ℕ} (hq : DirPlace m (viewOf d) chain q):=h.viewOf_of_dir ho hw hq
  have hsame (q : ℕ×ℕ) (hq : DirPlace m (viewOf d) chain q) : (viewOf d' q).first=(viewOf d q).first ∧
      (viewOf d' q).attr=(viewOf d q).attr ∧ (some q≠o→(viewOf d' q).cluster=(viewOf d q).cluster):=by
    rw [hview hq]
    exact ⟨rfl,rfl,fun _=>rfl⟩
  have hzero (_ : Owner.IsDir (viewOf d) o) (c : ℕ) (hc : c∈xs) (hnew : c∉chain o) (q : ℕ×ℕ)
      (hq : q∈clusterSlots m c) : (viewOf d' q).first=0:=by
    obtain ⟨b,hb,hentry⟩:=entryOf_eq_cell h.volume.geometry hq
    rw [viewOf,hentry d' 0 (by omega),(hw.cell_eq h.volume.geometry.clusterBytes_pos).2 c hc hnew _ (by omega)]
  refine ⟨⟨hw.kept.volume h.volume,h.tree.grow ho hw.grows hsame hzero two_le_of_ne_free hw.spare ?_⟩,
    (h.tree.below_grow hw.grows hsame hzero).mpr ho,(h.tree.isDir_grow hsame ho).mpr hdir⟩
  rintro p rfl
  rw [hview (h.tree.exists_slot ho)]
  have hhead:=(h.tree.rooted p ho).resolve_left fun hnil=>h.tree.dir _ ho hdir hnil.2
  obtain ⟨ds,rfl,-⟩:=hw.grows.extend
  exact .inr (by rw [head?_append,hhead,some_or])

theorem growFile (hp : Below (kids m (viewOf d) chain) (some p)) (hfile : ¬(viewOf d p).IsDir) (hw : Wrote m d d' (chain (some p)) xs pos bs) (hv : Volume m d'')
    (htable : table m d''=table m d') (hkept : ∀q,DirPlace m (viewOf d) chain q→q≠p→viewOf d'' q=viewOf d' q)
    (hself : (viewOf d'' p).first=(viewOf d' p).first ∧ (viewOf d'' p).attr=(viewOf d' p).attr)
    (hrooted : Rooted (viewOf d'' p).cluster xs) : Tidy m root d'' (update chain (some p) xs):=by
  have hview {q : ℕ×ℕ} (hq : DirPlace m (viewOf d) chain q):=h.viewOf_of_file hp hfile hw hq
  refine ⟨hv,h.tree.grow hp (htable▸hw.grows) (fun q hq=>?_) (fun hd=>absurd hd hfile) two_le_of_ne_free
    (fun y hy hfree=>htable▸hw.spare y hy hfree) ?_⟩
  · by_cases hqp : q=p
    · subst hqp
      rw [hself.1,hself.2,hview hq]
      exact ⟨rfl,rfl,fun hne=>absurd rfl hne⟩
    · rw [hkept q hq hqp,hview hq]
      exact ⟨rfl,rfl,fun _=>rfl⟩
  · rintro q hq
    obtain rfl:=some.inj hq
    exact hrooted

/-- A write to a file keeps the volume in order, unless it takes clusters for a file without any and
then fails. -/
theorem fatWrite {fn : Fat32Node} (hd : fn.hasDirent=true)
    (hp : Below (kids m (viewOf d) chain) (some (fn.direntSector,fn.direntOffset)))
    (hfile : ¬(viewOf d (fn.direntSector,fn.direntOffset)).IsDir)
    (hcluster : (viewOf d (fn.direntSector,fn.direntOffset)).cluster=fn.firstCluster) {offset : ℕ} {src : List UInt8}
    (hroom : src≠[]→fn.firstCluster<2 →
    freeClusters m d=[] ∨ offset/clusterBytes m<(freeClusters m d).length) (size : ℕ) :
    ∃chain',Tidy m root (Fat32.fatWrite m size fn offset src d).2.2.2 chain':=by
  by_cases hsrc : src=[]
  · exact ⟨chain,by simpa [Fat32.fatWrite,chainWrite,hsrc] using h⟩
  have hplace:=h.tree.exists_slot hp
  have hroot:=h.tree.rooted _ hp
  rw [hcluster] at hroot
  obtain ⟨r,first',d1,xs,k,he,hroot',hk,hr,hw,hstop⟩:=
    h.volume.chainWrite_spec hroot (h.tree.chains.linked _ hp) (h.tree.chains.nodup _ hp) hsrc offset
  have hv1:=hw.kept.volume h.volume
  have hview:=h.viewOf_of_file hp hfile hw hplace
  obtain ⟨c,hc,hpc⟩ : ∃c,InRange m c ∧ (fn.direntSector,fn.direntOffset)∈clusterSlots m c:=by
    obtain ⟨o,ho,-,hslot⟩:=hplace
    obtain ⟨c,hc,hpc⟩:=mem_dirSlots.mp hslot
    exact ⟨c,inRange_of_ne_free ((h.tree.chains.linked o ho).ne_free hc),hpc⟩
  obtain ⟨rfl,hk0⟩ | ⟨hneg,rfl⟩:=hr
  · have hpos : ¬(k : ℤ)≤0:=by omega
    have hlt : first'<4294967296:=hroot'.lt h.volume.geometry hw.grows.linked
    obtain ⟨hs,hnew⟩:=@Volume.updateDirent_eq m d1 hv1 {fn with firstCluster:=first'} hd
      (h.volume.geometry.direntPlace_of_mem hc hpc) hlt
      (if size<u64 (offset+(k : ℤ).toNat) then u64 (offset+(k : ℤ).toNat) else size)
    refine ⟨update chain (some (fn.direntSector,fn.direntOffset)) xs,?_⟩
    simp only [Fat32.fatWrite,he,if_neg hpos]
    refine h.growFile hp hfile hw (hs.kept.volume hv1) hs.table_eq (fun q hq hne=>?_) ?_ ?_
    · obtain ⟨o,-,-,hslot⟩:=hq
      obtain ⟨c',-,hqc⟩:=mem_dirSlots.mp hslot
      exact hs.viewOf_eq hpc hqc hne
    · rw [hnew]
      exact ⟨rfl,rfl⟩
    · rw [hnew]
      exact hroot'
  · refine ⟨update chain (some (fn.direntSector,fn.direntOffset)) xs,?_⟩
    simp only [Fat32.fatWrite,he,if_pos (le_of_lt hneg)]
    refine h.growFile hp hfile hw hv1 rfl (fun _ _ _=>rfl) ⟨rfl,rfl⟩ ?_
    rw [hview,hcluster]
    obtain ⟨ds,hds,hfree⟩:=hw.grows.extend
    obtain ⟨hlow,hnil⟩ | hhead:=hroot
    · refine .inl ⟨hlow,?_⟩
      obtain hnone | hmore:=hroom hsrc hlow
      · rw [hnil,nil_append] at hds
        refine eq_nil_iff_forall_not_mem.mpr fun y hy=>?_
        have hmem : y∈freeClusters m d:=
          mem_freeClusters.mpr ⟨inRange_of_ne_free (hw.grows.linked.ne_free hy),hfree y (hds▸hy)⟩
        rw [hnone] at hmem
        cases hmem
      · obtain ⟨hfull,hlen⟩:=hstop (length_pos_of_ne_nil hsrc)
        have hle:=hw.length_le (h.tree.chains.linked _ hp) (h.tree.chains.nodup _ hp) hfull
        have hdiv:=(Nat.le_div_iff_mul_le h.volume.geometry.clusterBytes_pos).mpr hlen
        rw [Nat.add_zero] at hdiv
        omega
    · exact .inr (by rw [hds,head?_append,hhead,some_or])

end

end Tidy

theorem Volume.readFat_mark (hv : Volume m d) (hr : InRange m x) (h : table m d x = .last) :
    0x0FFFFFF8 ≤ readFat m x d ∧ readFat m x d<0x10000000:=by
  have heoc:=hv.readFat_last hr h
  have hlt : readFat m x d<0x10000000:=by
    rw [hv.readFat_eq hr.2]
    exact Nat.mod_lt _ (by decide)
  have hand : readFat m x d&&&0x0FFFFFFF=readFat m x d%2^28:=Nat.and_two_pow_sub_one_eq_mod _ 28
  rw [isEoc,hand,decide_eq_true_eq] at heoc
  omega

/-- The loop of `fat_unlink` frees a chain and ends at its end mark. -/
theorem Volume.freeChain_spec (hv : Volume m d) (hl : Linked (table m d) (x::xs)) (hn : (x::xs).Nodup)
    (hlen : (x::xs).length<n) :
    ∃v d',freeChain m n x d=some (some v,d') ∧ 0x0FFFFFF8≤v ∧ v<0x10000000 ∧ Kept m d d' ∧
    (∀y∈x::xs,table m d' y = .free) ∧ (∀y,y∉x::xs→table m d' y=table m d y) ∧
    ∀lba,m.dataStart≤lba→d'.data lba=d.data lba:=by
  induction xs generalizing x d n with
  | nil=>
    obtain ⟨n,rfl⟩:=Nat.exists_eq_add_of_lt hlen
    have hr : InRange m x:=inRange_of_ne_free (hl.ne_free mem_cons_self)
    obtain ⟨h1,-⟩:=isEoc_of_inRange hv.geometry hr
    obtain ⟨d1,he,hw⟩:=hv.writeFat_spec hr.2 0
    have heoc:=hv.readFat_last hr hl
    obtain ⟨hle,hlt⟩:=hv.readFat_mark hr hl
    refine ⟨readFat m x d,d1,?_,hle,hlt,hw.kept,fun y hy=>?_,fun y hy=>?_,hw.data⟩
    · rw [length_singleton,Nat.add_comm 1 n,freeChain,if_pos ⟨hr.1,h1⟩,he]
      dsimp only
      rw [freeChain,if_neg (by simp [heoc])]
    · rw [mem_singleton.mp hy,hw.table_self hr]
      rfl
    · exact hw.table_other y fun he=>hy (mem_singleton.mpr he)
  | cons y ys ih=>
    obtain ⟨n,rfl⟩ : ∃k,n=k+1:=⟨n-1,by omega⟩
    have hr : InRange m x:=inRange_of_ne_free (hl.ne_free mem_cons_self)
    obtain ⟨h1,-⟩:=isEoc_of_inRange hv.geometry hr
    obtain ⟨d1,he,hw⟩:=hv.writeFat_spec hr.2 0
    obtain ⟨hx,hn⟩:=nodup_cons.mp hn
    have hl1:=hl.2.congr fun z hz=>hw.table_other z (ne_of_mem_of_not_mem hz hx)
    obtain ⟨v,d',hloop,hle,hlt,hk,hfree,hother,hdata⟩:=ih (hw.kept.volume hv) hl1 hn (by simpa using hlen)
    refine ⟨v,d',?_,hle,hlt,hw.kept.trans hk,fun z hz=>?_,fun z hz=>?_,fun lba hlba=>?_⟩
    · rw [freeChain,if_pos ⟨hr.1,h1⟩,he]
      dsimp only
      rw [hv.readFat_next hr hl.1,hloop]
    · obtain rfl | hz:=mem_cons.mp hz
      · rw [hother z hx,hw.table_self hr]
        rfl
      · exact hfree z hz
    · rw [hother z fun hz'=>hz (mem_cons_of_mem _ hz'),hw.table_other z fun he=>hz (he▸mem_cons_self)]
    · rw [hdata lba hlba,hw.data lba hlba]

theorem freeEnd_eq {v : ℕ} (hle : 0x0FFFFFF8≤v) (hlt : v<0x10000000) (hd : d.sectors≤u32 (m.fatStart+0x1FFFFF)) :
    freeEnd m (some v,d)=(.error .ioError,d):=by
  have hoff : u32 (v*4)=v*4:=by
    unfold u32
    omega
  have hsector : v*4/512=0x1FFFFF:=by omega
  have heoc : isEoc v=true:=by
    have hand : v&&&0x0FFFFFFF=v%2^28:=Nat.and_two_pow_sub_one_eq_mod _ 28
    rw [isEoc,hand,decide_eq_true_eq]
    omega
  have hread : devRead d (u32 (m.fatStart+0x1FFFFF))=none:=if_neg (Nat.not_lt.mpr hd)
  have hwrite : writeFat m v 0 d=(false,d):=by
    simp only [writeFat,hoff,hsector,hread]
  rw [freeEnd,if_pos ⟨by omega,heoc⟩,hwrite]

theorem findVisit_eq_some {sector offset : ℕ} {r : (ℕ→UInt8)×ℕ×ℕ}
    (h : findVisit name sector offset e=some (some r)) :
    r=(e,sector,offset) ∧ e 0≠0 ∧ e 0≠0xE5 ∧ e 11≠attrLfn ∧ e 11&&&attrVolumeId=0 ∧ nameMatches e name=true:=by
  unfold findVisit at h
  split at h
  · cases h
  rename_i hzero
  split at h
  · cases h
  rename_i hskip
  split at h
  · rename_i hname
    obtain rfl:=some.inj (some.inj h)
    rw [not_or,not_or,not_not] at hskip
    exact ⟨rfl,hzero,hskip.1,hskip.2.1,hskip.2.2,hname⟩
  · cases h

theorem Volume.mem_of_dirFind (hv : Volume m d) {first : ℕ} (hl : Linked (table m d) (first::xs))
    (hn : (first::xs).Nodup) (h : dirFind m first name d=some (some (e,p.1,p.2))) :
    e=entryOf d p ∧ p∈dirSlots m (first::xs) ∧ e 0≠0 ∧ e 0≠0xE5 ∧ e 11≠attrLfn ∧ e 11&&&attrVolumeId=0 ∧
    nameMatches e name=true:=by
  rw [hv.dirFind_eq name hl hn,some_inj,join_eq_some_iff] at h
  obtain ⟨q,hq,hvisit⟩:=exists_of_findSome?_eq_some h
  obtain ⟨heq,hlive⟩:=findVisit_eq_some hvisit
  obtain ⟨rfl,rfl⟩ : e=entryOf d q ∧ p=q:=by simpa using heq
  exact ⟨rfl,hq,hlive⟩

namespace Tidy

theorem viewOf_of_data (h : Tidy m root d chain) (hq : DirPlace m (viewOf d) chain q)
    (hdata : ∀lba,m.dataStart≤lba→d''.data lba=d'.data lba) : viewOf d'' q=viewOf d' q:=by
  obtain ⟨o,-,-,hslot⟩:=hq
  obtain ⟨c,-,hqc⟩:=mem_dirSlots.mp hslot
  obtain ⟨b,-,hentry⟩:=entryOf_eq_cell h.volume.geometry hqc
  refine viewOf_congr fun i hi=>?_
  rw [hentry d'' i hi,hentry d' i hi,cell_of_data hdata]

theorem removeFile (h : Tidy m root d chain) (ho : Below (kids m (viewOf d) chain) o) (hp : p∈kids m (viewOf d) chain o)
    (hfile : ¬(viewOf d p).IsDir) (hv : Volume m d'')
    (hkept : ∀q,DirPlace m (viewOf d) chain q→q≠p→viewOf d'' q=viewOf d q)
    (hself : viewOf d'' p={viewOf d p with first:=0xE5})
    (hT : ∀y,y∉chain (some p)→table m d'' y=table m d y) (hfree : ∀y∈chain (some p),table m d'' y = .free) :
    Tidy m root d'' chain:=
  ⟨hv,h.tree.remove ho hp hfile hkept (by rw [hself]) (by rw [hself]) hT hfree⟩

/-- Unlinking a file keeps the volume in order, unless the end mark of the chain has a place on the
device. -/
theorem fatUnlink (h : Tidy m root d chain) (ho : Below (kids m (viewOf d) chain) o) (hdir : Owner.IsDir (viewOf d) o)
    {dfn : Fat32Node} (hhead : (chain o).head? = some dfn.firstCluster) (name : List UInt8)
    (hend : ∀e sector offset,dirFind m dfn.firstCluster name d=some (some (e,sector,offset)) →
    entryCluster e<2 ∨ d.sectors≤u32 (m.fatStart+0x1FFFFF)) :
    ∃r d',Fat32.fatUnlink m dfn name d=some (r,d') ∧ ∃chain',Tidy m root d' chain':=by
  have hl:=h.tree.chains.linked o ho
  have hn:=h.tree.chains.nodup o ho
  obtain ⟨cs,hcs⟩:=head?_eq_some_iff.mp hhead
  rw [hcs] at hl hn
  obtain ⟨found,hfound⟩:=h.volume.dirFind_spec name (.inr hhead) (h.tree.chains.linked o ho) (h.tree.chains.nodup o ho)
  cases found with
  | none=>exact ⟨.error .notFound,d,by simp [Fat32.fatUnlink,hfound],chain,h⟩
  | some r=>
    obtain ⟨e,p⟩:=r
    obtain ⟨rfl,hslot,hne,hdel,hattr,hvol,-⟩:=h.volume.mem_of_dirFind hl hn hfound
    have hend:=hend _ _ _ hfound
    by_cases hd : entryOf d p 11&&&attrDir≠0
    · exact ⟨.error .isDirectory,d,by simp only [Fat32.fatUnlink,hfound,if_pos hd],chain,h⟩
    have hfile:=hd
    have hdot : (viewOf d p).first≠46:=fun hdot=>
      hfile (h.tree.dots o ho hdir p (hcs▸hslot) hdot hattr hvol)
    have hp : p∈kids m (viewOf d) chain o:=
      (h.tree.mem_kids ho).mpr ⟨hdir,hcs▸hslot,hne,hdel,hdot,hattr,hvol⟩
    obtain ⟨c,hc,hpc⟩:=mem_dirSlots.mp hslot
    have hr : InRange m c:=inRange_of_ne_free (hl.ne_free hc)
    have hbuf (j : ℕ) (hj : j<p.2 ∨ p.2+32≤j) : update (d.data p.1) p.2 0xE5 j=d.data p.1 j:=
      update_of_ne (by omega) _ _
    obtain ⟨d1,hread,hwrite,hs,hdata⟩:=h.volume.slotWrite_spec (h.volume.geometry.direntPlace_of_mem hr hpc) hbuf
    have hentry (i : ℕ) : entryOf d1 p i=if i=0 then 0xE5 else entryOf d p i:=by
      rw [entryOf,entryAt,hdata,update_apply]
      simp [entryOf,entryAt]
    have hself : viewOf d1 p={viewOf d p with first:=0xE5}:=by
      have hcluster : entryCluster (entryOf d1 p)=entryCluster (entryOf d p):=by
        have hword {k off : ℕ} (hoff : off≠0) : getLE (entryOf d1 p) k off=getLE (entryOf d p) k off:=
          getLE_congr fun j hj _=>by rw [hentry,if_neg (by omega)]
        rw [entryCluster,entryCluster,hword (by omega),hword (by omega)]
      rw [viewOf,hcluster,hentry,hentry]
      rfl
    have hkept (q : ℕ×ℕ) (hq : DirPlace m (viewOf d) chain q) (hne : q≠p) : viewOf d1 q=viewOf d q:=by
      obtain ⟨o',-,-,hq⟩:=hq
      obtain ⟨c',-,hqc⟩:=mem_dirSlots.mp hq
      exact hs.viewOf_eq hpc hqc hne
    have hv1:=hs.kept.volume h.volume
    have hunlink : Fat32.fatUnlink m dfn name d =
        (freeChain m (m.totalClusters+1) (entryCluster (entryOf d p)) d1).map (freeEnd m):=by
      simp only [Fat32.fatUnlink,hfound,if_neg hd,hread,hwrite]
    rw [hunlink]
    obtain ⟨hlow,hnil⟩ | hfirst:=h.tree.rooted p (.entry ho hp)
    · have hlow : ¬2≤entryCluster (entryOf d p):=Nat.not_le.mpr hlow
      refine ⟨.ok (),d1,by simp [freeChain,freeEnd,hlow],chain,?_⟩
      exact h.removeFile ho hp hfile hv1 hkept hself (fun y _=>by rw [hs.table_eq]) (by simp [hnil])
    · obtain ⟨cs',hcs'⟩:=head?_eq_some_iff.mp hfirst
      have hchain:=h.tree.chains.linked _ (.entry ho hp)
      have hnodup:=h.tree.chains.nodup _ (.entry ho hp)
      rw [hcs',←hs.table_eq] at hchain
      rw [hcs'] at hnodup
      obtain ⟨v,d2,hloop,hle,hlt,hk,hfree,hother,hdata2⟩:=
        hv1.freeChain_spec hchain hnodup (Nat.lt_succ_of_le (chain_length_le hchain hnodup))
      have hr':=inRange_of_ne_free (hchain.ne_free mem_cons_self)
      have hsectors : d2.sectors≤u32 (m.fatStart+0x1FFFFF):=by
        rw [hk.sectors,hs.kept.sectors]
        exact hend.resolve_left (Nat.not_lt.mpr hr'.1)
      refine ⟨.error .ioError,d2,?_,chain,h.removeFile ho hp hfile (hk.volume hv1) (fun q hq hne=>?_) ?_ ?_ ?_⟩
      · have hloop : freeChain m (m.totalClusters+1) (entryCluster (entryOf d p)) d1=some (some v,d2):=hloop
        rw [hloop,map_some,freeEnd_eq hle hlt hsectors]
      · rw [h.viewOf_of_data hq hdata2,hkept q hq hne]
      · rw [h.viewOf_of_data ⟨o,ho,hdir,hcs▸hslot⟩ hdata2,hself]
      · intro y hy
        rw [hother y (hcs'▸hy),hs.table_eq]
      · exact fun y hy=>hfree y (hcs'▸hy)

end Tidy

theorem smallDisk_entries : ∀p∈dirSlots smallMount [2],(viewOf smallDisk p).first=0:=by decide +kernel

theorem smallDisk_tidy : Tidy smallMount 2 smallDisk (fun o=>if o=none then [2] else []):=by
  have hended : Ended (viewOf smallDisk) (dirSlots smallMount [2]):=
    pairwise_of_forall_mem_list fun _ _ q hq _=>smallDisk_entries q hq
  have hnone {o : Option (ℕ×ℕ)}
      (ho : Below (kids smallMount (viewOf smallDisk) fun o=>if o=none then [2] else []) o) : o=none:=by
    induction ho with
    | root=>rfl
    | @entry o p _ hp ih=>
      subst ih
      obtain ⟨-,hp,hne,-⟩:=(mem_kids_of_ended fun _=>hended).mp hp
      exact absurd (smallDisk_entries p hp) hne
  have hlast : table smallMount smallDisk 2 = .last:=by decide
  refine ⟨smallDisk_volume,?_⟩
  constructor
  case low => exact two_le_of_ne_free
  case root => rfl
  case rooted => exact fun p hp=>absurd (hnone hp) (by simp)
  case chains =>
    refine ⟨fun o ho=>?_,fun o ho=>?_,fun o o' ho ho' hne=>absurd ((hnone ho).trans (hnone ho').symm) hne⟩
    · rw [hnone ho]
      exact hlast
    · rw [hnone ho]
      exact nodup_singleton 2
  case dir =>
    intro o ho _
    rw [hnone ho]
    exact cons_ne_nil 2 []
  case ended =>
    intro o ho _
    rw [hnone ho]
    exact hended
  case dots =>
    intro o ho _ p hp hdot
    rw [hnone ho] at hp
    rw [smallDisk_entries p hp] at hdot
    exact absurd hdot (by decide)
  case used =>
    intro c hc
    obtain ⟨hlow,hhigh⟩:=inRange_of_ne_free hc
    refine ⟨none,.root,mem_singleton.mpr ?_⟩
    have hfree : ∀c<6,2<c→table smallMount smallDisk c = .free:=by decide
    by_contra hne
    exact hc (hfree c hhigh (by omega))

end Knail.Fat32
