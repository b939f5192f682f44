import Knail.FatDirectories

/-!
# Integrity of a FAT32 volume

The vnodes of a volume have chains of clusters with no cluster in common. Creating files
and directories and writing to them keeps that, on a disk that may fill up at any step,
and never writes outside of the tables and the data region.
-/
namespace Knail.Fat32

open Function Vfs List Option

variable {m : Mount} {d d' d'' : Disk} {c x n first i : ℕ} {xs xs' : List ℕ} {src name : List UInt8}
  {nodes : List VNode} {chain : ℕ→List ℕ}

theorem Volume.dirFind_spec (hv : Volume m d) (name : List UInt8) (hroot : Rooted first xs)
    (hl : Linked (table m d) xs) (hn : xs.Nodup) : ∃r,dirFind m first name d=some r:=by
  rcases hroot with ⟨hlt,rfl⟩ | hhead
  · exact ⟨none,by rw [dirFind,dirFindLoop,if_pos (.inr hlt)]⟩
  · obtain ⟨cs,rfl⟩:=head?_eq_some_iff.mp hhead
    exact ⟨_,hv.dirFind_eq name hl hn⟩

/-- A step that leaves the chains alone, except that one may have grown. -/
structure Grew (m : Mount) (d d' : Disk) (xs xs' : List ℕ) : Prop where
  kept : Kept m d d'
  grows : Grows (table m d) (table m d') xs xs'

theorem Wrote.grew {pos : ℕ} {bs : List UInt8} (h : Wrote m d d' xs xs' pos bs) : Grew m d d' xs xs':=
  ⟨h.kept,h.grows⟩

theorem Fresh.grew_nil (h : Fresh m d d' c) : Grew m d d' [] []:=by
  refine ⟨h.kept,trivial,nodup_nil,⟨[],rfl,by simp⟩,fun y _ hy=>h.other y ?_⟩
  rintro rfl
  exact hy h.free

theorem Grew.trans_nil (h : Grew m d d' [] []) (hk : Kept m d' d'') (ht : table m d''=table m d') :
    Grew m d d'' [] []:=
  ⟨h.kept.trans hk,ht▸h.grows⟩

theorem Volume.findFreeDirent_spec (hv : Volume m d) (hroot : Rooted first xs) (hl : Linked (table m d) xs)
    (hn : xs.Nodup) : ∃r d' xs',findFreeDirent m first d=some (r,d') ∧ Grew m d d' xs xs' ∧ Rooted first xs' ∧
    ∀p,r=some p→DirentPlace m p.1 p.2:=by
  have hself : Grew m d d xs xs:=⟨.refl hv.mirrored,.refl hl hn⟩
  rcases hroot with ⟨hlt,rfl⟩ | hhead
  · have hloop : freeDirentLoop m d (m.totalClusters+1) first=some (.inr first):=by rw [freeDirentLoop,if_pos hlt]
    rcases hv.fresh_spec with ⟨he,-⟩ | ⟨c,d1,d2,he,hc0,hz,hf⟩
    · exact ⟨none,d,[],by simp [findFreeDirent,hloop,he],hself,.inl ⟨hlt,rfl⟩,by simp⟩
    obtain ⟨d3,hw,hfw,-⟩:=hf.link hv (by omega : first < m.totalClusters+2)
    have htable : table m d3=table m d2:=by
      funext y
      by_cases hy : y=first
      · have hout : ¬InRange m y:=fun h=>by
          have:=h.1
          omega
        rw [table,table,if_neg hout,if_neg hout]
      · exact hfw.table_other y hy
    refine ⟨some (clusterToLba m c,0),d3,[],by simp [findFreeDirent,hloop,he,hc0,hz,hw],
      hf.grew_nil.trans_nil hfw.kept htable,.inl ⟨hlt,rfl⟩,?_⟩
    rintro p ⟨⟩
    have:=hv.geometry.direntPlace hf.inRange hv.geometry.perCluster_pos (by omega : 0+32≤512)
    rwa [Nat.add_zero,u32_clusterToLba] at this
  · obtain ⟨cs,rfl⟩:=head?_eq_some_iff.mp hhead
    rcases hv.findFreeDirent_eq hl hn with ⟨he,-⟩ | ⟨p,d',ys,he,hw,l,r,hslots,-⟩
    · exact ⟨none,d,_,he,hself,.of_cons first cs,by simp⟩
    refine ⟨some p,d',ys,he,hw.grew,hw.rooted,?_⟩
    rintro q ⟨⟩
    obtain ⟨c,hc,hpc⟩:=mem_dirSlots.mp (show p∈dirSlots m ys by simp [hslots])
    exact hv.geometry.direntPlace_of_mem (inRange_of_ne_free (hw.grows.linked.ne_free hc)) hpc

theorem Volume.makeDir_spec (hv : Volume m d) (parent : ℕ) :
    ∃r d',makeDir m parent d=(r,d') ∧ Grew m d d' [] r.toList ∧ ∀c,r=some c→InRange m c:=by
  rcases hv.fresh_spec with ⟨he,-⟩ | ⟨c,d1,d2,he,hc0,hz,hf⟩
  · refine ⟨none,d,by simp [makeDir,he],⟨.refl hv.mirrored,.refl trivial nodup_nil⟩,by simp⟩
  obtain ⟨d3,hw,hcw,-⟩:=(hf.kept.volume hv).sectorWrite_spec hf.inRange hv.geometry.perCluster_pos
    (dotEntries c parent)
  rw [Nat.add_zero,u32_clusterToLba] at hw
  have hg:=(hf.wrote_single hv 0).grew
  refine ⟨some c,d3,by simp [makeDir,he,hc0,hz,hw],⟨hg.kept.trans hcw.kept,?_⟩,?_⟩
  · rw [hcw.table_eq]
    exact hg.grows
  · rintro _ ⟨⟩
    exact hf.inRange

theorem Volume.direntWrite_spec (hv : Volume m d) {sector offset : ℕ} (hp : DirentPlace m sector offset)
    (buf : ℕ→UInt8) : ∃d',devRead d sector=some (d.data sector) ∧ devWrite d sector buf=some d' ∧ Kept m d d' ∧
    table m d'=table m d:=by
  obtain ⟨d',he,hk,ht,-⟩:=hv.devWrite_spec hp.1 hp.2.1 buf
  exact ⟨d',devRead_of_lt (Nat.lt_of_lt_of_le hp.2.1 hv.geometry.end_le),he,hk,ht⟩

structure Chains (m : Mount) (d : Disk) (chain : ℕ→List ℕ) : Prop where
  volume : Volume m d
  inRange : ∀i,∀c∈chain i,InRange m c
  linked : ∀i,Linked (table m d) (chain i)
  nodup : ∀i,(chain i).Nodup
  disjoint : ∀i j,i≠j→∀c∈chain i,c∉chain j

theorem Chains.apart (h : Chains m d chain) : Apart (table m d) (fun _=>True) chain:=
  ⟨fun i _=>h.linked i,fun i _=>h.nodup i,fun i j _ _=>h.disjoint i j⟩

theorem Chains.update (h : Chains m d chain) (hg : Grew m d d' (chain i) xs') : Chains m d' (update chain i xs'):=by
  have hapart:=h.apart.grow trivial hg.grows
  exact ⟨hg.kept.volume h.volume,fun j c hc=>inRange_of_ne_free ((hapart.linked j trivial).ne_free hc),
    fun j=>hapart.linked j trivial,fun j=>hapart.nodup j trivial,fun j k=>hapart.disjoint j k trivial trivial⟩

/-- The vnodes of a volume with their chains and the places of their directory entries. -/
structure Intact (m : Mount) (d : Disk) (nodes : List VNode) (chain : ℕ→List ℕ) : Prop where
  chains : Chains m d chain
  outside : ∀i,nodes.length ≤ i→chain i=[]
  rooted : ∀{i v},nodes[i]? = some v→∃fn,v.priv=some fn ∧ Rooted fn.firstCluster (chain i)
  place : ∀v∈nodes,∀fn,v.priv=some fn→fn.hasDirent=true →
    DirentPlace m fn.direntSector fn.direntOffset

theorem Intact.frame (h : Intact m d nodes chain) (hg : Grew m d d' [] xs') : Intact m d' nodes chain:=by
  refine ⟨?_,h.outside,h.rooted,h.place⟩
  have hnil:=h.outside nodes.length (Nat.le_refl _)
  have hempty : Grew m d d' [] []:=
    ⟨hg.kept,trivial,nodup_nil,⟨[],rfl,by simp⟩,fun y _=>hg.grows.other y (by simp)⟩
  have:=h.chains.update (hnil▸hempty)
  rwa [update_eq_self] at this

theorem Intact.grow (h : Intact m d nodes chain) {v v' : VNode} {fn fn' : Fat32Node} (hv : nodes[i]? = some v)
    (hfn : v.priv=some fn) (hfn' : v'.priv=some fn') (hg : Grew m d d' (chain i) xs')
    (hroot : Rooted fn'.firstCluster xs')
    (hplace : fn'.hasDirent=true→fn.hasDirent=true ∧ fn'.direntSector=fn.direntSector ∧
    fn'.direntOffset=fn.direntOffset) : Intact m d' (nodes.set i v') (update chain i xs'):=by
  obtain ⟨hi,-⟩:=List.getElem?_eq_some_iff.mp hv
  refine ⟨h.chains.update hg,?_,?_,?_⟩
  · intro j hj
    rw [length_set] at hj
    rw [update_of_ne (by omega)]
    exact h.outside j hj
  · intro j w hw
    by_cases hj : j=i
    · subst hj
      rw [getElem?_set_self hi] at hw
      obtain rfl:=some.inj hw
      exact ⟨fn',hfn',by rwa [update_self]⟩
    · rw [getElem?_set_ne (Ne.symm hj)] at hw
      rw [update_of_ne hj]
      exact h.rooted hw
  · intro w hw gn hgn hd
    rcases mem_or_eq_of_mem_set hw with hw | rfl
    · exact h.place w hw gn hgn hd
    obtain rfl:=some.inj (hfn'.symm.trans hgn)
    obtain ⟨h1,h2,h3⟩:=hplace hd
    rw [h2,h3]
    exact h.place v (mem_of_getElem? hv) fn hfn h1

theorem Intact.add (h : Intact m d nodes chain) {v : VNode} {fn : Fat32Node} (hfn : v.priv=some fn)
    (hg : Grew m d d' [] xs') (hroot : Rooted fn.firstCluster xs')
    (hplace : fn.hasDirent=true→DirentPlace m fn.direntSector fn.direntOffset) :
    Intact m d' (nodes++[v]) (update chain nodes.length xs'):=by
  have hnil:=h.outside nodes.length (Nat.le_refl _)
  refine ⟨h.chains.update (hnil▸hg),?_,?_,?_⟩
  · intro j hj
    rw [List.length_append,List.length_singleton] at hj
    rw [update_of_ne (by omega)]
    exact h.outside j (by omega)
  · intro j w hw
    by_cases hj : j=nodes.length
    · subst hj
      obtain rfl : v=w:=by simpa using hw
      exact ⟨fn,hfn,by rwa [update_self]⟩
    · have hlt : j<nodes.length:=by
        have:=(List.getElem?_eq_some_iff.mp hw).1
        rw [List.length_append,List.length_singleton] at this
        omega
      rw [getElem?_append_left hlt] at hw
      rw [update_of_ne hj]
      exact h.rooted hw
  · intro w hw gn hgn hd
    rcases mem_append.mp hw with hw | hw
    · exact h.place w hw gn hgn hd
    obtain rfl:=mem_singleton.mp hw
    obtain rfl:=some.inj (hfn.symm.trans hgn)
    exact hplace hd

theorem cluster_putCluster (e : ℕ→UInt8) (off : ℕ) (hc : c<4294967296) :
    getLE (putCluster e off c) 2 (off+20)*65536|||getLE (putCluster e off c) 2 (off+26)=c:=by
  have h1 : getLE (putCluster e off c) 2 (off+26)=c%65536:=getLE_putLE ..
  have h2 : getLE (putCluster e off c) 2 (off+20)=c/65536%65536:=by
    rw [putCluster,getLE_putLE_of_disjoint (by omega)]
    exact getLE_putLE ..
  have hlt : c%65536<2^16:=Nat.mod_lt _ (by decide)
  rw [h1,h2,Nat.mul_comm,←Nat.two_pow_add_eq_or_of_lt hlt]
  omega

theorem Volume.updateDirent_spec (hv : Volume m d) {fn : Fat32Node}
    (hp : fn.hasDirent=true→DirentPlace m fn.direntSector fn.direntOffset) (size : ℕ) :
    Kept m d (updateDirent fn size d) ∧ table m (updateDirent fn size d)=table m d:=by
  unfold updateDirent
  split
  · rename_i hd
    obtain ⟨d',hread,hwrite,hk,ht⟩:=hv.direntWrite_spec (hp hd) (putCluster
      (putLE (d.data fn.direntSector) 4 (fn.direntOffset+28) size) fn.direntOffset fn.firstCluster)
    simp only [hread,hwrite,getD_some]
    exact ⟨hk,ht⟩
  · exact ⟨.refl hv.mirrored,rfl⟩

theorem Volume.fatWrite_spec (hv : Volume m d) {fn : Fat32Node} (hroot : Rooted fn.firstCluster xs)
    (hl : Linked (table m d) xs) (hn : xs.Nodup)
    (hp : fn.hasDirent=true→DirentPlace m fn.direntSector fn.direntOffset) (size offset : ℕ) (src : List UInt8) :
    ∃r size' first' d' xs',fatWrite m size fn offset src d=(r,size',{fn with firstCluster:=first'},d') ∧
      Grew m d d' xs xs' ∧ Rooted first' xs':=by
  by_cases hsrc : src=[]
  · refine ⟨.error .ioError,size,fn.firstCluster,d,xs,?_,⟨.refl hv.mirrored,.refl hl hn⟩,hroot⟩
    simp [fatWrite,chainWrite,hsrc]
  obtain ⟨r,first',d',xs',k,he,hroot',-,-,hw,-⟩:=hv.chainWrite_spec hroot hl hn hsrc offset
  simp only [fatWrite,he]
  split
  · exact ⟨_,_,first',d',xs',rfl,hw.grew,hroot'⟩
  obtain ⟨hk,ht⟩:=@Volume.updateDirent_spec _ _ (hw.kept.volume hv) {fn with firstCluster:=first'} hp
    (if size<u64 (offset+r.toNat) then u64 (offset+r.toNat) else size)
  refine ⟨_,_,first',_,xs',rfl,⟨hw.kept.trans hk,?_⟩,hroot'⟩
  rw [ht]
  exact hw.grows

/-- `fat_create` lets the chain of the directory grow, and a new vnode gets a chain of its
own. -/
theorem Volume.fatCreate_spec (hv : Volume m d) {dfn : Fat32Node} (hroot : Rooted dfn.firstCluster xs)
    (hl : Linked (table m d) xs) (hn : xs.Nodup) (name : List UInt8) (type : VType) (alloc : Bool×Bool) :
    ∃r d1 d' xs' ys,fatCreate m dfn name type alloc d=some (r,d') ∧ Grew m d d1 xs xs' ∧
    Rooted dfn.firstCluster xs' ∧ Grew m d1 d' [] ys ∧
    ∀v,r=some v→∃fn,v.priv=some fn ∧ Rooted fn.firstCluster ys ∧
    DirentPlace m fn.direntSector fn.direntOffset:=by
  have hself : Grew m d d xs xs:=⟨.refl hv.mirrored,.refl hl hn⟩
  have hnone {d : Disk} (hv : Volume m d) : Grew m d d [] []:=⟨.refl hv.mirrored,.refl trivial nodup_nil⟩
  obtain ⟨found,hfind⟩:=hv.dirFind_spec name hroot hl hn
  cases found with
  | some f=>exact ⟨none,d,d,xs,[],by simp [fatCreate,hfind],hself,hroot,hnone hv,by simp⟩
  | none=>
    obtain ⟨place,d1,xs',hfree,hg1,hroot',hplace⟩:=hv.findFreeDirent_spec hroot hl hn
    have hv1:=hg1.kept.volume hv
    cases place with
    | none=>
      exact ⟨none,d1,d1,xs',[],by simp [fatCreate,hfind,hfree],hg1,hroot',hnone hv1,by simp⟩
    | some p=>
      obtain ⟨sector,offset⟩:=p
      have hp:=hplace _ rfl
      -- the first cluster of the new vnode
      obtain ⟨new,d2,hnew,hg2,hrange⟩ : ∃new d2,(if type = .dir then makeDir m dfn.firstCluster d1
          else (some 0,d1))=(new,d2) ∧ Grew m d1 d2 [] (new.toList.filter (· ≠ 0)) ∧
          ∀c,new=some c→c=0 ∨ InRange m c:=by
        split
        · obtain ⟨new,d2,he,hg,hr⟩:=hv1.makeDir_spec dfn.firstCluster
          refine ⟨new,d2,he,?_,fun c hc=>.inr (hr c hc)⟩
          cases new with
          | none=>exact hg
          | some c=>
            have hc0 : c≠0:=by
              have:=(hr c rfl).1
              omega
            simpa [hc0] using hg
        · refine ⟨some 0,d1,rfl,by exact hnone hv1,?_⟩
          rintro c ⟨⟩
          exact .inl rfl
      cases new with
      | none=>
        refine ⟨none,d1,d2,xs',[],?_,hg1,hroot',by exact hg2,by simp⟩
        simp only [fatCreate,hfind,hfree,hnew]
      | some c=>
        obtain ⟨d3,hread,hwrite,hk,ht⟩:=(hg2.kept.volume hv1).direntWrite_spec hp (putBytes (d2.data sector)
          offset ((List.range 32).map (createEntry name type c)))
        have hg3 : Grew m d1 d3 [] ([c].filter (· ≠ 0)):=⟨hg2.kept.trans hk,ht▸hg2.grows⟩
        refine ⟨makeVnode (createEntry name type c) sector offset alloc,d1,d3,xs',[c].filter (· ≠ 0),?_,hg1,
          hroot',hg3,?_⟩
        · simp only [fatCreate,hfind,hfree,hnew,writeDirentAt,hread,hwrite]
        intro v hv'
        have hlt : c<4294967296:=by
          have:=hv.geometry.clusters_le
          rcases hrange c rfl with rfl | hr
          · decide
          · have:=hr.2
            omega
        unfold makeVnode at hv'
        split at hv'
        · simp at hv'
        split at hv'
        · simp at hv'
        obtain rfl:=some.inj hv'
        refine ⟨_,rfl,?_,hp⟩
        have hcluster:=cluster_putCluster (newEntry (encode83 name).1 (encode83 name).2
          (if type = .dir then attrDir else attrArchive)) 0 hlt
        simp only [createEntry,hcluster]
        by_cases hc0 : c=0
        · subst hc0
          exact .inl ⟨by decide,by simp⟩
        · exact .inr (by simp [hc0])

/-- The calls on the vnodes of a volume, given by their numbers. -/
inductive Op
  | create (dir : ℕ) (name : List UInt8) (type : VType) (alloc : Bool×Bool)
  | write (node offset : ℕ) (src : List UInt8)

structure State where
  disk : Disk
  nodes : List VNode

def step (m : Mount) (s : State) : Op→Option State
  | .create i name type alloc=>
    match s.nodes[i]?.bind VNode.priv with
    | none=>some s
    | some dfn=>(fatCreate m dfn name type alloc s.disk).map fun (v,d)=>⟨d,s.nodes++v.toList⟩
  | .write i offset src=>
    match s.nodes[i]? with
    | none=>some s
    | some v=>
      match v.priv with
      | none=>some s
      | some fn=>
        let (_,size,fn,d):=fatWrite m v.size fn offset src s.disk
        some ⟨d,s.nodes.set i {v with size:=size,priv:=some fn}⟩

/-- A sequence of calls; `none` if one of them does not end. -/
def run (m : Mount) (ops : List Op) (s : State) : Option State:=ops.foldlM (step m) s

theorem Intact.step {s : State} (h : Intact m s.disk s.nodes chain) (op : Op) :
    ∃s' chain',step m s op=some s' ∧ Intact m s'.disk s'.nodes chain' ∧ Kept m s.disk s'.disk:=by
  have hv:=h.chains.volume
  have hskip : Kept m s.disk s.disk:=.refl hv.mirrored
  cases op with
  | create i name type alloc=>
    cases hi : s.nodes[i]? with
    | none=>exact ⟨s,chain,by simp [Fat32.step,hi],h,hskip⟩
    | some v=>
      obtain ⟨dfn,hfn,hroot⟩:=h.rooted hi
      obtain ⟨r,d1,d',xs',ys,he,hg1,hroot',hg2,hnew⟩:=
        hv.fatCreate_spec hroot (h.chains.linked i) (h.chains.nodup i) name type alloc
      -- the directory's own vnode stays as it is
      have h1:=h.grow hi hfn hfn hg1 hroot' fun hd=>⟨hd,rfl,rfl⟩
      have hset : s.nodes.set i v=s.nodes:=by
        obtain ⟨hlt,rfl⟩:=List.getElem?_eq_some_iff.mp hi
        exact List.set_getElem_self hlt
      rw [hset] at h1
      have hkept:=hg1.kept.trans hg2.kept
      cases r with
      | none=>exact ⟨⟨d',s.nodes⟩,_,by simp [Fat32.step,hi,hfn,he],h1.frame hg2,hkept⟩
      | some w=>
        obtain ⟨fn,hw,hrw,hp⟩:=hnew w rfl
        exact ⟨⟨d',s.nodes++[w]⟩,_,by simp [Fat32.step,hi,hfn,he],h1.add hw hg2 hrw fun _=>hp,hkept⟩
  | write i offset src=>
    cases hi : s.nodes[i]? with
    | none=>exact ⟨s,chain,by simp [Fat32.step,hi],h,hskip⟩
    | some v=>
      obtain ⟨fn,hfn,hroot⟩:=h.rooted hi
      have hp:=h.place v (mem_of_getElem? hi) fn hfn
      obtain ⟨r,size',first',d',xs',he,hg,hroot'⟩:=
        hv.fatWrite_spec hroot (h.chains.linked i) (h.chains.nodup i) hp v.size offset src
      refine ⟨⟨d',s.nodes.set i { v with size:=size',priv:=some {fn with firstCluster:=first'} }⟩,_,?_,
        h.grow hi hfn rfl hg hroot' fun hd=>⟨hd,rfl,rfl⟩,hg.kept⟩
      simp only [Fat32.step,hi,hfn,he]

/-- After any sequence of calls the chains are in range, acyclic, terminated and disjoint,
the copies of the table are equal, the upper bits of its entries are the old ones, and
nothing outside of the tables and the data region was written. -/
theorem volume_integrity {s₀ : State} (h : Intact m s₀.disk s₀.nodes chain) (ops : List Op) :
    ∃s chain',run m ops s₀=some s ∧ Intact m s.disk s.nodes chain' ∧ Kept m s₀.disk s.disk:=by
  induction ops generalizing s₀ chain with
  | nil=>exact ⟨s₀,chain,rfl,h,.refl h.chains.volume.mirrored⟩
  | cons op ops ih=>
    obtain ⟨s₁,chain₁,he₁,h₁,hk₁⟩:=h.step op
    obtain ⟨s,chain',he,h',hk⟩:=ih h₁
    refine ⟨s,chain',?_,h',hk₁.trans hk⟩
    rw [run,foldlM_cons,he₁]
    exact he

/-- A volume of four clusters with an empty root directory. -/
def smallMount : Mount:=⟨1,3,1,4,1,2⟩

def smallDisk : Disk where
  sectors:=7
  data:=fun lba=>if lba=1 ∨ lba=2 then putLE (fun _=>0) 4 8 0x0FFFFFFF else fun _=>0
  written:=[]

/-- A vnode with nothing but its place on the volume. -/
def plainVnode (type : VType) (fn : Fat32Node) : VNode:=⟨[],type,0,none,0,0,some fn⟩

def smallRoot : VNode:=plainVnode .dir ⟨2,true,0,0,false⟩

theorem smallDisk_volume : Volume smallMount smallDisk:=by
  refine ⟨⟨by decide,by decide,by decide,by decide,by decide,by decide,by decide,by decide⟩,?_⟩
  intro f hf s hs j _
  have hf' : f=0 ∨ f=1:=by
    simp only [smallMount] at hf
    omega
  obtain rfl : s=0:=by
    simp only [smallMount] at hs
    omega
  rcases hf' with rfl | rfl <;> rfl

theorem smallDisk_intact : Intact smallMount smallDisk [smallRoot] (fun i=>if i=0 then [2] else []):=by
  have hcases (i : ℕ) : (if i=0 then [2] else [] : List ℕ)=[2] ∨ (if i=0 then [2] else [] : List ℕ)=[]:=by
    split <;> simp
  refine ⟨⟨smallDisk_volume,?_,?_,?_,?_⟩,?_,?_,?_⟩
  · intro i c hc
    rcases hcases i with he | he <;> rw [he] at hc
    · obtain rfl:=mem_singleton.mp hc
      decide
    · simp at hc
  · intro i
    rcases hcases i with he | he <;> rw [he]
    · exact (by decide : table smallMount smallDisk 2 = .last)
    · trivial
  · intro i
    rcases hcases i with he | he <;> rw [he] <;> decide
  · intro i j hij c hc
    by_cases hi : i=0
    · rw [if_neg (by omega)]
      simp
    · rw [if_neg hi] at hc
      simp at hc
  · intro i hi
    rw [if_neg (by exact Nat.ne_of_gt hi)]
  · intro i v hv
    obtain ⟨hi,rfl⟩:=List.getElem?_eq_some_iff.mp hv
    obtain rfl : i=0:=by simpa using hi
    exact ⟨_,rfl,.inr rfl⟩
  · rintro v hv fn hfn hd
    obtain rfl:=mem_singleton.mp hv
    obtain rfl:=some.inj hfn
    simp at hd

/-- A file is created in the small volume and written to. -/
theorem volume_integrity_small : ∃s chain',run smallMount
    [.create 0 [65] .file (true,true),.write 1 0 [1,2,3]] ⟨smallDisk,[smallRoot]⟩=some s ∧
    Intact smallMount s.disk s.nodes chain' ∧ Kept smallMount smallDisk s.disk:=
  @volume_integrity _ _ ⟨smallDisk,[smallRoot]⟩ smallDisk_intact _

end Knail.Fat32
