import Knail.FatTables

/-!
# Files as chains of clusters

The bytes of a file are the bytes of the clusters of its chain, in order. `chain_write`
extends the chain by clusters that were free and are filled with zeros, and puts the given
bytes at their place; `chain_read` reads the bytes of the chain.
-/
namespace Knail.Fat32

open Function List

variable {m : Mount} {d d' d'' : Disk} {c v x y pos q n : ℕ} {xs xs' xs'' ys : List ℕ} {bs bs' src : List UInt8} {buf : ℕ→UInt8}
  {sectors s i intra first : ℕ} {as : List ℕ}

def cell (m : Mount) (d : Disk) (c b : ℕ) : UInt8:=
  d.data (m.dataStart+((c-2)*m.sectorsPerCluster+b/512)) (b%512)

def byteAt (m : Mount) (d : Disk) (xs : List ℕ) (q : ℕ) : UInt8:=
  cell m d (xs.getD (q/clusterBytes m) 0) (q%clusterBytes m)

theorem Geometry.clusterBytes_eq (hg : Geometry m sectors) : clusterBytes m=m.sectorsPerCluster*512:=by
  have:=hg.perCluster_lt
  unfold clusterBytes u32
  omega

theorem Geometry.clusterBytes_pos (hg : Geometry m sectors) : 0<clusterBytes m:=by
  have:=hg.perCluster_pos
  rw [hg.clusterBytes_eq]
  omega

theorem cell_sector_inj {c' s' : ℕ} (hc : 2 ≤ c) (hc' : 2 ≤ c') (hs : s < m.sectorsPerCluster)
    (hs' : s' < m.sectorsPerCluster)
    (h : m.dataStart+((c-2)*m.sectorsPerCluster+s)=m.dataStart+((c'-2)*m.sectorsPerCluster+s')) : c=c' ∧ s=s':=by
  have:=mul_add_inj hs hs' (by omega : (c-2)*m.sectorsPerCluster+s=(c'-2)*m.sectorsPerCluster+s')
  omega

theorem linkOf_eq_free_iff : linkOf v = .free↔v=0:=by
  unfold linkOf
  split
  · simp_all
  · split <;> simp_all

theorem Volume.readFat_eq_zero_iff (hv : Volume m d) (hc : InRange m c) : readFat m c d=0↔table m d c = .free:=by
  rw [hv.readFat_eq hc.2,table_of_inRange hc,linkOf_eq_free_iff]

theorem isEoc_of_inRange (hg : Geometry m d.sectors) (hc : InRange m c) : isEoc c=false ∧ ¬c<2:=by
  have:=hg.clusters_le
  obtain ⟨h2,hlt⟩:=hc
  have hand : c&&&0x0FFFFFFF=c%2^28:=Nat.and_two_pow_sub_one_eq_mod _ 28
  rw [isEoc,hand]
  simp only [decide_eq_false_iff_not]
  omega

theorem Volume.readFat_last (hv : Volume m d) (hc : InRange m c) (h : table m d c = .last) :
    isEoc (readFat m c d)=true:=by
  rw [hv.readFat_eq hc.2]
  rw [table_of_inRange hc] at h
  have hlt : entry m d 0 c%0x10000000<2^28:=Nat.mod_lt _ (by decide)
  generalize entry m d 0 c%0x10000000=e at h hlt
  have hand : e&&&0x0FFFFFFF=e%2^28:=Nat.and_two_pow_sub_one_eq_mod _ 28
  unfold linkOf at h
  split at h
  · simp at h
  split at h
  · rw [isEoc,hand,Nat.mod_eq_of_lt hlt]
    simpa
  · simp at h

theorem Volume.readFat_next (hv : Volume m d) (hc : InRange m c) (h : table m d c = .next y) : readFat m c d=y:=by
  rw [hv.readFat_eq hc.2]
  rw [table_of_inRange hc] at h
  unfold linkOf at h
  split at h
  · simp at h
  split at h
  · simp at h
  · simpa using h

theorem Volume.allocFrom_spec (hv : Volume m d) (n : ℕ) (hc : 2 ≤ c) (hn : c+n ≤ m.totalClusters+2) :
    allocFrom m n c d=(0,d) ∧ (∀x,c≤x→x<c+n→table m d x≠.free) ∨
    ∃x d',allocFrom m n c d=(x,d') ∧ InRange m x ∧ table m d x = .free ∧ FatWritten m d d' x 0x0FFFFFFF:=by
  induction n generalizing c with
  | zero=>exact .inl ⟨rfl,fun x _ _=>by omega⟩
  | succ n ih=>
    have hr : InRange m c:=⟨hc,by omega⟩
    by_cases hfree : readFat m c d=0
    · obtain ⟨d',he,hw⟩:=hv.writeFat_spec hr.2 0x0FFFFFFF
      refine .inr ⟨c,d',?_,hr,(hv.readFat_eq_zero_iff hr).mp hfree,hw⟩
      rw [allocFrom,if_pos hfree,he]
    rw [allocFrom,if_neg hfree]
    rcases ih (by omega : 2 ≤ c+1) (by omega) with ⟨he,hall⟩ | h
    · refine .inl ⟨he,fun x h1 h2=>?_⟩
      rcases Nat.eq_or_lt_of_le h1 with rfl | h1
      · exact fun h=>hfree ((hv.readFat_eq_zero_iff hr).mpr h)
      · exact hall x h1 (by omega)
    · exact .inr h

theorem Volume.allocCluster_spec (hv : Volume m d) : allocCluster m d=(0,d) ∧ (∀x,InRange m x→table m d x≠.free) ∨
    ∃x d',allocCluster m d=(x,d') ∧ InRange m x ∧ table m d x = .free ∧ FatWritten m d d' x 0x0FFFFFFF:=by
  have:=hv.geometry.clusters_le
  have hn : u32 (m.totalClusters+2)-2=m.totalClusters:=by
    unfold u32
    omega
  rw [allocCluster,hn]
  refine (hv.allocFrom_spec m.totalClusters (Nat.le_refl 2) (by omega)).imp_left fun ⟨he,hall⟩=>⟨he,fun x hx=>?_⟩
  exact hall x hx.1 (by have:=hx.2; omega)

/-- What writes to the sectors of one cluster do to a volume. -/
structure CellWritten (m : Mount) (d d' : Disk) (c : ℕ) : Prop where
  kept : Kept m d d'
  table_eq : table m d'=table m d
  data : ∀lba,(∀s < m.sectorsPerCluster,lba≠m.dataStart+((c-2)*m.sectorsPerCluster+s)) →
    d'.data lba=d.data lba

theorem CellWritten.trans (h : CellWritten m d d' c) (h' : CellWritten m d' d'' c) : CellWritten m d d'' c:=
  ⟨h.kept.trans h'.kept,h'.table_eq.trans h.table_eq,fun lba hl=>(h'.data lba hl).trans (h.data lba hl)⟩

theorem CellWritten.cell_eq (h : CellWritten m d d' c) (hg : Geometry m d.sectors) (hc : InRange m c)
    (hy : InRange m y) (hne : y≠c) {b : ℕ} (hb : b<clusterBytes m) : cell m d' y b=cell m d y b:=by
  rw [hg.clusterBytes_eq] at hb
  rw [cell,h.data _ fun s hs e=>hne (cell_sector_inj hy.1 hc.1 (by omega) hs e).1,cell]

theorem Volume.sectorWrite_spec (hv : Volume m d) (hc : InRange m c) (hs : s < m.sectorsPerCluster) (buf : ℕ→UInt8) :
    ∃d',devWrite d (u32 (clusterToLba m c+s)) buf=some d' ∧ CellWritten m d d' c ∧
    d'.data=update d.data (m.dataStart+((c-2)*m.sectorsPerCluster+s)) buf:=by
  obtain ⟨hlba,hlt⟩:=hv.geometry.lba_eq hc hs
  obtain ⟨d',he,hk,ht,hd⟩:=hv.devWrite_spec (by omega) hlt buf
  rw [hlba]
  refine ⟨d',he,⟨hk,ht,fun lba hl=>?_⟩,hd⟩
  rw [hd,update_of_ne (hl s hs)]

theorem Volume.zeroSectors_spec (hv : Volume m d) (hc : InRange m c) (n s : ℕ) (hn : s+n ≤ m.sectorsPerCluster) :
    ∃d',zeroSectors (clusterToLba m c) n s d=(true,d') ∧ CellWritten m d d' c ∧
    (∀s',s ≤ s'→s'<s+n→d'.data (m.dataStart+((c-2)*m.sectorsPerCluster+s'))=fun _=>0) ∧
    ∀s'<s,d'.data (m.dataStart+((c-2)*m.sectorsPerCluster+s')) =
    d.data (m.dataStart+((c-2)*m.sectorsPerCluster+s')):=by
  induction n generalizing s d with
  | zero=>
    exact ⟨d,rfl,⟨.refl hv.mirrored,rfl,fun _ _=>rfl⟩,fun s' _ _=>by omega,fun _ _=>rfl⟩
  | succ n ih=>
    obtain ⟨d1,he1,hw1,hd1⟩:=hv.sectorWrite_spec hc (by omega : s < m.sectorsPerCluster) fun _=>0
    obtain ⟨d',he,hw,hin,hlow⟩:=ih (hw1.kept.volume hv) (s+1) (by omega)
    refine ⟨d',by rw [zeroSectors,he1]; exact he,hw1.trans hw,fun s' h1 h2=>?_,fun s' hs'=>?_⟩
    · rcases Nat.eq_or_lt_of_le h1 with rfl | h1
      · rw [hlow s (by omega),hd1,update_self]
      · exact hin s' h1 (by omega)
    · rw [hlow s' (by omega),hd1,update_of_ne (by omega)]

theorem Volume.zeroCluster_spec (hv : Volume m d) (hc : InRange m c) :
    ∃d',zeroCluster m c d=(true,d') ∧ CellWritten m d d' c ∧ ∀b<clusterBytes m,cell m d' c b=0:=by
  obtain ⟨d',he,hw,hin,-⟩:=hv.zeroSectors_spec hc m.sectorsPerCluster 0 (by omega)
  refine ⟨d',he,hw,fun b hb=>?_⟩
  rw [hv.geometry.clusterBytes_eq] at hb
  rw [cell,hin (b/512) (Nat.zero_le _) (by omega)]

structure Fresh (m : Mount) (d d' : Disk) (c : ℕ) : Prop where
  kept : Kept m d d'
  inRange : InRange m c
  free : table m d c = .free
  last : table m d' c = .last
  other : ∀y,y≠c→table m d' y=table m d y
  zero : ∀b<clusterBytes m,cell m d' c b=0
  cells : ∀y,InRange m y→y≠c→∀b<clusterBytes m,cell m d' y b=cell m d y b

def Full (m : Mount) (d : Disk) : Prop:=∀x,InRange m x→table m d x≠.free

theorem cell_of_data (h : ∀lba,m.dataStart≤lba→d'.data lba=d.data lba) : cell m d'=cell m d:=by
  funext y b
  rw [cell,h _ (Nat.le_add_right ..),cell]

theorem Volume.fresh_spec (hv : Volume m d) : allocCluster m d=(0,d) ∧ Full m d ∨
    ∃c d1 d2,allocCluster m d=(c,d1) ∧ c≠0 ∧ zeroCluster m c d1=(true,d2) ∧ Fresh m d d2 c:=by
  refine hv.allocCluster_spec.imp_right ?_
  rintro ⟨c,d1,he,hc,hfree,hw⟩
  obtain ⟨d2,he2,hz,hzero⟩:=(hw.kept.volume hv).zeroCluster_spec hc
  refine ⟨c,d1,d2,he,by have:=hc.1; omega,he2,hw.kept.trans hz.kept,hc,hfree,?_,?_,hzero,?_⟩
  · rw [hz.table_eq,hw.table_self hc]
    rfl
  · intro y hy
    rw [hz.table_eq,hw.table_other y hy]
  · intro y hy hne b hb
    rw [hz.cell_eq (hw.kept.volume hv).geometry hc hy hne hb,cell_of_data hw.data]

theorem Fresh.link (h : Fresh m d d' c) (hv : Volume m d) (hx : x < m.totalClusters+2) :
    ∃d'',writeFat m x c d'=(true,d'') ∧ FatWritten m d' d'' x c ∧ cell m d''=cell m d':=by
  obtain ⟨d'',he,hw⟩:=(h.kept.volume hv).writeFat_spec hx c
  exact ⟨d'',he,hw,cell_of_data hw.data⟩

theorem linkOf_inRange (hg : Geometry m sectors) (hc : InRange m c) : linkOf (c%0x10000000) = .next c:=by
  have:=hg.clusters_le
  obtain ⟨h2,hlt⟩:=hc
  have hmod : c%0x10000000=c:=by omega
  have h0 : c≠0:=by omega
  have hle : ¬0x0FFFFFF8 ≤ c:=by omega
  rw [hmod,linkOf,if_neg h0,if_neg hle]

/-- The bytes `bs` were written to a chain at `pos`; the chain may have become longer. -/
structure Wrote (m : Mount) (d d' : Disk) (xs xs' : List ℕ) (pos : ℕ) (bs : List UInt8) : Prop where
  kept : Kept m d d'
  grows : Grows (table m d) (table m d') xs xs'
  spare : ∀y,y∉xs'→table m d y = .free→table m d' y = .free
  fits : bs≠[]→pos+bs.length≤xs'.length*clusterBytes m
  bytes : ∀q<xs'.length*clusterBytes m,byteAt m d' xs' q =
    if pos≤q ∧ q<pos+bs.length then bs.getD (q-pos) 0
    else if q<xs.length*clusterBytes m then byteAt m d xs q else 0
  cells : ∀y,InRange m y→y∉xs'→∀b<clusterBytes m,cell m d' y b=cell m d y b

theorem Wrote.refl (hv : Volume m d) (hl : Linked (table m d) xs) (hn : xs.Nodup) (pos : ℕ) :
    Wrote m d d xs xs pos []:=by
  refine ⟨.refl hv.mirrored,.refl hl hn,fun _ _ h=>h,fun h=>absurd rfl h,fun q hq=>?_,fun _ _ _ _ _=>rfl⟩
  rw [if_neg (by simp only [length_nil]; omega),if_pos hq]

theorem Wrote.trans (h : Wrote m d d' xs xs' pos bs) (h' : Wrote m d' d'' xs' xs'' (pos+bs.length) bs') :
    Wrote m d d'' xs xs'' pos (bs++bs'):=by
  obtain ⟨ds,hds,-⟩:=h'.grows.extend
  have hle : xs'.length*clusterBytes m≤xs''.length*clusterBytes m:=by
    rw [hds]
    exact Nat.mul_le_mul_right _ (by simp)
  obtain ⟨es,hes,-⟩:=h.grows.extend
  have hle' : xs.length*clusterBytes m≤xs'.length*clusterBytes m:=by
    rw [hes]
    exact Nat.mul_le_mul_right _ (by simp)
  have hsub {y : ℕ} (hy : y∉xs'') : y∉xs':=fun hm=>hy (hds▸mem_append_left _ hm)
  refine ⟨h.kept.trans h'.kept,h.grows.trans h'.grows,?_,?_,?_,?_⟩
  · exact fun y hy hfree=>h'.spare y hy (h.spare y (hsub hy) hfree)
  · intro hne
    by_cases hbs' : bs'=[]
    · subst hbs'
      have:=h.fits (by simpa using hne)
      simp only [append_nil]
      omega
    · have:=h'.fits hbs'
      rw [length_append]
      omega
  · intro q hq
    rw [h'.bytes q hq,length_append]
    by_cases h1 : pos+bs.length≤q ∧ q<pos+bs.length+bs'.length
    · rw [if_pos h1,if_pos (by omega),getD_append_right _ _ _ _ (by omega)]
      congr 1
      omega
    rw [if_neg h1]
    by_cases h2 : pos≤q ∧ q<pos+bs.length
    · have hbs : bs≠[]:=by
        rintro rfl
        simp only [length_nil] at h2
        omega
      have:=h.fits hbs
      rw [if_pos (by omega),h.bytes q (by omega),if_pos h2,if_pos (by omega),getD_append _ _ _ _ (by omega)]
    · rw [if_neg (by omega : ¬(pos≤q ∧ q<pos+(bs.length+bs'.length)))]
      by_cases h3 : q<xs'.length*clusterBytes m
      · rw [if_pos h3,h.bytes q h3,if_neg h2]
      · rw [if_neg h3,if_neg (by omega)]
  · intro y hr hy b hb
    rw [h'.cells y hr hy b hb,h.cells y hr (hsub hy) b hb]

theorem Wrote.of_cells (hk : Kept m d d') (hg : Grows (table m d) (table m d') xs xs')
    (hspare : ∀y,y∉xs'→table m d y = .free→table m d' y = .free) (hpos : 0<clusterBytes m)
    (hold : ∀y∈xs,∀b<clusterBytes m,cell m d' y b=cell m d y b)
    (hnew : ∀y∈xs',y∉xs→∀b<clusterBytes m,cell m d' y b=0)
    (hcells : ∀y,InRange m y→y∉xs'→∀b<clusterBytes m,cell m d' y b=cell m d y b) (pos : ℕ) :
    Wrote m d d' xs xs' pos []:=by
  refine ⟨hk,hg,hspare,fun h=>absurd rfl h,fun q hq=>?_,hcells⟩
  rw [if_neg (by simp only [length_nil]; omega)]
  obtain ⟨ds,rfl,-⟩:=hg.extend
  have hr : q%clusterBytes m<clusterBytes m:=Nat.mod_lt _ hpos
  by_cases hlt : q<xs.length*clusterBytes m
  · have hi:=(Nat.div_lt_iff_lt_mul hpos).mpr hlt
    rw [if_pos hlt,byteAt,byteAt,getD_append _ _ _ _ hi,getD_eq_getElem _ _ hi]
    exact hold _ (getElem_mem hi) _ hr
  have hi:=(Nat.div_lt_iff_lt_mul hpos).mpr hq
  have hge : xs.length≤q/clusterBytes m:=(Nat.le_div_iff_mul_le hpos).mpr (by omega)
  have hmem : (xs++ds).getD (q/clusterBytes m) 0∈ds:=by
    rw [getD_append_right _ _ _ _ hge,getD_eq_getElem _ _ (by rw [length_append] at hi; omega)]
    exact getElem_mem _
  rw [if_neg hlt,byteAt]
  exact hnew _ (mem_append_right _ hmem)
    (fun hx=>(nodup_append.mp hg.nodup).2.2 _ hx _ hmem rfl) _ hr

theorem Fresh.wrote_single (h : Fresh m d d' c) (hv : Volume m d) (pos : ℕ) : Wrote m d d' [] [c] pos []:=by
  refine Wrote.of_cells h.kept (.single h.free h.last h.other) (fun y hy hfree=>?_) hv.geometry.clusterBytes_pos
    (by simp) (fun y hy _=>?_) (fun y hr hy=>?_) pos
  · rw [h.other y fun e=>hy (mem_singleton.mpr e),hfree]
  · rw [mem_singleton.mp hy]
    exact h.zero
  · exact h.cells y hr fun e=>hy (mem_singleton.mpr e)

theorem Fresh.wrote_snoc (h : Fresh m d d' c) (hv : Volume m d) (hl : Linked (table m d) (xs++[x]))
    (hn : (xs++[x]).Nodup) (hw : FatWritten m d' d'' x c) (hcell : cell m d''=cell m d') (pos : ℕ) :
    Wrote m d d'' (xs++[x]) (xs++[x,c]) pos []:=by
  have hxr : InRange m x:=inRange_of_ne_free (hl.ne_free (by simp))
  have hxc : x≠c:=by
    rintro rfl
    exact hl.ne_free (by simp) h.free
  have hother (y : ℕ) (hyx : y≠x) (hyc : y≠c) : table m d'' y=table m d y:=by
    rw [hw.table_other y hyx,h.other y hyc]
  have hgrow : Grows (table m d) (table m d'') (xs++[x]) (xs++[x,c]):=by
    refine .snoc hl hn h.free ?_ ?_ hother
    · rw [hw.table_self hxr,linkOf_inRange hv.geometry h.inRange]
    · rw [hw.table_other c (Ne.symm hxc),h.last]
  refine Wrote.of_cells (h.kept.trans hw.kept) hgrow ?_ hv.geometry.clusterBytes_pos ?_ ?_ ?_ pos
  · intro y hy hfree
    rw [hother y (by rintro rfl; simp at hy) (by rintro rfl; simp at hy),hfree]
  · intro y hy b hb
    rw [hcell]
    refine h.cells y (inRange_of_ne_free (hl.ne_free hy)) ?_ b hb
    rintro rfl
    exact hl.ne_free hy h.free
  · intro y hy hyx b hb
    obtain rfl : y=c:=by
      simp only [mem_append,mem_cons,not_mem_nil,or_false] at hy hyx
      tauto
    rw [hcell]
    exact h.zero b hb
  · intro y hr hy b hb
    rw [hcell]
    exact h.cells y hr (by rintro rfl; simp at hy) b hb

theorem Volume.advance_spec (hv : Volume m d) {bs : List ℕ} (hl : Linked (table m d) (as++x::bs))
    (hn : (as++x::bs).Nodup) (pos : ℕ) : (advance m x d=(.error .noSpace,d) ∧ bs=[] ∧ Full m d) ∨
    ∃y bs' d',advance m x d=(.ok y,d') ∧ Wrote m d d' (as++x::bs) (as++x::y::bs') pos []:=by
  have hxr : InRange m x:=inRange_of_ne_free (hl.ne_free (by simp))
  cases bs with
  | nil=>
    have heoc:=hv.readFat_last hxr hl.last_eq
    rcases hv.fresh_spec with ⟨he,hfull⟩ | ⟨c,d1,d2,he,hc0,hz,hf⟩
    · refine .inl ⟨?_,rfl,hfull⟩
      simp [advance,heoc,he]
    obtain ⟨d',hw,hfw,hcell⟩:=hf.link hv hxr.2
    refine .inr ⟨c,[],d',?_,hf.wrote_snoc hv hl hn hfw hcell pos⟩
    simp [advance,heoc,he,hc0,hz,hw]
  | cons y bs=>
    have hyr : InRange m y:=inRange_of_ne_free (hl.ne_free (by simp))
    obtain ⟨h1,h2⟩:=isEoc_of_inRange hv.geometry hyr
    refine .inr ⟨y,bs,d,?_,.refl hv hl hn pos⟩
    simp [advance,hv.readFat_next hxr hl.next_eq,h1,h2]

theorem Volume.skipWrite_spec (hv : Volume m d) (as : List ℕ) {bs : List ℕ} (hl : Linked (table m d) (as++x::bs))
    (hn : (as++x::bs).Nodup) (n pos : ℕ) : ∃d' xs',Wrote m d d' (as++x::bs) xs' pos [] ∧
    ((skipWrite m n x d=(.error .noSpace,d') ∧ Full m d' ∧ xs'.length≤as.length+n) ∨
    ∃as' y bs',skipWrite m n x d=(.ok y,d') ∧ xs'=as'++y::bs' ∧ as'.length=as.length+n):=by
  induction n generalizing as x bs d with
  | zero=>exact ⟨d,_,.refl hv hl hn pos,.inr ⟨as,x,bs,rfl,rfl,rfl⟩⟩
  | succ n ih=>
    rcases hv.advance_spec hl hn pos with ⟨he,rfl,hfull⟩ | ⟨y,bs',d1,he,hw⟩
    · refine ⟨d,_,.refl hv hl hn pos,.inl ⟨by rw [skipWrite,he],hfull,?_⟩⟩
      rw [length_append,length_singleton]
      omega
    have hsplit : as++x::y::bs'=(as++[x])++y::bs':=by simp
    rw [hsplit] at hw
    obtain ⟨d',xs',hw',hr⟩:=ih (hw.kept.volume hv) _ hw.grows.linked hw.grows.nodup
    have hskip : skipWrite m (n+1) x d=skipWrite m n y d1:=by rw [skipWrite,he]
    rw [hskip]
    refine ⟨d',xs',hw.trans hw',hr.imp ?_ ?_⟩
    · rintro ⟨he',hfull,hlen⟩
      rw [length_append,length_singleton] at hlen
      exact ⟨he',hfull,by omega⟩
    rintro ⟨as',z,bs'',he',hxs,hlen⟩
    rw [length_append,length_singleton] at hlen
    exact ⟨as',z,bs'',he',hxs,by omega⟩

theorem window_iff {a r k w : ℕ} (hr : r<k) (hw : intra+w≤k) :
    (a*k+intra ≤ i*k+r ∧ i*k+r<a*k+intra+w)↔i=a ∧ intra ≤ r ∧ r < intra+w:=by
  constructor
  · rintro ⟨h1,h2⟩
    rcases Nat.lt_trichotomy i a with hia | rfl | hia
    · have:=mul_add_lt hia hr
      omega
    · exact ⟨rfl,by omega,by omega⟩
    have : (a+1)*k ≤ i*k:=Nat.mul_le_mul_right k hia
    rw [Nat.succ_mul] at this
    omega
  · rintro ⟨rfl,h1,h2⟩
    omega

theorem getD_append_cons {bs : List ℕ} : (as++x::bs).getD as.length 0=x:=by
  rw [getD_append_right _ _ _ _ (Nat.le_refl _),Nat.sub_self]
  rfl

theorem getD_ne {bs : List ℕ} (hn : (as++x::bs).Nodup) (hi : i<(as++x::bs).length)
    (hne : i≠as.length) : (as++x::bs).getD i 0≠x:=by
  intro h
  rw [getD_eq_getElem _ _ hi] at h
  refine hne (hn.getElem_inj_iff.mp (show (as++x::bs)[i]=(as++x::bs)[as.length] from ?_))
  rw [h]
  simp

/-- One turn of the loop: bytes are written to a sector of the chain. -/
theorem Volume.sector_wrote (hv : Volume m d) {bs : List ℕ} (hl : Linked (table m d) (as++x::bs))
    (hn : (as++x::bs).Nodup) (hi : intra<clusterBytes m) (ws : List UInt8) (hws : ws.length≤512-intra%512) :
    ∃d',devRead d (u32 (clusterToLba m x+intra/512)) =
    some (d.data (m.dataStart+((x-2)*m.sectorsPerCluster+intra/512))) ∧
    devWrite d (u32 (clusterToLba m x+intra/512)) (putBytes
    (d.data (m.dataStart+((x-2)*m.sectorsPerCluster+intra/512))) (intra%512) ws)=some d' ∧
    Wrote m d d' (as++x::bs) (as++x::bs) (as.length*clusterBytes m+intra) ws:=by
  have hg:=hv.geometry
  have hcb:=hg.clusterBytes_eq
  have hxr : InRange m x:=inRange_of_ne_free (hl.ne_free (by simp))
  have hs : intra/512 < m.sectorsPerCluster:=by omega
  have hw : intra+ws.length ≤ clusterBytes m:=by omega
  obtain ⟨hlba,hlt⟩:=hg.lba_eq hxr hs
  obtain ⟨d',he,hcw,hd⟩:=hv.sectorWrite_spec hxr hs (putBytes
    (d.data (m.dataStart+((x-2)*m.sectorsPerCluster+intra/512))) (intra%512) ws)
  refine ⟨d',?_,he,hcw.kept,by rw [hcw.table_eq]; exact .refl hl hn,fun y _ h=>by rw [hcw.table_eq,h],fun _=>?_,?_,
    fun y hr hy b hb=>hcw.cell_eq hg hxr hr (by rintro rfl; simp at hy) hb⟩
  · rw [hlba]
    exact devRead_of_lt (Nat.lt_of_lt_of_le hlt hg.end_le)
  · have : (as.length+1)*clusterBytes m≤(as++x::bs).length*clusterBytes m:=
      Nat.mul_le_mul_right _ (by simp)
    rw [Nat.succ_mul] at this
    omega
  · intro q hq
    have hr : q%clusterBytes m<clusterBytes m:=Nat.mod_lt _ hg.clusterBytes_pos
    have hidx:=(Nat.div_lt_iff_lt_mul hg.clusterBytes_pos).mpr hq
    have hdm : q/clusterBytes m*clusterBytes m+q%clusterBytes m=q:=Nat.div_add_mod' q _
    have hwin:=window_iff (a:=as.length) (i:=q/clusterBytes m) hr hw
    rw [hdm] at hwin
    simp only [hwin,if_pos hq,byteAt]
    have hsub : q/clusterBytes m=as.length →
        q-(as.length*clusterBytes m+intra)=q%clusterBytes m-intra:=by
      intro hia
      rw [hia] at hdm
      omega
    generalize q/clusterBytes m=i, q%clusterBytes m=r at *
    by_cases hia : i=as.length
    · rw [hsub hia,hia,getD_append_cons,cell,cell,hd]
      by_cases hsec : r/512=intra/512
      · rw [hsec,update_self]
        by_cases hin : intra ≤ r ∧ r < intra+ws.length
        · rw [if_pos ⟨rfl,hin⟩,putBytes_of_mem (by omega) (by omega)]
          congr 1
          omega
        rw [if_neg fun h=>hin h.2]
        by_cases hlow : r%512 < intra%512
        · exact putBytes_of_lt hlow
        · exact putBytes_of_le (by omega)
      · rw [update_of_ne (by omega),if_neg]
        omega
    · rw [if_neg fun h=>hia h.1]
      have hmem : (as++x::bs).getD i 0∈as++x::bs:=by
        rw [getD_eq_getElem _ _ hidx]
        exact getElem_mem _
      exact hcw.cell_eq hg hxr (inRange_of_ne_free (hl.ne_free hmem)) (getD_ne hn hidx hia) hr

theorem writeTurns_nil (turn : ℕ→ℕ→List UInt8→Disk→Turn) (n x intra w : ℕ) (d : Disk) :
    writeTurns turn n x intra w [] d=((w : ℤ),d):=by
  cases n <;> simp [writeTurns]

theorem writeSector_of_lt {lba byteIn : ℕ} {bytes : List UInt8} (hread : devRead d lba=some buf)
    (hwrite : devWrite d lba (putBytes buf byteIn bytes)=some d') : writeSector lba byteIn bytes d=some d':=by
  rw [writeSector,hread]
  exact hwrite

theorem writeTurn_eq (h : writeSector (u32 (clusterToLba m x+intra/512)) (intra%512)
    (src.take (chunk intra src.length)) d=some d') : writeTurn m x intra src d =
    if clusterBytes m ≤ intra+chunk intra src.length ∧ src.drop (chunk intra src.length)≠[] then
    endTurn (chunk intra src.length) (advance m x d')
    else .more x (intra+chunk intra src.length) (chunk intra src.length) d':=by
  rw [writeTurn,h]

/-- The loop of `chain_write` writes everything, or stops at the end of a full volume. -/
theorem Volume.writeTurns_spec (hv : Volume m d) {bs : List ℕ} (hl : Linked (table m d) (as++x::bs))
    (hn : (as++x::bs).Nodup) (hi : intra<clusterBytes m) (hlen : src.length≤n) (hsrc : src≠[]) (w : ℕ) :
    ∃d' xs' k,writeTurns (writeTurn m) n x intra w src d=(((w+k : ℕ) : ℤ),d') ∧ 0<k ∧ k ≤ src.length ∧
    Wrote m d d' (as++x::bs) xs' (as.length*clusterBytes m+intra) (src.take k) ∧
    (k<src.length→Full m d' ∧ xs'.length*clusterBytes m≤as.length*clusterBytes m+intra+k):=by
  induction n generalizing as x bs d intra w src with
  | zero=>exact absurd (eq_nil_of_length_eq_zero (by omega)) hsrc
  | succ n ih=>
    have hcb:=hv.geometry.clusterBytes_eq
    have hpos : 0<src.length:=length_pos_of_ne_nil hsrc
    have hturn {d1 : Disk}:=@writeTurn_eq m d d1 x src intra
    have havail : chunk intra src.length=min (512-intra%512) src.length:=rfl
    generalize chunk intra src.length=avail at hturn havail
    have ha0 : 0<avail:=by omega
    have htake : (src.take avail).length=avail:=by
      rw [length_take]
      omega
    obtain ⟨d1,hread,hwrite,hw1⟩:=hv.sector_wrote hl hn hi (src.take avail) (by omega)
    have hv1:=hw1.kept.volume hv
    replace hturn:=hturn (writeSector_of_lt hread hwrite)
    rw [writeTurns,if_neg hsrc]
    by_cases hrest : src.drop avail=[]
    · have hk : avail=src.length:=by
        have:=drop_eq_nil_iff.mp hrest
        omega
      rw [if_neg fun h=>h.2 hrest] at hturn
      simp only [hturn,hrest,writeTurns_nil]
      refine ⟨d1,_,avail,rfl,ha0,by omega,hw1,fun h=>?_⟩
      omega
    have hdrop : (src.drop avail).length=src.length-avail:=length_drop
    have hjoin (k : ℕ) : src.take avail++(src.drop avail).take k=src.take (avail+k):=by
      rw [take_add]
    by_cases hend : clusterBytes m ≤ intra+avail
    · rw [if_pos ⟨hend,hrest⟩] at hturn
      rcases hv1.advance_spec hw1.grows.linked hw1.grows.nodup
          (as.length*clusterBytes m+intra+(src.take avail).length) with
        ⟨he,rfl,hspace⟩ | ⟨y,bs',d2,he,hw2⟩
      · rw [he] at hturn
        simp only [hturn,endTurn]
        refine ⟨d1,_,avail,rfl,ha0,by omega,hw1,fun _=>⟨hspace,?_⟩⟩
        rw [length_append,length_singleton,Nat.succ_mul]
        omega
      · rw [he] at hturn
        simp only [hturn,endTurn]
        have hsplit : as++x::y::bs'=(as++[x])++y::bs':=by simp
        rw [hsplit] at hw2
        obtain ⟨d',xs',k,hr,hk0,hk,hw3,hstop⟩:=ih (hw2.kept.volume hv1) hw2.grows.linked hw2.grows.nodup
          hv.geometry.clusterBytes_pos (by omega) hrest (w+avail)
        have hplace : (as++[x]).length*clusterBytes m+0=as.length*clusterBytes m+intra+avail:=by
          rw [length_append,length_singleton,Nat.succ_mul]
          omega
        rw [hplace] at hw3 hstop
        have hw:=(hw1.trans hw2).trans (by simpa only [append_nil,htake] using hw3)
        rw [append_nil,hjoin] at hw
        refine ⟨d',xs',avail+k,?_,by omega,by omega,hw,fun h=>?_⟩
        · simp only [hr,Nat.add_assoc]
        · obtain ⟨h1,h2⟩:=hstop (by omega)
          exact ⟨h1,by omega⟩
    · rw [if_neg fun h=>hend h.1] at hturn
      simp only [hturn]
      obtain ⟨d',xs',k,hr,hk0,hk,hw2,hstop⟩:=ih hv1 hw1.grows.linked hw1.grows.nodup
        (by omega : intra+avail<clusterBytes m) (by omega) hrest (w+avail)
      rw [←Nat.add_assoc] at hw2 hstop
      have hw:=hw1.trans (by simpa only [htake] using hw2)
      rw [hjoin] at hw
      refine ⟨d',xs',avail+k,?_,by omega,by omega,hw,fun h=>?_⟩
      · simp only [hr,Nat.add_assoc]
      · obtain ⟨h1,h2⟩:=hstop (by omega)
        exact ⟨h1,by omega⟩

/-- The chain of a vnode: none without a first cluster, else it starts there. -/
def Rooted (first : ℕ) (xs : List ℕ) : Prop:=first<2 ∧ xs=[] ∨ xs.head? = some first

theorem Rooted.of_cons (first : ℕ) (xs : List ℕ) : Rooted first (first::xs):=.inr rfl

theorem Volume.startCluster_spec (hv : Volume m d) (hroot : Rooted first xs)
    (hl : Linked (table m d) xs) (hn : xs.Nodup) (pos : ℕ) : (startCluster m first d=(0,d) ∧ xs=[] ∧ Full m d) ∨
    ∃c cs d',startCluster m first d=(c,d') ∧ c≠0 ∧ Wrote m d d' xs (c::cs) pos []:=by
  rcases hroot with ⟨hlt,rfl⟩ | hhead
  · rcases hv.fresh_spec with ⟨he,hfull⟩ | ⟨c,d1,d2,he,hc0,hz,hf⟩
    · exact .inl ⟨by simp [startCluster,hlt,he],rfl,hfull⟩
    · exact .inr ⟨c,[],d2,by simp [startCluster,hlt,he,hc0,hz],hc0,hf.wrote_single hv pos⟩
  obtain ⟨cs,rfl⟩:=head?_eq_some_iff.mp hhead
  have hr : InRange m first:=inRange_of_ne_free (hl.ne_free mem_cons_self)
  have hge : ¬first<2:=by
    have:=hr.1
    omega
  exact .inr ⟨first,cs,d,by simp [startCluster,hge],by omega,.refl hv hl hn pos⟩

theorem Wrote.rooted (h : Wrote m d d' (first::xs) xs' pos bs) : Rooted first xs':=by
  obtain ⟨ds,rfl,-⟩:=h.grows.extend
  exact .of_cons first _

/-- `chain_write` writes a part of the bytes at their place, all of them unless the volume
is full. The return value counts them or is an error; nothing was written then. -/
theorem Volume.chainWrite_spec (hv : Volume m d) (hroot : Rooted first xs)
    (hl : Linked (table m d) xs) (hn : xs.Nodup) (hsrc : src≠[]) (offset : ℕ) :
    ∃r first' d' xs' k,chainWrite m first offset src d=(r,first',d') ∧ Rooted first' xs' ∧
    k ≤ src.length ∧ (r=k ∧ 0<k ∨ r<0 ∧ k=0) ∧ Wrote m d d' xs xs' offset (src.take k) ∧
    (k<src.length→Full m d' ∧ xs'.length*clusterBytes m≤offset+k):=by
  have hpos:=hv.geometry.clusterBytes_pos
  rcases hv.startCluster_spec hroot hl hn offset with ⟨he,rfl,hfull⟩ | ⟨c,cs,d1,he,hc0,hw1⟩
  · refine ⟨eNoSpace,first,d,[],0,?_,hroot,Nat.zero_le _,.inr ⟨by decide,rfl⟩,.refl hv hl hn offset,
      fun _=>⟨hfull,by simp⟩⟩
    simp [chainWrite,hsrc,he]
  obtain ⟨d2,xs2,hw2,hskip⟩:=
    (hw1.kept.volume hv).skipWrite_spec [] hw1.grows.linked hw1.grows.nodup (offset/clusterBytes m) offset
  have hw12:=hw1.trans hw2
  have hv2:=hw12.kept.volume hv
  have hmul : offset/clusterBytes m*clusterBytes m+offset%clusterBytes m=offset:=Nat.div_add_mod' ..
  rcases hskip with ⟨hs,hfull,hlen⟩ | ⟨as,y,bs,hs,rfl,hlen⟩
  · refine ⟨eNoSpace,c,d2,xs2,0,?_,hw2.rooted,Nat.zero_le _,.inr ⟨by decide,rfl⟩,hw12,fun _=>⟨hfull,?_⟩⟩
    · simp [chainWrite,hsrc,he,hc0,hs]
    have:=Nat.mul_le_mul_right (clusterBytes m) hlen
    rw [length_nil,Nat.zero_add] at this
    omega
  · obtain ⟨d3,xs3,k,hr,hk0,hk,hw3,hstop⟩:=hv2.writeTurns_spec hw12.grows.linked hw12.grows.nodup
      (Nat.mod_lt offset hpos) (Nat.le_refl src.length) hsrc 0
    rw [length_nil,Nat.zero_add] at hlen
    rw [hlen,hmul] at hw3 hstop
    have hw:=hw12.trans hw3
    refine ⟨k,c,d3,xs3,k,?_,?_,hk,.inl ⟨rfl,hk0⟩,hw,hstop⟩
    · simp [chainWrite,hsrc,he,hc0,hs,writeLoop,hr]
    obtain ⟨ds,hds,-⟩:=(hw2.grows.trans hw3.grows).extend
    rw [hds]
    exact .of_cons c _

end Knail.Fat32
