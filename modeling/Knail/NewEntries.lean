import Knail.ShortNames
import Knail.TidyVolumes

/-!
# New entries

`fat_create` writes an entry to the first free place of a directory, for a new directory after a
cluster with the two entries that lead to itself and to its parent.
-/
namespace Knail.Fat32

open Vfs List Function

variable {m : Mount} {root c : ℕ} {d d' d'' : Disk} {xs ys : List ℕ} {p q : ℕ×ℕ} {name : List UInt8}
  {chain : Option (ℕ×ℕ)→List ℕ} {o : Option (ℕ×ℕ)}

theorem toUpper_eq {a : UInt8} : toUpper a=a ∨ 65≤(toUpper a).toNat ∧ (toUpper a).toNat≤90:=by
  unfold toUpper
  split
  · rename_i h
    have h1 : 97≤a.toNat:=h.1
    have h2 : a.toNat≤122:=h.2
    have hle : (32 : UInt8)≤a:=UInt8.le_iff_toNat_le.mpr (Nat.le_trans (by decide) h1)
    have hsub : (a-32).toNat=a.toNat-32:=UInt8.toNat_sub_of_le _ _ hle
    omega
  · exact .inl rfl

theorem getD_encode83 (name : List UInt8) :
    (encode83 name).1.getD 0 0=32 ∨ ∃a,name.head? = some a ∧ a≠46 ∧ (encode83 name).1.getD 0 0=toUpper a:=by
  cases name with
  | nil=>exact .inl rfl
  | cons a rest=>
    by_cases ha : a=46
    · subst ha
      exact .inl rfl
    · exact .inr ⟨a,rfl,ha,by simp [encode83,ha,List.rightpad]⟩

/-- The entry that `fat_create` writes, for a name that does not look like a deleted one. -/
theorem createEntry_spec (hstr : 0∉name) (hdel : name.head?≠some 0xE5) (type : VType) {first : ℕ}
    (hfirst : first<4294967296) :
    createEntry name type first 0≠0 ∧ createEntry name type first 0≠0xE5 ∧ createEntry name type first 0≠46 ∧
    createEntry name type first 11=(if type = .dir then attrDir else attrArchive) ∧
    entryCluster (createEntry name type first)=first:=by
  have hlen:=length_encode83 name
  have h0 : createEntry name type first 0=(encode83 name).1.getD 0 0:=by
    rw [createEntry,putCluster_of_lt (by omega),newEntry_name _ _ _ (by omega)]
  have h1 : createEntry name type first 11=(if type = .dir then attrDir else attrArchive):=by
    rw [createEntry,putCluster_of_lt (by omega)]
    simpa only [hlen] using newEntry_attr (encode83 name).1 (encode83 name).2 (if type = .dir then attrDir else attrArchive)
  have h2 : entryCluster (createEntry name type first)=first:=by
    rw [entryCluster,createEntry]
    exact cluster_putCluster (newEntry (encode83 name).1 (encode83 name).2
      (if type = .dir then attrDir else attrArchive)) 0 hfirst
  rw [h0]
  obtain hspace | ⟨a,ha,hdot,hup⟩:=getD_encode83 name
  · rw [hspace]
    exact ⟨by decide,by decide,by decide,h1,h2⟩
  have hzero : a≠0:=by
    rintro rfl
    exact hstr (mem_of_head? ha)
  have hE5 : a≠0xE5:=by
    rintro rfl
    exact hdel ha
  rw [hup]
  obtain hsame | ⟨hlow,hhigh⟩:=@toUpper_eq a
  · rw [hsame]
    exact ⟨hzero,hE5,hdot,h1,h2⟩
  refine ⟨?_,?_,?_,h1,h2⟩ <;>
  · intro he
    rw [he] at hlow hhigh
    revert hlow hhigh
    decide

theorem dotEntries_first (c parent : ℕ) : dotEntries c parent 0=46 ∧ dotEntries c parent 11=attrDir ∧
    dotEntries c parent 32=46 ∧ dotEntries c parent 43=attrDir:=by
  unfold dotEntries
  refine ⟨?_,?_,?_,?_⟩ <;> rw [putCluster_of_lt (by omega),putCluster_of_lt (by omega)] <;> rfl

theorem dotEntries_rest (c parent : ℕ) {b : ℕ} (hb : 64≤b) : dotEntries c parent b=0:=by
  rw [dotEntries,putCluster_of_lt (by omega),putCluster_of_lt (by omega),putBytes_of_le hb,newEntry,
    putBytes_of_le (by simp [List.rightpad]; omega)]

/-- A cluster was taken for a directory that is empty. -/
structure NewDir (m : Mount) (d d' : Disk) (c : ℕ) : Prop where
  kept : Kept m d d'
  inRange : InRange m c
  free : table m d c = .free
  last : table m d' c = .last
  other : ∀y,y≠c→table m d' y=table m d y
  cells : ∀y,InRange m y→y≠c→∀b<clusterBytes m,cell m d' y b=cell m d y b
  ended : Ended (viewOf d') (clusterSlots m c)
  entries : ∀q∈clusterSlots m c,(viewOf d' q).first=0 ∨ (viewOf d' q).first=46 ∧ (viewOf d' q).IsDir

theorem Volume.makeDir_eq (hv : Volume m d) (parent : ℕ) :
    makeDir m parent d=(none,d) ∨ ∃c d',makeDir m parent d=(some c,d') ∧ NewDir m d d' c:=by
  rcases hv.fresh_spec with ⟨he,-⟩ | ⟨c,d1,d2,he,hc0,hz,hf⟩
  · exact .inl (by simp [makeDir,he])
  have hv2:=hf.kept.volume hv
  obtain ⟨d3,hw,hcw,hdata⟩:=hv2.sectorWrite_spec hf.inRange hv.geometry.perCluster_pos (dotEntries c parent)
  rw [Nat.add_zero,u32_clusterToLba] at hw
  -- the bytes of the first sector, and of the others
  have hfirst (e i : ℕ) :
      entryOf d3 (m.dataStart+((c-2)*m.sectorsPerCluster+0),e*32) i=dotEntries c parent (e*32+i):=by
    rw [entryOf,entryAt,hdata,update_self]
  have hrest {s e : ℕ} (hs : s < m.sectorsPerCluster) (hs0 : s≠0) (he : e<16) :
      entryOf d3 (m.dataStart+((c-2)*m.sectorsPerCluster+s),e*32) 0=0:=by
    have hzero:=hf.zero (s*512+e*32) (by rw [hv.geometry.clusterBytes_eq]; omega)
    have hdiv : (s*512+e*32)/512=s:=by omega
    have hmod : (s*512+e*32)%512=e*32:=by omega
    rw [cell,hdiv,hmod] at hzero
    rw [entryOf,entryAt,hdata,update_of_ne (by omega)]
    exact hzero
  have hview {s e : ℕ} (hs : s < m.sectorsPerCluster) (he : e<16) (hse : s≠0 ∨ 2≤e) :
      (viewOf d3 (m.dataStart+((c-2)*m.sectorsPerCluster+s),e*32)).first=0:=by
    by_cases hs0 : s=0
    · subst hs0
      exact (hfirst e 0).trans (dotEntries_rest c parent (by omega))
    · exact hrest hs hs0 he
  have hdots {e : ℕ} (he : e<2) :
      (viewOf d3 (m.dataStart+((c-2)*m.sectorsPerCluster+0),e*32)).first=46 ∧
        (viewOf d3 (m.dataStart+((c-2)*m.sectorsPerCluster+0),e*32)).IsDir:=by
    obtain ⟨h1,h2,h3,h4⟩:=dotEntries_first c parent
    have he : e=0 ∨ e=1:=by omega
    rw [EntryView.IsDir,viewOf]
    dsimp only
    rw [hfirst,hfirst]
    obtain rfl | rfl:=he
    · rw [h1,h2]
      exact ⟨rfl,by decide⟩
    · rw [h3,h4]
      exact ⟨rfl,by decide⟩
  refine .inr ⟨c,d3,by simp [makeDir,he,hc0,hz,hw],?_⟩
  constructor
  case kept => exact hf.kept.trans hcw.kept
  case inRange => exact hf.inRange
  case free => exact hf.free
  case last => rw [hcw.table_eq,hf.last]
  case other => exact fun y hy=>by rw [hcw.table_eq,hf.other y hy]
  case cells =>
    intro y hr hy b hb
    rw [hcw.cell_eq hv2.geometry hf.inRange hr hy hb,hf.cells y hr hy b hb]
  case ended =>
    refine pairwise_flatMap.mpr ⟨fun s hs=>pairwise_map.mpr ?_,?_⟩
    · refine pairwise_lt_range.imp_of_mem fun {e e'} he he' hlt hz=>?_
      have hs:=mem_range.mp hs
      refine hview hs (mem_range.mp he') ?_
      by_contra hno
      obtain rfl : s=0:=by omega
      rw [(hdots (by omega)).1] at hz
      exact absurd hz (by decide)
    · refine pairwise_lt_range.imp_of_mem fun {s s'} _ hs' hlt p _ q hq _=>?_
      obtain ⟨e,he,rfl⟩:=mem_map.mp hq
      exact hview (mem_range.mp hs') (mem_range.mp he) (.inl (by omega))
  case entries =>
    intro q hq
    obtain ⟨s,hs,e,he,rfl⟩:=mem_clusterSlots.mp hq
    by_cases hse : s≠0 ∨ 2≤e
    · exact .inl (hview hs he hse)
    · obtain rfl : s=0:=by omega
      exact .inr (hdots (by omega))

theorem Volume.writeDirentAt_eq (hv : Volume m d) (hp : DirentPlace m p.1 p.2) (de : ℕ→UInt8) :
    ∃d',writeDirentAt p.1 p.2 de d=some d' ∧ SlotWritten m d d' p ∧ ∀i<32,entryOf d' p i=de i:=by
  have hbuf (j : ℕ) (hj : j<p.2 ∨ p.2+32≤j) :
      putBytes (d.data p.1) p.2 ((List.range 32).map de) j=d.data p.1 j:=by
    obtain hj | hj:=hj
    exacts [putBytes_of_lt hj,putBytes_of_le hj]
  obtain ⟨d',hread,hwrite,hs,hdata⟩:=hv.slotWrite_spec hp hbuf
  refine ⟨d',by simp only [writeDirentAt,hread,hwrite],hs,fun i hi=>?_⟩
  rw [entryOf,entryAt,hdata,putBytes_of_mem (by omega) (by simpa using hi),Nat.add_sub_cancel_left,
    getD_eq_getElem _ _ (by simpa using hi)]
  simp

theorem viewOf_of_entry {de : ℕ→UInt8} (h : ∀i<32,entryOf d p i=de i) : viewOf d p=⟨de 0,de 11,entryCluster de⟩:=by
  rw [viewOf,entryCluster_congr h,h 0 (by omega),h 11 (by omega)]

namespace Tidy

section

variable (h : Tidy m root d chain)
include h

theorem addEntry (ho : Below (kids m (viewOf d) chain) o) (hdir : Owner.IsDir (viewOf d) o)
    (hfree : FirstFree d p (dirSlots m (chain o))) (hk : Kept m d d') (hg : Grows (table m d) (table m d') [] ys)
    (hspare : ∀y,y∉ys→table m d y = .free→table m d' y = .free)
    (hcells : ∀y,InRange m y→y∉ys→∀b<clusterBytes m,cell m d' y b=cell m d y b)
    (hs : SlotWritten m d' d'' p) (htaken : (viewOf d'' p).first≠0) (hshown : (viewOf d'' p).Shown)
    (hnew : Hierarchy.NewChain m (viewOf d'') p ys) : Tidy m root d'' (update chain (some p) ys):=by
  obtain ⟨l,r,hslots,hpfree,hbefore⟩:=hfree
  obtain ⟨c,-,hpc⟩:=mem_dirSlots.mp (show p∈dirSlots m (chain o) by simp [hslots])
  have hfilled : Hierarchy.Filled m (viewOf d) (viewOf d'') chain o p:=by
    refine ⟨hpfree,⟨l,r,hslots,fun q hq=>(hbefore q hq).1⟩,?_,htaken,hshown⟩
    rintro q ⟨o',ho',-,hq⟩ hne
    obtain ⟨c',hc',hqc⟩:=mem_dirSlots.mp hq
    have hused:=(h.tree.chains.linked o' ho').ne_free hc'
    rw [hs.viewOf_eq hpc hqc hne]
    refine viewOf_congr fun i hi=>entryOf_congr h.volume.geometry hqc ?_ hi
    exact hcells c' (inRange_of_ne_free hused) (hg.notMem (by simp) hused)
  refine ⟨hs.kept.volume (hk.volume h.volume),?_⟩
  exact h.tree.add ho hdir hfilled hnew (hs.table_eq▸hg) two_le_of_ne_free fun y hy hf=>hs.table_eq▸hspare y hy hf

theorem addFile (ho : Below (kids m (viewOf d) chain) o) (hdir : Owner.IsDir (viewOf d) o)
    (hfree : FirstFree d p (dirSlots m (chain o))) (hstr : 0∉name) (hdel : name.head?≠some 0xE5) {type : VType}
    (htype : type≠.dir) :
    ∃d',writeDirentAt p.1 p.2 (createEntry name type 0) d=some d' ∧ ∃chain',Tidy m root d' chain':=by
  obtain ⟨hzero,hE5,hdot,hattr,hcluster⟩:=createEntry_spec hstr hdel type (show 0<4294967296 by decide)
  obtain ⟨c,hc,hpc⟩:=mem_dirSlots.mp (show p∈dirSlots m (chain o) by
    obtain ⟨l,r,hslots,-⟩:=hfree
    simp [hslots])
  have hr : InRange m c:=inRange_of_ne_free ((h.tree.chains.linked o ho).ne_free hc)
  obtain ⟨d',hwrite,hs,hentry⟩:=h.volume.writeDirentAt_eq (h.volume.geometry.direntPlace_of_mem hr hpc)
    (createEntry name type 0)
  have hview:=viewOf_of_entry hentry
  rw [hattr,if_neg htype,hcluster] at hview
  have hfile : ¬(viewOf d' p).IsDir:=by
    rw [hview]
    exact not_not.mpr (show attrArchive&&&attrDir=0 by decide)
  refine ⟨d',hwrite,_,h.addEntry ho hdir hfree (.refl h.volume.mirrored) (.refl trivial nodup_nil)
    (fun _ _ hf=>hf) (fun _ _ _ _ _=>rfl) hs ?_ ?_ ⟨?_,fun hd=>absurd hd hfile,fun hd=>absurd hd hfile,
      fun hd=>absurd hd hfile⟩⟩
  · rw [hview]
    exact hzero
  · rw [hview]
    exact ⟨hE5,hdot,show attrArchive≠attrLfn ∧ attrArchive&&&attrVolumeId=0 by decide⟩
  · rw [hview]
    exact .inl ⟨Nat.zero_lt_two,rfl⟩

/-- The entry of a new directory, whose cluster was taken before. -/
theorem addDir (ho : Below (kids m (viewOf d) chain) o) (hdir : Owner.IsDir (viewOf d) o)
    (hfree : FirstFree d p (dirSlots m (chain o))) (hstr : 0∉name) (hdel : name.head?≠some 0xE5)
    (hnew : NewDir m d d' c) :
    ∃d'',writeDirentAt p.1 p.2 (createEntry name .dir c) d'=some d'' ∧ ∃chain',Tidy m root d'' chain':=by
  have hlt : c<4294967296:=by
    have:=h.volume.geometry.clusters_le
    have:=hnew.inRange.2
    omega
  obtain ⟨hzero,hE5,hdot,hattr,hcluster⟩:=createEntry_spec hstr hdel .dir hlt
  obtain ⟨x,hx,hpx⟩:=mem_dirSlots.mp (show p∈dirSlots m (chain o) by
    obtain ⟨l,r,hslots,-⟩:=hfree
    simp [hslots])
  have hused:=(h.tree.chains.linked o ho).ne_free hx
  have hr : InRange m x:=inRange_of_ne_free hused
  have hv':=hnew.kept.volume h.volume
  obtain ⟨d'',hwrite,hs,hentry⟩:=hv'.writeDirentAt_eq (h.volume.geometry.direntPlace_of_mem hr hpx)
    (createEntry name .dir c)
  have hview:=viewOf_of_entry hentry
  rw [hattr,if_pos rfl,hcluster] at hview
  -- the place is not in the new cluster
  have hself {q : ℕ×ℕ} (hq : q∈dirSlots m [c]) : q∈clusterSlots m c ∧ viewOf d'' q=viewOf d' q:=by
    have hq : q∈clusterSlots m c:=by simpa [dirSlots] using hq
    refine ⟨hq,hs.viewOf_eq hpx hq ?_⟩
    rintro rfl
    obtain rfl:=cluster_unique hr.1 hnew.inRange.1 hpx hq
    exact hused hnew.free
  refine ⟨d'',hwrite,_,h.addEntry ho hdir hfree hnew.kept (.single hnew.free hnew.last hnew.other) ?_ ?_ hs ?_ ?_
    ⟨?_,fun _=>cons_ne_nil c [],fun _=>?_,fun _ q hq=>?_⟩⟩
  · intro y hy hf
    rw [hnew.other y fun he=>hy (mem_singleton.mpr he),hf]
  · exact fun y hr hy=>hnew.cells y hr fun he=>hy (mem_singleton.mpr he)
  · rw [hview]
    exact hzero
  · rw [hview]
    exact ⟨hE5,hdot,show attrDir≠attrLfn ∧ attrDir&&&attrVolumeId=0 by decide⟩
  · rw [hview]
    exact .inr rfl
  · have hended : Ended (viewOf d') (dirSlots m [c]):=by
      rw [dirSlots,flatMap_singleton]
      exact hnew.ended
    exact hended.congr fun q hq=>by rw [(hself hq).2]
  · rw [(hself hq).2]
    exact hnew.entries q (hself hq).1

theorem fatCreate (ho : Below (kids m (viewOf d) chain) o) (hdir : Owner.IsDir (viewOf d) o)
    {dfn : Fat32Node} (hhead : (chain o).head? = some dfn.firstCluster) (hstr : 0∉name) (hdel : name.head?≠some 0xE5)
    (type : VType) (alloc : Bool×Bool) :
    ∃r d',Fat32.fatCreate m dfn name type alloc d=some (r,d') ∧ ∃chain',Tidy m root d' chain':=by
  have hl:=h.tree.chains.linked o ho
  have hn:=h.tree.chains.nodup o ho
  obtain ⟨cs,hcs⟩:=head?_eq_some_iff.mp hhead
  obtain ⟨found,hfound⟩:=h.volume.dirFind_spec name (.inr hhead) hl hn
  cases found with
  | some e=>exact ⟨none,d,by simp only [Fat32.fatCreate,hfound],chain,h⟩
  | none=>
    rw [hcs] at hl hn
    obtain ⟨hnone,-⟩ | ⟨p,d1,ys,hplace,hw,hfree⟩:=h.volume.findFreeDirent_eq hl hn
    · exact ⟨none,d,by simp only [Fat32.fatCreate,hfound,hnone],chain,h⟩
    rw [←hcs] at hw
    obtain ⟨h1,ho1,hdir1⟩:=h.growDir ho hdir hw
    have hfree : FirstFree d1 p (dirSlots m (update chain o ys o)):=by rwa [update_self]
    by_cases htype : type = .dir
    · subst htype
      obtain hmake | ⟨c,d2,hmake,hnew⟩:=h1.volume.makeDir_eq dfn.firstCluster
      · exact ⟨none,d1,by simp only [Fat32.fatCreate,hfound,hplace,if_pos,hmake],_,h1⟩
      · obtain ⟨d3,hwrite,htidy⟩:=h1.addDir ho1 hdir1 hfree hstr hdel hnew
        exact ⟨_,d3,by simp only [Fat32.fatCreate,hfound,hplace,if_pos,hmake,hwrite]; rfl,htidy⟩
    · obtain ⟨d2,hwrite,htidy⟩:=h1.addFile ho1 hdir1 hfree hstr hdel htype
      exact ⟨_,d2,by simp only [Fat32.fatCreate,hfound,hplace,if_neg htype,hwrite]; rfl,htidy⟩

end

end Tidy

end Knail.Fat32
