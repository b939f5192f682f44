import Knail.NewEntries
import Knail.Transitions

/-!
# Orphaned clusters

Files and directories are created, written and unlinked on a disk that may fill up. A cluster can be lost by a write
beyond the end of an empty file that runs out of space, by calls on vnodes whose entry is gone, by names that look
like deleted ones, and by the end mark of a chain.
-/
namespace Knail.Fat32

open Vfs Option

variable {m : Mount} {root c : ℕ} {d : Disk} {s s' : State} {xs : List ℕ} {p : ℕ×ℕ}
  {chain : Option (ℕ×ℕ)→List ℕ}

inductive Call
  | op (op : Op)
  | unlink (dir : ℕ) (name : List UInt8)

/-- The vnode of a file that is unlinked stays in the list: its memory may be in use. -/
def call (m : Mount) (s : State) : Call→Option State
  | .op op=>step m s op
  | .unlink i name=>
    match s.nodes[i]?.bind VNode.priv with
    | none=>some s
    | some dfn=>(fatUnlink m dfn name s.disk).map fun (_,d)=>⟨d,s.nodes⟩

/-- The first cluster of a directory that is found from the root. -/
def LiveDir (m : Mount) (root : ℕ) (d : Disk) (first : ℕ) : Prop:=
  ∃xs,DirChain m root (table m d) (viewOf d) xs ∧ xs.head? = some first

/-- A file that is found from the root. Its entry has its first cluster. -/
def LiveFile (m : Mount) (root : ℕ) (d : Disk) (fn : Fat32Node) : Prop:=
  fn.hasDirent=true ∧ ¬(viewOf d (fn.direntSector,fn.direntOffset)).IsDir ∧
    (viewOf d (fn.direntSector,fn.direntOffset)).cluster=fn.firstCluster ∧
    ∃xs,DirChain m root (table m d) (viewOf d) xs ∧
      (fn.direntSector,fn.direntOffset)∈liveSlots (viewOf d) (dirSlots m xs)

def Call.Sound (m : Mount) (root : ℕ) : Call→State→Prop
  | .op (.create i name _ _), s=>∀dfn,s.nodes[i]?.bind VNode.priv=some dfn →
      LiveDir m root s.disk dfn.firstCluster ∧ 0∉name ∧ name.head?≠some 0xE5
  | .op (.write i offset src), s=>∀fn,s.nodes[i]?.bind VNode.priv=some fn →
      LiveFile m root s.disk fn ∧ (src≠[]→fn.firstCluster<2 →
        freeClusters m s.disk=[] ∨ offset/clusterBytes m<(freeClusters m s.disk).length)
  | .unlink i name, s=>∀dfn,s.nodes[i]?.bind VNode.priv=some dfn →
      LiveDir m root s.disk dfn.firstCluster ∧
        ∀e sector offset,dirFind m dfn.firstCluster name s.disk=some (some (e,sector,offset)) →
          entryCluster e<2 ∨ s.disk.sectors≤u32 (m.fatStart+0x1FFFFF)

theorem Tidy.exists_dir {first : ℕ} (h : Tidy m root d chain) (hlive : LiveDir m root d first) :
    ∃o,Below (kids m (viewOf d) chain) o ∧ Owner.IsDir (viewOf d) o ∧ (chain o).head? = some first:=by
  obtain ⟨xs,hxs,hhead⟩:=hlive
  obtain ⟨o,ho,hdir,rfl⟩:=h.tree.exists_owner hxs
  exact ⟨o,ho,hdir,hhead⟩

theorem Tidy.below_of_live {fn : Fat32Node} (h : Tidy m root d chain) (hlive : LiveFile m root d fn) :
    Below (kids m (viewOf d) chain) (some (fn.direntSector,fn.direntOffset)):=by
  obtain ⟨-,-,-,xs,hxs,hp⟩:=hlive
  obtain ⟨o,ho,hdir,rfl⟩:=h.tree.exists_owner hxs
  exact .entry ho (by rwa [kids,if_pos hdir])

/-- A sound call returns, and keeps a volume in order. -/
theorem Tidy.call (h : Tidy m root s.disk chain) {c : Call} (hc : c.Sound m root s) :
    ∃s',call m s c=some s' ∧ ∃chain',Tidy m root s'.disk chain':=by
  cases c with
  | op op=>
    cases op with
    | create i name type alloc=>
      cases hi : s.nodes[i]?.bind VNode.priv with
      | none=>exact ⟨s,by simp only [Fat32.call,step,hi],chain,h⟩
      | some dfn=>
        obtain ⟨hlive,hstr,hdel⟩:=hc dfn hi
        obtain ⟨o,ho,hdir,hhead⟩:=h.exists_dir hlive
        obtain ⟨r,d',he,htidy⟩:=h.fatCreate ho hdir hhead hstr hdel type alloc
        exact ⟨⟨d',s.nodes++r.toList⟩,by simp only [Fat32.call,step,hi,he,map_some],htidy⟩
    | write i offset src=>
      cases hv : s.nodes[i]? with
      | none=>exact ⟨s,by simp only [Fat32.call,step,hv],chain,h⟩
      | some v=>
        cases hp : v.priv with
        | none=>exact ⟨s,by simp only [Fat32.call,step,hv,hp],chain,h⟩
        | some fn=>
          obtain ⟨hlive,hroom⟩:=hc fn (by simp [hv,hp])
          obtain ⟨hd,hfile,hcluster,-⟩:=id hlive
          have htidy:=h.fatWrite hd (h.below_of_live hlive) hfile hcluster hroom v.size
          exact ⟨_,by simp only [Fat32.call,step,hv,hp]; rfl,htidy⟩
  | unlink i name=>
    cases hi : s.nodes[i]?.bind VNode.priv with
    | none=>exact ⟨s,by simp only [Fat32.call,hi],chain,h⟩
    | some dfn=>
      obtain ⟨hlive,hend⟩:=hc dfn hi
      obtain ⟨o,ho,hdir,hhead⟩:=h.exists_dir hlive
      obtain ⟨r,d',he,htidy⟩:=h.fatUnlink ho hdir hhead name hend
      exact ⟨⟨d',s.nodes⟩,by simp only [Fat32.call,hi,he,map_some],htidy⟩

/-- Sound calls on a volume in order return, and leave no cluster in use that is not reached from the
root. -/
theorem no_orphans (h : Reach (fun s=>∃chain,Tidy m root s.disk chain) (call m) (Call.Sound m root) s) :
    (∀c,InRange m c → readFat m c s.disk≠0→Reaches m root (table m s.disk) (viewOf s.disk) c) ∧
    ∀c : Call,c.Sound m root s→∃s',call m s c=some s':=by
  have hinv : ∃chain,Tidy m root s.disk chain:=by
    refine h.invariant (fun _ hs=>hs) fun s s' c ⟨chain,hs⟩ hc hstep=>?_
    obtain ⟨s'',he,htidy⟩:=hs.call hc
    obtain rfl:=some.inj (he.symm.trans hstep)
    exact htidy
  obtain ⟨chain,htidy⟩:=hinv
  refine ⟨fun c hc hused=>htidy.tree.reaches fun hfree=>?_,fun c hc=>?_⟩
  · exact hused ((htidy.volume.readFat_eq_zero_iff hc).mpr hfree)
  · obtain ⟨s',he,-⟩:=htidy.call hc
    exact ⟨s',he⟩

theorem not_reaches_of_file {view : ℕ×ℕ→EntryView} {T : ℕ→Link ℕ} (hroot : T root = .last) (hzero : T 0 = .free)
    (hlive : liveSlots view (dirSlots m [root])=[p]) (hfile : ¬(view p).IsDir) (hcluster : (view p).cluster=0)
    (hc : c≠root) : ¬Reaches m root T view c:=by
  have hchain {xs : List ℕ} (hxs : DirChain m root T view xs) : xs=[root]:=by
    induction hxs with
    | root hl hhead=>exact hl.unique hroot hhead
    | sub _ hp hd _ _ ih=>
      rw [ih,hlive,List.mem_singleton] at hp
      exact absurd (hp▸hd) hfile
  rintro ⟨xs,hxs,hc' | ⟨q,hq,ys,hl,hhead,-⟩⟩
  · rw [hchain hxs,List.mem_singleton] at hc'
    exact hc hc'
  rw [hchain hxs,hlive,List.mem_singleton] at hq
  rw [hq,hcluster] at hhead
  exact hl.ne_free (List.mem_of_head? hhead) hzero

/-- A file is created, and then a byte is written for which the volume is one cluster short. The write
takes the clusters that are free and fails. They stay in use, and in no chain that is reached. -/
theorem failed_write_orphans : (∃chain,Tidy smallMount 2 smallDisk chain) ∧
    ∃s,[Call.op (.create 0 [65] .file (true,true)),.op (.write 1 1536 [1])].foldlM (call smallMount)
    ⟨smallDisk,[smallRoot]⟩=some s ∧ InRange smallMount 3 ∧ readFat smallMount 3 s.disk≠0 ∧
    ¬Reaches smallMount 2 (table smallMount s.disk) (viewOf s.disk) 3:=by
  refine ⟨⟨_,smallDisk_tidy⟩,?_⟩
  have hrun : ([Call.op (.create 0 [65] .file (true,true)),.op (.write 1 1536 [1])].foldlM (call smallMount)
      ⟨smallDisk,[smallRoot]⟩).any (fun s=>decide (readFat smallMount 3 s.disk≠0 ∧
        table smallMount s.disk 2 = .last ∧ table smallMount s.disk 0 = .free ∧
        liveSlots (viewOf s.disk) (dirSlots smallMount [2])=[(3,0)] ∧ ¬(viewOf s.disk (3,0)).IsDir ∧
        (viewOf s.disk (3,0)).cluster=0))=true:=by
    decide +kernel
  obtain ⟨s,hs,hP⟩:=(any_eq_true _ _).mp hrun
  obtain ⟨hused,hlast,hzero,hlive,hfile,hcluster⟩:=of_decide_eq_true hP
  exact ⟨s,hs,by decide,hused,not_reaches_of_file hlast hzero hlive hfile hcluster (by decide)⟩

/-- A file on the small volume is created and written to. -/
theorem no_orphans_small : ∃s,Reach (fun s=>∃chain,Tidy smallMount 2 s.disk chain) (call smallMount)
    (Call.Sound smallMount 2) s ∧ readFat smallMount 3 s.disk≠0 ∧
    Reaches smallMount 2 (table smallMount s.disk) (viewOf s.disk) 3:=by
  have hlive : LiveDir smallMount 2 smallDisk 2:=⟨[2],.root (by decide : table smallMount smallDisk 2 = .last) rfl,rfl⟩
  have hcreate : (call smallMount ⟨smallDisk,[smallRoot]⟩ (.op (.create 0 [65] .file (true,true)))).any (fun s=>
      decide (table smallMount s.disk 2 = .last ∧ s.nodes[1]?.bind VNode.priv=some ⟨0,false,3,0,true⟩ ∧
        ¬(viewOf s.disk (3,0)).IsDir ∧ (viewOf s.disk (3,0)).cluster=0 ∧
        (3,0)∈liveSlots (viewOf s.disk) (dirSlots smallMount [2]) ∧ 0<(freeClusters smallMount s.disk).length ∧
        (call smallMount s (.op (.write 1 0 [1,2,3]))).any fun s=>readFat smallMount 3 s.disk≠0))=true:=by
    decide +kernel
  obtain ⟨s₁,hs₁,hP⟩:=(any_eq_true _ _).mp hcreate
  obtain ⟨hlast,hnode,hfile,hcluster,hslot,hroom,hwrite⟩:=of_decide_eq_true hP
  obtain ⟨s₂,hs₂,hused⟩:=(any_eq_true _ _).mp hwrite
  have hsound₁ : (Call.op (.create 0 [65] .file (true,true))).Sound smallMount 2 ⟨smallDisk,[smallRoot]⟩:=by
    rintro dfn ⟨⟩
    exact ⟨hlive,by decide,by decide⟩
  have hsound₂ : (Call.op (.write 1 0 [1,2,3])).Sound smallMount 2 s₁:=by
    intro fn hfn
    obtain rfl:=some.inj (hnode.symm.trans hfn)
    refine ⟨⟨rfl,hfile,hcluster,[2],.root hlast rfl,hslot⟩,fun _ _=>.inr ?_⟩
    rwa [Nat.zero_div]
  have hreach : Reach (fun s=>∃chain,Tidy smallMount 2 s.disk chain) (call smallMount) (Call.Sound smallMount 2) s₂:=
    .step _ (.step _ (.start ⟨_,smallDisk_tidy⟩) hsound₁ hs₁) hsound₂ hs₂
  have hused:=of_decide_eq_true hused
  exact ⟨s₂,hreach,hused,(no_orphans hreach).1 3 (by decide) hused⟩

end Knail.Fat32
