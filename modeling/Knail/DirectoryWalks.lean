import Knail.FollowedLinks
import Knail.Hierarchies
import Knail.ShortNames
import Knail.TidyVolumes
import Mathlib.Data.List.Forall2

/-!
# Walks over directories

`dir_find`, `find_free_dirent`, `fat_readdir` and `populate_dir` follow the chain of a directory and look at its
entries one after the other. A walk that ends has a result for some number of turns and of nested calls.
-/
namespace Knail.Fat32

open Vfs List Option

variable {m : Mount} {c n k index real : ℕ} {d : Disk} {cs : List ℕ} {p : ℕ×ℕ} {name : List UInt8} {bs : List β}
  {R : α→β→Prop} {ts : List VTree}

def entryType (e : ℕ→UInt8) : VType:=if e 11&&&attrDir≠0 then .dir else .file

/-- How `fat_readdir` treats an entry: it returns, or the number of entries that were passed changes. -/
def readdirEntry (index real : ℕ) (de : ℕ→UInt8) : Except (Except KError (List UInt8×VType)) ℕ:=
  if de 0=0 then .error (.error .endOfFile)
  else if de 0=0xE5 ∨ de 11=attrLfn ∨ de 11&&&attrVolumeId≠0 ∨ de 0=46 then .ok real
  else if real=index then .error (.ok (entryName de,entryType de))
  else .ok (real+1)

/-- The sectors of a cluster and the 16 entries of each. -/
def readdirCluster (m : Mount) (d : Disk) (index cluster real : ℕ) : Except (Except KError (List UInt8×VType)) ℕ:=
  (List.range m.sectorsPerCluster).foldlM (fun real s=>
    match devRead d (u32 (clusterToLba m cluster+s)) with
    | none=>.error (.error .ioError)
    | some buf=>(List.range 16).foldlM (fun real e=>readdirEntry index real (entryAt buf (e*32))) real) real

/-- The loop of `fat_readdir`. -/
def readdirLoop (m : Mount) (d : Disk) (index : ℕ) : ℕ→ℕ→ℕ→Option (Except KError (List UInt8×VType))
  | 0, _, _=>none
  | n+1, cluster, real=>
    if isEoc cluster ∨ cluster<2 then some (.error .endOfFile)
    else
      match readdirCluster m d index cluster real with
      | .error r=>some r
      | .ok real=>readdirLoop m d index n (readFat m cluster d) real

/-- A vnode and its children, the one that was added last being the first. -/
inductive VTree
  | node (v : VNode) (children : List VTree)

/-- The turns of a loop, each of which may return from the function. -/
def turns {α β : Type} (body : α→β→Option (Bool×β)) : List α→β→Option (Bool×β)
  | [], b=>some (false,b)
  | a::as, b=>
    match body a b with
    | none=>none
    | some (true,b)=>some (true,b)
    | some (false,b)=>turns body as b

/-- How `populate_dir` treats an entry; `sub` is its call for a directory. The results of `kmalloc` for
the vnode of an entry are those given for its place. -/
def populateEntry (sub : ℕ→Option (List VTree)) (alloc : ℕ×ℕ→Bool×Bool) (sector offset : ℕ) (de : ℕ→UInt8)
    (children : List VTree) : Option (Bool×List VTree):=
  if de 0=0 then some (true,children)
  else if de 0=0xE5 ∨ de 11=attrLfn ∨ de 11&&&attrVolumeId≠0 ∨ de 0=46 then some (false,children)
  else
    match makeVnode de sector offset (alloc (sector,offset)) with
    | none=>some (false,children)
    | some v=>
      if de 11&&&attrDir≠0 then (sub (entryCluster de)).map fun ts=>(false,.node v ts::children)
      else some (false,.node v []::children)

/-- The sectors of a cluster and the 16 entries of each. -/
def populateCluster (m : Mount) (d : Disk) (sub : ℕ→Option (List VTree)) (alloc : ℕ×ℕ→Bool×Bool) (cluster : ℕ) :
    List VTree→Option (Bool×List VTree):=
  turns (fun s children=>
    let sector:=u32 (clusterToLba m cluster+s)
    match devRead d sector with
    | none=>some (true,children)
    | some buf=>
      turns (fun e=>populateEntry sub alloc sector (e*32) (entryAt buf (e*32))) (List.range 16) children)
    (List.range m.sectorsPerCluster)

/-- The loop of `populate_dir`. -/
def populateLoop (m : Mount) (d : Disk) (sub : ℕ→Option (List VTree)) (alloc : ℕ×ℕ→Bool×Bool) :
    ℕ→ℕ→List VTree→Option (List VTree)
  | 0, _, _=>none
  | n+1, cluster, children=>
    if isEoc cluster ∨ cluster<2 then some children
    else
      match populateCluster m d sub alloc cluster children with
      | none=>none
      | some (true,children)=>some children
      | some (false,children)=>populateLoop m d sub alloc n (readFat m cluster d) children

/-- `populate_dir`: the children that the vnode of a directory gets. Its loop takes fewer than `n`
turns, and the calls are nested as deep as the last number but one; beyond that there is no result. -/
def populateDir (m : Mount) (d : Disk) (alloc : ℕ×ℕ→Bool×Bool) (n : ℕ) : ℕ→ℕ→Option (List VTree)
  | 0, _=>none
  | depth+1, cluster=>populateLoop m d (populateDir m d alloc n depth) alloc n cluster []

def enough : ℕ×ℕ→Bool×Bool:=fun _=>(true,true)

/-- The vnode that `make_vnode` makes for the entry at a place. -/
def entryVnode (d : Disk) (p : ℕ×ℕ) : VNode:=(makeVnode (entryOf d p) p.1 p.2 (true,true)).get rfl

theorem makeVnode_eq (d : Disk) (p : ℕ×ℕ) (alloc : Bool×Bool) : makeVnode (entryOf d p) p.1 p.2 alloc =
    if alloc=(true,true) then some (entryVnode d p) else none:=by
  obtain ⟨_ | _,_ | _⟩:=alloc <;> rfl

/-- The places for entries in a cluster, whatever its number. -/
def places (m : Mount) (c : ℕ) : List (ℕ×ℕ):=
  (List.range m.sectorsPerCluster).flatMap fun s=>(List.range 16).map fun e=>(u32 (clusterToLba m c+s),e*32)

def CanRead (m : Mount) (d : Disk) (c : ℕ) : Prop:=∀s < m.sectorsPerCluster,u32 (clusterToLba m c+s)<d.sectors

theorem scanCluster_places (h : CanRead m d c) (visit : ℕ→ℕ→(ℕ→UInt8)→Option (Option α)) :
    scanCluster m d visit c=(places m c).findSome? fun p=>visit p.1 p.2 (entryOf d p):=by
  rw [scanCluster,places,findSome?_flatMap]
  refine findSome?_congr fun s hs=>?_
  dsimp only
  rw [devRead_of_lt (h s (mem_range.mp hs))]
  rfl

section Turns

variable {α β γ : Type} {body : α→β→Option (Bool×β)}

theorem turns_append (as as' : List α) (b : β) : turns body (as++as') b = match turns body as b with
    | none=>none
    | some (true,b)=>some (true,b)
    | some (false,b)=>turns body as' b:=by
  induction as generalizing b with
  | nil=>rfl
  | cons a as ih=>
    rw [cons_append,turns,turns]
    split
    · rfl
    · rfl
    · exact ih _

theorem turns_flatMap (f : γ→List α) (as : List γ) (b : β) :
    turns body (as.flatMap f) b=turns (fun a=>turns body (f a)) as b:=by
  induction as generalizing b with
  | nil=>rfl
  | cons a as ih=>
    rw [flatMap_cons,turns_append,turns]
    split
    · rfl
    · rfl
    · exact ih _

theorem turns_congr {body' : α→β→Option (Bool×β)} {as : List α} (h : ∀a∈as,body a=body' a) (b : β) :
    turns body as b=turns body' as b:=by
  induction as generalizing b with
  | nil=>rfl
  | cons a as ih=>
    rw [turns,turns,h a mem_cons_self]
    split
    · rfl
    · rfl
    · exact ih (fun a ha=>h a (mem_cons_of_mem _ ha)) _

end Turns

section Folds

variable {α β γ ε : Type}

theorem foldlM_congr {f g : β→α→Except ε β} {as : List α} (h : ∀a∈as,∀b,f b a=g b a) (b : β) :
    as.foldlM f b=as.foldlM g b:=by
  induction as generalizing b with
  | nil=>rfl
  | cons a as ih=>
    rw [foldlM_cons,foldlM_cons,h a mem_cons_self]
    congr 1
    funext b
    exact ih (fun a ha=>h a (mem_cons_of_mem _ ha)) b

theorem foldlM_flatMap (f : β→α→Except ε β) (g : γ→List α) (as : List γ) (b : β) :
    (as.flatMap g).foldlM f b=as.foldlM (fun b a=>(g a).foldlM f b) b:=by
  induction as generalizing b with
  | nil=>rfl
  | cons a as ih=>
    rw [flatMap_cons,foldlM_append,foldlM_cons]
    congr 1
    funext b
    exact ih b

end Folds

variable {sub sub' : ℕ→Option (List VTree)} {alloc : ℕ×ℕ→Bool×Bool}

/-- The loops of `populate_dir` look at the places of the directory in their order. -/
def populateSlots (d : Disk) (sub : ℕ→Option (List VTree)) (alloc : ℕ×ℕ→Bool×Bool) :
    List (ℕ×ℕ)→List VTree→Option (Bool×List VTree):=
  turns fun p=>populateEntry sub alloc p.1 p.2 (entryOf d p)

theorem populateCluster_places (h : CanRead m d c) (ts : List VTree) :
    populateCluster m d sub alloc c ts=populateSlots d sub alloc (places m c) ts:=by
  rw [populateCluster,populateSlots,places,turns_flatMap]
  refine turns_congr (fun s hs=>?_) ts
  dsimp only
  rw [devRead_of_lt (h s (mem_range.mp hs))]
  rfl

/-- So do those of `fat_readdir`. -/
def readdirSlots (d : Disk) (index : ℕ) (slots : List (ℕ×ℕ)) (real : ℕ) :
    Except (Except KError (List UInt8×VType)) ℕ:=
  slots.foldlM (fun real p=>readdirEntry index real (entryOf d p)) real

theorem readdirCluster_places (h : CanRead m d c) (real : ℕ) :
    readdirCluster m d index c real=readdirSlots d index (places m c) real:=by
  rw [readdirCluster,readdirSlots,places,foldlM_flatMap]
  refine foldlM_congr (fun s hs real=>?_) real
  rw [foldlM_map,devRead_of_lt (h s (mem_range.mp hs))]
  rfl

theorem liveSlots_cons (view : ℕ×ℕ→EntryView) (p : ℕ×ℕ) (slots : List (ℕ×ℕ)) : liveSlots view (p::slots) =
    if (view p).first=0 then [] else if (view p).Shown then p::liveSlots view slots else liveSlots view slots:=by
  unfold liveSlots
  by_cases hfirst : (view p).first=0
  · simp [hfirst]
  · by_cases hshown : (view p).Shown <;> simp [hfirst,hshown]

theorem skipped_iff : (entryOf d p 0=0xE5 ∨ entryOf d p 11=attrLfn ∨ entryOf d p 11&&&attrVolumeId≠0 ∨
    entryOf d p 0=46)↔¬(viewOf d p).Shown:=by
  rw [EntryView.Shown,viewOf]
  tauto

def entryTree (sub : ℕ→Option (List VTree)) (d : Disk) (p : ℕ×ℕ) : Option VTree:=
  if (viewOf d p).IsDir then (sub (viewOf d p).cluster).map (.node (entryVnode d p)) else some (.node (entryVnode d p) [])

theorem populateEntry_eq (ts : List VTree) : populateEntry sub alloc p.1 p.2 (entryOf d p) ts =
    if (viewOf d p).first=0 then some (true,ts)
    else if (viewOf d p).Shown ∧ alloc p=(true,true) then (entryTree sub d p).map fun t=>(false,t::ts)
    else some (false,ts):=by
  rw [populateEntry,if_congr skipped_iff rfl rfl,ite_not,makeVnode_eq,ite_and,entryTree]
  refine if_congr Iff.rfl rfl (if_congr Iff.rfl ?_ rfl)
  by_cases halloc : alloc p=(true,true)
  · rw [if_pos halloc,if_pos halloc]
    by_cases hdir : (viewOf d p).IsDir
    · rw [if_pos hdir,Option.map_map]
      exact if_pos hdir
    · rw [if_neg hdir]
      exact if_neg hdir
  · rw [if_neg halloc,if_neg halloc]

def madeSlots (d : Disk) (alloc : ℕ×ℕ→Bool×Bool) (slots : List (ℕ×ℕ)) : List (ℕ×ℕ):=
  (liveSlots (viewOf d) slots).filter fun p=>alloc p=(true,true)

theorem madeSlots_cons (slots : List (ℕ×ℕ)) : madeSlots d alloc (p::slots) = if (viewOf d p).first=0 then []
    else if (viewOf d p).Shown ∧ alloc p=(true,true) then p::madeSlots d alloc slots else madeSlots d alloc slots:=by
  unfold madeSlots
  rw [liveSlots_cons]
  by_cases hfirst : (viewOf d p).first=0
  · simp [hfirst]
  by_cases hshown : (viewOf d p).Shown
  · by_cases halloc : alloc p=(true,true) <;> simp [hfirst,hshown,halloc]
  · simp [hfirst,hshown]

theorem populateSlots_eq (slots : List (ℕ×ℕ)) (ts : List VTree) : populateSlots d sub alloc slots ts =
    ((madeSlots d alloc slots).mapM (entryTree sub d)).map fun us=>
    (slots.any fun p=>(viewOf d p).first=0,us.reverse++ts):=by
  induction slots generalizing ts with
  | nil=>rfl
  | cons p slots ih=>
    rw [populateSlots,turns,populateEntry_eq,madeSlots_cons,any_cons]
    by_cases hfirst : (viewOf d p).first=0
    · simp [hfirst]
    by_cases hmade : (viewOf d p).Shown ∧ alloc p=(true,true)
    · rw [if_neg hfirst,if_pos hmade,if_neg hfirst,if_pos hmade,mapM_cons]
      cases htree : entryTree sub d p with
      | none=>rfl
      | some t=>
        refine (ih (t::ts)).trans ?_
        cases (madeSlots d alloc slots).mapM (entryTree sub d) with
        | none=>rfl
        | some us=>simp [hfirst]
    · rw [if_neg hfirst,if_neg hmade,if_neg hfirst,if_neg hmade]
      refine (ih ts).trans ?_
      simp [hfirst]

theorem mapM_eq_some {f : α→Option β} {as : List α} :
    as.mapM f=some bs↔List.Forall₂ (fun a b=>f a=some b) as bs:=by
  induction as generalizing bs with
  | nil=>simp [eq_comm]
  | cons a as ih=>
    rw [mapM_cons,forall₂_cons_left_iff]
    cases hf : f a with
    | none=>simp
    | some b=>
      cases hm : as.mapM f with
      | none=>simp [←ih,hm]
      | some bs'=>simp [←ih,hm,eq_comm]

theorem exists_of_forall₂ {a : α} {as : List α} (h : List.Forall₂ R as bs) (ha : a∈as) : ∃b∈bs,R a b:=by
  induction h with
  | nil=>cases ha
  | cons hab _ ih=>
    obtain rfl | ha:=mem_cons.mp ha
    · exact ⟨_,mem_cons_self,hab⟩
    · obtain ⟨b,hb,hR⟩:=ih ha
      exact ⟨b,mem_cons_of_mem _ hb,hR⟩

theorem exists_forall₂ {as : List α} (h : ∀a∈as,∃b,R a b) : ∃bs,List.Forall₂ R as bs:=by
  induction as with
  | nil=>exact ⟨[],.nil⟩
  | cons a as ih=>
    obtain ⟨b,hb⟩:=h a mem_cons_self
    obtain ⟨bs,hbs⟩:=ih fun a ha=>h a (mem_cons_of_mem _ ha)
    exact ⟨b::bs,.cons hb hbs⟩

theorem getElem?_sub_succ {a : α} {as : List α} (h : real < index) : (a::as)[index-real]? = as[index-(real+1)]?:=by
  obtain ⟨k,rfl⟩:=Nat.exists_eq_add_of_lt h
  rw [show real+k+1-real=k+1 by omega,show real+k+1-(real+1)=k by omega,getElem?_cons_succ]

theorem readdirSlots_eq (slots : List (ℕ×ℕ)) (hreal : real ≤ index) : readdirSlots d index slots real =
    ((liveSlots (viewOf d) slots)[index-real]?).elim
    (if slots.any fun p=>(viewOf d p).first=0 then .error (.error .endOfFile)
    else .ok (real+(liveSlots (viewOf d) slots).length))
    fun p=>.error (.ok (entryName (entryOf d p),entryType (entryOf d p))):=by
  induction slots generalizing real with
  | nil=>rfl
  | cons p slots ih=>
    rw [readdirSlots,foldlM_cons,readdirEntry,if_congr skipped_iff rfl rfl,ite_not,liveSlots_cons,any_cons]
    by_cases hfirst : (viewOf d p).first=0
    · rw [if_pos (show entryOf d p 0=0 from hfirst),if_pos hfirst]
      simp [hfirst]
      rfl
    rw [if_neg (show ¬entryOf d p 0=0 from hfirst),if_neg hfirst]
    by_cases hshown : (viewOf d p).Shown
    · rw [if_pos hshown,if_pos hshown]
      by_cases heq : real=index
      · rw [if_pos heq,heq,Nat.sub_self]
        rfl
      rw [if_neg heq,getElem?_sub_succ (by omega)]
      refine (ih (by omega)).trans ?_
      rw [decide_eq_false hfirst,Bool.false_or,length_cons,Nat.add_assoc,Nat.add_comm 1]
    · rw [if_neg hshown,if_neg hshown,decide_eq_false hfirst,Bool.false_or]
      exact ih hreal

def nextCluster (m : Mount) (d : Disk) (c : ℕ) : ℕ:=readFat m c d

def EndOfChain (c : ℕ) : Prop:=isEoc c=true ∨ c<2

instance (c : ℕ) : Decidable (EndOfChain c):=inferInstanceAs (Decidable (_ ∨ _))

theorem turns_mono {body body' : α→β→Option (Bool×β)} {as : List α} {b : β} {r : Bool×β}
    (h : ∀a b r,body a b=some r→body' a b=some r) (hr : turns body as b=some r) : turns body' as b=some r:=by
  induction as generalizing b with
  | nil=>exact hr
  | cons a as ih=>
    rw [turns] at hr ⊢
    cases hbody : body a b with
    | none=>rw [hbody] at hr; cases hr
    | some q=>
      rw [hbody] at hr
      rw [h a b q hbody]
      obtain ⟨_ | _,b'⟩:=q
      · exact ih hr
      · exact hr

theorem populateEntry_mono (h : ∀c ts,sub c=some ts→sub' c=some ts) {sector offset : ℕ} {de : ℕ→UInt8} {r : Bool×List VTree} (hr : populateEntry sub alloc sector offset de ts=some r) :
    populateEntry sub' alloc sector offset de ts=some r:=by
  unfold populateEntry at hr ⊢
  by_cases hfirst : de 0=0
  · rwa [if_pos hfirst] at hr ⊢
  rw [if_neg hfirst] at hr ⊢
  by_cases hskip : de 0=0xE5 ∨ de 11=attrLfn ∨ de 11&&&attrVolumeId≠0 ∨ de 0=46
  · rwa [if_pos hskip] at hr ⊢
  rw [if_neg hskip] at hr ⊢
  cases hv : makeVnode de sector offset (alloc (sector,offset)) with
  | none=>rwa [hv] at hr
  | some v=>
    rw [hv] at hr
    dsimp only at hr ⊢
    by_cases hdir : de 11&&&attrDir≠0
    · rw [if_pos hdir] at hr ⊢
      obtain ⟨us,hus,rfl⟩:=map_eq_some_iff.mp hr
      rw [h _ us hus]
      rfl
    · rwa [if_neg hdir] at hr ⊢

theorem populateLoop_mono (h : ∀c ts,sub c=some ts→sub' c=some ts) {n' : ℕ} (hn : n≤n') {us : List VTree}
    (hr : populateLoop m d sub alloc n c ts=some us) : populateLoop m d sub' alloc n' c ts=some us:=by
  induction n generalizing n' c ts with
  | zero=>cases hr
  | succ n ih=>
    obtain ⟨n',rfl⟩ : ∃k,n'=k+1:=⟨n'-1,by omega⟩
    have hcluster (q : Bool×List VTree) (hq : populateCluster m d sub alloc c ts=some q) :
        populateCluster m d sub' alloc c ts=some q:=by
      refine turns_mono (fun s b r hs=>?_) hq
      dsimp only at hs ⊢
      cases hread : devRead d (u32 (clusterToLba m c+s)) with
      | none=>rwa [hread] at hs
      | some buf=>
        rw [hread] at hs
        exact turns_mono (fun e b r he=>populateEntry_mono h he) hs
    rw [populateLoop] at hr ⊢
    by_cases hend : isEoc c=true ∨ c<2
    · rwa [if_pos hend] at hr ⊢
    rw [if_neg hend] at hr ⊢
    cases hq : populateCluster m d sub alloc c ts with
    | none=>rw [hq] at hr; cases hr
    | some q=>
      rw [hq] at hr
      rw [hcluster q hq]
      obtain ⟨_ | _,ts'⟩:=q
      · exact ih (Nat.le_of_succ_le_succ hn) hr
      · exact hr

theorem populateDir_mono {n' depth depth' : ℕ} (hn : n≤n') (hdepth : depth≤depth')
    (hr : populateDir m d alloc n depth c=some ts) : populateDir m d alloc n' depth' c=some ts:=by
  induction depth generalizing depth' c ts with
  | zero=>cases hr
  | succ depth ih=>
    obtain ⟨depth',rfl⟩ : ∃k,depth'=k+1:=⟨depth'-1,by omega⟩
    exact populateLoop_mono (fun c us hus=>ih (Nat.le_of_succ_le_succ hdepth) hus) hn hr

/-- `populate_dir` returns, after it has made the given children. -/
def Populates (m : Mount) (d : Disk) (alloc : ℕ×ℕ→Bool×Bool) (c : ℕ) (ts : List VTree) : Prop:=
  ∃n depth,populateDir m d alloc n depth c=some ts

theorem exists_populateDir {as : List ℕ} (h : ∀c∈as,∃ts,Populates m d alloc c ts) :
    ∃n depth,∀n' ≥ n,∀depth' ≥ depth,∀c∈as,∃ts,populateDir m d alloc n' depth' c=some ts:=by
  induction as with
  | nil=>exact ⟨0,0,fun _ _ _ _ _ hc=>absurd hc not_mem_nil⟩
  | cons c as ih=>
    obtain ⟨ts,n1,depth1,hts⟩:=h c mem_cons_self
    obtain ⟨n2,depth2,hrest⟩:=ih fun c hc=>h c (mem_cons_of_mem _ hc)
    refine ⟨max n1 n2,max depth1 depth2,fun n hn depth hdepth c' hc'=>?_⟩
    obtain rfl | hc':=mem_cons.mp hc'
    · exact ⟨ts,populateDir_mono (by omega) (by omega) hts⟩
    · exact hrest n (by omega) depth (by omega) c' hc'

def VTree.vnode : VTree→VNode
  | .node v _=>v

end Knail.Fat32
