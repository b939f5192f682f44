import Knail.DescriptorOwnership
import Knail.FileAccess
import Knail.Pipes

/-!
# The lifetime of a pipe

The vnode of a pipe counts its descriptors, and the buffer has a count of its own. The buffer is
made with a count of two, and the vnode gives back one reference, at the last close. So the
buffer outlives all descriptors.
-/
namespace Knail.Descriptors

open Function Vfs List Option

def pipeOps : Backend Node where
  vnode:=Node.vnode
  read:=some fun _ len v=>
    match pipeRead len v.pipe with
    | (r,pb)=>(r,{v with pipe:=pb})
  write:=some fun _ src v=>
    match pipeWrite src v.pipe with
    | (r,pb)=>(r,{v with pipe:=pb})

/-- A call of `read` or `write` on a descriptor of a pipe; there is no result for other vnodes. -/
def Store.pipeIo (s : Store) (f : ℕ) (io : FileDescriptor→Node→FileDescriptor×Node) : Option Store:=
  match s.files f with
  | none=>none
  | some d=>
    match s.nodes d.node with
    | none=>none
    | some v=>
      if v.ops=some .pipe then
        match io d.toFileDescriptor v with
        | (d',v')=>
          some { nodes:=update s.nodes d.node (some v')
                 files:=update s.files f (some {d' with node:=d.node}) }
      else none

/-- The handlers of `read` and `write` look the descriptor up. -/
def World.pipeIo (w : World) (t fd : ℕ) (io : FileDescriptor→Node→FileDescriptor×Node) : Option World:=
  match w.fdTable t with
  | none=>some w
  | some tab=>
    match tab.lookup fd with
    | .error _=>some w
    | .ok f=>(w.store.pipeIo f io).map w.setStore

/-- What the tasks can do, with reads and writes on pipes. -/
inductive Call
  | base (op : Op)
  | read (t fd : ℕ) (buf : Bool) (len : ℕ)
  | write (t fd : ℕ) (buf : Bool) (src : List UInt8)

def call (w : World) : Call→Option World
  | .base op=>step w op
  | .read t fd buf len=>
    if buf=false ∨ len=0 then some w else w.pipeIo t fd fun d v=>(d.read pipeOps buf len v).2
  | .write t fd buf src=>
    if buf=false then some w else w.pipeIo t fd fun d v=>(d.write pipeOps buf src v).2

/-- The search of the directory tree finds no pipe, and makes none. -/
def Op.OffPipes : Op→World→Prop
  | .openPath _ _ resolved created _ _, w=>
    (∀n∈resolved,∀v∈w.store.nodes n,v.ops≠some .pipe) ∧ ∀p∈created,p.2.ops≠some .pipe
  | .spawn _ tty _, w=>∀n∈tty,∀v∈w.store.nodes n,v.ops≠some .pipe
  | _, _=>True

def Call.Valid : Call→World→Prop
  | .base op, w=>op.Valid w ∧ op.OffPipes w
  | _, _=>True

def PipeFree (w : World) : Prop:=Booted w ∧ ∀n,∀v∈w.store.nodes n,v.ops≠some .pipe

/-- Some descriptor, in a slot or not, refers to a vnode. -/
def Store.Referred (s : Store) (n : ℕ) : Prop:=∃f d,s.files f=some d ∧ d.node=n

/-- The buffer of a pipe is there, and its count is two as long as there are descriptors. -/
def Node.PipeKept (v : Node) : Prop:=
  v.ops=some .pipe→∃pb,v.pipe=some pb ∧ pb.refcount=if v.vnode.refcount=0 then 1 else 2

def Store.PipesKept (s : Store) : Prop:=∀n v,s.nodes n=some v→v.PipeKept

section

variable {s s' : Store} {held : List ℕ} {n f : ℕ} {v v' : Node} {d : OpenFile} {op : Op}

theorem Store.PipesKept.setNode (h : s.PipesKept) (hv : v.PipeKept) (files : ℕ→Option OpenFile) :
    Store.PipesKept ⟨update s.nodes n (some v),files⟩:=by
  intro m u hu
  simp only [update_apply] at hu
  split at hu
  · cases hu
    exact hv
  · exact h m u hu

theorem Node.PipeKept.dropRef (h : v.PipeKept) (hpos : 0<v.vnode.refcount) (hlt : v.vnode.refcount<4294967295) :
    v.dropRef.PipeKept:=by
  have hpred : pred32 v.vnode.refcount=v.vnode.refcount-1:=by
    unfold pred32 u32
    omega
  intro hops
  unfold Node.dropRef at hops ⊢
  rw [hpred] at hops ⊢
  have hpipe : v.ops=some .pipe:=by
    split at hops
    · rename_i hc
      exact hc.2
    · exact hops
  obtain ⟨pb,hpb,hcount⟩:=h hpipe
  rw [if_neg (by omega)] at hcount
  by_cases hzero : v.vnode.refcount-1=0
  · have htwo : pred32 pb.refcount=1:=by rw [hcount]; rfl
    rw [if_pos ⟨hzero,hpipe⟩]
    refine ⟨{pb with refcount:=1},?_,?_⟩
    · simp [Node.pipeClose,hpb,htwo]
    · simp [Node.pipeClose,hpb,htwo,hzero]
  · rw [if_neg (fun hc=>hzero hc.1)]
    exact ⟨pb,hpb,by rw [hcount,if_neg hzero]⟩

theorem Node.PipeKept.addRef (h : v.PipeKept) (hpos : 0<v.vnode.refcount) (hlt : v.vnode.refcount<4294967295) :
    v.addRef.PipeKept:=by
  intro hops
  obtain ⟨pb,hpb,hcount⟩:=h hops
  refine ⟨pb,hpb,?_⟩
  rw [if_neg (by omega)] at hcount
  have hne : u32 (v.vnode.refcount+1)≠0:=by
    unfold u32
    omega
  rw [hcount,Node.addRef,if_neg hne]

theorem Balanced.refcount_pos (h : Balanced s held) (hf : f∈held) (hd : s.files f=some d)
    (hv : s.nodes d.node=some v) : 0<v.vnode.refcount ∧ v.vnode.refcount<4294967295:=by
  rw [h.refcount d.node v hv]
  refine ⟨countP_pos_iff.mpr ⟨f,hf,?_⟩,h.countP_lt _⟩
  simp [Store.refersTo,hd]

section

variable (h : s.PipesKept)
include h

theorem Store.PipesKept.close (hb : Balanced s (f::held)) : (s.close (some f)).PipesKept:=by
  obtain ⟨d,hd,hsome⟩:=hb.refers f mem_cons_self
  obtain ⟨v,hv⟩:=isSome_iff_exists.mp hsome
  obtain ⟨hpos,hlt⟩:=hb.refcount_pos mem_cons_self hd hv
  simp only [Store.close,hd,Store.modifyNode,hv,map_some]
  exact h.setNode ((h d.node v hv).dropRef hpos hlt) _

theorem Store.PipesKept.closeAll {fs : List ℕ} (hb : Balanced s (fs++held)) : (s.closeAll fs).PipesKept:=by
  induction fs generalizing s with
  | nil=>exact h
  | cons f fs ih=>exact ih (h.close hb) hb.close

theorem Store.PipesKept.dup (hb : Balanced s held) (hf : f∈held) (copy : Option ℕ) : (s.dup f copy).2.PipesKept:=by
  obtain ⟨d,hd,hsome⟩:=hb.refers f hf
  obtain ⟨v,hv⟩:=isSome_iff_exists.mp hsome
  obtain ⟨hpos,hlt⟩:=hb.refcount_pos hf hd hv
  unfold Store.dup
  rw [hd]
  cases copy with
  | none=>exact h
  | some c=>
    simp only [Store.modifyNode,hv,map_some]
    exact h.setNode ((h d.node v hv).addRef hpos hlt) _

theorem Store.PipesKept.openNode (hn : ∀v∈s.nodes n,v.ops≠some .pipe) (flags : ℕ)
    (fd : Option ℕ) : (s.openNode n flags fd).2.PipesKept ∧
    ∀v∈(s.openNode n flags fd).2.nodes n,v.ops≠some .pipe:=by
  unfold Store.openNode
  cases hv : s.nodes n with
  | none=>exact ⟨h,by simp [hv]⟩
  | some v=>
    have hops:=hn v hv
    have hkept (v' : Node) (he : v'.ops=v.ops) : v'.PipeKept:=fun hp=>absurd (he▸hp) hops
    cases fd with
    | none=>
      refine ⟨h.setNode ?_ _,by simpa using hops⟩
      exact hkept _ rfl
    | some f=>
      refine ⟨h.setNode ?_ _,by simpa [Node.addRef] using hops⟩
      exact hkept _ rfl

theorem Store.PipesKept.openTty {tty : Option ℕ} (ht : ∀n∈tty,∀v∈s.nodes n,v.ops≠some .pipe)
    (flags : ℕ) (fd : Option ℕ) : (s.vfsOpen tty none flags fd).2.PipesKept ∧
    ∀n∈tty,∀v∈(s.vfsOpen tty none flags fd).2.nodes n,v.ops≠some .pipe:=by
  unfold Store.vfsOpen
  cases tty with
  | none=>
    dsimp only
    split <;> exact ⟨h,nofun⟩
  | some n=>
    obtain ⟨hkept,hops⟩:=h.openNode (ht n rfl) flags fd
    exact ⟨hkept,fun m hm=>some.inj hm▸hops⟩

theorem Store.PipesKept.vfsOpen {resolved : Option ℕ} {created : Option (ℕ×Node)}
    (hr : ∀n∈resolved,∀v∈s.nodes n,v.ops≠some .pipe) (hc : ∀p∈created,p.2.ops≠some .pipe)
    (flags : ℕ) (fd : Option ℕ) : (s.vfsOpen resolved created flags fd).2.PipesKept:=by
  unfold Store.vfsOpen
  cases resolved with
  | some n=>exact (h.openNode (hr n rfl) flags fd).1
  | none=>
    dsimp only
    split
    · exact h
    cases created with
    | none=>exact h
    | some p=>
      have hp:=hc p rfl
      exact (Store.PipesKept.openNode (h.setNode (fun hop=>absurd hop hp) s.files) (by simpa using hp) flags fd).1

theorem Store.PipesKept.pipe (buffer : Bool) (node rfd wfd : Option ℕ) : (s.pipe buffer node rfd wfd).2.PipesKept:=by
  unfold Store.pipe
  split
  · refine h.setNode (fun _=>⟨_,rfl,?_⟩) _
    decide
  · exact h

end

theorem Store.PipesKept.cloneClosing {src : FDTable} (hsrc : ∀f∈src.entries,f∈held) {is : List ℕ} (his : is.Nodup)
    {mem : List (Option ℕ)} {dst : FDTable} (hdst : ∀i∈is,i < maxFds ∧ dst.fds i=none) (h : s.PipesKept)
    (hb : Balanced s (dst.entries++held)) (hm : Supply s mem) : (src.cloneClosing is mem dst s).1.PipesKept:=by
  induction is generalizing mem dst s with
  | nil=>exact h
  | cons i is ih=>
    obtain ⟨hi,his⟩:=nodup_cons.mp his
    obtain ⟨hlt,hnone⟩:=hdst i mem_cons_self
    unfold FDTable.cloneClosing
    cases hf : src.fds i with
    | none=>exact ih his (fun j hj=>hdst j (mem_cons_of_mem _ hj)) h hb hm
    | some f=>
      have hmem : f∈dst.entries++held:=mem_append_right _ (hsrc f (mem_filled.mpr ⟨i,hlt,hf⟩))
      have hm' : Supply s (mem.head?.join::mem.tail):=by cases mem <;> exact hm
      have hdup:=hb.dup hm' hmem
      have hkept:=h.dup hb hmem mem.head?.join
      dsimp only
      generalize s.dup f mem.head?.join=r at hdup hkept ⊢
      rcases r with ⟨e | c,s1⟩
      · exact hkept
      refine ih his (fun j hj=>?_) hkept (hdup.1.perm ?_) hdup.2
      · obtain ⟨hjlt,hjn⟩:=hdst j (mem_cons_of_mem _ hj)
        exact ⟨hjlt,(update_of_ne (ne_of_mem_of_not_mem hj hi) _ _).trans hjn⟩
      · exact ((FDTable.entries_put hlt hnone).append_right held).symm

end

section World

variable {w w' : World} {lost : List ℕ}

/-- The pipes before a call closes anything. -/
theorem Store.PipesKept.closing (h : w.store.PipesKept) (hw : WellCounted lost w) (hv : op.Valid w)
    (ho : op.OffPipes w) : (w.closing op).1.PipesKept:=by
  cases op with
  | openPath t path resolved created flags fd=>
    have hopen:=h.vfsOpen ho.1 ho.2 flags fd
    dsimp only [World.closing]
    split
    · cases w.fdTable t with
      | none=>exact h
      | some tab=>
        generalize w.store.vfsOpen resolved created flags fd=r at hopen ⊢
        rcases r with ⟨e | f,s1⟩ <;> exact hopen
    · exact h
  | close t fd=>
    dsimp only [World.closing]
    cases w.fdTable t with
    | none=>exact h
    | some tab=>
      dsimp only
      cases tab.remove fd <;> exact h
  | dup t fd copy=>
    dsimp only [World.closing]
    cases ht : w.fdTable t with
    | none=>exact h
    | some tab=>
      dsimp only
      cases hl : tab.lookup fd with
      | error e=>exact h
      | ok f=>
        have hdup:=h.dup (hw.split ht) (mem_append_left _ (FDTable.mem_of_lookup hl)) copy
        dsimp only
        generalize w.store.dup f copy=r at hdup ⊢
        rcases r with ⟨e | c,s1⟩ <;> exact hdup
  | dup2 t oldfd newfd copy=>
    dsimp only [World.closing]
    cases ht : w.fdTable t with
    | none=>exact h
    | some tab=>
      dsimp only
      split
      · exact h
      cases hl : tab.lookup oldfd with
      | error e=>exact h
      | ok f=>
        have hdup:=h.dup (hw.split ht) (mem_append_left _ (FDTable.mem_of_lookup hl)) copy
        dsimp only
        generalize w.store.dup f copy=r at hdup ⊢
        rcases r with ⟨e | c,s1⟩
        · exact hdup
        · dsimp only
          split <;> exact hdup
  | pipe t fds buffer node rfd wfd=>
    have hpipe:=h.pipe buffer node rfd wfd
    dsimp only [World.closing]
    split
    · cases w.fdTable t with
      | none=>exact h
      | some tab=>
        generalize w.store.pipe buffer node rfd wfd=r at hpipe ⊢
        rcases r with ⟨e | ⟨r,wr⟩,s1⟩
        · exact hpipe
        dsimp only
        split
        · exact hpipe
        · split <;> exact hpipe
    · exact h
  | exit t=>
    dsimp only [World.closing]
    cases w.fdTable t <;> exact h
  | fork t child table mem=>
    dsimp only [World.closing]
    cases ht : w.fdTable t with
    | none=>exact h
    | some src=>
      cases table with
      | false=>exact h
      | true=>
        have hsrc (f : ℕ) (hf : f∈src.entries) : f∈w.held++lost:=
          (World.held_perm ht).mem_iff.mpr (mem_append_left _ hf)
        refine Store.PipesKept.cloneClosing hsrc nodup_range (fun i hi=>⟨mem_range.mp hi,rfl⟩) h ?_ hv.1
        exact hw.balanced
  | spawn t tty mem=>
    obtain ⟨h1,ht1⟩:=h.openTty ho vfsRead mem.1
    obtain ⟨h2,ht2⟩:=h1.openTty ht1 vfsWrite mem.2.1
    exact (h2.openTty ht2 vfsWrite mem.2.2).1

theorem Store.PipesKept.step (h : w.store.PipesKept) (hw : WellCounted lost w) (hv : op.Valid w)
    (ho : op.OffPipes w) (hs : step w op=some w') : w'.store.PipesKept:=by
  obtain ⟨rest,hb⟩:=hw.closing hv
  rw [store_step hs]
  exact (h.closing hw hv ho).closeAll hb

end World

section Io

variable {s : Store} {held : List ℕ} {f : ℕ} {io : FileDescriptor→Node→FileDescriptor×Node}

/-- A read or write of a pipe changes its ring only. -/
def RingOnly (io : FileDescriptor→Node→FileDescriptor×Node) : Prop:=
  ∀d v,∃pb,(io d v).2={v with pipe:=pb} ∧ pb.map PipeBuffer.refcount=v.pipe.map PipeBuffer.refcount

theorem PipeBuffer.refcount_readLoop (n : ℕ) (pb : PipeBuffer) : (pb.readLoop n).2.refcount=pb.refcount:=by
  induction n generalizing pb with
  | zero=>rfl
  | succ n ih=>exact ih _

theorem PipeBuffer.refcount_writeLoop (src : List UInt8) (pb : PipeBuffer) :
    (pb.writeLoop src).refcount=pb.refcount:=by
  induction src generalizing pb with
  | nil=>rfl
  | cons b src ih=>exact ih _

theorem refcount_pipeRead (len : ℕ) (pb : Option PipeBuffer) :
    (pipeRead len pb).2.map PipeBuffer.refcount=pb.map PipeBuffer.refcount:=by
  cases pb with
  | none=>rfl
  | some pb=>
    simp only [pipeRead]
    split
    · rfl
    · exact congrArg some (PipeBuffer.refcount_readLoop ..)

theorem refcount_pipeWrite (src : List UInt8) (pb : Option PipeBuffer) :
    (pipeWrite src pb).2.map PipeBuffer.refcount=pb.map PipeBuffer.refcount:=by
  cases pb with
  | none=>rfl
  | some pb=>
    simp only [pipeWrite]
    generalize (if src.length<pipeBufSize-pb.used then src.length else pipeBufSize-pb.used)=n
    split
    · rfl
    · exact congrArg some (PipeBuffer.refcount_writeLoop ..)

theorem ringOnly_read (buf : Bool) (len : ℕ) : RingOnly fun d v=>(d.read pipeOps buf len v).2:=by
  intro d v
  rcases read_state pipeOps buf len d v with he | ⟨opRead,hop,he⟩
  · exact ⟨v.pipe,he,rfl⟩
  · cases hop
    exact ⟨_,he,refcount_pipeRead ..⟩

theorem ringOnly_write (buf : Bool) (src : List UInt8) : RingOnly fun d v=>(d.write pipeOps buf src v).2:=by
  intro d v
  rcases write_state pipeOps buf src d v with he | ⟨opWrite,hop,he⟩
  · exact ⟨v.pipe,he,rfl⟩
  · cases hop
    exact ⟨_,he,refcount_pipeWrite ..⟩

theorem Balanced.setFile (h : Balanced s held) (hd : s.files f=some d) (d' : OpenFile) (hnode : d'.node=d.node) :
    Balanced {s with files:=update s.files f (some d')} held:=by
  have hrefers (n g : ℕ) : Store.refersTo {s with files:=update s.files f (some d')} n g=s.refersTo n g:=by
    by_cases hg : g=f
    · subst hg
      simp [Store.refersTo,hd,hnode]
    · simp [Store.refersTo,update_of_ne hg]
  refine ⟨h.nodup,h.heap,fun g hg=>?_,fun g hg=>?_,fun n v hv=>?_⟩
  · by_cases hgf : g=f
    · subst hgf
      obtain ⟨e,he,hv⟩:=h.refers g hg
      obtain rfl:=some.inj (he.symm.trans hd)
      exact ⟨d',update_self ..,hnode▸hv⟩
    · simpa [update_of_ne hgf] using h.refers g hg
  · by_cases hgf : g=f
    · exact hgf▸h.all f (by rw [hd]; rfl)
    · simp only [update_of_ne hgf] at hg
      exact h.all g hg
  · rw [h.refcount n v hv]
    exact countP_congr fun g _=>by rw [hrefers]

theorem pipeIo_spec (hio : RingOnly io) (h : Balanced s held) (hk : s.PipesKept)
    (hs : s.pipeIo f io=some s') : Balanced s' held ∧ s'.PipesKept:=by
  unfold Store.pipeIo at hs
  split at hs
  · cases hs
  rename_i d hd
  split at hs
  · cases hs
  rename_i v hv
  split at hs
  · cases hs
    obtain ⟨pb,hpb,hcount⟩:=hio d.toFileDescriptor v
    rw [hpb]
    constructor
    · have hfile:=h.setFile hd {(io d.toFileDescriptor v).1 with node:=d.node} rfl
      exact hfile.setNode (hfile.refcount d.node v hv)
    refine hk.setNode (fun hops=>?_) _
    obtain ⟨pb0,hpb0,hone⟩:=hk d.node v hv hops
    rw [hpb0] at hcount
    obtain ⟨pb',rfl,he⟩:=map_eq_some_iff.mp hcount
    exact ⟨pb',rfl,he.trans hone⟩
  · cases hs

end Io

section Run

variable {w w' : World} {n : ℕ} {v : Node}

def PipesIntact (w : World) : Prop:=(∃lost,WellCounted lost w) ∧ w.store.PipesKept

theorem PipeFree.intact (h : PipeFree w) : PipesIntact w:=
  ⟨⟨[],h.1.wellCounted⟩,fun n v hv hp=>absurd hp (h.2 n v hv)⟩

theorem PipesIntact.pipeIo (h : PipesIntact w) {t fd : ℕ}
    (hio : RingOnly io) (hs : w.pipeIo t fd io=some w') : PipesIntact w':=by
  obtain ⟨⟨lost,hw⟩,hk⟩:=h
  unfold World.pipeIo at hs
  split at hs
  · cases hs
    exact ⟨⟨lost,hw⟩,hk⟩
  split at hs
  · cases hs
    exact ⟨⟨lost,hw⟩,hk⟩
  obtain ⟨s',hs',rfl⟩:=map_eq_some_iff.mp hs
  obtain ⟨hb,hk'⟩:=pipeIo_spec hio hw.balanced hk hs'
  exact ⟨⟨lost,hw.setStore hb⟩,hk'⟩

theorem PipesIntact.call (h : PipesIntact w) {op : Call} (hv : op.Valid w) (hs : call w op=some w') :
    PipesIntact w':=by
  cases op with
  | base op=>
    obtain ⟨⟨lost,hw⟩,hk⟩:=h
    obtain ⟨lost',hw',-⟩:=hw.step hv.1 hs
    exact ⟨⟨lost',hw'⟩,hk.step hw hv.1 hv.2 hs⟩
  | read t fd buf len=>
    simp only [Descriptors.call] at hs
    split at hs
    · cases hs
      exact h
    · exact h.pipeIo (ringOnly_read buf len) hs
  | write t fd buf src=>
    simp only [Descriptors.call] at hs
    split at hs
    · cases hs
      exact h
    · exact h.pipeIo (ringOnly_write buf src) hs

theorem PipesIntact.of_reach (h : Reach PipeFree Descriptors.call Call.Valid w) : PipesIntact w:=
  h.invariant (fun _=>PipeFree.intact) fun _ _ _ hi hv hs=>hi.call hv hs

theorem WellCounted.referred_iff (h : WellCounted lost w) (hv : w.store.nodes n=some v) :
    w.store.Referred n↔v.vnode.refcount≠0:=by
  rw [h.balanced.refcount n v hv,←Nat.pos_iff_ne_zero,countP_pos_iff]
  constructor
  · rintro ⟨f,d,hd,rfl⟩
    exact ⟨f,h.balanced.all f (by rw [hd]; rfl),by simp [Store.refersTo,hd]⟩
  rintro ⟨f,-,hf⟩
  obtain ⟨d,hd,hn⟩:=(any_eq_true _ _).mp hf
  exact ⟨f,d,hd,by simpa using hn⟩

/-- The buffer of a pipe is never freed. So it is freed exactly when no descriptor refers to the
pipe only as long as there is one. -/
theorem pipe_freed_iff (h : Reach PipeFree call Call.Valid w) (hv : w.store.nodes n=some v)
    (hp : v.ops=some .pipe) : (v.pipe=none↔¬w.store.Referred n)↔w.store.Referred n:=by
  obtain ⟨pb,hpb,-⟩:=(PipesIntact.of_reach h).2 n v hv hp
  simp [hpb]

instance : (op : Op)→(w : World)→Decidable (op.OffPipes w)
  | .openPath _ _ resolved created _ _, w=>inferInstanceAs (Decidable
      ((∀n∈resolved,∀v∈w.store.nodes n,v.ops≠some .pipe) ∧ ∀p∈created,p.2.ops≠some .pipe))
  | .spawn _ tty _, w=>inferInstanceAs (Decidable (∀n∈tty,∀v∈w.store.nodes n,v.ops≠some .pipe))
  | .close .., _ | .dup .., _ | .dup2 .., _ | .pipe .., _ | .exit .., _ | .fork .., _=>inferInstanceAs (Decidable True)

instance : (op : Call)→(w : World)→Decidable (op.Valid w)
  | .base _, _=>inferInstanceAs (Decidable (_ ∧ _))
  | .read .., _ | .write .., _=>inferInstanceAs (Decidable True)

theorem bootedWorld_pipeFree : PipeFree bootedWorld:=by
  refine ⟨bootedWorld_booted,fun n v hv=>?_⟩
  simp only [bootedWorld,mem_def] at hv
  split at hv
  · cases hv
    decide
  · split at hv <;> cases hv
    decide

/-- A task makes a pipe, as descriptors 3 and 4, writes into it and closes the end for writing. -/
def piped : List Call:=
  [.base (.spawn 7 (some 0) (fileAt 1,fileAt 2,fileAt 3)),
   .base (.pipe 7 true true (some 2) (fileAt 4) (fileAt 5)),.write 7 4 true [0x61],.base (.close 7 4)]

theorem pipe_freed_iff_piped : ∃w v,Reach PipeFree call Call.Valid w ∧ w.store.nodes 2=some v ∧
    w.store.Referred 2 ∧ (v.pipe=none↔¬w.store.Referred 2):=by
  have h₀ : Reach PipeFree call Call.Valid bootedWorld:=.start bootedWorld_pipeFree
  obtain ⟨w,hw,hnode,hfile⟩:=h₀.exists_replay piped
    (fun w=>(w.store.nodes 2).any (fun v=>v.ops=some .pipe)=true ∧
      ((fileAt 4).bind w.store.files).any (fun d=>d.node=2)=true) (by decide +kernel)
  obtain ⟨v,hv,hp⟩:=(any_eq_true _ _).mp hnode
  obtain ⟨d,hd,hn⟩:=(any_eq_true _ _).mp hfile
  have href : w.store.Referred 2:=⟨_,d,hd,by simpa using hn⟩
  exact ⟨w,v,hw,hv,href,(pipe_freed_iff hw hv (by simpa using hp)).mpr href⟩

/-- Both ends are closed, and the buffer is still there. -/
theorem pipe_leaked : ∃w v,Reach PipeFree call Call.Valid w ∧ w.store.nodes 2=some v ∧ v.ops=some .pipe ∧
    v.pipe≠none ∧ ¬w.store.Referred 2:=by
  have h₀ : Reach PipeFree call Call.Valid bootedWorld:=.start bootedWorld_pipeFree
  obtain ⟨w,hw,hnode⟩:=h₀.exists_replay (piped++[.base (.close 7 3)])
    (fun w=>(w.store.nodes 2).any (fun v=>v.ops=some .pipe ∧ v.pipe.isSome ∧ v.vnode.refcount=0)=true)
    (by decide +kernel)
  obtain ⟨v,hv,hp⟩:=(any_eq_true _ _).mp hnode
  obtain ⟨hops,hpipe,hzero⟩ : v.ops=some .pipe ∧ v.pipe.isSome ∧ v.vnode.refcount=0:=by simpa using hp
  obtain ⟨⟨lost,hwc⟩,-⟩:=PipesIntact.of_reach hw
  exact ⟨w,v,hw,hv,hops,isSome_iff_ne_none.mp hpipe,fun href=>(hwc.referred_iff hv).mp href hzero⟩

end Run

end Knail.Descriptors
