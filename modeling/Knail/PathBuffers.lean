import Knail.WorkingDirectory

/-!
# The buffers that paths are written to

`resolve_parent` writes the name and the path of the parent, `build_path` the path of a vnode. Each is followed store
by store: the limits of the loops and the stores that end the strings do not agree.
-/
namespace Knail.Directory

open Vfs

/-- The stores of a copying loop that stops at a limit, and where it stops. -/
def copyStores (limit : ℕ) : List UInt8→ℕ→List (ℕ×UInt8)×ℕ
  | [], pos=>([],pos)
  | c::src, pos=>
    if pos<limit then ((pos,c)::(copyStores limit src (pos+1)).1,(copyStores limit src (pos+1)).2)
    else ([],pos)

def ended (loop : List (ℕ×UInt8)×ℕ) : List (ℕ×UInt8):=loop.1++[(loop.2,0)]

def kstrcpyStores (src : List UInt8) (max : ℕ) : List (ℕ×UInt8):=ended (copyStores (max-1) src 0)

/-- The stores of `resolve_parent` to `leaf_name`. -/
def leafStores (path : List UInt8) (max : ℕ) : List (ℕ×UInt8):=
  match lastSlash path 0 none with
  | none=>kstrcpyStores path max
  | some last=>kstrcpyStores (path.drop (last+1)) max

/-- The stores of `resolve_parent` to `parent_path`. -/
def parentStores (path : List UInt8) : List (ℕ×UInt8):=
  match lastSlash path 0 none with
  | none=>[]
  | some last=>
    let plen:=if last=0 then 1 else last
    (copyStores (parentSize-1) (path.take plen) 0).1++[(plen,0)]

/-- The stores of the second loop of `build_path`, and where it stops. -/
def partStores (max : ℕ) : List (List UInt8)→ℕ→List (ℕ×UInt8)×ℕ
  | [], pos=>([],pos)
  | part::rest, pos=>
    if pos<usub64 max 2 then
      let name:=copyStores (usub64 max 1) part (pos+1)
      let others:=partStores max rest name.2
      ((pos,slash)::name.1++others.1,others.2)
    else ([],pos)

/-- The stores of `build_path`. -/
def Fs.pathStores (fs : Fs) (node : Option ℕ) (max : ℕ) : List (ℕ×UInt8):=
  if node=none ∨ node=fs.root then [(0,slash),(1,0)] else ended (partStores max (fs.parts 32 node).reverse 0)

def stored (stores : List (ℕ×UInt8)) (buf : ℕ→UInt8) : ℕ→UInt8:=
  stores.foldl (fun buf s=>Function.update buf s.1 s.2) buf

def Inside (size : ℕ) (stores : List (ℕ×UInt8)) : Prop:=∀s∈stores,s.1<size

instance (size : ℕ) (stores : List (ℕ×UInt8)) : Decidable (Inside size stores):=
  inferInstanceAs (Decidable (∀s∈stores,s.1<size))

/-- `resolve_parent` and `build_path` keep to their buffers, and the path of the vnode ends in its one. -/
structure KeepsToBuffers (fs : Fs) (path : List UInt8) (leafMax : ℕ) (node : Option ℕ) (max : ℕ) : Prop where
  leaf : Inside leafMax (leafStores path leafMax)
  parent : Inside parentSize (parentStores path)
  path : Inside max (fs.pathStores node max)
  ends : ∀buf,∃i < max,stored (fs.pathStores node max) buf i=0

variable {limit max pos : ℕ} {src : List UInt8} {loop : List (ℕ×UInt8)×ℕ}

theorem inside_append {a b : List (ℕ×UInt8)} : Inside max (a++b)↔Inside max a ∧ Inside max b:=
  List.forall_mem_append

/-- A loop stops between its start and its limit, and stores below the limit. -/
structure Bounded (limit pos : ℕ) (loop : List (ℕ×UInt8)×ℕ) : Prop where
  start : pos≤loop.2
  stop : pos≤limit→loop.2≤limit
  stores : Inside limit loop.1

theorem copyStores_bounded (limit : ℕ) (src : List UInt8) (pos : ℕ) : Bounded limit pos (copyStores limit src pos):=by
  induction src generalizing pos with
  | nil=>exact ⟨Nat.le_refl _,id,List.forall_mem_nil _⟩
  | cons c src ih=>
    rw [copyStores]
    split
    · next hlt =>
      exact ⟨Nat.le_of_succ_le (ih _).start,fun _=>(ih _).stop hlt,List.forall_mem_cons.mpr ⟨hlt,(ih _).stores⟩⟩
    · exact ⟨Nat.le_refl _,id,List.forall_mem_nil _⟩

theorem usub64_of_le (h : pos ≤ max) (hmax : max<2^64) : usub64 max pos=max-pos:=by
  unfold usub64 u64
  omega

theorem le_partStores (max : ℕ) (parts : List (List UInt8)) (pos : ℕ) : pos≤(partStores max parts pos).2:=by
  induction parts generalizing pos with
  | nil=>exact Nat.le_refl _
  | cons part rest ih=>
    rw [partStores]
    split
    · exact Nat.le_trans (Nat.le_of_succ_le (copyStores_bounded _ _ _).start) (ih _)
    · exact Nat.le_refl _

theorem partStores_bounded (h2 : 2 ≤ max) (hmax : max<2^64) (parts : List (List UInt8)) (pos : ℕ) :
    Bounded (max-1) pos (partStores max parts pos):=by
  induction parts generalizing pos with
  | nil=>exact ⟨Nat.le_refl _,id,List.forall_mem_nil _⟩
  | cons part rest ih=>
    rw [partStores,usub64_of_le h2 hmax,usub64_of_le (Nat.le_of_succ_le h2) hmax]
    split
    · next hlt =>
      -- the slash takes the place at `pos`, and leaves one for the end
      have hname:=copyStores_bounded (max-1) part (pos+1)
      have hrest:=ih (copyStores (max-1) part (pos+1)).2
      have hpos : pos+1 ≤ max-1:=by omega
      exact ⟨Nat.le_trans (Nat.le_of_succ_le hname.start) hrest.start,fun _=>hrest.stop (hname.stop hpos),
        inside_append.mpr ⟨List.forall_mem_cons.mpr ⟨hpos,hname.stores⟩,hrest.stores⟩⟩
    · exact ⟨Nat.le_refl _,id,List.forall_mem_nil _⟩

theorem inside_ended (h1 : 1 ≤ max) (h : Bounded (max-1) 0 loop) : Inside max (ended loop):=by
  have hstop:=h.stop (Nat.zero_le _)
  exact inside_append.mpr ⟨fun s hs=>Nat.lt_of_lt_of_le (h.stores s hs) (Nat.sub_le _ _),
    List.forall_mem_singleton.mpr (show loop.2 < max by omega)⟩

theorem stored_ended (buf : ℕ→UInt8) : stored (ended loop) buf loop.2=0:=by
  simp [stored,ended]

theorem parentStores_inside_iff (path : List UInt8) : Inside parentSize (parentStores path)↔Short path:=by
  unfold parentStores Short
  cases lastSlash path 0 none with
  | none=>simp [Inside]
  | some last=>
    have hcopy:=(copyStores_bounded (parentSize-1) (path.take (if last=0 then 1 else last)) 0).stores
    have hlast : (if last=0 then 1 else last)<parentSize↔last<parentSize:=by
      unfold parentSize
      split <;> omega
    simp only [inside_append,Option.mem_some_iff,forall_eq',←hlast]
    exact ⟨fun h=>h.2 _ (List.mem_singleton_self _),
      fun h=>⟨fun s hs=>Nat.lt_of_lt_of_le (hcopy s hs) (Nat.sub_le _ _),List.forall_mem_singleton.mpr h⟩⟩

theorem pathStores_one (fs : Fs) (node : Option ℕ) : ¬Inside 1 (fs.pathStores node 1):=by
  unfold Fs.pathStores
  split
  · simp [Inside]
  next h =>
  obtain ⟨n,rfl⟩:=Option.ne_none_iff_exists'.mp fun h0=>h (.inl h0)
  have hparts : fs.parts 32 (some n)≠[]:=by
    rw [Fs.parts,if_neg fun hr=>h (.inr hr.symm)]
    exact List.cons_ne_nil _ _
  obtain ⟨part,rest,hrev⟩:=List.exists_cons_of_ne_nil (List.reverse_ne_nil_iff.mpr hparts)
  intro hin
  have hend : (partStores 1 (part::rest) 0).2<1:=by
    rw [hrev] at hin
    exact hin _ (List.mem_append_right _ (List.mem_singleton_self _))
  have hrest:=le_partStores 1 rest (copyStores (usub64 1 1) part 1).2
  exact absurd (Nat.lt_of_le_of_lt (Nat.le_trans (copyStores_bounded _ _ _).start hrest) hend) (Nat.lt_irrefl 1)

theorem leafStores_inside (path : List UInt8) (h1 : 1 ≤ max) : Inside max (leafStores path max):=by
  unfold leafStores
  split
  · exact inside_ended h1 (copyStores_bounded _ _ _)
  · exact inside_ended h1 (copyStores_bounded _ _ _)

theorem pathStores_inside (fs : Fs) (node : Option ℕ) (h2 : 2 ≤ max) (hmax : max<2^64) :
    Inside max (fs.pathStores node max) ∧ ∀buf,∃i < max,stored (fs.pathStores node max) buf i=0:=by
  unfold Fs.pathStores
  split
  · refine ⟨?_,fun buf=>⟨1,h2,by simp [stored]⟩⟩
    simp only [Inside,List.forall_mem_cons]
    exact ⟨Nat.lt_of_lt_of_le Nat.two_pos h2,h2,List.forall_mem_nil _⟩
  have hloop:=partStores_bounded h2 hmax (fs.parts 32 node).reverse 0
  have hin:=inside_ended (Nat.le_of_succ_le h2) hloop
  exact ⟨hin,fun buf=>⟨_,hin _ (List.mem_append_right _ (List.mem_singleton_self _)),stored_ended buf⟩⟩

/-- The stores stay in the buffers if and only if the last slash lies in `parent_path` and the
buffer for the path of the vnode takes two bytes. -/
theorem keeps_to_buffers_iff (fs : Fs) (path : List UInt8) (leafMax : ℕ) (node : Option ℕ) (max : ℕ) (hleaf : 1≤leafMax)
    (h1 : 1 ≤ max) (hmax : max<2^64) : KeepsToBuffers fs path leafMax node max↔Short path ∧ 2 ≤ max:=by
  constructor
  · intro h
    refine ⟨(parentStores_inside_iff path).mp h.parent,Nat.lt_of_le_of_ne h1 ?_⟩
    rintro rfl
    exact pathStores_one fs node h.path
  · rintro ⟨hshort,h2⟩
    exact ⟨leafStores_inside path hleaf,(parentStores_inside_iff path).mpr hshort,(pathStores_inside fs node h2 hmax).1,
      (pathStores_inside fs node h2 hmax).2⟩

def bareFs : Fs where
  live:=[1]
  node:=fun _=>⟨[],.dir,none,none,none,0⟩
  root:=some 1

theorem keeps_to_buffers_two : KeepsToBuffers bareFs [slash] 1 (some 1) 2:=
  (keeps_to_buffers_iff bareFs [slash] 1 (some 1) 2 (by decide) (by decide) (by decide)).mpr (by decide)

set_option maxRecDepth 2000 in
/-- A `getcwd` with a buffer of one byte, and the path of a name in a directory whose own path takes 256 bytes. -/
theorem path_buffers_overrun : ¬KeepsToBuffers bareFs [slash] 128 (some 1) 1 ∧
    ¬KeepsToBuffers bareFs (List.replicate 256 0x61++[slash,0x62]) 128 (some 1) 64:=by
  refine ⟨fun h=>pathStores_one bareFs (some 1) h.path,fun h=>?_⟩
  have hshort:=(parentStores_inside_iff _).mp h.parent
  revert hshort
  decide

end Knail.Directory
