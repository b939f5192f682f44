import Knail.TreeChanges
import Mathlib.Data.List.Perm.Subperm
import Mathlib.Data.List.TakeWhile

/-!
# Paths

What a path names is found by a walk over its components. `resolve` copies each component to a
buffer of 128 bytes; what does not fit is taken for the next component. The empty path names nothing.
-/
namespace Knail.Directory

open Vfs List

variable {fs : Fs} {kids : ℕ→List ℕ} {cwd : Option ℕ} {path comp rest : List UInt8} {n : ℕ}

/-- The parts of a path between its slashes, without empty ones. -/
def components (path : List UInt8) : List (List UInt8):=(path.splitOn slash).filter (· ≠ [])

/-- The lists of children of a tree of vnodes. A name fits its buffer. -/
structure Fs.HasKids (fs : Fs) (kids : ℕ→List ℕ) : Prop where
  path : ∀n∈fs.live,Path fs.next (fs.node n).children (kids n) none
  live : ∀n∈fs.live,∀c∈kids n,c∈fs.live
  up : ∀n∈fs.live,∀p∈(fs.node n).parent,p∈fs.live
  root : ∃r∈fs.live,fs.root=some r
  length : ∀n∈fs.live,(fs.node n).name.length<nameSize

def Fs.walkFrom (fs : Fs) (kids : ℕ→List ℕ) : List (List UInt8)→ℕ→Option ℕ
  | [], n=>some n
  | comp::comps, n=>
    if comp=[dot] then fs.walkFrom kids comps n
    else if comp=[dot,dot] then fs.walkFrom kids comps ((fs.node n).parent.getD n)
    else if (fs.node n).type = .dir then
      ((kids n).find? fun c=>(fs.node c).name=comp).bind (fs.walkFrom kids comps)
    else none

def Fs.startOf (fs : Fs) (cwd : Option ℕ) (path : List UInt8) : Option ℕ:=
  if path.head? = some slash then fs.root else fs.getCwd cwd

def Fs.walkPath (fs : Fs) (kids : ℕ→List ℕ) (cwd : Option ℕ) (path : List UInt8) : Option ℕ:=
  (fs.startOf cwd path).bind (fs.walkFrom kids (components path))

theorem components_slash (path : List UInt8) : components (slash::path)=components path:=by
  rw [components,components,splitOn_eq_splitOnP,splitOn_eq_splitOnP,splitOnP_cons_eq_if_modifyHead,
    if_pos (by simp),filter_cons_of_neg (by simp)]

theorem components_dropWhile (path : List UInt8) : components (path.dropWhile (· = slash))=components path:=by
  induction path with
  | nil=>rfl
  | cons c path ih=>
    by_cases hc : c=slash
    · rw [dropWhile_cons_of_pos (by simpa using hc),ih,hc,components_slash]
    · rw [dropWhile_cons_of_neg (by simpa using hc)]

theorem components_append (hne : comp≠[]) (hplain : slash∉comp) (hrest : rest=[] ∨ rest.head? = some slash) :
    components (comp++rest)=comp::components rest:=by
  have hsep (c : UInt8) (hc : c∈comp) : (c == slash)=false:=by simpa using ne_of_mem_of_not_mem hc hplain
  have hkeep (l : List (List UInt8)) : (comp::l).filter (· ≠ [])=comp::l.filter (· ≠ []):=
    filter_cons_of_pos (by simpa using hne)
  obtain rfl | hhead:=hrest
  · rw [append_nil,components,splitOn_eq_splitOnP,splitOnP_eq_singleton hsep,hkeep]
    rfl
  obtain ⟨rest,rfl⟩:=head?_eq_some_iff.mp hhead
  rw [components,splitOn_eq_splitOnP,splitOnP_append_cons _ _ (by simp),splitOnP_eq_singleton hsep,
    singleton_append,hkeep,components_slash,components,splitOn_eq_splitOnP]

/-- The pieces of a component that fit the buffer, one after the other. -/
def cut : ℕ→List UInt8→List (List UInt8)
  | 0, _=>[]
  | k+1, comp=>if comp=[] then [] else comp.take (nameSize-1)::cut k (comp.drop (nameSize-1))

def pieces (comp : List UInt8) : List (List UInt8):=cut comp.length comp

theorem cut_eq {k k' : ℕ} (hk : comp.length≤k) (hk' : comp.length≤k') : cut k comp=cut k' comp:=by
  induction k generalizing k' comp with
  | zero=>
    obtain rfl:=length_eq_zero_iff.mp (Nat.le_zero.mp hk)
    cases k' <;> rfl
  | succ k ih=>
    by_cases hne : comp=[]
    · subst hne
      cases k' <;> rfl
    have hpos:=length_pos_of_ne_nil hne
    obtain ⟨k',rfl⟩ : ∃j,k'=j+1:=⟨k'-1,by omega⟩
    have hlen : (comp.drop (nameSize-1)).length<comp.length:=by
      rw [length_drop,nameSize]
      omega
    rw [cut,cut,if_neg hne,if_neg hne,@ih _ k' (by omega) (by omega)]

theorem pieces_eq (hne : comp≠[]) : pieces comp=comp.take (nameSize-1)::pieces (comp.drop (nameSize-1)):=by
  have hpos:=length_pos_of_ne_nil hne
  obtain ⟨k,hk⟩ : ∃k,comp.length=k+1:=⟨comp.length-1,by omega⟩
  have hlen : (comp.drop (nameSize-1)).length≤k:=by
    rw [length_drop,nameSize]
    omega
  rw [pieces,hk,cut,if_neg hne,pieces,cut_eq hlen (Nat.le_refl _)]

theorem pieces_of_lt (hne : comp≠[]) (hlen : comp.length<nameSize) : pieces comp=[comp]:=by
  rw [pieces_eq hne,take_of_length_le (by omega),drop_eq_nil_of_le (by omega)]
  rfl

/-- The components as `path_next` finds them. -/
def piecesOf (path : List UInt8) : List (List UInt8):=(components path).flatMap pieces

theorem eq_slash_of_head? {p : UInt8→Bool} {c : UInt8} (h : (path.dropWhile p).head? = some c) : p c=false:=by
  obtain ⟨rest,hrest⟩:=head?_eq_some_iff.mp h
  have hnot:=head_dropWhile_not p (show path.dropWhile p≠[] by rw [hrest]; exact cons_ne_nil c rest)
  simpa only [hrest,head_cons] using hnot

theorem exists_pathNext (path : List UInt8) : ∃comp rest,path.dropWhile (· = slash)=comp++rest ∧ slash∉comp ∧
    (rest=[] ∨ rest.head? = some slash) ∧ (comp=[] → rest=[]) ∧
    pathNext path=(comp.take (nameSize-1),comp.drop (nameSize-1)++rest):=by
  have hsplit:=takeWhile_append_dropWhile (p:=fun c=>decide (c≠slash)) (l:=path.dropWhile (· = slash))
  have hrest (c : UInt8) (hc : ((path.dropWhile (· = slash)).dropWhile (· ≠ slash)).head? = some c) : c=slash:=by
    simpa using eq_slash_of_head? hc
  have hplain : slash∉(path.dropWhile (· = slash)).takeWhile (· ≠ slash):=fun hmem=>by
    simpa using mem_takeWhile_imp hmem
  refine ⟨_,_,hsplit.symm,hplain,?_,fun hnil=>?_,?_⟩
  · cases hd : (path.dropWhile (· = slash)).dropWhile (· ≠ slash) with
    | nil=>exact .inl rfl
    | cons c rest=>exact .inr (by rw [head?_cons,hrest c (by rw [hd]; rfl)])
  · rw [hnil,nil_append] at hsplit
    cases hd : (path.dropWhile (· = slash)).dropWhile (· ≠ slash) with
    | nil=>rfl
    | cons c rest=>
      obtain rfl:=hrest c (by rw [hd]; rfl)
      rw [hd] at hsplit
      have hnot:=@eq_slash_of_head? path (· = slash) slash (by rw [←hsplit]; rfl)
      simp at hnot
  · have hdrop (comp rest : List UInt8) : (comp++rest).drop (comp.take (nameSize-1)).length=comp.drop (nameSize-1)++rest:=by
      rw [length_take]
      by_cases hlen : nameSize-1 ≤ comp.length
      · rw [Nat.min_eq_left hlen,drop_append_of_le_length hlen]
      · rw [Nat.min_eq_right (by omega),drop_left,drop_eq_nil_of_le (by omega),nil_append]
    refine Prod.ext rfl ?_
    have hpath:=hdrop ((path.dropWhile (· = slash)).takeWhile (· ≠ slash)) ((path.dropWhile (· = slash)).dropWhile (· ≠ slash))
    rwa [hsplit] at hpath

theorem piecesOf_eq (path : List UInt8) :
    piecesOf path=if (pathNext path).1=[] then [] else (pathNext path).1::piecesOf (pathNext path).2:=by
  obtain ⟨comp,rest,hpath,hplain,hrest,hnil,hnext⟩:=exists_pathNext path
  have hcomp : piecesOf path=piecesOf (comp++rest):=by rw [piecesOf,←components_dropWhile,hpath,piecesOf]
  rw [hcomp,hnext]
  by_cases hne : comp=[]
  · rw [hne,hnil hne,take_nil,if_pos rfl]
    rfl
  have htake : comp.take (nameSize-1)≠[]:=by simpa [nameSize] using hne
  rw [if_neg htake,piecesOf,components_append hne hplain hrest,flatMap_cons,pieces_eq hne,cons_append]
  -- what is left of the component is the first one of what is left of the path
  by_cases hleft : comp.drop (nameSize-1)=[]
  · rw [hleft,nil_append]
    rfl
  · rw [piecesOf,components_append hleft (fun h=>hplain (mem_of_mem_drop h)) hrest,flatMap_cons]

section

variable (h : fs.HasKids kids)
include h

theorem Fs.HasKids.findChild_eq (hn : n∈fs.live) (name : List UInt8) :
    fs.findChild n name=(kids n).find? fun c=>(fs.node c).name=name:=by
  have hlen : (kids n).length<fs.fuel:=
    Nat.lt_succ_of_le ((h.path n hn).nodup_of_none.subperm (h.live n hn)).length_le
  rw [Fs.findChild,walk_eq_find? (h.path n hn) hlen]
  rfl

theorem Fs.HasKids.resolveLoop_eq {fuel : ℕ} (hn : n∈fs.live) (hfuel : path.length<fuel) :
    fs.resolveLoop fuel path n=fs.walkFrom kids (piecesOf path) n:=by
  induction fuel generalizing path n with
  | zero=>omega
  | succ fuel ih=>
    rw [Fs.resolveLoop,piecesOf_eq]
    dsimp only
    by_cases hend : (pathNext path).1=[]
    · rw [if_pos hend,if_pos hend]
      rfl
    have hlt:=length_pathNext_lt hend
    rw [if_neg hend,if_neg hend,Fs.walkFrom]
    by_cases hdot : (pathNext path).1=[dot]
    · rw [if_pos hdot,if_pos hdot]
      exact ih hn (by omega)
    rw [if_neg hdot,if_neg hdot]
    by_cases hup : (pathNext path).1=[dot,dot]
    · rw [if_pos hup,if_pos hup]
      refine ih ?_ (by omega)
      cases hp : (fs.node n).parent with
      | none=>exact hn
      | some p=>exact h.up n hn p hp
    rw [if_neg hup,if_neg hup,h.findChild_eq hn,ite_not]
    split
    · cases hc : (kids n).find? fun c=>(fs.node c).name=(pathNext path).1 with
      | none=>rfl
      | some c=>exact ih (h.live n hn c (mem_of_find?_eq_some hc)) (by omega)
    · rfl

theorem Fs.HasKids.walkFrom_long {comps : List (List UInt8)} (hn : n∈fs.live)
    (hlong : ∃comp∈comps,nameSize ≤ comp.length) : fs.walkFrom kids comps n=none:=by
  induction comps generalizing n with
  | nil=>simp at hlong
  | cons comp comps ih=>
    rw [Fs.walkFrom]
    by_cases hlen : nameSize ≤ comp.length
    · have hdot (xs : List UInt8) (hxs : xs.length<nameSize) : comp≠xs:=by
        rintro rfl
        omega
      rw [if_neg (hdot _ (by decide)),if_neg (hdot _ (by decide))]
      have hnone : ((kids n).find? fun c=>(fs.node c).name=comp)=none:=
        find?_eq_none.mpr fun c hc=>by simpa using (hdot _ (h.length c (h.live n hn c hc))).symm
      rw [hnone]
      split <;> rfl
    · have hrest : ∃comp∈comps,nameSize ≤ comp.length:=by simpa [hlen] using hlong
      split
      · exact ih hn hrest
      split
      · refine ih ?_ hrest
        cases hp : (fs.node n).parent with
        | none=>exact hn
        | some p=>exact h.up n hn p hp
      split
      · cases hc : (kids n).find? fun c=>(fs.node c).name=comp with
        | none=>rfl
        | some c=>exact ih (h.live n hn c (mem_of_find?_eq_some hc)) hrest
      · rfl

theorem Fs.HasKids.resolveInternal_eq (hcwd : ∀n∈cwd,n∈fs.live) (hpath : path≠[]) :
    ∃n∈fs.live,fs.startOf cwd path=some n ∧ fs.resolveInternal cwd path=fs.walkFrom kids (piecesOf path) n:=by
  obtain ⟨c,rest,rfl⟩:=exists_cons_of_ne_nil hpath
  obtain ⟨r,hr,hroot⟩:=h.root
  rw [Fs.startOf,Fs.resolveInternal,head?_cons]
  by_cases hc : c=slash
  · have hpieces : piecesOf (c::rest)=piecesOf rest:=by rw [hc,piecesOf,components_slash,piecesOf]
    rw [if_pos (congrArg some hc),if_pos hc,hroot,Option.bind_some,hpieces]
    exact ⟨r,hr,rfl,h.resolveLoop_eq hr (Nat.lt_succ_of_lt (Nat.lt_succ_self _))⟩
  rw [if_neg (by simpa using hc),if_neg hc]
  cases cwd with
  | none=>
    refine ⟨r,hr,hroot,?_⟩
    rw [Fs.getCwd,hroot]
    exact h.resolveLoop_eq hr (Nat.lt_succ_self _)
  | some n=>exact ⟨n,hcwd n rfl,rfl,h.resolveLoop_eq (hcwd n rfl) (Nat.lt_succ_self _)⟩

end

theorem piecesOf_of_short (hshort : ∀comp∈components path,comp.length<nameSize) : piecesOf path=components path:=by
  have hne (comp : List UInt8) (hc : comp∈components path) : comp≠[]:=by simpa using (mem_filter.mp hc).2
  rw [piecesOf,flatMap_congr fun comp hc=>pieces_of_lt (hne comp hc) (hshort comp hc),flatMap_singleton']

/-- `resolve` finds what the walk over the components finds, exactly if the path is not empty and each
component fits the buffer, or the pieces of those that do not fit lead nowhere either. -/
theorem resolve_eq_walk_iff (h : fs.HasKids kids) (hcwd : ∀n∈cwd,n∈fs.live) (path : List UInt8) :
    fs.resolveInternal cwd path=fs.walkPath kids cwd path↔path≠[] ∧ ((∀comp∈components path,comp.length<nameSize) ∨
    (fs.startOf cwd path).bind (fs.walkFrom kids ((components path).flatMap pieces))=none):=by
  by_cases hpath : path=[]
  · subst hpath
    obtain ⟨r,-,hroot⟩:=h.root
    refine iff_of_false (fun heq=>?_) fun hne=>hne.1 rfl
    have hwalk : fs.walkPath kids cwd []=cwd.or fs.root:=by
      rw [Fs.walkPath,Fs.startOf,if_neg (by decide),Fs.getCwd]
      cases cwd.or fs.root <;> rfl
    rw [hwalk,hroot] at heq
    cases cwd <;> cases heq
  · obtain ⟨n,hn,hstart,hresolve⟩:=h.resolveInternal_eq hcwd hpath
    rw [hresolve,Fs.walkPath,hstart,Option.bind_some,Option.bind_some,and_iff_right hpath,←piecesOf]
    by_cases hshort : ∀comp∈components path,comp.length<nameSize
    · rw [piecesOf_of_short hshort]
      exact iff_of_true rfl (.inl hshort)
    · have hlong : ∃comp∈components path,nameSize ≤ comp.length:=by simpa using hshort
      rw [or_iff_right hshort,h.walkFrom_long hn hlong]

/-- The root has a directory with a name of 127 bytes, and this a file. -/
def deepFs : Fs where
  live:=[3,2,1]
  node:=fun n=>
    if n=1 then ⟨[slash],.dir,none,some 2,none,0⟩
    else if n=2 then ⟨List.replicate 127 97,.dir,some 1,some 3,none,0⟩
    else ⟨[98],.file,some 2,none,none,0⟩
  root:=some 1

def deepKids (n : ℕ) : List ℕ:=if n=1 then [2] else if n=2 then [3] else []

theorem deepFs_hasKids : deepFs.HasKids deepKids:=by
  refine ⟨fun n hn=>?_,by decide,by decide,⟨1,by decide,rfl⟩,by decide +kernel⟩
  obtain rfl | rfl | rfl : n=3 ∨ n=2 ∨ n=1:=by simpa [deepFs] using hn
  exacts [rfl,⟨rfl,rfl⟩,⟨rfl,rfl⟩]

/-- The path has one component of 128 bytes, which names nothing. -/
theorem long_component_is_split : deepFs.HasKids deepKids ∧
    deepFs.resolveInternal none (slash::(List.replicate 127 97++[98]))=some 3 ∧
    deepFs.walkPath deepKids none (slash::(List.replicate 127 97++[98]))=none:=by
  refine ⟨deepFs_hasKids,by decide +kernel,by decide +kernel⟩

theorem resolve_eq_walk_deep : deepFs.resolveInternal none [slash,dot,slash,slash,dot,dot] =
    deepFs.walkPath deepKids none [slash,dot,slash,slash,dot,dot]:=
  (resolve_eq_walk_iff deepFs_hasKids (by simp) _).mpr ⟨by simp,.inl (by decide +kernel)⟩

end Knail.Directory
