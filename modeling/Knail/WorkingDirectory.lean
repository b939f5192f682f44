import Knail.Descriptors
import Knail.NamespaceTree

/-!
# The path of a directory

`build_path` collects the names on the way from a vnode up to the root, 32 of them at most, and
writes them in the other order. The path leads back to the vnode if there is room for all names
and the lookup takes each of them for a name.
-/
namespace Knail.Directory

open Vfs Descriptors List Option

def eNotdir : ℤ:=-20

/-- The loop of `build_path` that writes a slash and a name for each part. -/
def writeParts (max : ℕ) : List (List UInt8)→List UInt8→List UInt8
  | [], buf=>buf
  | part::rest, buf=>
    if buf.length<usub64 max 2 then
      writeParts max rest (buf++slash::part.take (usub64 max 1-(buf.length+1)))
    else buf

namespace Fs

variable (fs : Fs) {p : List ℕ}

/-- The loop of `build_path` that collects the names. -/
def parts : ℕ→Option ℕ→List (List UInt8)
  | 0, _=>[]
  | _+1, none=>[]
  | depth+1, some n=>if fs.root=some n then [] else (fs.node n).name::parts depth (fs.node n).parent

def buildPath (node : Option ℕ) (max : ℕ) : List UInt8:=
  if node=none ∨ node=fs.root then [slash] else writeParts max (fs.parts 32 node).reverse []

/-- `handle_getcwd`: the result and the string in the buffer. -/
def handleGetcwd (cwd : Option ℕ) (buf size : ℕ) : ℤ×List UInt8:=
  if buf=0 ∨ size=0 then (eFault,[])
  else ((fs.buildPath (fs.getCwd cwd) size).length,fs.buildPath (fs.getCwd cwd) size)

/-- `handle_chdir`: the result and the directory of the task. -/
def handleChdir (cwd : Option ℕ) (path : Option (List UInt8)) : ℤ×Option ℕ:=
  match path with
  | none=>(eFault,cwd)
  | some path=>
    match fs.resolveInternal cwd path with
    | none=>(eNoent,cwd)
    | some n=>if (fs.node n).type≠.dir then (eNotdir,cwd) else (eOk,some n)

end Fs

variable {fs fs' : Fs} {kids : ℕ→List ℕ} {cur : ℕ→Prop} {n c : ℕ}

def Ordinary (name : List UInt8) : Prop:=name≠[] ∧ name≠[dot] ∧ name≠[dot,dot]

instance (name : List UInt8) : Decidable (Ordinary name):=inferInstanceAs (Decidable (_ ∧ _))

def joined (names : List (List UInt8)) : List UInt8:=names.flatMap (slash :: ·)

def Fs.follow (fs : Fs) : List (List UInt8)→ℕ→Option ℕ
  | [], n=>some n
  | name::names, n=>
    if name=[] ∨ name=[dot] then fs.follow names n
    else if name=[dot,dot] then fs.follow names ((fs.node n).parent.getD n)
    else if (fs.node n).type≠.dir then none
    else (fs.findChild n name).bind (fs.follow names)

theorem pathNext_slash (path : List UInt8) : pathNext (slash::path)=pathNext path:=by
  simp [pathNext]

theorem pathNext_joined {name : List UInt8} (hne : name≠[]) (hplain : slash∉name) (hlen : name.length<nameSize)
    (names : List (List UInt8)) : pathNext (name++joined names)=(name,joined names):=by
  have hdrop : (name++joined names).dropWhile (· = slash)=name++joined names:=by
    cases name with
    | nil=>exact absurd rfl hne
    | cons x name=>simp [Ne.symm (ne_of_not_mem_cons hplain)]
  have htake : (name++joined names).takeWhile (· ≠ slash)=name:=by
    rw [takeWhile_append_of_pos]
    · cases names with
      | nil=>simp [joined]
      | cons x names=>simp [joined]
    · intro x hx
      simpa using ne_of_mem_of_not_mem hx hplain
  have hsize:=take_of_length_le (Nat.le_sub_one_of_lt hlen)
  simp only [pathNext,hdrop,htake,hsize,drop_left]

theorem Fs.resolveLoop_joined (fs : Fs) {names : List (List UInt8)}
    (hnames : ∀name∈names,slash∉name ∧ name.length<nameSize) {fuel : ℕ} (hfuel : (joined names).length<fuel) (n : ℕ) :
    fs.resolveLoop fuel (joined names) n=fs.follow names n:=by
  induction names generalizing fuel n with
  | nil=>
    obtain ⟨fuel,rfl⟩:=Nat.exists_eq_add_one_of_ne_zero (Nat.ne_zero_of_lt hfuel)
    rfl
  | cons name names ih=>
    obtain ⟨fuel,rfl⟩:=Nat.exists_eq_add_one_of_ne_zero (Nat.ne_zero_of_lt hfuel)
    obtain ⟨⟨hplain,hlen⟩,hrest⟩:=forall_mem_cons.mp hnames
    have hjoined : joined (name::names)=slash::(name++joined names):=rfl
    rw [hjoined,length_cons,length_append] at hfuel
    by_cases hne : name=[]
    · subst hne
      have hloop:=ih hrest (show (joined names).length<fuel+1 by omega) n
      rw [hjoined,Fs.follow,if_pos (.inl rfl),←hloop,Fs.resolveLoop,Fs.resolveLoop,pathNext_slash]
      rfl
    have hih (m : ℕ):=ih hrest (show (joined names).length<fuel by omega) m
    rw [hjoined,Fs.resolveLoop,Fs.follow,pathNext_slash,pathNext_joined hne hplain hlen]
    simp only [hne,if_false,false_or,hih]
    cases fs.findChild n name <;> rfl

theorem Fs.resolveInternal_joined (fs : Fs) {names : List (List UInt8)} (hne : names≠[])
    (hnames : ∀name∈names,slash∉name ∧ name.length<nameSize) (cwd : Option ℕ) :
    fs.resolveInternal cwd (joined names)=fs.root.bind (fs.follow names):=by
  cases names with
  | nil=>exact absurd rfl hne
  | cons name names=>
    have hloop (n : ℕ):=fs.resolveLoop_joined hnames (Nat.lt_succ_self _) n
    have hjoined : joined (name::names)=slash::(name++joined names):=rfl
    rw [hjoined,Fs.resolveInternal,if_pos rfl]
    congr 1
    funext n
    exact hloop n

theorem Fs.follow_of_resolve (fs : Fs) {names : List (List UInt8)} (hnames : ∀name∈names,slash∉name ∧ name.length<nameSize)
    (hn : fs.resolveInternal none (joined names)=some n) : ∃r,fs.root=some r ∧ fs.follow names r=some n:=by
  by_cases hne : names=[]
  · subst hne
    cases hn
  · rw [fs.resolveInternal_joined hne hnames] at hn
    exact bind_eq_some_iff.mp hn

theorem Fs.follow_append (fs : Fs) (names names' : List (List UInt8)) (n : ℕ) :
    fs.follow (names++names') n=(fs.follow names n).bind (fs.follow names'):=by
  induction names generalizing n with
  | nil=>rfl
  | cons name names ih=>
    simp only [cons_append,Fs.follow,ih]
    split_ifs <;> try rfl
    rw [bind_assoc]

theorem writeParts_eq {max : ℕ} (hmax : max<18446744073709551616) {parts : List (List UInt8)} {buf : List UInt8}
    (hroom : buf.length+(joined parts).length < max) : writeParts max parts buf=buf++joined parts ∨
    ∃front,parts=front++[[]] ∧ writeParts max parts buf=buf++joined front:=by
  induction parts generalizing buf with
  | nil=>exact .inl (by simp [writeParts,joined])
  | cons part rest ih=>
    have hjoined : joined (part::rest)=slash::(part++joined rest):=rfl
    rw [hjoined,length_cons,length_append] at hroom
    rw [writeParts,usub64_of_le hmax (by omega),usub64_of_le hmax (by omega)]
    have htake : part.take (max-1-(buf.length+1))=part:=take_of_length_le (by omega)
    rw [htake,hjoined]
    split_ifs with hpos
    · have hroom' : (buf++slash::part).length+(joined rest).length < max:=by
        simp only [length_append,length_cons]
        omega
      obtain hw | ⟨front,rfl,hw⟩:=ih hroom'
      · exact .inl (by simp [hw])
      · exact .inr ⟨part::front,rfl,by simp [hw,joined]⟩
    · have hpart : part=[]:=length_eq_zero_iff.mp (by omega)
      have hrest : rest=[]:=by
        cases rest with
        | nil=>rfl
        | cons x rest=>simp [joined] at hroom; omega
      subst hpart hrest
      exact .inr ⟨[],rfl,by simp [joined]⟩

def Fs.namesOn (fs : Fs) : ℕ→List ℕ→List (List UInt8)
  | _, []=>[]
  | n, dir::p=>fs.namesOn dir p++[(fs.node n).name]

theorem Fs.length_namesOn (fs : Fs) (n : ℕ) (p : List ℕ) : (fs.namesOn n p).length=p.length:=by
  induction p generalizing n with
  | nil=>rfl
  | cons d p ih=>simp [Fs.namesOn,ih]

theorem Fs.Branch.exists_root (h : fs.Branch n p) : ∃r,fs.root=some r:=by
  induction h with
  | root hr=>exact ⟨_,hr⟩
  | child _ _ _ ih=>exact ih

/-- The number of bytes in the full path of a vnode. -/
def pathLength (names : List (List UInt8)) : ℕ:=if names=[] then 1 else (joined names).length

namespace Shape

section

variable (h : Shape fs kids cur)
include h

theorem parent_of_branch {m : ℕ} {l : List ℕ} (hm : fs.Branch m p) (hl : fs.Lists m l)
    (hc : c∈l) : m∈fs.live ∧ c∈kids m ∧ (fs.node c).parent=some m:=by
  obtain ⟨hlive,hcur,-⟩:=h.reached (h.reached_of_branch hm)
  have hmem : c∈kids m:=(h.lists_iff hlive).mp hl▸hc
  exact ⟨hlive,hmem,h.parent_of_cur hlive hcur hmem⟩

theorem parts_eq (hp : fs.Branch n p) (depth : ℕ) : fs.parts depth (some n)=(fs.namesOn n p).reverse.take depth:=by
  induction hp generalizing depth with
  | root hr=>cases depth <;> simp [Fs.parts,hr,Fs.namesOn]
  | child hm hl hc ih=>
    obtain ⟨hlive,hmem,hparent⟩:=h.parent_of_branch hm hl hc
    cases depth with
    | zero=>simp [Fs.parts]
    | succ depth=>
      have hroot : fs.root≠some _:=fun hr=>h.root_notMem hr hlive hmem
      simp [Fs.parts,hroot,hparent,Fs.namesOn,ih depth]

theorem namesOn_plain (hp : fs.Branch n p) : ∀name∈fs.namesOn n p,slash∉name ∧ name.length<nameSize:=by
  induction hp with
  | root hr=>simp [Fs.namesOn]
  | child hm hl hc ih=>
    obtain ⟨hlive,hmem,hparent⟩:=h.parent_of_branch hm hl hc
    have hclive:=h.live _ hlive _ hmem
    refine forall_mem_append.mpr ⟨ih,forall_mem_singleton.mpr ⟨?_,h.length _ hclive⟩⟩
    refine (h.plain _ hclive).resolve_right fun hp=>?_
    exact absurd (hp.2.symm.trans hparent) (by simp)

theorem findChild_of_mem (hn : n∈fs.live) (hc : c∈kids n) : fs.findChild n (fs.node c).name=some c:=by
  rw [h.findChild_eq hn]
  have hsome : ((kids n).find? fun x=>(fs.node x).name=(fs.node c).name).isSome:=
    find?_isSome.mpr ⟨c,hc,by simp⟩
  obtain ⟨x,hx⟩:=isSome_iff_exists.mp hsome
  have hname : (fs.node x).name=(fs.node c).name:=by simpa using find?_some hx
  rw [hx,inj_on_of_nodup_map (h.names n hn) (mem_of_find?_eq_some hx) hc hname]

theorem follow_namesOn (hp : fs.Branch n p) (hord : ∀name∈fs.namesOn n p,Ordinary name) {r : ℕ} (hr : fs.root=some r) :
    fs.follow (fs.namesOn n p) r=some n:=by
  induction hp with
  | root hr'=>exact congrArg some (some.inj (hr.symm.trans hr'))
  | @child m c p l hm hl hc ih=>
    obtain ⟨hlive,hmem,-⟩:=h.parent_of_branch hm hl hc
    obtain ⟨hord,hname⟩:=forall_mem_append.mp hord
    obtain ⟨hne,hdot,hdots⟩:=forall_mem_singleton.mp hname
    have hdir : (fs.node m).type = .dir:=by
      cases htype : (fs.node m).type with
      | dir=>rfl
      | file=>
        rw [h.leaf m hlive htype] at hmem
        cases hmem
    rw [Fs.namesOn,Fs.follow_append,ih hord,bind_some]
    simp [Fs.follow,hne,hdot,hdots,hdir,h.findChild_of_mem hlive hmem]

/-- Only ordinary names lead down. -/
theorem depth_follow {m : ℕ} (hp : fs.Branch n p) {names : List (List UInt8)}
    (hm : fs.follow names n=some m) : ∃q,fs.Branch m q ∧ q.length≤p.length+(names.filter Ordinary).length:=by
  induction names generalizing n p with
  | nil=>
    obtain rfl:=some.inj hm
    exact ⟨p,hp,Nat.le_add_right _ _⟩
  | cons name names ih=>
    have hsub : (names.filter Ordinary).length≤((name::names).filter Ordinary).length:=
      ((sublist_cons_self name names).filter _).length_le
    rw [Fs.follow] at hm
    split_ifs at hm with hskip hup hdir
    · obtain ⟨q,hq,hlen⟩:=ih hp hm
      exact ⟨q,hq,hlen.trans (Nat.add_le_add_left hsub _)⟩
    · obtain ⟨p',hp',hle⟩ : ∃p',fs.Branch ((fs.node n).parent.getD n) p' ∧ p'.length≤p.length:=by
        cases hp with
        | root hr=>
          rw [(h.root n hr).2.2.2.1]
          exact ⟨[],.root hr,le_refl _⟩
        | child hd hl hc=>
          rw [(h.parent_of_branch hd hl hc).2.2]
          exact ⟨_,hd,Nat.le_succ _⟩
      obtain ⟨q,hq,hlen⟩:=ih hp' hm
      exact ⟨q,hq,hlen.trans (Nat.add_le_add hle hsub)⟩
    · obtain ⟨x,hx,hm⟩:=bind_eq_some_iff.mp hm
      have hlive:=(h.reached (h.reached_of_branch hp)).1
      have hord : Ordinary name:=⟨fun hn=>hskip (.inl hn),fun hn=>hskip (.inr hn),hup⟩
      obtain ⟨q,hq,hlen⟩:=ih (hp.child ((h.lists_iff hlive).mpr rfl) (h.mem_of_findChild hlive hx).1) hm
      refine ⟨q,hq,?_⟩
      rw [filter_cons_of_pos (by simpa using hord),length_cons]
      simp only [length_cons] at hlen
      omega

end

end Shape

/-- The path of a vnode leads back to it, and a task that goes to its own directory stays there. -/
structure Fs.RoundTrip (fs : Fs) (n max : ℕ) : Prop where
  absolute : (fs.buildPath (some n) max).head? = some slash
  resolves : ∀cwd,fs.resolveInternal cwd (fs.buildPath (some n) max)=some n
  chdir : (fs.node n).type = .dir→∀cwd buf,fs.getCwd cwd=some n→buf≠0 →
    fs.handleChdir cwd (some (fs.handleGetcwd cwd buf max).2)=(eOk,some n)

namespace Shape

theorem buildPath_eq (h : Shape fs kids cur) {d : ℕ} (hp : fs.Branch n (d::p)) {max : ℕ}
    (hroom : pathLength (fs.namesOn n (d::p)) < max) (hmax : max<18446744073709551616) {shown : List (List UInt8)}
    (hshown : shown=(fs.namesOn n (d::p)).drop ((d::p).length-32)) : fs.buildPath (some n) max=joined shown ∨
    ∃front,shown=front++[[]] ∧ fs.buildPath (some n) max=joined front:=by
  have hroot : some n≠fs.root:=by
    cases hp with
    | child hd hl hc=>
      obtain ⟨hlive,hmem,-⟩:=h.parent_of_branch hd hl hc
      exact fun hr=>h.root_notMem hr.symm hlive hmem
  have hparts : (fs.parts 32 (some n)).reverse=shown:=by
    rw [h.parts_eq hp,reverse_take,reverse_reverse,length_reverse,fs.length_namesOn,hshown]
  have hlen : (joined shown).length≤(joined (fs.namesOn n (d::p))).length:=by
    rw [←take_append_drop ((d::p).length-32) (fs.namesOn n (d::p)),joined,joined,flatMap_append,
      length_append,hshown]
    exact Nat.le_add_left _ _
  have hne : fs.namesOn n (d::p)≠[]:=by simp [Fs.namesOn]
  rw [pathLength,if_neg hne] at hroom
  rw [Fs.buildPath,if_neg (by simp [hroot]),hparts]
  have hwritten:=writeParts_eq hmax (show ([] : List UInt8).length+(joined shown).length < max by simpa using hlen.trans_lt hroom)
  exact hwritten

/-- A round trip needs every name, and needs them to be ordinary. -/
theorem ordinary_of_resolve (h : Shape fs kids cur) (hp : fs.Branch n p) {max : ℕ}
    (hroom : pathLength (fs.namesOn n p) < max) (hmax : max<18446744073709551616)
    (hn : fs.resolveInternal none (fs.buildPath (some n) max)=some n) :
    p.length≤32 ∧ ∀name∈fs.namesOn n p,Ordinary name:=by
  cases p with
  | nil=>simp [Fs.namesOn]
  | cons d p=>
    obtain ⟨shown,hshown⟩ : ∃shown,shown=(fs.namesOn n (d::p)).drop ((d::p).length-32):=⟨_,rfl⟩
    have hplain : ∀name∈shown,slash∉name ∧ name.length<nameSize:=fun name hname=>
      h.namesOn_plain hp name (mem_of_mem_drop (hshown▸hname))
    obtain ⟨r,hr,hfollow⟩ : ∃r,fs.root=some r ∧ fs.follow shown r=some n:=by
      obtain hpath | ⟨front,rfl,hpath⟩:=h.buildPath_eq hp hroom hmax hshown <;> rw [hpath] at hn
      · exact fs.follow_of_resolve hplain hn
      · obtain ⟨r,hr,hf⟩:=fs.follow_of_resolve (forall_mem_append.mp hplain).1 hn
        exact ⟨r,hr,by simp [Fs.follow_append,hf,Fs.follow]⟩
    obtain ⟨q,hq,hlen⟩:=h.depth_follow (.root hr) hfollow
    obtain rfl:=h.branch_unique hp hq
    have hfilter:=length_filter_le (fun name=>decide (Ordinary name)) shown
    have hshort : shown.length=(d::p).length-((d::p).length-32):=by
      rw [hshown,length_drop,fs.length_namesOn]
    have hle : (d::p).length≤32:=by
      simp only [length_nil,Nat.zero_add] at hlen
      omega
    refine ⟨hle,?_⟩
    rw [Nat.sub_eq_zero_of_le hle,drop_zero] at hshown
    subst hshown
    have hall : ((fs.namesOn n (d::p)).filter Ordinary).length=(fs.namesOn n (d::p)).length:=by
      simp only [length_nil,Nat.zero_add] at hlen
      omega
    simpa using length_filter_eq_length_iff.mp hall

theorem roundTrip_of_ordinary (h : Shape fs kids cur) (hp : fs.Branch n p) {max : ℕ}
    (hroom : pathLength (fs.namesOn n p) < max) (hmax : max<18446744073709551616)
    (hdepth : p.length≤32) (hord : ∀name∈fs.namesOn n p,Ordinary name) : fs.RoundTrip n max:=by
  have hpath : (fs.buildPath (some n) max).head? = some slash ∧
      ∀cwd,fs.resolveInternal cwd (fs.buildPath (some n) max)=some n:=by
    cases hp with
    | root hr=>simp [Fs.buildPath,hr,Fs.resolveInternal,Fs.resolveLoop,pathNext]
    | @child d _ p l hd hl hc=>
      have hp:=hd.child hl hc
      have hshown : fs.namesOn n (d::p)=(fs.namesOn n (d::p)).drop ((d::p).length-32):=by
        rw [Nat.sub_eq_zero_of_le hdepth,drop_zero]
      have hne : fs.namesOn n (d::p)≠[]:=by simp [Fs.namesOn]
      obtain hpath | ⟨front,hfront,-⟩:=h.buildPath_eq hp hroom hmax hshown
      · obtain ⟨r,hr⟩:=hp.exists_root
        rw [hpath]
        refine ⟨?_,fun cwd=>?_⟩
        · obtain ⟨name,names,hnames⟩:=exists_cons_of_ne_nil hne
          simp [hnames,joined]
        · rw [fs.resolveInternal_joined hne (h.namesOn_plain hp),hr,bind_some,h.follow_namesOn hp hord hr]
      · exact absurd rfl (hord [] (by simp [hfront])).1
  refine ⟨hpath.1,hpath.2,fun hdir cwd buf hcwd hbuf=>?_⟩
  have hsize : max≠0:=Nat.ne_zero_of_lt hroom
  simp [Fs.handleGetcwd,Fs.handleChdir,hcwd,hbuf,hsize,hpath.2,hdir]

end Shape

/-- The path of a vnode leads back to it just if it is at most 32 levels below the root and no name
on the way is empty, `.` or `..`. -/
theorem roundTrip_iff (h : Namespace fs) (hn : fs.Reached n) : ∃p,fs.Branch n p ∧
    ∀max,pathLength (fs.namesOn n p) < max→max<18446744073709551616 →
    (fs.RoundTrip n max↔p.length≤32 ∧ ∀name∈fs.namesOn n p,Ordinary name):=by
  obtain ⟨kids,cur,hshape⟩:=h.exists_shape
  obtain ⟨p,hp⟩:=hshape.exists_branch hn
  refine ⟨p,hp,fun max hroom hmax=>⟨fun htrip=>?_,fun ⟨hdepth,hord⟩=>?_⟩⟩
  · exact hshape.ordinary_of_resolve hp hroom hmax (htrip.resolves none)
  · exact hshape.roundTrip_of_ordinary hp hroom hmax hdepth hord

/-- The directories that `init` makes. -/
theorem roundTrip_iff_init : ∃fs : Fs,(Namespace fs ∧ fs.Reached 4) ∧ ∃p,fs.Branch 4 p ∧
    ∀max,pathLength (fs.namesOn 4 p) < max→max<18446744073709551616 →
    (fs.RoundTrip 4 max↔p.length≤32 ∧ ∀name∈fs.namesOn 4 p,Ordinary name):=by
  have hstart : Namespace (Fs.unborn fun _=>⟨[],.file,none,none,none,0⟩):=.start ⟨_,rfl⟩
  obtain ⟨fs,hfs,hroot,hchild⟩:=hstart.exists_replay [.init (some 1) (some 2) (some 3) (some 4)]
    (fun fs=>fs.root=some 1 ∧ (fs.node 1).children=some 4) (by decide +kernel)
  have hreached : fs.Reached 4:=(Fs.Reached.root hroot).children hchild
  exact ⟨fs,⟨hfs,hreached⟩,roundTrip_iff hfs hreached⟩

/-- `mkdir` of the empty path makes a directory without a name. The path of it is that of the root. -/
theorem nameless_directory : ∃fs : Fs,Namespace fs ∧ fs.Branch 5 [1] ∧ pathLength (fs.namesOn 5 [1])<256 ∧
    (fs.node 5).type = .dir ∧ fs.buildPath (some 5) 256=[slash] ∧
    fs.resolveInternal none (fs.buildPath (some 5) 256)=some 1 ∧
    fs.handleChdir (some 5) (some (fs.handleGetcwd (some 5) 4096 256).2)=(eOk,some 1):=by
  have hstart : Namespace (Fs.unborn fun _=>⟨[],.file,none,none,none,0⟩):=.start ⟨_,rfl⟩
  obtain ⟨fs,hfs,⟨hroot,hlist⟩,hrest⟩:=hstart.exists_replay
    [.init (some 1) (some 2) (some 3) (some 4),.mkdir none [] (some 5)]
    (fun fs=>(fs.root=some 1 ∧ (fs.node 1).children=some 5 ∧ fs.next 5=some 4 ∧ fs.next 4=some 3 ∧
        fs.next 3=some 2 ∧ fs.next 2=none) ∧
      pathLength (fs.namesOn 5 [1])<256 ∧ (fs.node 5).type = .dir ∧ fs.buildPath (some 5) 256=[slash] ∧
      fs.resolveInternal none (fs.buildPath (some 5) 256)=some 1 ∧
      fs.handleChdir (some 5) (some (fs.handleGetcwd (some 5) 4096 256).2)=(eOk,some 1)) (by decide +kernel)
  have hbranch : fs.Branch 5 [1]:=(Fs.Branch.root hroot).child (l:=[5,4,3,2]) hlist (by decide)
  exact ⟨fs,hfs,hbranch,hrest⟩

end Knail.Directory
