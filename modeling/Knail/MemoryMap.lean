import Knail.FrameAllocator

/-!
# The memory map of the boot loader

The tags of an info block and the entries of its memory maps as the boot loader wrote them,
and what the two loops of `init` make of them.
-/
namespace Knail.FrameAllocator

open List

section Block

variable (mem : ℕ→UInt8)

def tagType (p : ℕ) : ℕ:=getLE mem 4 p
def tagSize (p : ℕ) : ℕ:=getLE mem 4 (p+4)
def entrySize (p : ℕ) : ℕ:=getLE mem 4 (p+8)

def Continues (tend p : ℕ) : Prop:=p<tend ∧ tagType mem p≠0 ∧ tagSize mem p≠0

/-- `q` is a tag of the list that starts at `p`; each tag starts at the next multiple of
eight bytes behind the one before. -/
inductive TagFrom (tend : ℕ) : ℕ→ℕ→Prop
  | here {p : ℕ} : Continues mem tend p→TagFrom tend p p
  | behind {p q : ℕ} : Continues mem tend p→TagFrom tend (p+(tagSize mem p+7)/8*8) q→TagFrom tend p q

/-- The entries of the memory map at `q` are the ones that lie inside it. -/
def EntryOf (q ep : ℕ) : Prop:=∃k,ep=q+16+k*entrySize mem q ∧ ep+24≤q+tagSize mem q

def entryBase (ep : ℕ) : ℕ:=getLE mem 8 ep
def entryLength (ep : ℕ) : ℕ:=getLE mem 8 (ep+8)
def Usable (ep : ℕ) : Prop:=getLE mem 4 (ep+16)=1

def Covers (ep f : ℕ) : Prop:=
  entryBase mem ep≤f*pageSize ∧ (f+1)*pageSize≤entryBase mem ep+entryLength mem ep

variable (info : ℕ)

def infoEnd : ℕ:=u32 info+getLE mem 4 (u32 info)

def IsTag (q : ℕ) : Prop:=TagFrom mem (infoEnd mem info) (u32 info+8) q

def IsMmap (q : ℕ) : Prop:=IsTag mem info q ∧ tagType mem q=6

def IsEntry (ep : ℕ) : Prop:=∃q,IsMmap mem info q ∧ EntryOf mem q ep

end Block

variable {mem : ℕ→UInt8} {info tend p q ep ee es f n : ℕ} {acc : ℕ×Bitmap}

/-- The frames that one entry frees, in the words of the code. -/
def Frees (mem : ℕ→UInt8) (ep f : ℕ) : Prop:=
  Usable mem ep ∧ u64 (entryBase mem ep+(pageSize-1))/pageSize≤f ∧
    f<u64 (entryBase mem ep+entryLength mem ep)/pageSize

theorem frees_iff (h : entryBase mem ep+entryLength mem ep+4095<18446744073709551616) :
    Frees mem ep f↔Usable mem ep ∧ Covers mem ep f:=by
  rw [Frees,Covers,u64_of_lt (by unfold pageSize; omega),u64_of_lt (by omega)]
  unfold pageSize
  have hfs : (entryBase mem ep+(4096-1))/4096≤f↔entryBase mem ep≤f*4096:=by omega
  have hfe : f<(entryBase mem ep+entryLength mem ep)/4096 ↔
      (f+1)*4096≤entryBase mem ep+entryLength mem ep:=by omega
  rw [hfs,hfe]

theorem mmapEntry_test (hf : f < maxFrames) :
    (mmapEntry mem ep acc).2.test f=false↔acc.2.test f=false ∨ Frees mem ep f:=by
  simp only [mmapEntry,Frees,Usable,entryBase,entryLength]
  by_cases hu : getLE mem 4 (ep+16)=1
  · rw [if_pos hu,freeRange,Bitmap.test_foldl_erase]
    simp only [Bool.and_eq_false_iff,decide_eq_false_iff_not,not_not,mem_range'_1,hu,true_and]
    refine or_congr_right ?_
    omega
  · simp [hu]

theorem mmapLoop_spec (mem : ℕ→UInt8) (acc : ℕ×Bitmap) (hes : 0<es) (hn : ee<ep+n+23) (hpos : 0<n) :
    ∃acc',mmapLoop mem ee es n ep acc=some acc' ∧ ∀f,f < maxFrames→(acc'.2.test f=false ↔
    acc.2.test f=false ∨ ∃k,ep+k*es+24≤ee ∧ Frees mem (ep+k*es) f):=by
  induction n generalizing ep acc with
  | zero=>exact absurd hpos (Nat.lt_irrefl 0)
  | succ n ih=>
    rw [mmapLoop]
    by_cases hin : ep+24≤ee
    · obtain ⟨acc',hloop,htest⟩:=ih (mmapEntry mem ep acc) (show ee<ep+es+n+23 by omega) (by omega)
      refine ⟨acc',by rw [if_pos hin,hloop],fun f hf=>?_⟩
      rw [htest f hf,mmapEntry_test hf,or_assoc]
      refine or_congr_right ?_
      -- the entries from here are the first one and the ones behind it
      constructor
      · rintro (h0 | ⟨k,hk,hfr⟩)
        · exact ⟨0,by omega,by simpa using h0⟩
        · have hstep : ep+(k+1)*es=ep+es+k*es:=by rw [Nat.succ_mul]; omega
          exact ⟨k+1,by omega,by rwa [hstep]⟩
      · rintro ⟨k,hk,hfr⟩
        cases k with
        | zero=>exact .inl (by simpa using hfr)
        | succ k=>
          have hstep : ep+(k+1)*es=ep+es+k*es:=by rw [Nat.succ_mul]; omega
          exact .inr ⟨k,by omega,by rwa [←hstep]⟩
    · refine ⟨acc,if_neg hin,fun f _=>(or_iff_left ?_).symm⟩
      omega

theorem mmapLoop_zero (hin : ep+24≤ee) (n : ℕ) (acc : ℕ×Bitmap) : mmapLoop mem ee 0 n ep acc=none:=by
  induction n generalizing acc with
  | zero=>rfl
  | succ n ih=>
    rw [mmapLoop,if_pos hin]
    exact ih _

/-- The sizes with which a tag is left behind: the length does not wrap when it is rounded up,
and a memory map with room for an entry has a stride. -/
def Sized (mem : ℕ→UInt8) (q : ℕ) : Prop:=
  tagSize mem q<0xFFFFFFF9 ∧ (tagType mem q=6 → 40≤tagSize mem q→entrySize mem q≠0)

theorem visitTag_spec (h : Sized mem q) (acc : ℕ×Bitmap) : ∃acc',visitTag mem q acc=some acc' ∧ ∀f,f < maxFrames →
    (acc'.2.test f=false↔acc.2.test f=false ∨ tagType mem q=6 ∧ ∃ep,EntryOf mem q ep ∧ Frees mem ep f):=by
  simp only [visitTag]
  by_cases hty : getLE mem 4 q=6
  · rw [if_pos hty]
    by_cases hroom : 40≤tagSize mem q
    · obtain ⟨acc',hloop,htest⟩:=mmapLoop_spec mem acc (Nat.pos_of_ne_zero (h.2 hty hroom))
        (show q+tagSize mem q<q+16+(tagSize mem q+1)+23 by omega) (by omega)
      refine ⟨acc',hloop,fun f hf=>?_⟩
      rw [htest f hf]
      refine or_congr_right ⟨?_,?_⟩
      · rintro ⟨k,hk,hfr⟩
        exact ⟨hty,_,⟨k,rfl,hk⟩,hfr⟩
      · rintro ⟨-,ep,⟨k,rfl,hk⟩,hfr⟩
        exact ⟨k,hk,hfr⟩
    · refine ⟨acc,?_,fun f _=>(or_iff_left ?_).symm⟩
      · change mmapLoop mem (q+tagSize mem q) _ (tagSize mem q+1) (q+16) acc=some acc
        rw [mmapLoop,if_neg (by omega)]
      · rintro ⟨-,ep,⟨k,rfl,hk⟩,-⟩
        omega
  · refine ⟨acc,if_neg hty,fun f _=>(or_iff_left ?_).symm⟩
    rintro ⟨ht,-⟩
    exact hty ht

theorem tagSize_lt (mem : ℕ→UInt8) (p : ℕ) : tagSize mem p<4294967296:=getLE_lt mem 4 (p+4)

theorem round_eq (h : tagSize mem p<0xFFFFFFF9) : u32 (tagSize mem p+7)/8*8=(tagSize mem p+7)/8*8:=by
  rw [u32,Nat.mod_eq_of_lt (by omega)]

theorem round_eq_zero (h : ¬tagSize mem p<0xFFFFFFF9) : u32 (tagSize mem p+7)/8*8=0:=by
  have:=tagSize_lt mem p
  unfold u32
  omega

theorem tagLoop_of_not_continues (h : ¬Continues mem tend p) : tagLoop mem tend (n+1) p acc=some acc:=by
  rw [tagLoop]
  by_cases hp : p<tend
  · rw [if_pos hp]
    refine if_pos ?_
    by_contra hc
    rw [not_or] at hc
    exact h ⟨hp,hc⟩
  · rw [if_neg hp]

theorem tagLoop_of_continues (h : Continues mem tend p) : tagLoop mem tend (n+1) p acc =
    (visitTag mem p acc).bind (tagLoop mem tend n (p+u32 (tagSize mem p+7)/8*8)):=by
  rw [tagLoop,if_pos h.1]
  refine (if_neg (not_or.mpr h.2)).trans ?_
  cases visitTag mem p acc <;> rfl

theorem TagFrom.eq_or_behind (h : TagFrom mem tend p q) : Continues mem tend p ∧
    (q=p ∨ TagFrom mem tend (p+(tagSize mem p+7)/8*8) q):=by
  cases h with
  | here hc=>exact ⟨hc,.inl rfl⟩
  | behind hc h=>exact ⟨hc,.inr h⟩

theorem tagLoop_spec (acc : ℕ×Bitmap) (hsized : ∀q,TagFrom mem tend p q→Sized mem q) (hn : tend<p+n) (hpos : 0<n) :
    ∃acc',tagLoop mem tend n p acc=some acc' ∧ ∀f,f < maxFrames→(acc'.2.test f=false↔acc.2.test f=false ∨
    ∃q,TagFrom mem tend p q ∧ tagType mem q=6 ∧ ∃ep,EntryOf mem q ep ∧ Frees mem ep f):=by
  induction n generalizing p acc with
  | zero=>exact absurd hpos (Nat.lt_irrefl 0)
  | succ n ih=>
    by_cases hc : Continues mem tend p
    · have hs:=hsized p (.here hc)
      obtain ⟨acc1,hvisit,htest1⟩:=visitTag_spec hs acc
      have hlt:=hc.1
      have hne:=hc.2.2
      obtain ⟨acc',hloop,htest⟩:=ih acc1 (fun q hq=>hsized q (.behind hc hq)) (by omega) (by omega)
      refine ⟨acc',?_,fun f hf=>?_⟩
      · rw [tagLoop_of_continues hc,hvisit,Option.bind_some,round_eq hs.1,hloop]
      rw [htest f hf,htest1 f hf,or_assoc]
      refine or_congr_right ⟨?_,?_⟩
      · rintro (hfr | ⟨q,hq,hfr⟩)
        · exact ⟨p,.here hc,hfr⟩
        · exact ⟨q,.behind hc hq,hfr⟩
      rintro ⟨q,hq,hfr⟩
      rcases hq.eq_or_behind.2 with rfl | hq
      · exact .inl hfr
      · exact .inr ⟨q,hq,hfr⟩
    · refine ⟨acc,tagLoop_of_not_continues hc,fun f _=>(or_iff_left ?_).symm⟩
      rintro ⟨q,hq,-⟩
      exact hc hq.eq_or_behind.1

/-! ## Where the loops end -/

theorem tagLoop_stuck (hc : Continues mem tend p) (hs : ¬tagSize mem p<0xFFFFFFF9) (n : ℕ) (acc : ℕ×Bitmap) :
    tagLoop mem tend n p acc=none:=by
  induction n generalizing acc with
  | zero=>rfl
  | succ n ih=>
    rw [tagLoop_of_continues hc,round_eq_zero hs,Nat.add_zero]
    cases visitTag mem p acc with
    | none=>rfl
    | some acc=>exact ih acc

/-- Both loops end: the walk over the tags, and the walk over the entries of every memory map. -/
def LoopsEnd (mem : ℕ→UInt8) (info : ℕ) : Prop:=
  (∃n r,tagLoop mem (infoEnd mem info) n (u32 info+8) (0,fun _=>0xFF)=some r) ∧
    ∀q,IsMmap mem info q→∀acc,∃n r,
      mmapLoop mem (q+tagSize mem q) (entrySize mem q) n (q+16) acc=some r

theorem TagFrom.sized (hq : TagFrom mem tend p q) {r : ℕ×Bitmap} (hloop : tagLoop mem tend n p acc=some r)
    (hentries : ∀q,TagFrom mem tend p q→tagType mem q=6→∀acc,∃n r,
    mmapLoop mem (q+tagSize mem q) (entrySize mem q) n (q+16) acc=some r) : Sized mem q:=by
  have hlt {p n acc} (hc : Continues mem tend p) (h : tagLoop mem tend n p acc=some r) :
      tagSize mem p<0xFFFFFFF9:=by
    by_contra hs
    rw [tagLoop_stuck hc hs] at h
    cases h
  induction hq generalizing n acc with
  | here hc=>
    refine ⟨hlt hc hloop,fun hty hroom hzero=>?_⟩
    obtain ⟨m,r',hm⟩:=hentries _ (.here hc) hty acc
    rw [hzero,mmapLoop_zero (by omega)] at hm
    cases hm
  | behind hc _ ih=>
    cases n with
    | zero=>cases hloop
    | succ n=>
      have hs:=hlt hc hloop
      rw [tagLoop_of_continues hc,Option.bind_eq_some_iff,round_eq hs] at hloop
      obtain ⟨acc1,-,hloop⟩:=hloop
      exact ih hloop fun q hq=>hentries q (.behind hc hq)

theorem LoopsEnd.sized (h : LoopsEnd mem info) (hq : IsTag mem info q) : Sized mem q:=by
  obtain ⟨⟨n,r,hloop⟩,hentries⟩:=h
  exact TagFrom.sized hq hloop fun q hq hty=>hentries q ⟨hq,hty⟩

theorem LoopsEnd.of_sized (h : ∀q,IsTag mem info q→Sized mem q) : LoopsEnd mem info:=by
  constructor
  · obtain ⟨r,hr,-⟩:=tagLoop_spec (0,fun _=>0xFF) h
      (show infoEnd mem info<u32 info+8+(infoEnd mem info+1) by omega) (by omega)
    exact ⟨_,r,hr⟩
  rintro q ⟨hq,hty⟩ acc
  obtain ⟨r,hr,-⟩:=visitTag_spec (h q hq) acc
  exact ⟨_,r,(if_pos hty).symm.trans hr⟩

theorem loops_end_iff (mem : ℕ→UInt8) (info : ℕ) : LoopsEnd mem info↔∀q,IsTag mem info q→Sized mem q:=
  ⟨fun h _=>h.sized,.of_sized⟩

def oneTag (type size stride : ℕ) : ℕ→UInt8:=
  putLE (putLE (putLE (putLE (fun _=>0) 4 0 48) 4 8 type) 4 12 size) 4 16 stride

/-- A memory map with entries of no length, and a tag whose length rounds up to zero. -/
theorem loops_never_end : ¬LoopsEnd (oneTag 6 40 0) 0 ∧ ¬LoopsEnd (oneTag 1 0xFFFFFFF9 0) 0:=by
  constructor
  · intro h
    have hs:=h.sized (.here (by unfold Continues; decide))
    exact hs.2 (by decide) (by decide) (by decide)
  intro h
  have hs:=h.sized (.here (by unfold Continues; decide))
  exact absurd hs.1 (by decide)

/-! ## The frames that are free after `init` -/

/-- A block whose tags end inside it, with entries of full length that do not wrap. -/
structure WellFormed (mem : ℕ→UInt8) (info : ℕ) : Prop where
  inside : ∀q,IsTag mem info q→q+tagSize mem q ≤ infoEnd mem info
  stride : ∀q,IsMmap mem info q → 24≤entrySize mem q
  small : ∀ep,IsEntry mem info ep→entryBase mem ep+entryLength mem ep+4095<18446744073709551616

theorem TagFrom.le (h : TagFrom mem tend p q) : p≤q:=by
  induction h with
  | here _=>exact le_rfl
  | behind _ _ ih=>omega

theorem WellFormed.sized (h : WellFormed mem info) (hle : getLE mem 4 (u32 info)≤65536) (hq : IsTag mem info q) :
    Sized mem q:=by
  have hin:=h.inside q hq
  have hfrom:=TagFrom.le hq
  unfold infoEnd at hin
  refine ⟨by omega,fun hty _ hzero=>?_⟩
  have:=h.stride q ⟨hq,hty⟩
  omega

/-- The frames that the memory map leaves to the allocator. -/
def Free (mem : ℕ→UInt8) (info kernelEnd f : ℕ) : Prop:=
  (kernelEnd+4095)/4096≤f ∧ ∃ep,IsEntry mem info ep ∧ Usable mem ep ∧ Covers mem ep f

theorem init_spec {kernelEnd : ℕ} (h : WellFormed mem info) (hk : kernelEnd≤4294967296) :
    ∃p0,init mem info kernelEnd=some p0 ∧
    ∀f,f<p0.totalFrames→(isUsed p0 f=false↔Free mem info kernelEnd f):=by
  simp only [init]
  by_cases hsize : getLE mem 4 (u32 info)=0 ∨ 65536<getLE mem 4 (u32 info)
  · exact ⟨_,if_pos hsize,fun f hf=>absurd hf (Nat.not_lt_zero f)⟩
  rw [if_neg hsize]
  obtain ⟨acc,hloop,htest⟩:=tagLoop_spec (0,fun _=>0xFF)
    (fun q (hq : IsTag mem info q)=>h.sized (by omega) hq)
    (show infoEnd mem info<u32 info+8+(getLE mem 4 (u32 info)+1) by unfold infoEnd; omega) (by omega)
  unfold infoEnd at hloop
  rw [hloop]
  have hend : u64 (u64 (kernelEnd+(pageSize-1))/pageSize*pageSize+(pageSize-1))/pageSize =
      (kernelEnd+4095)/4096:=by
    unfold u64 pageSize
    omega
  have hle : ¬maxFrames<(kernelEnd+4095)/4096:=by
    unfold maxFrames
    omega
  simp only [reserve,hend,if_neg hle]
  refine ⟨_,rfl,fun f hf=>?_⟩
  have hmax : f < maxFrames:=lt_of_lt_of_le hf ((min_le_left _ _).trans (min_le_right _ _))
  simp only [isUsed,Bitmap.test_foldl_insert,Bool.or_eq_false_iff,decide_eq_false_iff_not,mem_range,
    not_lt,htest f hmax,Bitmap.test_full,Bool.true_eq_false,false_or]
  rw [and_comm,Free]
  refine and_congr_right fun _=>?_
  constructor
  · rintro ⟨q,hq,hty,ep,hep,hfr⟩
    have hent : IsEntry mem info ep:=⟨q,⟨hq,hty⟩,hep⟩
    exact ⟨ep,hent,(frees_iff (h.small ep hent)).mp hfr⟩
  rintro ⟨ep,hent,hcov⟩
  have hfr:=(frees_iff (h.small ep hent)).mpr hcov
  obtain ⟨q,⟨hq,hty⟩,hep⟩:=hent
  exact ⟨q,hq,hty,ep,hep,hfr⟩

/-- Every address that is freed lies in a frame that was handed out before. -/
def Owned (p : Pmm) (ops : List Op) : Prop:=
  ∀l a r,ops=l ++ .free a::r→∃l₁ l₂,l=l₁ ++ .alloc::l₂ ∧ (allocFrame (run l₁ p)).1=a/pageSize*pageSize

theorem Owned.left {p : Pmm} {l r : List Op} (h : Owned p (l++r)) : Owned p l:=
  fun l' a r' he=>h l' a (r'++r) (by simp [he])

theorem run_append (l r : List Op) (p : Pmm) : run (l++r) p=run r (run l p):=foldl_append

theorem Sound.step_total {p : Pmm} (h : Sound p) (op : Op) : (FrameAllocator.step p op).totalFrames=p.totalFrames:=by
  cases op with
  | alloc=>
    rcases h.allocFrame_spec with ⟨he,-⟩ | ⟨x,p',he,ha,-⟩
    · rw [FrameAllocator.step,he]
    · rw [FrameAllocator.step,he]
      exact ha.total
  | free a=>
    rcases h.freeFrame_spec a with ⟨-,he⟩ | ⟨-,hf,-⟩
    · rw [FrameAllocator.step,he]
    · exact hf.total

theorem Sound.run_total {p : Pmm} (h : Sound p) (ops : List Op) : (FrameAllocator.run ops p).totalFrames=p.totalFrames:=by
  induction ops generalizing p with
  | nil=>rfl
  | cons op ops ih=>exact (ih (h.step op)).trans (h.step_total op)

theorem Sound.free_of_run {p : Pmm} (h : Sound p) {ops : List Op} (ho : Owned p ops)
    (hf : isUsed (FrameAllocator.run ops p) f=false) (hpos : 1≤f) : isUsed p f=false:=by
  -- a free returns a frame that a shorter run handed out
  induction hn : ops.length using Nat.strong_induction_on generalizing ops with
  | _ n ih=>
    rcases eq_nil_or_concat ops with rfl | ⟨l,op,rfl⟩
    · exact hf
    rw [concat_eq_append] at ho hf hn
    have hlen : l.length<n:=by simp [←hn]
    by_cases hl : isUsed (FrameAllocator.run l p) f=false
    · exact ih _ hlen ho.left hl rfl
    rw [Bool.not_eq_false] at hl
    rw [run_append] at hf
    -- only a free of the frame itself can have changed its bit
    obtain ⟨a,rfl,ha⟩ : ∃a,op = .free a ∧ a/pageSize=f:=by
      by_contra hno
      refine absurd ((h.run l).step_used hl fun a he hae=>hno ⟨a,he,hae⟩) ?_
      exact Bool.eq_false_iff.mp hf
    obtain ⟨l1,l2,rfl,hret⟩:=ho l a [] rfl
    rw [ha] at hret
    rcases (h.run l1).allocFrame_spec with ⟨he,-⟩ | ⟨x,p',he,hx,-⟩
    · rw [he] at hret
      exact absurd hret.symm (Nat.mul_ne_zero (Nat.ne_of_gt hpos) (by decide))
    rw [he] at hret
    obtain rfl:=Nat.eq_of_mul_eq_mul_right (by decide) hret
    refine ih l1.length ?_ (ho.left.left) hx.free rfl
    simp only [length_append] at hlen
    omega

def InEntry (mem : ℕ→UInt8) (ep a : ℕ) : Prop:=entryBase mem ep≤a ∧ a<entryBase mem ep+entryLength mem ep

def DisjointEntries (mem : ℕ→UInt8) (info : ℕ) : Prop:=
  ∀ep ep',IsEntry mem info ep→IsEntry mem info ep'→ep≠ep'→∀a,¬(InEntry mem ep a ∧ InEntry mem ep' a)

/-- After `init` the free frames are the ones that the memory map and the kernel leave, and
`alloc_frame` hands out nothing else. -/
theorem init_frames {kernelEnd : ℕ} (h : WellFormed mem info) (hk : kernelEnd≤4294967296) :
    ∃p₀,init mem info kernelEnd=some p₀ ∧ (∀f,f<p₀.totalFrames→(isUsed p₀ f=false↔Free mem info kernelEnd f)) ∧
    (DisjointEntries mem info→∀ops,Owned p₀ ops→(allocFrame (run ops p₀)).1≠0 →
    ∀a,(allocFrame (run ops p₀)).1≤a→a<(allocFrame (run ops p₀)).1+pageSize →
    kernelEnd≤a ∧ ∀ep,IsEntry mem info ep→¬Usable mem ep→¬InEntry mem ep a):=by
  obtain ⟨p₀,hinit,hfree⟩:=init_spec h hk
  refine ⟨p₀,hinit,hfree,fun hd ops ho hne a hlo hhi=>?_⟩
  have hsound:=init_sound hinit
  rcases (hsound.run ops).allocFrame_spec with ⟨he,-⟩ | ⟨x,p',he,hx,-⟩
  · rw [he] at hne
    exact absurd rfl hne
  have hlt:=hx.lt
  rw [hsound.run_total] at hlt
  obtain ⟨hkernel,ep,hep,husable,hbase,hstop⟩:=
    (hfree x hlt).mp (hsound.free_of_run ho hx.free hx.pos)
  rw [he] at hlo hhi
  unfold pageSize at hlo hhi hbase hstop
  refine ⟨by omega,fun ep' hep' hno hin=>?_⟩
  refine hd ep ep' hep hep' (fun heq=>hno (heq▸husable)) a ⟨⟨?_,?_⟩,hin⟩
  · omega
  · omega

theorem eightFrames_tag (h : IsTag eightFrames 0 q) : q=8:=by
  rcases TagFrom.eq_or_behind h with ⟨-,rfl | h⟩
  · rfl
  -- the tag behind the memory map ends the list
  have hend:=h.eq_or_behind.1
  exact absurd (show tagType eightFrames 48=0 by decide) hend.2.1

theorem eightFrames_entry (h : IsEntry eightFrames 0 ep) : ep=24:=by
  obtain ⟨q,⟨hq,-⟩,k,rfl,hk⟩:=h
  obtain rfl:=eightFrames_tag hq
  have hsize : tagSize eightFrames 8=40:=by decide
  omega

theorem eightFrames_wellFormed : WellFormed eightFrames 0:=by
  refine ⟨fun q hq=>?_,fun q hq=>?_,fun ep hep=>?_⟩
  · obtain rfl:=eightFrames_tag hq
    decide
  · obtain rfl:=eightFrames_tag hq.1
    decide
  · obtain rfl:=eightFrames_entry hep
    decide

theorem init_frames_eight : WellFormed eightFrames 0 ∧ ∃p₀,init eightFrames 0 0x1800=some p₀ ∧
    ∀a,(allocFrame p₀).1≠0→(allocFrame p₀).1≤a→a<(allocFrame p₀).1+pageSize → 0x1800≤a:=by
  obtain ⟨p₀,hinit,-,hout⟩:=
    init_frames eightFrames_wellFormed (show 0x1800≤4294967296 by decide)
  have hd : DisjointEntries eightFrames 0:=by
    intro ep ep' hep hep' hne
    exact absurd ((eightFrames_entry hep).trans (eightFrames_entry hep').symm) hne
  have hnone : Owned p₀ []:=by
    intro l a r he
    cases l <;> cases he
  exact ⟨eightFrames_wellFormed,p₀,hinit,fun a hne hlo hhi=>(hout hd [] hnone hne a hlo hhi).1⟩

end Knail.FrameAllocator
