import Knail.SpawnConfinement
import Mathlib.Data.List.Forall2

/-!
# What the loader has checked

The two sums of `elf::load` are computed in 64 bits and compared with the size of the file. A sum that wraps passes:
the table, or the data, then starts below the buffer or runs past its end. The reads of the checks are listed beside
them.
-/
namespace Knail.Elf
open Spawn List KernelHeap

variable {mem : ℕ→UInt8} {buf size : ℕ} {reads : List (Except KError ℕ)} {phs : List Phdr}
  {segs out : List Segment} {ph : Phdr} {image : Image} {r : Access}

/-- A read of the loader: its address and its number of bytes. -/
abbrev Access:=ℕ×ℕ

def Access.Within (buf size : ℕ) (r : Access) : Prop:=buf ≤ r.1 ∧ r.1+r.2≤buf+size

section Reads
variable (mem buf size)

def phoff : ℕ:=getLE mem 8 (buf+32)
def phnum : ℕ:=getLE mem 2 (buf+56)

def phdrAddr (i : ℕ) : ℕ:=u64 (buf+phoff mem buf)+i*phdrSize

def programHeaders : List Phdr:=(List.range (phnum mem buf)).map fun i=>phdrAt mem (phdrAddr mem buf i)

/-- The fields of the file header that the checks read. A check that fails leaves out the rest. -/
def headerAccesses : List Access:=
  [(buf,1),(buf+1,1),(buf+2,1),(buf+3,1),(buf+4,1),(buf+5,1),(buf+16,2),(buf+18,2),
    (buf+54,2),(buf+56,2),(buf+32,8),(buf+24,8)]

/-- The fields of the program header at `a` that one turn of the loop reads. -/
def phdrAccesses (a : ℕ) (segments : List Segment) : List Access:=
  let ph:=phdrAt mem a
  (a,4) ::
    if ph.type≠ptLoad then []
    else (a+8,8)::(a+32,8) ::
      if size<u64 (ph.offset+ph.filesz) then []
      else (a+40,8) ::
        if ph.memsz<ph.filesz ∨ maxSegments ≤ segments.length then [] else [(a+16,8),(a+4,4)]

/-- The reads of the loop over the program headers, up to the turn that fails. -/
def tableAccesses : List ℕ→List Segment→List Access
  | [], _=>[]
  | i::is, segments=>
    phdrAccesses mem size (phdrAddr mem buf i) segments ++
      match addSegment buf size segments (phdrAt mem (phdrAddr mem buf i)) with
      | .error _=>[]
      | .ok segments=>tableAccesses is segments

def validateAccesses : List Access:=
  headerAccesses buf ++
    match checkHeader mem buf size with
    | .error _=>[]
    | .ok _=>tableAccesses mem buf size (List.range (phnum mem buf)) []

/-- The reads of `load` from the buffer: there are none unless the whole file has been read. -/
def loadAccesses (reads : List (Except KError ℕ)) : List Access:=
  if size<64 then []
  else
    match readFile size reads 0 with
    | .error _=>[]
    | .ok total=>if total≠size then [] else validateAccesses mem buf size

end Reads

theorem validate_eq (mem : ℕ→UInt8) (buf size : ℕ) : validate mem buf size=(do
    checkHeader mem buf size
    let segments ← (programHeaders mem buf).foldlM (addSegment buf size) []
    if segments=[] then .error (fail "[ELF] no loadable segments")
    else .ok ⟨getLE mem 8 (buf+24),segments,buf,size⟩):=by
  rw [programHeaders,foldlM_map]
  rfl

def loads (phs : List Phdr) : List Phdr:=phs.filter (·.type=ptLoad)

/-- The two comparisons of a header, as they are made. -/
structure Phdr.Passes (size : ℕ) (ph : Phdr) : Prop where
  inside : u64 (ph.offset+ph.filesz) ≤ size
  sizes : ph.filesz≤ph.memsz

structure Segment.MadeFrom (buf : ℕ) (ph : Phdr) (seg : Segment) : Prop where
  data : seg.data=u64 (buf+ph.offset)
  filesz : seg.filesz=ph.filesz

theorem addSegment_ok (h : addSegment buf size segs ph = .ok out) : ph.type≠ptLoad ∧ out=segs ∨
    ph.type=ptLoad ∧ ph.Passes size ∧ segs.length < maxSegments ∧ ∃seg,seg.MadeFrom buf ph ∧ out=segs++[seg]:=by
  unfold addSegment at h
  split_ifs at h with ht hin hsz hlen <;> cases h
  · exact .inl ⟨ht,rfl⟩
  · exact .inr ⟨not_not.mp ht,⟨by omega,by omega⟩,by omega,_,⟨rfl,rfl⟩,rfl⟩

theorem addSegments_ok (h : phs.foldlM (addSegment buf size) segs = .ok out) (hlen : segs.length ≤ maxSegments) :
    (∀ph∈loads phs,ph.Passes size) ∧ out.length ≤ maxSegments ∧
    ∃made,out=segs++made ∧ List.Forall₂ (Segment.MadeFrom buf) (loads phs) made:=by
  induction phs generalizing segs with
  | nil=>
    cases h
    exact ⟨by simp [loads],hlen,[],by simp,.nil⟩
  | cons ph phs ih=>
    rw [foldlM_cons] at h
    rcases hadd : addSegment buf size segs ph with e | segs'
    · rw [hadd] at h
      cases h
    rw [hadd] at h
    rcases addSegment_ok hadd with ⟨ht,rfl⟩ | ⟨ht,hp,hl,seg,hseg,rfl⟩
    · have he : loads (ph::phs)=loads phs:=by simp [loads,ht]
      rw [he]
      exact ih h hlen
    have he : loads (ph::phs)=ph::loads phs:=by simp [loads,ht]
    obtain ⟨hall,hout,made,rfl,hmade⟩:=ih h (by simpa using Nat.succ_le_of_lt hl)
    rw [he]
    exact ⟨forall_mem_cons.mpr ⟨hp,hall⟩,hout,seg::made,by simp,.cons hseg hmade⟩

theorem addSegments_of_passes (h : ∀ph∈loads phs,ph.Passes size)
    (hlen : segs.length+(loads phs).length ≤ maxSegments) : ∃out,phs.foldlM (addSegment buf size) segs = .ok out:=by
  induction phs generalizing segs with
  | nil=>exact ⟨segs,rfl⟩
  | cons ph phs ih=>
    rw [foldlM_cons]
    by_cases ht : ph.type=ptLoad
    · have he : loads (ph::phs)=ph::loads phs:=by simp [loads,ht]
      rw [he] at h hlen
      obtain ⟨hp,hall⟩:=forall_mem_cons.mp h
      rw [length_cons] at hlen
      have hin:=hp.inside
      have hsz:=hp.sizes
      rw [addSegment,if_neg (not_not.mpr ht),if_neg (by omega),dif_neg (by omega),if_neg (by omega)]
      exact ih hall (by rw [length_append,length_singleton]; omega)
    · have he : loads (ph::phs)=loads phs:=by simp [loads,ht]
      rw [he] at h hlen
      rw [addSegment,if_pos ht]
      exact ih h hlen

theorem checkHeader_ok (h : checkHeader mem buf size = .ok ()) :
    1≤phnum mem buf ∧ phnum mem buf≤64 ∧ u64 (phoff mem buf+phnum mem buf*phdrSize) ≤ size:=by
  unfold checkHeader at h
  split_ifs at h with _ _ _ _ _ _ hnum hoff
  unfold phnum phoff
  omega

theorem validate_ok (h : validate mem buf size = .ok image) :
    checkHeader mem buf size = .ok () ∧ (programHeaders mem buf).foldlM (addSegment buf size) [] = .ok image.segments ∧
    image.segments≠[] ∧ image.fileData=buf ∧ image.fileSize=size:=by
  rw [validate_eq] at h
  rcases hc : checkHeader mem buf size with e | u
  · rw [hc] at h
    cases h
  rcases hs : (programHeaders mem buf).foldlM (addSegment buf size) [] with e | segs
  · rw [hc,hs] at h
    cases h
  rw [hc,hs] at h
  change (if segs=[] then _ else _)=_ at h
  split_ifs at h with hne
  cases h
  exact ⟨rfl,rfl,hne,rfl,rfl⟩

theorem load_ok_iff : load mem (some size) (some buf) reads = .ok image ↔
    64 ≤ size ∧ readFile size reads 0 = .ok size ∧ validate mem buf size = .ok image:=by
  unfold load
  dsimp only
  by_cases hsize : size<64
  · rw [if_pos hsize]
    exact ⟨fun h=>(nomatch h),fun h=>absurd h.1 (by omega)⟩
  rw [if_neg hsize]
  rcases hr : readFile size reads 0 with e | total
  · exact ⟨fun h=>(nomatch h),fun h=>nomatch h.2.1⟩
  change (if total≠size then _ else _)=_↔_
  by_cases ht : total=size
  · rw [if_neg (not_not.mpr ht),ht]
    exact ⟨fun h=>⟨by omega,rfl,h⟩,fun h=>h.2.2⟩
  · rw [if_pos ht]
    exact ⟨fun h=>(nomatch h),fun h=>absurd (Except.ok.inj h.2.1) ht⟩

theorem phdrAccesses_within (mem : ℕ→UInt8) (size a : ℕ) (segs : List Segment) :
    ∀r∈phdrAccesses mem size a segs,Access.Within a phdrSize r:=by
  unfold phdrAccesses Access.Within phdrSize
  dsimp only
  split_ifs <;> simp only [forall_mem_cons,not_mem_nil,false_imp_iff,implies_true,and_true] <;> omega

theorem tableAccesses_within {is : List ℕ} (hr : r∈tableAccesses mem buf size is segs) :
    ∃i∈is,r.Within (phdrAddr mem buf i) phdrSize:=by
  induction is generalizing segs with
  | nil=>cases hr
  | cons i is ih=>
    rcases mem_append.mp hr with hr | hr
    · exact ⟨i,mem_cons_self,phdrAccesses_within _ _ _ _ r hr⟩
    split at hr
    · cases hr
    · obtain ⟨j,hj,hw⟩:=ih hr
      exact ⟨j,mem_cons_of_mem _ hj,hw⟩

theorem headerAccesses_within (hsize : 64 ≤ size) (hr : r∈headerAccesses buf) : r.Within buf size:=by
  simp only [headerAccesses,mem_cons,not_mem_nil,or_false] at hr
  unfold Access.Within
  rcases hr with rfl | rfl | rfl | rfl | rfl | rfl | rfl | rfl | rfl | rfl | rfl | rfl <;> dsimp only <;> omega

/-- The heap block that `kmalloc` has returned for the file. -/
structure InHeap (buf size : ℕ) : Prop where
  start : heapStart≤buf
  stop : buf+size≤heapMax

/-- What is expected of the checks. An image has its table, its segments and their data in the file;
and whatever the file holds, nothing outside the buffer is read. -/
structure Checked (mem : ℕ→UInt8) (buf size : ℕ) (reads : List (Except KError ℕ)) : Prop where
  table : ∀image,load mem (some size) (some buf) reads = .ok image→phoff mem buf+phnum mem buf*phdrSize ≤ size
  count : ∀image,load mem (some size) (some buf) reads = .ok image →
    1 ≤ image.segments.length ∧ image.segments.length ≤ maxSegments
  data : ∀image,load mem (some size) (some buf) reads = .ok image→∀seg∈image.segments,
    buf ≤ seg.data ∧ seg.data+seg.filesz≤buf+size ∧ seg.filesz ≤ seg.memsz
  within : ∀r∈loadAccesses mem buf size reads,r.Within buf size

/-- The sums of a file do not wrap, or another check rejects the file first. -/
def SumsFit (mem : ℕ→UInt8) (buf size : ℕ) (reads : List (Except KError ℕ)) : Prop:=
  64 ≤ size → readFile size reads 0 = .ok size→checkHeader mem buf size = .ok () →
    phoff mem buf+phnum mem buf*phdrSize<wordSize ∧
      ((∀ph∈loads (programHeaders mem buf),ph.Passes size)→loads (programHeaders mem buf)≠[] →
        (loads (programHeaders mem buf)).length ≤ maxSegments →
        ∀ph∈loads (programHeaders mem buf),ph.offset+ph.filesz<wordSize)

theorem u64_of_lt {n : ℕ} (h : n<wordSize) : u64 n=n:=Nat.mod_eq_of_lt h

theorem tableAccesses_inside (hb : InHeap buf size) (hc : checkHeader mem buf size = .ok ())
    (hfit : phoff mem buf+phnum mem buf*phdrSize<wordSize)
    (hr : r∈tableAccesses mem buf size (List.range (phnum mem buf)) []) : r.Within buf size:=by
  obtain ⟨i,hi,hlo,hhi⟩:=tableAccesses_within hr
  obtain ⟨-,-,hsum⟩:=checkHeader_ok hc
  rw [u64_of_lt hfit] at hsum
  have hstop:=hb.stop
  have haddr : u64 (buf+phoff mem buf)=buf+phoff mem buf:=u64_of_lt (by unfold heapMax wordSize at *; omega)
  have hmul : (i+1)*phdrSize≤phnum mem buf*phdrSize:=Nat.mul_le_mul_right _ (mem_range.mp hi)
  unfold phdrAddr at hlo hhi
  rw [Nat.succ_mul] at hmul
  exact ⟨by omega,by omega⟩

theorem first_phdr_below (hb : InHeap buf size) (hc : checkHeader mem buf size = .ok ())
    (hwrap : wordSize≤phoff mem buf+phnum mem buf*phdrSize) : phdrAddr mem buf 0<buf:=by
  obtain ⟨-,hnum,-⟩:=checkHeader_ok hc
  have hoff : phoff mem buf<wordSize:=getLE_eight_lt mem _
  have hstart:=hb.start
  have hstop:=hb.stop
  unfold phdrAddr u64
  unfold heapStart heapMax wordSize phdrSize at *
  omega

theorem Segment.MadeFrom.inside_iff {seg : Segment} (h : seg.MadeFrom buf ph) (hb : InHeap buf size)
    (hoff : ph.offset<wordSize) (hp : ph.Passes size) :
    (buf ≤ seg.data ∧ seg.data+seg.filesz≤buf+size)↔ph.offset+ph.filesz<wordSize:=by
  have hin:=hp.inside
  have hstart:=hb.start
  have hstop:=hb.stop
  rw [h.data,h.filesz]
  unfold u64 at *
  unfold heapStart heapMax wordSize at *
  omega

theorem offset_lt_of_mem (h : ph∈loads (programHeaders mem buf)) : ph.offset<wordSize:=by
  obtain ⟨i,-,rfl⟩:=mem_map.mp (mem_filter.mp h).1
  exact getLE_eight_lt mem _

theorem segments_inside_iff (hb : InHeap buf size) (hpass : ∀ph∈loads (programHeaders mem buf),ph.Passes size)
    (hmade : List.Forall₂ (Segment.MadeFrom buf) (loads (programHeaders mem buf)) segs) :
    (∀seg∈segs,buf ≤ seg.data ∧ seg.data+seg.filesz≤buf+size) ↔
    ∀ph∈loads (programHeaders mem buf),ph.offset+ph.filesz<wordSize:=by
  have hoff : ∀ph∈loads (programHeaders mem buf),ph.offset<wordSize:=fun _=>offset_lt_of_mem
  generalize loads (programHeaders mem buf)=phs at hpass hmade hoff
  induction hmade with
  | nil=>simp
  | cons hseg _ ih=>
    rw [forall_mem_cons,forall_mem_cons]
    rw [forall_mem_cons] at hpass hoff
    exact and_congr (hseg.inside_iff hb hoff.1 hpass.1) (ih hpass.2 hoff.2)

theorem mem_loadAccesses : r∈loadAccesses mem buf size reads ↔
    64 ≤ size ∧ readFile size reads 0 = .ok size ∧ r∈validateAccesses mem buf size:=by
  unfold loadAccesses
  by_cases hsize : size<64
  · rw [if_pos hsize]
    exact ⟨fun h=>(nomatch h),fun h=>absurd h.1 (by omega)⟩
  rw [if_neg hsize]
  rcases hr : readFile size reads 0 with e | total
  · exact ⟨fun h=>(nomatch h),fun h=>nomatch h.2.1⟩
  dsimp only
  by_cases ht : total=size
  · rw [if_neg (not_not.mpr ht),ht]
    exact ⟨fun h=>⟨by omega,rfl,h⟩,fun h=>h.2.2⟩
  · rw [if_pos ht]
    exact ⟨fun h=>(nomatch h),fun h=>absurd (Except.ok.inj h.2.1) ht⟩

theorem Checked.of_sumsFit (hb : InHeap buf size) (h : SumsFit mem buf size reads) : Checked mem buf size reads:=by
  constructor
  case table =>
    intro image hload
    obtain ⟨hsize,hread,hval⟩:=load_ok_iff.mp hload
    obtain ⟨hc,-,-⟩:=validate_ok hval
    have hsum:=(checkHeader_ok hc).2.2
    rwa [u64_of_lt (h hsize hread hc).1] at hsum
  case count =>
    intro image hload
    obtain ⟨-,hsegs,hne,-⟩:=validate_ok (load_ok_iff.mp hload).2.2
    exact ⟨length_pos_iff.mpr hne,(addSegments_ok hsegs (Nat.zero_le _)).2.1⟩
  case data =>
    intro image hload seg hseg
    obtain ⟨hsize,hread,hval⟩:=load_ok_iff.mp hload
    obtain ⟨hc,hsegs,hne,-⟩:=validate_ok hval
    obtain ⟨hpass,hlen,made,he,hmade⟩:=addSegments_ok hsegs (Nat.zero_le _)
    rw [nil_append] at he
    rw [←he] at hmade
    have hsame:=hmade.length_eq
    have hloads : loads (programHeaders mem buf)≠[]:=by
      intro hnil
      rw [hnil] at hsame
      exact hne (length_eq_zero_iff.mp hsame.symm)
    have hfit:=(h hsize hread hc).2 hpass hloads (hsame▸hlen)
    obtain ⟨hlo,hhi⟩:=(segments_inside_iff hb hpass hmade).mpr hfit seg hseg
    exact ⟨hlo,hhi,seg.filesz_le⟩
  case within =>
    intro r hr
    obtain ⟨hsize,hread,hr⟩:=mem_loadAccesses.mp hr
    rcases mem_append.mp hr with hr | hr
    · exact headerAccesses_within hsize hr
    rcases hc : checkHeader mem buf size with e | u
    · rw [hc] at hr
      cases hr
    · rw [hc] at hr
      exact tableAccesses_inside hb hc (h hsize hread hc).1 hr

theorem Checked.table_lt (h : Checked mem buf size reads) (hb : InHeap buf size) (hsize : 64 ≤ size)
    (hread : readFile size reads 0 = .ok size) (hc : checkHeader mem buf size = .ok ()) :
    phoff mem buf+phnum mem buf*phdrSize<wordSize:=by
  by_contra hwrap
  obtain ⟨n,hn⟩ : ∃n,phnum mem buf=n+1:=⟨phnum mem buf-1,by have:=(checkHeader_ok hc).1; omega⟩
  have hfirst : (phdrAddr mem buf 0,4)∈validateAccesses mem buf size:=by
    unfold validateAccesses
    rw [hc,hn,range_succ_eq_map]
    exact mem_append_right _ (mem_append_left _ mem_cons_self)
  have hlo:=(h.within _ (mem_loadAccesses.mpr ⟨hsize,hread,hfirst⟩)).1
  have hbelow:=first_phdr_below hb hc (Nat.le_of_not_lt hwrap)
  omega

/-- The checks are what is expected of them for exactly those files whose sums do not wrap. -/
theorem load_checked_iff (hb : InHeap buf size) : Checked mem buf size reads↔SumsFit mem buf size reads:=by
  constructor
  · intro h hsize hread hc
    refine ⟨h.table_lt hb hsize hread hc,fun hpass hne hlen=>?_⟩
    -- The loop ends well, so there is an image, and its data is inside.
    obtain ⟨segs,hsegs⟩ : ∃out,(programHeaders mem buf).foldlM (addSegment buf size) [] = .ok out:=
      addSegments_of_passes hpass (by simpa using hlen)
    obtain ⟨-,-,made,he,hmade⟩:=addSegments_ok hsegs (Nat.zero_le _)
    subst he
    have hsegs' : segs≠[]:=by
      rintro rfl
      exact hne (length_eq_zero_iff.mp hmade.length_eq)
    have hval : validate mem buf size = .ok ⟨getLE mem 8 (buf+24),segs,buf,size⟩:=by
      rw [validate_eq,hc,hsegs]
      exact if_neg hsegs'
    have hdata:=h.data _ (load_ok_iff.mpr ⟨hsize,hread,hval⟩)
    exact (segments_inside_iff hb hpass hmade).mp fun seg hs=>⟨(hdata seg hs).1,(hdata seg hs).2.1⟩
  · exact Checked.of_sumsFit hb

/-- A sound file in the heap: its one segment lies in it. -/
theorem load_checked_sound : Checked (elfFile fileBuf 0x400000) fileBuf 121 [.ok 121]:=by
  refine (load_checked_iff ⟨by decide,by decide⟩).mpr fun _ _ _=>⟨by decide +kernel,fun _ _ _=>?_⟩
  decide +kernel

/-- The same file, with its segment one byte below the buffer. -/
def wrappedSegment : ℕ→UInt8:=putLE (elfFile fileBuf 0x400000) 8 (fileBuf+72) (wordSize-1)

/-- The same file, with its table below the buffer. -/
def wrappedTable : ℕ→UInt8:=putLE (elfFile fileBuf 0x400000) 8 (fileBuf+32) (wordSize-56)

/-- Both files pass: the one has its data outside the file, the other has its table read outside the buffer. -/
theorem wrapped_sums_accepted : (∃image,load wrappedSegment (some 121) (some fileBuf) [.ok 121] = .ok image ∧
    ∃seg∈image.segments,seg.data=fileBuf-1 ∧ seg.filesz=1) ∧ ¬Checked wrappedSegment fileBuf 121 [.ok 121] ∧
    (fileBuf-56,4)∈loadAccesses wrappedTable fileBuf 121 [.ok 121] ∧
    ¬Checked wrappedTable fileBuf 121 [.ok 121]:=by
  have hload : load wrappedSegment (some 121) (some fileBuf) [.ok 121] =
      .ok ⟨0x400000,[⟨0x400000,1,1,0,fileBuf-1,le_rfl,by decide,by decide⟩],fileBuf,121⟩:=rfl
  have hread : (fileBuf-56,4)∈loadAccesses wrappedTable fileBuf 121 [.ok 121]:=by decide +kernel
  refine ⟨⟨_,hload,_,mem_singleton_self _,rfl,rfl⟩,fun h=>?_,hread,fun h=>?_⟩
  · exact absurd (h.data _ hload _ (mem_singleton_self _)).1 (by decide)
  · exact absurd (h.within _ hread).1 (by decide)

end Knail.Elf
