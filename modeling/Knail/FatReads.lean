import Knail.VolumeIntegrity

/-!
# Reading a chain

`chain_read` returns the bytes of a chain, as far as the chain goes. What `chain_write` has written is
read back, and everything else reads as before.
-/
namespace Knail.Fat32

open List

variable {m : Mount} {d : Disk} {x first n intra len offset : ℕ} {as bs xs : List ℕ}

theorem Volume.skipRead_spec (hv : Volume m d) (hl : Linked (table m d) (as++x::bs)) (hn : n≤bs.length) :
    ∃as' y bs',skipRead m d n x=some y ∧ as++x::bs=as'++y::bs' ∧ as'.length=as.length+n:=by
  induction n generalizing as x bs with
  | zero=>exact ⟨as,x,bs,rfl,rfl,rfl⟩
  | succ n ih=>
    cases bs with
    | nil=>exact absurd hn (by simp)
    | cons y bs=>
      have hx : InRange m x:=inRange_of_ne_free (hl.ne_free (by simp))
      have hy : InRange m y:=inRange_of_ne_free (hl.ne_free (by simp))
      obtain ⟨h1,h2⟩:=isEoc_of_inRange hv.geometry hy
      have hsplit : as++x::y::bs=(as++[x])++y::bs:=by simp
      rw [hsplit] at hl ⊢
      obtain ⟨as',z,bs',he,heq,hlen⟩:=ih hl (by simpa using hn)
      refine ⟨as',z,bs',?_,heq,by rw [hlen,length_append,length_singleton]; omega⟩
      rw [←hsplit] at hl
      simp only [skipRead,hv.readFat_next hx hl.next_eq,h1,h2]
      exact he

theorem Volume.hop_spec (hv : Volume m d) (hl : Linked (table m d) (as++x::bs)) (hi : intra ≤ clusterBytes m)
    (hend : as.length*clusterBytes m+intra<(as++x::bs).length*clusterBytes m) :
    ∃as' y bs' intra',hop m d intra intra x=some (intra',y) ∧ as++x::bs=as'++y::bs' ∧
    intra'<clusterBytes m ∧ as'.length*clusterBytes m+intra'=as.length*clusterBytes m+intra:=by
  have hpos:=hv.geometry.clusterBytes_pos
  have hstay {n i y : ℕ} (hlt : i<clusterBytes m) : hop m d n i y=some (i,y):=by
    cases n with
    | zero=>rfl
    | succ n=>rw [hop,if_neg (by omega)]
  by_cases hlt : intra<clusterBytes m
  · exact ⟨as,x,bs,intra,hstay hlt,rfl,hlt,rfl⟩
  obtain rfl : intra=clusterBytes m:=by omega
  cases bs with
  | nil=>
    rw [length_append,length_singleton,Nat.succ_mul] at hend
    omega
  | cons y bs=>
    have hx : InRange m x:=inRange_of_ne_free (hl.ne_free (by simp))
    have hy : InRange m y:=inRange_of_ne_free (hl.ne_free (by simp))
    obtain ⟨h1,h2⟩:=isEoc_of_inRange hv.geometry hy
    refine ⟨as++[x],y,bs,0,?_,by simp,hpos,?_⟩
    · obtain ⟨k,hk⟩:=Nat.exists_eq_add_one_of_ne_zero (Nat.ne_of_gt hpos)
      have hloop : hop m d (k+1) (clusterBytes m) x=some (0,y):=by
        simp only [hop,Nat.le_refl,if_true,hv.readFat_next hx hl.next_eq,h1,h2,Nat.sub_self]
        exact hstay hpos
      rwa [←hk] at hloop
    · rw [length_append,length_singleton,Nat.succ_mul,Nat.add_zero]

theorem byteAt_sector (hpos : 0<clusterBytes m) {i : ℕ} (hin : intra+i<clusterBytes m) (hi : i<512-intra%512) :
    byteAt m d (as++x::bs) (as.length*clusterBytes m+intra+i) =
    d.data (m.dataStart+((x-2)*m.sectorsPerCluster+intra/512)) (intra%512+i):=by
  have hdiv : (as.length*clusterBytes m+intra+i)/clusterBytes m=as.length:=by
    rw [Nat.add_assoc,Nat.mul_comm,Nat.mul_add_div hpos,Nat.div_eq_of_lt hin,Nat.add_zero]
  have hmod : (as.length*clusterBytes m+intra+i)%clusterBytes m=intra+i:=by
    rw [Nat.add_assoc,Nat.mul_comm,Nat.mul_add_mod,Nat.mod_eq_of_lt hin]
  have hsector : (intra+i)/512=intra/512:=by omega
  have hbyte : (intra+i)%512=intra%512+i:=by omega
  rw [byteAt,hdiv,hmod,getD_append_cons,cell,hsector,hbyte]

theorem Volume.readTurn_spec (hv : Volume m d) (hl : Linked (table m d) (as++x::bs)) (hi : intra ≤ clusterBytes m)
    (hlen : 0<len) (hend : as.length*clusterBytes m+intra+len≤(as++x::bs).length*clusterBytes m) :
    ∃as' y bs' intra' k,0<k ∧ k≤len ∧ as++x::bs=as'++y::bs' ∧ intra' ≤ clusterBytes m ∧
    as'.length*clusterBytes m+intra'=as.length*clusterBytes m+intra+k ∧
    readTurn m d x intra len=some ((List.range k).map fun i=>
    byteAt m d (as++x::bs) (as.length*clusterBytes m+intra+i),y,intra'):=by
  obtain ⟨as',y,bs',intra',he,heq,hlt,hplace⟩:=hv.hop_spec hl hi (by omega)
  rw [heq] at hl ⊢
  have hy : InRange m y:=inRange_of_ne_free (hl.ne_free (by simp))
  obtain ⟨h1,h2⟩:=isEoc_of_inRange hv.geometry hy
  have hcb:=hv.geometry.clusterBytes_eq
  obtain ⟨hlba,hsector⟩:=hv.geometry.lba_eq hy (show intra'/512 < m.sectorsPerCluster by omega)
  have hchunk : chunk intra' len=min (512-intra'%512) len:=rfl
  refine ⟨as',y,bs',intra'+chunk intra' len,chunk intra' len,by omega,by omega,rfl,by omega,by omega,?_⟩
  have hread:=devRead_of_lt (Nat.lt_of_lt_of_le hsector hv.geometry.end_le)
  rw [←hlba] at hread
  simp only [readTurn,he,h1,h2,hread]
  rw [if_neg (by simp)]
  congr 2
  refine map_congr_left fun i hi=>?_
  have hi:=mem_range.mp hi
  rw [←hplace,hlba,byteAt_sector hv.geometry.clusterBytes_pos (by omega) (by omega)]

theorem Volume.readTurns_spec (hv : Volume m d) (hl : Linked (table m d) (as++x::bs)) (hi : intra ≤ clusterBytes m)
    (hn : len≤n) (hend : as.length*clusterBytes m+intra+len≤(as++x::bs).length*clusterBytes m) :
    readTurns (readTurn m d) n x intra len=(List.range len).map fun i=>
    byteAt m d (as++x::bs) (as.length*clusterBytes m+intra+i):=by
  induction n generalizing as x bs intra len with
  | zero=>
    obtain rfl : len=0:=by omega
    rfl
  | succ n ih=>
    rw [readTurns]
    split
    case isTrue hzero =>
      subst hzero
      rfl
    case isFalse hpos =>
      obtain ⟨as',y,bs',intra',k,hk0,hk,heq,hi',hplace,hturn⟩:=hv.readTurn_spec hl hi (by omega) hend
      simp only [hturn,length_map,length_range]
      rw [heq] at hl hend ⊢
      rw [ih hl hi' (by omega) (by omega),hplace]
      obtain ⟨j,rfl⟩:=Nat.exists_eq_add_of_le hk
      rw [Nat.add_sub_cancel_left,range_add,map_append,map_map]
      simp only [Function.comp_def,Nat.add_assoc]

theorem Volume.chainRead_spec (hv : Volume m d) (hl : Linked (table m d) (first::xs))
    (hend : offset+len≤(first::xs).length*clusterBytes m) :
    chainRead m first offset len d=(List.range len).map fun i=>byteAt m d (first::xs) (offset+i):=by
  rw [chainRead]
  split
  case isTrue hzero =>
    subst hzero
    rfl
  case isFalse hpos =>
    have hcb:=hv.geometry.clusterBytes_pos
    have hmul : offset/clusterBytes m*clusterBytes m+offset%clusterBytes m=offset:=Nat.div_add_mod' ..
    have hidx : offset/clusterBytes m<(first::xs).length:=(Nat.div_lt_iff_lt_mul hcb).mpr (by omega)
    obtain ⟨as,y,bs,he,heq,hlen⟩:=@Volume.skipRead_spec m d first _ [] xs hv hl (Nat.le_of_lt_succ hidx)
    rw [nil_append] at heq
    rw [length_nil,Nat.zero_add] at hlen
    rw [he]
    dsimp only
    rw [heq] at hl hend ⊢
    rw [readLoop,hv.readTurns_spec hl (Nat.le_of_lt (Nat.mod_lt _ hcb)) (Nat.le_refl len) (by rw [hlen,hmul]; exact hend),
      hlen,hmul]

/-- `n` bytes of `src` were written to the chain `xs` at `offset`, and the chain has got the clusters
`new`. The disks are compared by what `chain_read` returns. -/
structure RoundTrip (m : Mount) (d d' : Disk) (first first' : ℕ) (xs new : List ℕ) (offset : ℕ) (src : List UInt8) (n : ℕ) :
    Prop where
  rooted : (xs++new).head? = some first'
  linked : Linked (table m d') (xs++new)
  free : ∀c∈new,table m d c = .free
  readBack : chainRead m first' offset n d'=src.take n
  covered : ∀q<xs.length*clusterBytes m,q<offset ∨ offset+n≤q →
    chainRead m first' q 1 d'=chainRead m first q 1 d
  zero : ∀q,xs.length*clusterBytes m≤q→q<(xs++new).length*clusterBytes m→q<offset ∨ offset+n≤q →
    chainRead m first' q 1 d'=[0]
  others : ∀y,InRange m y→y∉xs++new→∀b<clusterBytes m,cell m d' y b=cell m d y b
  short : n<src.length→Full m d'

theorem Volume.chainRead_one (hv : Volume m d) (hl : Linked (table m d) xs) (hhead : xs.head? = some first) {q : ℕ}
    (hq : q<xs.length*clusterBytes m) : chainRead m first q 1 d=[byteAt m d xs q]:=by
  obtain ⟨ys,rfl⟩:=head?_eq_some_iff.mp hhead
  rw [hv.chainRead_spec hl hq]
  rfl

/-- What `chain_write` has written is read back, whatever the chain, the place and the bytes. -/
theorem chainWrite_roundTrip (hv : Volume m d) (hroot : Rooted first xs) (hl : Linked (table m d) xs) (hn : xs.Nodup)
    {src : List UInt8} (hsrc : src≠[]) {first' : ℕ} {d' : Disk} (hpos : 0<n)
    (hw : chainWrite m first offset src d=((n : ℤ),first',d')) :
    ∃new,RoundTrip m d d' first first' xs new offset src n:=by
  obtain ⟨r,first₁,d₁,xs',k,he,hroot',hk,hr,hwrote,hstop⟩:=hv.chainWrite_spec hroot hl hn hsrc offset
  obtain ⟨rfl,rfl,rfl⟩ : r=n ∧ first₁=first' ∧ d₁=d':=by simpa using he.symm.trans hw
  obtain rfl : k=n:=by omega
  obtain ⟨new,rfl,hfree⟩:=hwrote.grows.extend
  have hlen : (src.take k).length=k:=by simpa using hk
  have hfits:=hwrote.fits (ne_nil_of_length_pos (by omega))
  have hv':=hwrote.kept.volume hv
  have hl':=hwrote.grows.linked
  rw [hlen] at hfits
  have hhead : (xs++new).head? = some first₁:=by
    refine hroot'.resolve_left fun hnil=>?_
    rw [hnil.2,length_nil,Nat.zero_mul] at hfits
    omega
  have hbyte (q : ℕ) (hq : q<(xs++new).length*clusterBytes m):=hwrote.bytes q hq
  have hcovered : xs.length*clusterBytes m≤(xs++new).length*clusterBytes m:=
    Nat.mul_le_mul_right _ (by simp)
  refine ⟨new,?_⟩
  constructor
  case rooted => exact hhead
  case linked => exact hl'
  case free => exact hfree
  case readBack =>
    obtain ⟨ys,hys⟩:=head?_eq_some_iff.mp hhead
    rw [hys] at hl' hfits hbyte
    rw [hv'.chainRead_spec hl' hfits]
    refine ext_getElem (by simpa using hlen) fun i hi hi'=>?_
    rw [getElem_map,getElem_range,hbyte _ (by omega),if_pos (by omega),Nat.add_sub_cancel_left,getD_eq_getElem _ _ hi']
  case covered =>
    intro q hq hout
    have hfirst : xs.head? = some first:=hroot.resolve_left fun hnil=>by simp [hnil.2] at hq
    rw [hv'.chainRead_one hl' hhead (by omega),hv.chainRead_one hl hfirst hq,hbyte q (by omega),if_neg (by omega),if_pos hq]
  case zero =>
    intro q hge hlt hout
    rw [hv'.chainRead_one hl' hhead hlt,hbyte q hlt,if_neg (by omega),if_neg (by omega)]
  case others => exact hwrote.cells
  case short => exact fun hlt=>(hstop hlt).1

/-- Three bytes are written to an empty file of the small volume, behind its first cluster. -/
theorem chainWrite_roundTrip_small : ∃first' d' new,chainWrite smallMount 0 600 [1,2,3] smallDisk=(3,first',d') ∧
    RoundTrip smallMount smallDisk d' 0 first' [] new 600 [1,2,3] 3:=by
  have hrun : (chainWrite smallMount 0 600 [1,2,3] smallDisk).1=3:=by decide +kernel
  obtain ⟨new,h⟩:=chainWrite_roundTrip smallDisk_volume (.inl ⟨Nat.zero_lt_two,rfl⟩) trivial nodup_nil
    (cons_ne_nil 1 [2,3]) (by decide : 0<3) (Prod.ext hrun rfl)
  exact ⟨_,_,new,Prod.ext hrun rfl,h⟩

end Knail.Fat32
