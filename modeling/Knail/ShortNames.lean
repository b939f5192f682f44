import Knail.Fat32
import Mathlib.Data.List.DropRight

/-!
# Names of directory entries

An entry has room for eight bytes of a name and three bytes behind its dot, in capital letters and
filled up with spaces; a byte next to them records which of the two parts was in small letters. Names
that do not fit are cut.
-/
namespace Knail.Fat32

open List

variable {xs : List UInt8} {name : List UInt8} {e : ℕ→UInt8}
  {c b : UInt8} {base ext : List UInt8} {k : ℕ} {f g : List UInt8→List UInt8}

def IsUpper (c : UInt8) : Prop:=65 ≤ c ∧ c≤90

def IsLower (c : UInt8) : Prop:=97 ≤ c ∧ c≤122

instance (c : UInt8) : Decidable (IsUpper c):=inferInstanceAs (Decidable (_ ∧ _))
instance (c : UInt8) : Decidable (IsLower c):=inferInstanceAs (Decidable (_ ∧ _))

theorem toLower_toUpper (c : UInt8) : toLower (toUpper c)=toLower c:=
  forall_byte (P:=fun c=>toLower (toUpper c)=toLower c) (by decide +kernel) c

theorem toLower_toLower (c : UInt8) : toLower (toLower c)=toLower c:=
  forall_byte (P:=fun c=>toLower (toLower c)=toLower c) (by decide +kernel) c

theorem toUpper_toUpper (c : UInt8) : toUpper (toUpper c)=toUpper c:=
  forall_byte (P:=fun c=>toUpper (toUpper c)=toUpper c) (by decide +kernel) c

theorem toUpper_toLower (c : UInt8) : toUpper (toLower c)=toUpper c:=
  forall_byte (P:=fun c=>toUpper (toLower c)=toUpper c) (by decide +kernel) c

theorem isUpper_toUpper (h : IsLower c) : IsUpper (toUpper c):=
  forall_byte (P:=fun c=>IsLower c→IsUpper (toUpper c)) (by decide +kernel) c h

theorem isLower_toLower_of_isUpper (h : IsUpper c) : IsLower (toLower c):=
  forall_byte (P:=fun c=>IsUpper c→IsLower (toLower c)) (by decide +kernel) c h

theorem toLower_eq_self (c : UInt8) : toLower c=c↔¬IsUpper c:=
  forall_byte (P:=fun c=>toLower c=c↔¬IsUpper c) (by decide +kernel) c

theorem toUpper_eq_self (c : UInt8) : toUpper c=c↔¬IsLower c:=
  forall_byte (P:=fun c=>toUpper c=c↔¬IsLower c) (by decide +kernel) c

def Caseless (c : UInt8) : Prop:=¬IsUpper c ∧ ¬IsLower c

instance (c : UInt8) : Decidable (Caseless c):=inferInstanceAs (Decidable (_ ∧ _))

theorem toUpper_eq_iff (hb : Caseless b) (c : UInt8) : toUpper c=b↔c=b:=by
  by_cases h : IsLower c
  · exact iff_of_false (fun he=>hb.1 (he▸isUpper_toUpper h)) fun he=>hb.2 (he▸h)
  · rw [(toUpper_eq_self c).mpr h]

theorem toLower_eq_iff (hb : Caseless b) (c : UInt8) : toLower c=b↔c=b:=by
  by_cases h : IsUpper c
  · exact iff_of_false (fun he=>hb.2 (he▸isLower_toLower_of_isUpper h)) fun he=>hb.1 (he▸h)
  · rw [(toLower_eq_self c).mpr h]

theorem mem_map_toLower (hb : Caseless b) : b∈xs.map toLower↔b∈xs:=by
  simp [toLower_eq_iff hb]

theorem not_isLower_toUpper (c : UInt8) : ¬IsLower (toUpper c):=
  forall_byte (P:=fun c=>¬IsLower (toUpper c)) (by decide +kernel) c

theorem isLower_toLower (h : IsLower c) : IsLower (toLower c):=
  forall_byte (P:=fun c=>IsLower c→IsLower (toLower c)) (by decide +kernel) c h

def baseOf (name : List UInt8) : List UInt8:=name.takeWhile (· ≠ 46)

def extOf (name : List UInt8) : List UInt8:=(name.dropWhile (· ≠ 46)).drop 1

/-- A name from its parts, with a dot if there is a second one. -/
def joinParts (base ext : List UInt8) : List UInt8:=base++if ext=[] then [] else 46::ext

theorem dot_notMem_baseOf (name : List UInt8) : 46∉baseOf name:=by
  intro h
  simpa using mem_takeWhile_imp h

theorem eq_of_dot_notMem (h : 46∉name) : baseOf name=name ∧ extOf name=[]:=by
  have hne (c : UInt8) (hc : c∈name) : decide (c≠46)=true:=by
    refine decide_eq_true ?_
    rintro rfl
    exact h hc
  exact ⟨takeWhile_eq_self_iff.mpr hne,by rw [extOf,dropWhile_eq_nil_iff.mpr hne,drop_nil]⟩

theorem eq_of_dot_mem (h : 46∈name) : name=baseOf name++46::extOf name:=by
  induction name with
  | nil=>simp at h
  | cons c name ih=>
    by_cases hc : c=46
    · subst hc
      rfl
    have hbase : baseOf (c::name)=c::baseOf name:=takeWhile_cons_of_pos (by simpa using hc)
    have hext : extOf (c::name)=extOf name:=by rw [extOf,dropWhile_cons_of_pos (by simpa using hc),extOf]
    rw [hbase,hext,cons_append,←ih (mem_of_ne_of_mem (Ne.symm hc) h)]

theorem baseOf_append (h : 46∉base) (ext : List UInt8) : baseOf (base++46::ext)=base:=by
  induction base with
  | nil=>rfl
  | cons c base ih=>
    rw [mem_cons,not_or] at h
    rw [cons_append,baseOf,takeWhile_cons_of_pos (by simpa using Ne.symm h.1)]
    exact congrArg _ (ih h.2)

theorem extOf_append (h : 46∉base) (ext : List UInt8) : extOf (base++46::ext)=ext:=by
  induction base with
  | nil=>rfl
  | cons c base ih=>
    rw [mem_cons,not_or] at h
    rw [cons_append,extOf,dropWhile_cons_of_pos (by simpa using Ne.symm h.1)]
    exact ih h.2

theorem parts_joinParts (h : 46∉base) : baseOf (joinParts base ext)=base ∧ extOf (joinParts base ext)=ext:=by
  by_cases hext : ext=[]
  · rw [joinParts,if_pos hext,append_nil,hext]
    exact eq_of_dot_notMem h
  · rw [joinParts,if_neg hext]
    exact ⟨baseOf_append h ext,extOf_append h ext⟩

theorem trimSpaces_eq (xs : List UInt8) : trimSpaces xs=xs.rdropWhile (· = 32):=rfl

theorem trimSpaces_initial (xs : List UInt8) : trimSpaces xs <+: xs:= rdropWhile_prefix _ _

theorem trimSpaces_append (xs : List UInt8) (k : ℕ) : trimSpaces (xs++List.replicate k 32)=trimSpaces xs:=by
  induction k with
  | zero=>rw [replicate_zero,append_nil]
  | succ k ih=>
    rw [replicate_succ',←append_assoc,trimSpaces_eq,rdropWhile_concat_pos _ _ _ (by simp)]
    exact ih

theorem exists_eq_trimSpaces (xs : List UInt8) : ∃k,xs=trimSpaces xs++List.replicate k 32:=by
  induction xs using List.reverseRecOn with
  | nil=>exact ⟨0,rfl⟩
  | append_singleton xs c ih=>
    by_cases hc : c=32
    · obtain ⟨k,hk⟩:=ih
      subst hc
      have htrim : trimSpaces (xs++[32])=trimSpaces xs:=trimSpaces_append xs 1
      refine ⟨k+1,?_⟩
      rw [htrim,replicate_succ',←append_assoc,←hk]
    · refine ⟨0,?_⟩
      rw [trimSpaces_eq,rdropWhile_concat_neg _ _ _ (by simpa using hc),replicate_zero,append_nil]

theorem rightpad_trimSpaces (h : xs.length≤k) : (trimSpaces xs).rightpad k 32=xs.rightpad k 32:=by
  obtain ⟨j,hj⟩:=exists_eq_trimSpaces xs
  have hlen:=congrArg List.length hj
  rw [length_append,length_replicate] at hlen
  rw [List.rightpad,List.rightpad]
  conv_rhs => rw [hj]
  rw [append_assoc,replicate_append_replicate,length_append,length_replicate]
  congr 2
  omega

theorem trimSpaces_rightpad (xs : List UInt8) (k : ℕ) : trimSpaces (xs.rightpad k 32)=trimSpaces xs:=
  trimSpaces_append xs _

theorem trimSpaces_eq_self : trimSpaces xs=xs↔xs.getLast?≠some 32:=by
  rw [trimSpaces_eq,rdropWhile_eq_self_iff]
  by_cases h : xs=[]
  · simp [h]
  · simp [h,getLast?_eq_some_getLast]

theorem trimSpaces_map_toUpper (xs : List UInt8) : trimSpaces (xs.map toUpper)=(trimSpaces xs).map toUpper:=by
  rw [trimSpaces,trimSpaces,←map_reverse,dropWhile_map,←map_reverse]
  congr 3
  funext c
  simp [toUpper_eq_iff (show Caseless 32 by decide)]

/-- What is left of the case of a part: all letters small, if one of them is. -/
def recase (xs : List UInt8) : List UInt8:=
  if xs.any fun c=>decide (IsLower c) then xs.map toLower else xs.map toUpper

theorem length_recase (xs : List UInt8) : (recase xs).length=xs.length:=by
  unfold recase
  split <;> rw [length_map]

theorem mem_recase (hb : Caseless b) : b∈recase xs↔b∈xs:=by
  unfold recase
  split <;> simp [toLower_eq_iff hb,toUpper_eq_iff hb]

theorem dot_mem_recase : 46∈recase xs↔46∈xs:=mem_recase (by decide)

theorem map_toUpper_recase (xs : List UInt8) : (recase xs).map toUpper=xs.map toUpper:=by
  unfold recase
  split <;> simp [Function.comp_def,toUpper_toLower,toUpper_toUpper]

theorem map_toLower_recase (xs : List UInt8) : (recase xs).map toLower=xs.map toLower:=by
  unfold recase
  split <;> simp [Function.comp_def,toLower_toLower,toLower_toUpper]

theorem any_isLower_recase (xs : List UInt8) :
    ((recase xs).any fun c=>decide (IsLower c))=xs.any fun c=>decide (IsLower c):=by
  unfold recase
  cases h : xs.any fun c=>decide (IsLower c) with
  | true=>
    obtain ⟨c,hc,hlow⟩:=any_eq_true.mp h
    refine any_eq_true.mpr ⟨toLower c,?_,decide_eq_true (isLower_toLower (of_decide_eq_true hlow))⟩
    exact mem_map_of_mem hc
  | false=>
    refine any_eq_false.mpr fun c hc=>?_
    obtain ⟨a,-,rfl⟩:=mem_map.mp hc
    simpa using not_isLower_toUpper a

theorem any_isLower_trimSpaces (xs : List UInt8) :
    ((trimSpaces xs).any fun c=>decide (IsLower c))=xs.any fun c=>decide (IsLower c):=by
  obtain ⟨k,hk⟩:=exists_eq_trimSpaces xs
  have hspaces : ((List.replicate k (32 : UInt8)).any fun c=>decide (IsLower c))=false:=by
    refine any_eq_false.mpr fun c hc=>?_
    rw [eq_of_mem_replicate hc]
    decide
  nth_rewrite 2 [hk]
  rw [any_append,hspaces,Bool.or_false]

def MixedCase (xs : List UInt8) : Prop:=(∃c∈xs,IsUpper c) ∧ ∃c∈xs,IsLower c

theorem map_eq_self {f : UInt8→UInt8} : xs.map f=xs↔∀c∈xs,f c=c:=by
  have h:=map_inj_left (l:=xs) (f:=f) (g:=id)
  rwa [map_id] at h

theorem recase_eq_self : recase xs=xs↔¬MixedCase xs:=by
  have hlow : (xs.any fun c=>decide (IsLower c))=true↔∃c∈xs,IsLower c:=by simp
  unfold recase MixedCase
  by_cases h : ∃c∈xs,IsLower c
  · rw [if_pos (hlow.mpr h),map_eq_self]
    simp [toLower_eq_self,h]
  · rw [if_neg (mt hlow.mp h),map_eq_self]
    exact iff_of_true (fun c hc=>(toUpper_eq_self c).mpr fun hl=>h ⟨c,hc,hl⟩) fun hm=>h hm.2

/-- The first part as it is stored, and the second. -/
def storedBase (name : List UInt8) : List UInt8:=trimSpaces ((baseOf name).take 8)

@[inherit_doc storedBase] def storedExt (name : List UInt8) : List UInt8:=trimSpaces ((extOf name).take 3)

theorem encode83_parts (name : List UInt8) : encode83 name =
    ((((baseOf name).take 8).map toUpper).rightpad 8 32++(((extOf name).take 3).map toUpper).rightpad 3 32,
    (if ((baseOf name).take 8).any fun c=>decide (IsLower c) then 0x08 else 0) |||
    if ((extOf name).take 3).any fun c=>decide (IsLower c) then 0x10 else 0):=rfl

theorem encode83_eq (name : List UInt8) : encode83 name =
    (((storedBase name).map toUpper).rightpad 8 32++((storedExt name).map toUpper).rightpad 3 32,
    (if (storedBase name).any fun c=>decide (IsLower c) then 0x08 else 0) |||
    if (storedExt name).any fun c=>decide (IsLower c) then 0x10 else 0):=by
  have hlen (k : ℕ) (xs : List UInt8) : ((xs.take k).map toUpper).length≤k:=by
    rw [length_map]
    exact length_take_le k xs
  rw [encode83_parts,storedBase,storedExt,any_isLower_trimSpaces,any_isLower_trimSpaces,←trimSpaces_map_toUpper,
    ← trimSpaces_map_toUpper,rightpad_trimSpaces (hlen 8 _),rightpad_trimSpaces (hlen 3 _)]

theorem length_encode83 (name : List UInt8) : (encode83 name).1.length=11:=by
  simp [encode83,List.rightpad]
  omega

theorem newEntry_name (name : List UInt8) (reserved attr : UInt8) {i : ℕ} (hi : i<name.length) :
    newEntry name reserved attr i=name.getD i 0:=by
  rw [newEntry,putBytes_of_mem (Nat.zero_le _) (by simp; omega),Nat.sub_zero,getD_append _ _ _ _ hi]

theorem newEntry_attr (name : List UInt8) (reserved attr : UInt8) : newEntry name reserved attr name.length=attr:=by
  rw [newEntry,putBytes_of_mem (Nat.zero_le _) (by simp),Nat.sub_zero,getD_append_right _ _ _ _ (Nat.le_refl _)]
  simp

theorem newEntry_reserved (name : List UInt8) (reserved attr : UInt8) :
    newEntry name reserved attr (name.length+1)=reserved:=by
  rw [newEntry,putBytes_of_mem (Nat.zero_le _) (by simp),Nat.sub_zero,getD_append_right _ _ _ _ (Nat.le_succ _)]
  simp

theorem fields_newEntry (hb : base.length=8) (hx : ext.length=3) (reserved attr : UInt8) :
    (List.range 8).map (newEntry (base++ext) reserved attr)=base ∧
    ((List.range 3).map fun i=>newEntry (base++ext) reserved attr (8+i))=ext ∧
    newEntry (base++ext) reserved attr 12=reserved:=by
  have hlen : (base++ext).length=11:=by rw [length_append,hb,hx]
  refine ⟨ext_getElem (by simp [hb]) fun i hi _=>?_,ext_getElem (by simp [hx]) fun i hi _=>?_,?_⟩
  · rw [getElem_map,getElem_range,newEntry_name _ _ _ (by omega),getD_append _ _ _ _ (by omega),
      getD_eq_getElem _ _ (by omega)]
  · rw [getElem_map,getElem_range,newEntry_name _ _ _ (by omega),getD_append_right _ _ _ _ (by omega),
      getD_eq_getElem _ _ (by omega)]
    simp [hb]
  · have hres:=newEntry_reserved (base++ext) reserved attr
    rwa [hlen] at hres

theorem flags_and (p q : Bool) : (((if p then 0x08 else 0)|||if q then 0x10 else 0 : UInt8)&&&0x08≠0↔p=true) ∧
    (((if p then 0x08 else 0)|||if q then 0x10 else 0 : UInt8)&&&0x10≠0↔q=true):=by
  cases p <;> cases q <;> decide

theorem recase_eq_ite (xs : List UInt8) :
    (if (xs.any fun c=>decide (IsLower c))=true then (xs.map toUpper).map toLower else xs.map toUpper)=recase xs:=by
  rw [recase,map_map]
  simp only [Function.comp_def,toLower_toUpper]

theorem length_storedBase_le (name : List UInt8) : (storedBase name).length≤8:=
  Nat.le_trans (trimSpaces_initial _).length_le (length_take_le _ _)

theorem length_storedExt_le (name : List UInt8) : (storedExt name).length≤3:=
  Nat.le_trans (trimSpaces_initial _).length_le (length_take_le _ _)

theorem trimSpaces_storedBase (name : List UInt8) : trimSpaces (storedBase name)=storedBase name:=
  rdropWhile_idempotent _ _

theorem trimSpaces_storedExt (name : List UInt8) : trimSpaces (storedExt name)=storedExt name:=
  rdropWhile_idempotent _ _

theorem decode83_newEntry (name : List UInt8) (attr : UInt8) :
    decode83 (newEntry (encode83 name).1 (encode83 name).2 attr) =
    joinParts (recase (storedBase name)) (recase (storedExt name)):=by
  have hb : (((storedBase name).map toUpper).rightpad 8 32).length=8:=by
    have:=length_storedBase_le name
    simp [List.rightpad]
    omega
  have hx : (((storedExt name).map toUpper).rightpad 3 32).length=3:=by
    have:=length_storedExt_le name
    simp [List.rightpad]
    omega
  rw [encode83_eq]
  obtain ⟨hbase,hext,hres⟩:=fields_newEntry hb hx ((if (storedBase name).any fun c=>decide (IsLower c) then 0x08 else 0) |||
    if (storedExt name).any fun c=>decide (IsLower c) then 0x10 else 0) attr
  obtain ⟨hflag,hflag'⟩:=flags_and ((storedBase name).any fun c=>decide (IsLower c))
    ((storedExt name).any fun c=>decide (IsLower c))
  rw [decode83,hbase,hext,hres,trimSpaces_rightpad,trimSpaces_rightpad,trimSpaces_map_toUpper,trimSpaces_map_toUpper,
    trimSpaces_storedBase,trimSpaces_storedExt]
  rw [if_congr hflag rfl rfl,if_congr hflag' rfl rfl,recase_eq_ite,recase_eq_ite,joinParts]
  have hnil : (storedExt name).map toUpper=[]↔recase (storedExt name)=[]:=by
    rw [map_eq_nil_iff,←length_eq_zero_iff,←length_eq_zero_iff,length_recase]
  rw [if_congr hnil rfl rfl]

/-- At most eight bytes, and at most three behind the first dot, if there is one. Neither part ends in
a space. -/
def Name83 (name : List UInt8) : Prop:=
  (baseOf name).length≤8 ∧ (extOf name).length≤3 ∧ (baseOf name).getLast?≠some 32 ∧
    (extOf name).getLast?≠some 32 ∧ (46∈name→extOf name≠[])

instance (name : List UInt8) : Decidable (Name83 name):=inferInstanceAs (Decidable (_ ∧ _))

theorem trimSpaces_take_eq_self : trimSpaces (xs.take k)=xs↔xs.length≤k ∧ xs.getLast?≠some 32:=by
  constructor
  · intro h
    have hlen:=(trimSpaces_initial (xs.take k)).length_le
    rw [h,length_take] at hlen
    have hle : xs.length≤k:=by omega
    rw [take_of_length_le hle] at h
    exact ⟨hle,trimSpaces_eq_self.mp h⟩
  · rintro ⟨hle,hlast⟩
    rw [take_of_length_le hle]
    exact trimSpaces_eq_self.mpr hlast

theorem name83_iff : Name83 name ↔
    storedBase name=baseOf name ∧ storedExt name=extOf name ∧ (46∈name→extOf name≠[]):=by
  rw [Name83,storedBase,storedExt,trimSpaces_take_eq_self,trimSpaces_take_eq_self]
  tauto

theorem eq_iff_parts {name' : List UInt8} : name=name' ↔
    baseOf name=baseOf name' ∧ extOf name=extOf name' ∧ (46∈name↔46∈name'):=by
  constructor
  · rintro rfl
    exact ⟨rfl,rfl,Iff.rfl⟩
  rintro ⟨hbase,hext,hdot⟩
  by_cases h : 46∈name
  · rw [eq_of_dot_mem h,eq_of_dot_mem (hdot.mp h),hbase,hext]
  · rw [←(eq_of_dot_notMem h).1,←(eq_of_dot_notMem (mt hdot.mpr h)).1,hbase]

theorem dot_mem_joinParts (h : 46∉base) : 46∈joinParts base ext↔ext≠[]:=by
  unfold joinParts
  split <;> simp_all

theorem storedBase_initial (name : List UInt8) : storedBase name <+: baseOf name:=
  (trimSpaces_initial _).trans ( take_prefix _ _)

theorem storedExt_initial (name : List UInt8) : storedExt name <+: extOf name:=
  (trimSpaces_initial _).trans ( take_prefix _ _)

theorem IsPrefix.map_eq_iff {ys : List UInt8} (hf : ∀xs,(f xs).length=xs.length)
    (hg : ∀xs,(g xs).length=xs.length) (h : xs <+: ys) : f xs=g ys↔xs=ys ∧ f ys=g ys:=by
  constructor
  · intro heq
    have hlen:=congrArg List.length heq
    rw [hf,hg] at hlen
    have hxs:=h.eq_of_length hlen
    exact ⟨hxs,hxs▸heq⟩
  · rintro ⟨rfl,heq⟩
    exact heq

theorem joinParts_eq_iff {shown : List UInt8} (hf : ∀xs,(f xs).length=xs.length)
    (hg : ∀xs,(g xs).length=xs.length) (hdot : ∀xs,46∈f xs↔46∈xs)
    (hbase : baseOf shown=g (baseOf name)) (hext : extOf shown=g (extOf name)) (hshown : 46∈shown↔46∈name) :
    joinParts (f (storedBase name)) (f (storedExt name))=shown ↔
    Name83 name ∧ f (baseOf name)=g (baseOf name) ∧ f (extOf name)=g (extOf name):=by
  have hnodot : 46∉f (storedBase name):=fun h=>
    dot_notMem_baseOf name ((storedBase_initial name).subset ((hdot _).mp h))
  have hnil : f (storedExt name)≠[]↔storedExt name≠[]:=by
    rw [←length_pos_iff,←length_pos_iff,hf]
  have hmem : extOf name≠[] → 46∈name:=by
    intro h
    by_contra hno
    exact h (eq_of_dot_notMem hno).2
  rw [eq_iff_parts,(parts_joinParts hnodot).1,(parts_joinParts hnodot).2,dot_mem_joinParts hnodot,hbase,hext,hshown,
    IsPrefix.map_eq_iff hf hg (storedBase_initial name),IsPrefix.map_eq_iff hf hg (storedExt_initial name),hnil,
    name83_iff]
  constructor
  · rintro ⟨⟨hb,hb'⟩,⟨hx,hx'⟩,hiff⟩
    exact ⟨⟨hb,hx,fun h=>hx▸hiff.mpr h⟩,hb',hx'⟩
  rintro ⟨⟨hb,hx,himp⟩,hb',hx'⟩
  refine ⟨⟨hb,hb'⟩,⟨hx,hx'⟩,?_⟩
  rw [hx]
  exact ⟨hmem,himp⟩

/-- A name is read back as it was exactly if it fits and no part has letters of both cases. What is
stored for a name that was read back is what it was read from. -/
theorem decode83_encode83 (name : List UInt8) (attr : UInt8) :
    (decode83 (newEntry (encode83 name).1 (encode83 name).2 attr)=name ↔
    (baseOf name).length≤8 ∧ (extOf name).length≤3 ∧ (baseOf name).getLast?≠some 32 ∧
    (extOf name).getLast?≠some 32 ∧ (46∈name→extOf name≠[]) ∧ ¬MixedCase (baseOf name) ∧
    ¬MixedCase (extOf name)) ∧
    encode83 (decode83 (newEntry (encode83 name).1 (encode83 name).2 attr))=encode83 name:=by
  rw [decode83_newEntry]
  refine ⟨?_,?_⟩
  · rw [joinParts_eq_iff (g:=id) length_recase (fun _=>rfl) (fun _=>dot_mem_recase) rfl rfl Iff.rfl]
    dsimp only [id]
    rw [recase_eq_self,recase_eq_self,Name83]
    tauto
  · have hnodot : 46∉recase (storedBase name):=fun h=>
      dot_notMem_baseOf name ((storedBase_initial name).subset (dot_mem_recase.mp h))
    obtain ⟨hbase,hext⟩:=@parts_joinParts _ (recase (storedExt name)) hnodot
    have hbase' : (recase (storedBase name)).length≤8:=by
      rw [length_recase]
      exact length_storedBase_le name
    have hext' : (recase (storedExt name)).length≤3:=by
      rw [length_recase]
      exact length_storedExt_le name
    rw [encode83_eq name,encode83_parts,hbase,hext,take_of_length_le hbase',take_of_length_le hext',
      map_toUpper_recase,map_toUpper_recase,any_isLower_recase,any_isLower_recase]

/-- The name of an entry, as a vnode or a listing gets it. -/
def entryName (e : ℕ→UInt8) : List UInt8:=(decode83 e).takeWhile (· ≠ 0)

theorem nameMatches_iff : nameMatches e name=true↔(entryName e).map toLower=name.map toLower:=by
  rw [nameMatches,decide_eq_true_eq]
  rfl

theorem storedBase_subset (name : List UInt8) : storedBase name⊆name:=
  List.Subset.trans (storedBase_initial name).subset ( takeWhile_prefix _).subset

theorem storedExt_subset (name : List UInt8) : storedExt name⊆name:=
  List.Subset.trans (storedExt_initial name).subset
    (List.Subset.trans (drop_subset _ _) (dropWhile_suffix _).subset)

theorem mem_decode83 (hb : Caseless b) (hdot : b≠46) {attr : UInt8}
    (h : b∈decode83 (newEntry (encode83 name).1 (encode83 name).2 attr)) : b∈name:=by
  rw [decode83_newEntry,joinParts,mem_append,mem_recase hb] at h
  obtain h | h:=h
  · exact storedBase_subset name h
  split at h
  · exact absurd h not_mem_nil
  · rw [mem_cons,mem_recase hb] at h
    exact storedExt_subset name (h.resolve_left hdot)

theorem entryName_newEntry (hstr : 0∉name) (attr : UInt8) :
    entryName (newEntry (encode83 name).1 (encode83 name).2 attr) =
    joinParts (recase (storedBase name)) (recase (storedExt name)):=by
  rw [entryName,←decode83_newEntry name attr]
  refine takeWhile_eq_self_iff.mpr fun c hc=>decide_eq_true ?_
  rintro rfl
  exact hstr (mem_decode83 (by decide) (by decide) hc)

theorem parts_map_toLower (name : List UInt8) : baseOf (name.map toLower)=(baseOf name).map toLower ∧
    extOf (name.map toLower)=(extOf name).map toLower:=by
  have hdot : (fun c=>decide (c≠(46 : UInt8))) ∘ toLower=fun c=>decide (c≠46):=by
    funext c
    simp [toLower_eq_iff (show Caseless 46 by decide)]
  rw [baseOf,extOf,takeWhile_map,dropWhile_map,hdot,←map_drop]
  exact ⟨rfl,rfl⟩

theorem map_joinParts (base ext : List UInt8) :
    (joinParts base ext).map toLower=joinParts (base.map toLower) (ext.map toLower):=by
  unfold joinParts
  by_cases h : ext=[]
  · simp [h]
  · simp [h,(toLower_eq_iff (show Caseless 46 by decide) 46).mpr rfl]

theorem nameMatches_newEntry (hstr : 0∉name) (attr : UInt8) :
    nameMatches (newEntry (encode83 name).1 (encode83 name).2 attr) name=true↔Name83 name:=by
  rw [nameMatches_iff,entryName_newEntry hstr,map_joinParts,map_toLower_recase,map_toLower_recase,
    joinParts_eq_iff (fun _=>length_map _) (fun _=>length_map _)
      (fun _=>mem_map_toLower (by decide)) (parts_map_toLower name).1 (parts_map_toLower name).2 (mem_map_toLower (by decide))]
  exact and_iff_left ⟨rfl,rfl⟩

/-- The bytes of the name of an entry that keep to the format. -/
def ShortName (e : ℕ→UInt8) : Prop:=(∀i<11,e i≠0 ∧ ¬IsLower (e i)) ∧ ∀i<8,e i≠46

/-- A field of an entry as names are compared. -/
def field (e : ℕ→UInt8) (k : ℕ) : List UInt8:=(trimSpaces ((range k).map e)).map toLower

theorem mem_field (hb : Caseless b) (h : b∈field e k) : ∃i<k,e i=b:=by
  obtain ⟨i,hi,he⟩:=mem_map.mp ((trimSpaces_initial _).subset ((mem_map_toLower hb).mp h))
  exact ⟨i,mem_range.mp hi,he⟩

theorem pad_field (h : ∀i<k,¬IsLower (e i)) : ((field e k).map toUpper).rightpad k 32=(range k).map e:=by
  have hself : ((range k).map e).map toUpper=(range k).map e:=map_eq_self.mpr (by simpa [toUpper_eq_self] using h)
  rw [field,map_map,show toUpper ∘ toLower=toUpper from funext toUpper_toLower,←trimSpaces_map_toUpper,hself,
    rightpad_trimSpaces (by simp)]
  simp [List.rightpad]

theorem field_inj {e' : ℕ→UInt8} (he : ∀i<k,¬IsLower (e i)) (he' : ∀i<k,¬IsLower (e' i)) (h : field e k=field e' k) :
    ∀i<k,e i=e' i:=by
  have hpad:=pad_field he
  rw [h,pad_field he'] at hpad
  exact fun i hi=>(map_inj_left.mp hpad i (mem_range.mpr hi)).symm

theorem map_decode83 (e : ℕ→UInt8) : (decode83 e).map toLower=joinParts (field e 8) (field (fun i=>e (8+i)) 3):=by
  have hdot : toLower 46=46:=by decide
  unfold decode83 joinParts field
  split_ifs <;> simp_all [Function.comp_def,toLower_toLower]

namespace ShortName

theorem dot_notMem (h : ShortName e) : 46∉field e 8:=by
  intro hm
  obtain ⟨i,hi,he⟩:=mem_field (by decide) hm
  exact h.2 i hi he

theorem entryName_eq (h : ShortName e) : entryName e=decode83 e:=by
  refine takeWhile_eq_self_iff.mpr fun c hc=>decide_eq_true ?_
  rintro rfl
  rw [←mem_map_toLower (by decide),map_decode83,joinParts,mem_append] at hc
  obtain hc | hc:=hc
  · obtain ⟨i,hi,he⟩:=mem_field (by decide) hc
    exact (h.1 i (by omega)).1 he
  split at hc
  · cases hc
  · obtain ⟨i,hi,he⟩:=mem_field (by decide) ((mem_cons.mp hc).resolve_left (by decide))
    exact (h.1 (8+i) (by omega)).1 he

end ShortName

/-- The name that a listing shows for an entry is the name of another exactly if their eleven bytes are the same. -/
theorem nameMatches_entryName {e' : ℕ→UInt8} (h : ShortName e) (h' : ShortName e') :
    nameMatches e (entryName e')=true↔∀i<11,e i=e' i:=by
  rw [nameMatches_iff,h.entryName_eq,h'.entryName_eq,map_decode83,map_decode83]
  constructor
  · intro heq i hi
    have hbase:=congrArg baseOf heq
    have hext:=congrArg extOf heq
    rw [(parts_joinParts h.dot_notMem).1,(parts_joinParts h'.dot_notMem).1] at hbase
    rw [(parts_joinParts h.dot_notMem).2,(parts_joinParts h'.dot_notMem).2] at hext
    by_cases hlt : i<8
    · exact field_inj (fun i hi=>(h.1 i (by omega)).2) (fun i hi=>(h'.1 i (by omega)).2) hbase i hlt
    · have hx:=field_inj (fun i hi=>(h.1 (8+i) (by omega)).2) (fun i hi=>(h'.1 (8+i) (by omega)).2) hext (i-8) (by omega)
      rwa [Nat.add_sub_of_le (by omega)] at hx
  · intro heq
    rw [field,field,field,field,map_congr_left fun i hi=>heq i (Nat.lt_trans (mem_range.mp hi) (by decide)),
      map_congr_left fun i hi=>heq (8+i) (Nat.add_lt_add_left (mem_range.mp hi) 8)]

/-- The entry of `KNAIL.TXT`, and of the same file listed in small letters. -/
theorem nameMatches_entryName_knail : nameMatches (newEntry [75,78,65,73,76,32,32,32,84,88,84] 0 32)
    (entryName (newEntry [75,78,65,73,76,32,32,32,84,88,84] 0x18 32))=true:=
  (nameMatches_entryName (by unfold ShortName; decide) (by unfold ShortName; decide)).mpr (by decide)

end Knail.Fat32
