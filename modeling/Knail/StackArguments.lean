import Knail.UserStacks

/-!
# What a process finds on its first stack

The process reads its arguments from the stack pointer up. `spawn_user` checks the room for the strings and not the
room for the words, cuts long lists of strings without an error, and aligns the stack pointer before it pushes the
words.
-/
namespace Knail.Spawn

open List

variable {top buf argc envc entry n n₁ n₂ d : ℕ} {s argv envp : Strings} {img img' : StackImage} {mem : ℕ→UInt8}
  {strs args env : List (List UInt8)} {src : ℕ→Option (List UInt8)}

def StackImage.userSp (img : StackImage) : ℕ:=userStackTop-img.depth

/-- The stack pointer is a multiple of 16 if and only if the place of the buffer and the number of strings fit
together. -/
theorem initial_rsp_aligned_iff (hbuf : 16≤buf) (argv : Strings) (argc : ℕ) (envp : Strings) (envc entry : ℕ) :
    (buildStack (buf+stackBufSize) argv argc envp envc entry).userSp%16=0 ↔
    (buf+8*(1+(pushedArgs (buf+stackBufSize) argv argc envp envc).1 +
    (pushedArgs (buf+stackBufSize) argv argc envp envc).2.1))%16=0:=by
  have hdepth:=depth_buildStack (buf+stackBufSize) argv argc envp envc entry
  have haligned : (pushedArgs (buf+stackBufSize) argv argc envp envc).2.2%16=buf%16:=by
    have hle:=stringsFit_le (buf+stackBufSize) envp.entry (min (envp.count envc) maxStackStrings)
      (stringsFit_le (buf+stackBufSize) argv.entry (min (argv.count argc) maxStackStrings) (Nat.zero_le _))
    simp only [pushedArgs,pushedStrings,stackBufSize] at hle ⊢
    omega
  rw [StackImage.userSp]
  rw [depth_buildStack_eq] at hdepth ⊢
  simp only [userStackTop]
  omega

/-- One argument, in a buffer that the heap returns. -/
def oneArgument : Strings:=⟨true,fun i=>if i=0 then some [115,104] else none⟩

def noStrings : Strings:=⟨false,fun _=>none⟩

theorem initial_rsp_aligned_one : (buildStack (0xFFFF900000000050+stackBufSize) oneArgument 1 noStrings 0 0x400000).userSp
    % 16=0:=(initial_rsp_aligned_iff (by decide) _ _ _ _ _).mpr (by decide)

/-- Without arguments the stack pointer is 8 bytes off. -/
theorem initial_rsp_misaligned :
    (buildStack (0xFFFF900000000050+stackBufSize) noStrings 0 noStrings 0 0x400000).userSp%16=8:=by
  decide

/-- The depths to which the loop of `push_strings` stores bytes. -/
def stringStores (top : ℕ) (src : ℕ→Option (List UInt8)) : ℕ→ℕ→List ℕ
  | 0, _=>[]
  | i+1, d=>
    let d':=d+(((src i).getD []).length+1)
    if stackBufSize<d' then []
    else List.range' (d+1) (((src i).getD []).length+1)++stringStores top src i (d'+(top-d')%8)

/-- The depths to which bytes are stored while the image is built: those of the strings, then those of the words. -/
def buildStores (top : ℕ) (argv : Strings) (argc : ℕ) (envp : Strings) (envc : ℕ) : List ℕ:=
  stringStores top argv.entry (min (argv.count argc) maxStackStrings) 0 ++
    stringStores top envp.entry (min (envp.count envc) maxStackStrings) (pushedStrings top argv argc 0).2 ++
    List.range' ((pushedArgs top argv argc envp envc).2.2+1)
      (8*(17+(pushedArgs top argv argc envp envc).1+(pushedArgs top argv argc envp envc).2.1))

/-- The caller means `n` strings: as many as it says, or those before the null pointer. -/
def Strings.Means (s : Strings) (explicit n : ℕ) : Prop:=
  if s.present then if 0<explicit then n=explicit else s.entry n=none ∧ ∀i<n,(s.entry i).isSome else n=0

/-- All stores are inside the buffer, the copied part is not longer than the buffer, and the process gets all of its
strings. -/
def BuiltRight (top : ℕ) (argv : Strings) (argc : ℕ) (envp : Strings) (envc entry n₁ n₂ : ℕ) : Prop:=
  (∀d∈buildStores top argv argc envp envc,0<d ∧ d ≤ stackBufSize) ∧
    (buildStack top argv argc envp envc entry).depth ≤ stackBufSize ∧
    (pushedArgs top argv argc envp envc).1=n₁ ∧ (pushedArgs top argv argc envp envc).2.1=n₂

/-- There is room for the strings, the padding and the words. -/
structure Room (top : ℕ) (argv envp : Strings) (n₁ n₂ : ℕ) : Prop where
  args : n₁ ≤ maxStackStrings
  env : n₂ ≤ maxStackStrings
  argStrings : (stringsFit top argv.entry n₁ 0).1=true
  envStrings : (stringsFit top envp.entry n₂ (stringsFit top argv.entry n₁ 0).2).1=true
  words : (stringsFit top envp.entry n₂ (stringsFit top argv.entry n₁ 0).2).2 +
    (top-(stringsFit top envp.entry n₂ (stringsFit top argv.entry n₁ 0).2).2)%16+8*(17+n₁+n₂) ≤ stackBufSize

theorem mem_stringStores (h : d∈stringStores top src n n₁) : 0<d ∧ d ≤ stackBufSize:=by
  induction n generalizing n₁ with
  | zero=>simp [stringStores] at h
  | succ n ih=>
    rw [stringStores] at h
    split at h
    · simp at h
    rcases mem_append.mp h with h | h
    · rw [mem_range'_1] at h
      omega
    · exact ih h

theorem length_takeWhile_range {p : ℕ→Bool} (hend : p n=false) (hall : ∀i<n,p i=true) (m : ℕ) :
    ((List.range m).takeWhile p).length=min n m:=by
  induction m with
  | zero=>simp
  | succ m ih=>
    rw [range_succ,takeWhile_append,length_range]
    split
    · rcases Nat.lt_trichotomy m n with hlt | rfl | hlt
      · rw [takeWhile_cons_of_pos (hall m hlt)]
        simp
        omega
      · rw [takeWhile_cons_of_neg (by simp [hend])]
        simp
      · omega
    · omega

theorem Strings.Means.count_eq (h : s.Means n₁ n) : min (s.count n₁) maxStackStrings=min n maxStackStrings:=by
  unfold Strings.Means at h
  unfold Strings.count
  split at h
  · rename_i hp
    rw [if_neg (by simp [hp])]
    split at h
    · rename_i hpos
      rw [if_pos hpos,h]
    rename_i hpos
    rw [if_neg hpos,length_takeWhile_range (by simp [h.1]) h.2]
    simp [maxStackStrings]
  · rename_i hp
    rw [if_pos (by simp [hp]),h]

theorem Strings.Means.depth_eq (h : s.Means argc n) (hn : n ≤ maxStackStrings) :
    (pushedStrings top s argc d).2=(stringsFit top s.entry n d).2:=by
  rw [pushedStrings,h.count_eq,Nat.min_eq_left hn]

theorem pushedStrings_eq_iff (h : s.Means argc n) : (pushedStrings top s argc d).1=n ↔
    n ≤ maxStackStrings ∧ (stringsFit top s.entry n d).1=true:=by
  simp only [pushedStrings,h.count_eq]
  by_cases hn : n ≤ maxStackStrings
  · rw [Nat.min_eq_left hn]
    cases hf : (stringsFit top s.entry n d).1 with
    | true=>simp [hn]
    | false=>
      have hpos : 0≠n:=by
        rintro rfl
        simp [stringsFit] at hf
      simpa using hpos
  · have hne : ∀b : Bool,(if b then min n maxStackStrings else 0)≠n:=by
      rintro (_ | _) <;> simp <;> omega
    exact iff_of_false (hne _) fun hc=>hn hc.1

/-- The image is built right if and only if there is room for what the caller means. -/
theorem stack_built_right_iff (h₁ : argv.Means argc n₁) (h₂ : envp.Means envc n₂) (top entry : ℕ) :
    BuiltRight top argv argc envp envc entry n₁ n₂↔Room top argv envp n₁ n₂:=by
  have hwords (ha : n₁ ≤ maxStackStrings) (he : n₂ ≤ maxStackStrings) : (pushedArgs top argv argc envp envc).2.2 =
      (stringsFit top envp.entry n₂ (stringsFit top argv.entry n₁ 0).2).2 +
        (top-(stringsFit top envp.entry n₂ (stringsFit top argv.entry n₁ 0).2).2)%16:=by
    simp only [pushedArgs,h₁.depth_eq ha,h₂.depth_eq he]
  constructor
  · rintro ⟨-,hle,ha,he⟩
    obtain ⟨hn₁,hfit₁⟩:=(pushedStrings_eq_iff h₁).mp ha
    obtain ⟨hn₂,hfit₂⟩:=(pushedStrings_eq_iff h₂).mp he
    rw [h₁.depth_eq hn₁] at hfit₂
    rw [depth_buildStack_eq,ha,he,hwords hn₁ hn₂] at hle
    exact ⟨hn₁,hn₂,hfit₁,hfit₂,hle⟩
  · intro hr
    have ha : (pushedArgs top argv argc envp envc).1=n₁:=(pushedStrings_eq_iff h₁).mpr ⟨hr.args,hr.argStrings⟩
    have he : (pushedArgs top argv argc envp envc).2.1=n₂:=
      (pushedStrings_eq_iff h₂).mpr ⟨hr.env,by rw [h₁.depth_eq hr.args]; exact hr.envStrings⟩
    have hle:=hr.words
    rw [←hwords hr.args hr.env] at hle
    refine ⟨fun d hd=>?_,?_,ha,he⟩
    · rw [buildStores,mem_append,mem_append,ha,he,mem_range'_1] at hd
      rcases hd with (hd | hd) | hd
      · exact mem_stringStores hd
      · exact mem_stringStores hd
      · omega
    · rw [depth_buildStack_eq,ha,he]
      exact hle

theorem stack_built_right_one : BuiltRight (0xFFFF900000000050+stackBufSize) oneArgument 1 noStrings 0 0x400000 1 0:=
  (stack_built_right_iff (by simp [Strings.Means,oneArgument]) (by simp [Strings.Means,noStrings]) _ _).mpr
    ⟨by decide,by decide,by decide,by decide,by decide⟩

def longArgument (n : ℕ) : Strings:=⟨true,fun i=>if i=0 then some (List.replicate n 97) else none⟩

theorem stringsFit_long (n : ℕ) : stringsFit top (longArgument n).entry 1 0 =
    if stackBufSize<n+1 then (false,0) else (true,n+1+(top-(n+1))%8):=by
  simp [stringsFit,longArgument]

/-- An argument of 4096 characters is dropped without an error. With one of 4000 characters the words are stored to the
64 bytes below the buffer. -/
theorem long_arguments_mishandled : (∀n,(longArgument n).Means 1 1) ∧
    (pushedArgs (0xFFFF900000000050+stackBufSize) (longArgument 4096) 1 noStrings 0).1=0 ∧
    4160∈buildStores (0xFFFF900000000050+stackBufSize) (longArgument 4000) 1 noStrings 0 ∧
    ¬BuiltRight (0xFFFF900000000050+stackBufSize) (longArgument 4000) 1 noStrings 0 0x400000 1 0:=by
  have hone (n : ℕ) : min ((longArgument n).count 1) maxStackStrings=1:=rfl
  have hargs : pushedArgs (0xFFFF900000000050+stackBufSize) (longArgument 4000) 1 noStrings 0=(1,0,4016):=by
    simp only [pushedArgs,pushedStrings,hone,stringsFit_long]
    rfl
  have hmem : 4160∈buildStores (0xFFFF900000000050+stackBufSize) (longArgument 4000) 1 noStrings 0:=by
    rw [buildStores,hargs]
    refine mem_append_right _ ?_
    decide
  refine ⟨fun n=>?_,?_,hmem,fun h=>?_⟩
  · simp [Strings.Means,longArgument]
  · simp only [pushedArgs,pushedStrings,hone,stringsFit_long]
    rfl
  · have hle:=(h.1 _ hmem).2
    simp [stackBufSize] at hle

/-- A string and its zero stand at `p`, between `lo` and the top of the stack. -/
structure StringAt (mem : ℕ→UInt8) (lo p : ℕ) (str : List UInt8) : Prop where
  low : lo≤p
  high : p+str.length<userStackTop
  bytes : ∀j ≤ str.length,mem (p+j)=(str++[0]).getD j 0

/-- What the process-entry convention finds from the stack pointer up. -/
structure EntryStack (mem : ℕ→UInt8) (sp : ℕ) (args env : List (List UInt8)) (entry : ℕ) : Prop where
  argc : getLE mem 8 sp=args.length
  argv : ∀i<args.length,
    StringAt mem (sp+8*(17+args.length+env.length)) (getLE mem 8 (sp+8*(1+i))) (args.getD i [])
  argvEnd : getLE mem 8 (sp+8*(1+args.length))=0
  envp : ∀i<env.length,StringAt mem (sp+8*(17+args.length+env.length))
    (getLE mem 8 (sp+8*(2+args.length+i))) (env.getD i [])
  envpEnd : getLE mem 8 (sp+8*(2+args.length+env.length))=0
  aux : ∀k w,[11,0,12,0,13,0,14,0,9,entry,6,4096,0,0][k]? = some w →
    getLE mem 8 (sp+8*(3+args.length+env.length+k))=w

def Strings.Holds (s : Strings) (explicit : ℕ) (strs : List (List UInt8)) : Prop:=
  s.Means explicit strs.length ∧ ∀i<strs.length,(s.entry i).getD []=strs.getD i []

namespace StackImage

theorem pushLoop_bytes {ptrs ptrs' : ℕ→ℕ} (h : pushLoop top src n img ptrs=(true,img',ptrs')) :
    img.depth ≤ img'.depth ∧ (∀d ≤ img.depth,img'.byte d=img.byte d) ∧ (∀i,n ≤ i→ptrs' i=ptrs i) ∧
    ∀i<n,∃d,img.depth+((src i).getD []).length<d ∧ d ≤ img'.depth ∧ d ≤ stackBufSize ∧
    ptrs' i=userStackTop-d ∧ ∀j≤((src i).getD []).length,img'.byte (d-j)=((src i).getD []++[0]).getD j 0:=by
  induction n generalizing img ptrs with
  | zero=>
    cases h
    exact ⟨Nat.le_refl _,fun _ _=>rfl,fun _ _=>rfl,by simp⟩
  | succ n ih=>
    rw [pushLoop,pushString] at h
    by_cases hfull : stackBufSize < img.depth+(((src n).getD []).length+1)
    · simp [hfull] at h
    simp only [if_neg hfull] at h
    set d:=img.depth+(((src n).getD []).length+1) with hd
    obtain ⟨hle,hbytes,hptrs,hstrs⟩:=ih h
    dsimp only at hle hbytes hstrs
    refine ⟨by omega,fun e he=>?_,fun i hi=>?_,fun i hi=>?_⟩
    · rw [hbytes e (by omega),if_neg (by omega)]
    · rw [hptrs i (by omega),Function.update_of_ne (by omega)]
    rcases Nat.lt_succ_iff_lt_or_eq.mp hi with hi | rfl
    · obtain ⟨e,he,hstr⟩:=hstrs i hi
      exact ⟨e,by omega,hstr⟩
    refine ⟨d,by omega,by omega,by omega,?_,fun j hj=>?_⟩
    · rw [hptrs i (Nat.le_refl _),Function.update_self]
    rw [hbytes _ (by omega),if_pos (by omega)]
    congr 1
    omega

theorem pushWords_bytes (words : List ℕ) (img : StackImage) :
    (∀d ≤ img.depth,(words.foldl pushWord img).byte d=img.byte d) ∧ ∀k w,words[k]? = some w→∀j<8,
    (words.foldl pushWord img).byte (img.depth+8*(k+1)-j)=UInt8.ofNat (w/256^j):=by
  induction words generalizing img with
  | nil=>exact ⟨fun _ _=>rfl,by simp⟩
  | cons w ws ih=>
    obtain ⟨hold,hnew⟩:=ih (img.pushWord w)
    simp only [pushWord] at hold hnew
    refine ⟨fun d hd=>?_,fun k v hk j hj=>?_⟩
    · rw [foldl_cons,pushWord,hold d (by omega),if_neg (by omega)]
    rw [foldl_cons,pushWord]
    cases k with
    | zero=>
      obtain rfl : w=v:=by simpa using hk
      rw [hold _ (by omega),if_pos (by omega)]
      congr 3
      omega
    | succ k=>
      rw [←hnew k v hk j hj]
      congr 1
      omega

theorem pushStrings_of_fit (img : StackImage) (h : s.Means argc n) (hn : n ≤ maxStackStrings)
    (hfit : (stringsFit top s.entry n img.depth).1=true) : ∃img' ptrs,pushStrings top s argc img=(n,img',ptrs) ∧
    pushLoop top s.entry n img (fun _=>0)=(true,img',ptrs) ∧ img'.depth=(stringsFit top s.entry n img.depth).2:=by
  have hloop:=pushLoop_fit top s.entry n img fun _=>0
  rw [pushStrings,h.count_eq,Nat.min_eq_left hn]
  rcases hl : pushLoop top s.entry n img fun _=>0 with ⟨_ | _,img',ptrs⟩ <;> rw [hl] at hloop
  · rw [←hloop] at hfit
    cases hfit
  · exact ⟨img',ptrs,rfl,rfl,congrArg Prod.snd hloop⟩

theorem mem_of_stores (hmem : ∀st∈img.stores,mem st.1=st.2) (hle : img.depth≤userStackTop) (hd : 0<d)
    (hd' : d ≤ img.depth) : mem (userStackTop-d)=img.byte d:=by
  have hst:=hmem _ (mem_map.mpr ⟨img.depth-d,mem_range.mpr (by omega),rfl⟩)
  rwa [show userStackTop-img.depth+(img.depth-d)=userStackTop-d by omega,
    show img.depth-(img.depth-d)=d by omega] at hst

theorem getLE_words {words : List ℕ} {w q : ℕ} (hmem : ∀st∈(words.foldl pushWord img).stores,mem st.1=st.2)
    (hle : (words.foldl pushWord img).depth≤userStackTop) (hq : words.reverse[q]? = some w) (hw : w<256^8) :
    getLE mem 8 ((words.foldl pushWord img).userSp+8*q)=w:=by
  have hlt : q<words.length:=by simpa using (List.getElem?_eq_some_iff.mp hq).1
  rw [List.getElem?_reverse hlt] at hq
  rw [←Nat.mod_eq_of_lt hw]
  refine getLE_of_bytes fun j hj=>?_
  rw [←(pushWords_bytes words img).2 _ _ hq j hj]
  rw [depth_pushWords] at hle
  rw [←mem_of_stores hmem (by rwa [depth_pushWords]) (by omega) (by rw [depth_pushWords]; omega),userSp,depth_pushWords]
  congr 1
  omega

end StackImage

/-- The image that was copied is read back as the arguments, the environment and the auxiliary vector. -/
theorem entry_stack_read (h₁ : argv.Holds argc args) (h₂ : envp.Holds envc env) (hentry : entry<2^64)
    (hroom : Room top argv envp args.length env.length)
    (hmem : ∀st∈(buildStack top argv argc envp envc entry).stores,mem st.1=st.2) :
    EntryStack mem (buildStack top argv argc envp envc entry).userSp args env entry:=by
  obtain ⟨img₁,p₁,hpush₁,hloop₁,hdepth₁⟩:=
    StackImage.pushStrings_of_fit ⟨0,fun _=>0⟩ h₁.1 hroom.args hroom.argStrings
  obtain ⟨img₂,p₂,hpush₂,hloop₂,hdepth₂⟩:=
    StackImage.pushStrings_of_fit img₁ h₂.1 hroom.env (hdepth₁▸hroom.envStrings)
  obtain ⟨-,-,-,hstrs₁⟩:=StackImage.pushLoop_bytes hloop₁
  obtain ⟨hle₁₂,hkept,-,hstrs₂⟩:=StackImage.pushLoop_bytes hloop₂
  have hwords:=hroom.words
  rw [←hdepth₁,←hdepth₂] at hwords
  set words:=auxWords entry++(List.range env.length).reverse.map p₂++[0] ++
    (List.range args.length).reverse.map p₁++[args.length] with hdef
  have hbuild : buildStack top argv argc envp envc entry=words.foldl StackImage.pushWord (img₂.align top):=by
    simp only [buildStack,hpush₁,hpush₂]
    rfl
  rw [hbuild] at hmem ⊢
  have hlen : words.length=17+args.length+env.length:=by
    simp only [hdef,auxWords,length_append,length_map,length_reverse,length_range,length_cons,length_nil]
    omega
  have hdepth : (words.foldl StackImage.pushWord (img₂.align top)).depth=img₂.depth+(top-img₂.depth)%16 +
      8*(17+args.length+env.length):=by
    rw [StackImage.depth_pushWords,hlen]
    rfl
  have htop : (words.foldl StackImage.pushWord (img₂.align top)).depth≤userStackTop:=by
    rw [hdepth]
    exact Nat.le_trans hwords (by decide)
  have hword {q w : ℕ} (hq : words.reverse[q]? = some w) (hw : w<256^8):=StackImage.getLE_words hmem htop hq hw
  have hptr (d : ℕ) : userStackTop-d<256^8:=Nat.lt_of_le_of_lt (Nat.sub_le ..) (by decide)
  -- a string of the image, read through its pointer
  have hat {d : ℕ} {str : List UInt8} (hlo : str.length<d) (hhi : d ≤ img₂.depth)
      (hbytes : ∀j ≤ str.length,img₂.byte (d-j)=(str++[0]).getD j 0) :
      StringAt mem ((words.foldl StackImage.pushWord (img₂.align top)).userSp+8*(17+args.length+env.length))
        (userStackTop-d) str:=by
    refine ⟨by rw [StackImage.userSp,hdepth]; omega,by omega,fun j hj=>?_⟩
    rw [←hbytes j hj,show userStackTop-d+j=userStackTop-(d-j) by omega,
      StackImage.mem_of_stores hmem htop (by omega) (by rw [hdepth]; omega)]
    exact (StackImage.pushWords_bytes words (img₂.align top)).1 _ (by simp only [StackImage.align]; omega)
  have hrev : words.reverse=args.length::((List.range args.length).map p₁++0 ::
      ((List.range env.length).map p₂++[0,11,0,12,0,13,0,14,0,9,entry,6,4096,0,0])):=by
    simp [hdef,auxWords,map_reverse]
  have hargs {i : ℕ} (hi : i<args.length) : words.reverse[1+i]? = some (p₁ i):=by
    rw [hrev,Nat.add_comm,getElem?_cons_succ,getElem?_append_left (by simpa using hi)]
    simp [hi]
  have hrest (j : ℕ) : words.reverse[1+args.length+j]? = (0::((List.range env.length).map p₂ ++
      [0,11,0,12,0,13,0,14,0,9,entry,6,4096,0,0]))[j]?:=by
    rw [hrev,show 1+args.length+j=args.length+j+1 by omega,getElem?_cons_succ,
      getElem?_append_right (by simp),length_map,length_range,Nat.add_sub_cancel_left]
  have henv {i : ℕ} (hi : i<env.length) : words.reverse[2+args.length+i]? = some (p₂ i):=by
    rw [show 2+args.length+i=1+args.length+(i+1) by omega,hrest,getElem?_cons_succ,
      getElem?_append_left (by simpa using hi)]
    simp [hi]
  have haux (j : ℕ) : words.reverse[2+args.length+env.length+j]? =
      [0,11,0,12,0,13,0,14,0,9,entry,6,4096,0,0][j]?:=by
    rw [show 2+args.length+env.length+j=1+args.length+(env.length+j+1) by omega,hrest,
      getElem?_cons_succ,getElem?_append_right (by simp),length_map,length_range,Nat.add_sub_cancel_left]
  have hauxWord {j w : ℕ} (hj : [0,11,0,12,0,13,0,14,0,9,entry,6,4096,0,0][j]? = some w) (hw : w<256^8):=
    hword ((haux j).trans hj) hw
  constructor
  case argc => exact hword (q:=0) (by rw [hrev]; rfl) (Nat.lt_of_le_of_lt hroom.args (by decide))
  case argv =>
    intro i hi
    obtain ⟨d,hlo,hhi,-,hp,hbytes⟩:=hstrs₁ i hi
    rw [h₁.2 i hi] at hlo hbytes
    rw [hword (hargs hi) (hp▸hptr d),hp]
    refine hat (by omega) (by omega) fun j hj=>?_
    rw [hkept _ (by omega),hbytes j hj]
  case argvEnd => exact hword ((hrest 0).trans rfl) (by decide)
  case envp =>
    intro i hi
    obtain ⟨d,hlo,hhi,-,hp,hbytes⟩:=hstrs₂ i hi
    rw [h₂.2 i hi] at hlo hbytes
    rw [hword (henv hi) (hp▸hptr d),hp]
    exact hat (by omega) hhi hbytes
  case envpEnd => exact hauxWord (j:=0) rfl (by decide)
  case aux =>
    intro k w hk
    have hw : w<256^8:=by
      have hmem:=mem_of_getElem? hk
      simp only [mem_cons,not_mem_nil,or_false] at hmem
      omega
    rw [←hauxWord (j:=k+1) hk hw]
    congr 1
    omega

theorem entry_stack_read_one :
    EntryStack (fun a=>(buildStack (0xFFFF900000000050+stackBufSize) oneArgument 1 noStrings 0 0x400000).byte
    (userStackTop-a)) (buildStack (0xFFFF900000000050+stackBufSize) oneArgument 1 noStrings 0 0x400000).userSp
    [[115,104]] [] 0x400000:=by
  refine entry_stack_read ⟨by simp [Strings.Means,oneArgument],by decide⟩ ⟨by simp [Strings.Means,noStrings],by simp⟩
    (by decide) ⟨by decide,by decide,by decide,by decide,by decide⟩ fun st hst=>?_
  have hdepth:=depth_buildStack (0xFFFF900000000050+stackBufSize) oneArgument 1 noStrings 0 0x400000
  obtain ⟨i,hi,rfl⟩:=mem_map.mp hst
  simp only [userStackTop]
  congr 1
  omega

end Knail.Spawn
