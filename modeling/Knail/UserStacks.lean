import Knail.ByteWords
import Knail.KernelTypes

/-!
# The first stack of a process

`spawn_user` builds the arguments, the environment and the auxiliary vector in a buffer and copies them below the top
of the user stack. A place in the image is given by its depth, the number of bytes from it to the end of the buffer.
-/
namespace Knail.Spawn

open List

def userStackTop : ℕ:=0x7FFFFFF000
def userStackSize : ℕ:=0x40000
def stackBufSize : ℕ:=4096
def maxStackStrings : ℕ:=32

/-- A `const char* const*` argument: a null pointer, or an array of strings and null pointers. -/
structure Strings where
  present : Bool
  entry : ℕ→Option (List UInt8)

/-- `count_strings`: without an explicit count the array ends at its first null pointer. -/
def Strings.count (s : Strings) (explicit : ℕ) : ℕ:=
  if !s.present then 0
  else if 0<explicit then explicit
  else ((List.range 32).takeWhile fun i=>(s.entry i).isSome).length

/-- The place of `sp` and the bytes at every depth. -/
structure StackImage where
  depth : ℕ
  byte : ℕ→UInt8

namespace StackImage

/-- One string of `push_strings`, with the terminating zero. The result is `none` if it does not
fit, and otherwise has the user address of the string. -/
def pushString (top : ℕ) (img : StackImage) (str : List UInt8) : Option (StackImage×ℕ):=
  let depth:=img.depth+(str.length+1)
  if stackBufSize<depth then none
  else some (⟨depth+(top-depth)%8,
    fun d=>if img.depth<d ∧ d≤depth then (str++[0]).getD (depth-d) 0 else img.byte d⟩,userStackTop-depth)

/-- The loop of `push_strings`, from the last string to the first. -/
def pushLoop (top : ℕ) (src : ℕ→Option (List UInt8)) : ℕ→StackImage→(ℕ→ℕ)→Bool×StackImage×(ℕ→ℕ)
  | 0, img, ptrs=>(true,img,ptrs)
  | i+1, img, ptrs=>
    match img.pushString top ((src i).getD []) with
    | none=>(false,img,ptrs)
    | some (img',p)=>pushLoop top src i img' (Function.update ptrs i p)

/-- `push_strings`: the number of strings, 0 if they do not fit, and where they are. -/
def pushStrings (top : ℕ) (s : Strings) (requested : ℕ) (img : StackImage) : ℕ×StackImage×(ℕ→ℕ):=
  let count:=min (s.count requested) maxStackStrings
  match pushLoop top s.entry count img (fun _=>0) with
  | (true,img',ptrs)=>(count,img',ptrs)
  | (false,img',ptrs)=>(0,img',ptrs)

def pushWord (img : StackImage) (w : ℕ) : StackImage:=
  ⟨img.depth+8,fun d=>
    if img.depth<d ∧ d ≤ img.depth+8 then UInt8.ofNat (w/256^(img.depth+8-d)) else img.byte d⟩

def align (top : ℕ) (img : StackImage) : StackImage:=⟨img.depth+(top-img.depth)%16,img.byte⟩

end StackImage

/-- The auxiliary vector and the terminator of the environment, in the order of the stores. -/
def auxWords (entry : ℕ) : List ℕ:=[0,0,0x1000,6,entry,9,0,14,0,13,0,12,0,11,0]

/-- The image that `spawn_user` builds in a buffer that ends at the given address. -/
def buildStack (top : ℕ) (argv : Strings) (argc : ℕ) (envp : Strings) (envc entry : ℕ) : StackImage:=
  match StackImage.pushStrings top argv argc ⟨0,fun _=>0⟩ with
  | (realArgc,img₁,argvPtrs)=>
    match StackImage.pushStrings top envp envc img₁ with
    | (realEnvc,img₂,envpPtrs)=>
      let words:=auxWords entry++(List.range realEnvc).reverse.map envpPtrs++[0] ++
        (List.range realArgc).reverse.map argvPtrs++[realArgc]
      words.foldl StackImage.pushWord (img₂.align top)

/-- The copy of the image to the user stack: addresses and bytes. -/
def StackImage.stores (img : StackImage) : List (ℕ×UInt8):=
  (List.range img.depth).map fun i=>(userStackTop-img.depth+i,img.byte (img.depth-i))

/-- Whether `push_strings` has room for all strings, and the depth it leaves, computed from their lengths. -/
def stringsFit (top : ℕ) (src : ℕ→Option (List UInt8)) : ℕ→ℕ→Bool×ℕ
  | 0, d=>(true,d)
  | i+1, d=>
    let d':=d+(((src i).getD []).length+1)
    if stackBufSize<d' then (false,d) else stringsFit top src i (d'+(top-d')%8)

/-- The number of strings that get into the image, and the depth below them. -/
def pushedStrings (top : ℕ) (s : Strings) (requested d : ℕ) : ℕ×ℕ:=
  let count:=min (s.count requested) maxStackStrings
  (if (stringsFit top s.entry count d).1 then count else 0,(stringsFit top s.entry count d).2)

/-- The numbers of arguments and of environment strings in the image, and the depth of the words below them. -/
def pushedArgs (top : ℕ) (argv : Strings) (argc : ℕ) (envp : Strings) (envc : ℕ) : ℕ×ℕ×ℕ:=
  let a:=pushedStrings top argv argc 0
  let e:=pushedStrings top envp envc a.2
  (a.1,e.1,e.2+(top-e.2)%16)

variable {top argc envc entry : ℕ} {argv envp : Strings}

namespace StackImage

theorem pushLoop_fit (top : ℕ) (src : ℕ→Option (List UInt8)) (n : ℕ) (img : StackImage) (ptrs : ℕ→ℕ) :
    ((pushLoop top src n img ptrs).1,(pushLoop top src n img ptrs).2.1.depth)=stringsFit top src n img.depth:=by
  induction n generalizing img ptrs with
  | zero=>rfl
  | succ n ih=>
    rw [pushLoop,stringsFit,pushString]
    by_cases hfull : stackBufSize < img.depth+(((src n).getD []).length+1)
    · simp only [if_pos hfull]
    · simp only [if_neg hfull]
      exact ih _ _

theorem pushStrings_fit (top : ℕ) (s : Strings) (requested : ℕ) (img : StackImage) :
    ((pushStrings top s requested img).1,(pushStrings top s requested img).2.1.depth) =
    pushedStrings top s requested img.depth:=by
  rw [pushedStrings,←pushLoop_fit _ _ _ img fun _=>0,pushStrings]
  rcases pushLoop top s.entry (min (s.count requested) maxStackStrings) img fun _=>0 with ⟨_ | _,img',ptrs⟩ <;> rfl

theorem depth_pushWords (words : List ℕ) (img : StackImage) :
    (words.foldl pushWord img).depth=img.depth+8*words.length:=by
  induction words generalizing img with
  | nil=>rfl
  | cons w ws ih=>
    rw [foldl_cons,ih,length_cons]
    simp only [pushWord]
    omega

end StackImage

theorem stringsFit_le (top : ℕ) (src : ℕ→Option (List UInt8)) (n : ℕ) {d : ℕ} (h : d ≤ stackBufSize+7) :
    (stringsFit top src n d).2 ≤ stackBufSize+7:=by
  induction n generalizing d with
  | zero=>exact h
  | succ n ih=>
    rw [stringsFit]
    split
    · exact h
    · exact ih (by omega)

theorem depth_buildStack_eq : (buildStack top argv argc envp envc entry).depth =
    (pushedArgs top argv argc envp envc).2.2 +
    8*(17+(pushedArgs top argv argc envp envc).1+(pushedArgs top argv argc envp envc).2.1):=by
  unfold buildStack pushedArgs
  have h1:=StackImage.pushStrings_fit top argv argc ⟨0,fun _=>0⟩
  generalize StackImage.pushStrings top argv argc ⟨0,fun _=>0⟩=r1 at h1 ⊢
  obtain ⟨a,img1,p1⟩:=r1
  have h2:=StackImage.pushStrings_fit top envp envc img1
  dsimp only at h1 h2 ⊢
  generalize StackImage.pushStrings top envp envc img1=r2 at h2 ⊢
  obtain ⟨e,img2,p2⟩:=r2
  rw [←h1,←h2,StackImage.depth_pushWords]
  simp only [auxWords,StackImage.align,length_append,length_map,length_reverse,length_range,length_cons,length_nil]
  omega

theorem pushedArgs_le (top : ℕ) (argv : Strings) (argc : ℕ) (envp : Strings) (envc : ℕ) :
    (pushedArgs top argv argc envp envc).1 ≤ maxStackStrings ∧
    (pushedArgs top argv argc envp envc).2.1 ≤ maxStackStrings ∧
    (pushedArgs top argv argc envp envc).2.2 ≤ stackBufSize+22:=by
  have hcount (s : Strings) (n d : ℕ) : (pushedStrings top s n d).1 ≤ maxStackStrings:=by
    simp only [pushedStrings]
    split
    · exact Nat.min_le_right ..
    · exact Nat.zero_le _
  refine ⟨hcount ..,hcount ..,?_⟩
  have hle:=stringsFit_le top envp.entry (min (envp.count envc) maxStackStrings)
    (stringsFit_le top argv.entry (min (argv.count argc) maxStackStrings) (Nat.zero_le _))
  simp only [pushedArgs,pushedStrings]
  omega

theorem depth_buildStack (top : ℕ) (argv : Strings) (argc : ℕ) (envp : Strings) (envc entry : ℕ) :
    (buildStack top argv argc envp envc entry).depth≤5000:=by
  obtain ⟨h1,h2,h3⟩:=pushedArgs_le top argv argc envp envc
  rw [depth_buildStack_eq]
  simp only [stackBufSize,maxStackStrings] at h1 h2 h3
  omega

end Knail.Spawn
