import Knail.HeapIntegrity

/-!
# `krealloc` against its plain counterpart

`krealloc` has a copy of the code of `kmalloc` and `kfree`, since it holds the lock for the
whole call. The copy neither extends the heap nor merges nor counts, so the two agree only
where both fail.
-/
namespace Knail.KernelHeap

open Option

variable {β : Type} {B : Backing β} {h : Heap β} {b : Block} {bs : List Block} {n p : ℕ}

/-- `kmalloc`, a copy of the old payload, and `kfree`. -/
def reallocPlain (B : Backing β) (p n : ℕ) (h : Heap β) : Option (Option ℕ×Heap β):=
  (kmalloc B n h).map fun e=>e.1.elim (none,e.2) fun q=>
    (some q,kfree (some p) {e.2 with byte:=copyBytes q p (h.header (usub64 p headerSize)).size 0 e.2.byte})

/-- The same pointer, with the old payload behind it, the same list and the same counters. -/
def Agrees (B : Backing β) (p n : ℕ) (h : Heap β) : Prop:=
  ∃q h₁ h₂,krealloc (some p) n h=some (q,h₁) ∧ reallocPlain B p n h=some (q,h₂) ∧
    (∀a,q=some a→∀i,i<(h.header (usub64 p headerSize)).size→h₁.byte (a+i)=h.byte (p+i)) ∧
    (∃bs,Blocks h₁ bs ∧ Blocks h₂ bs) ∧ h₁.allocCount=h₂.allocCount ∧ h₁.freeCount=h₂.freeCount

/-- No free block is large enough, and the heap cannot be extended: the limit is reached, or a
frame is missing for one of the pages. -/
def Unservable (B : Backing β) (n : ℕ) (h : Heap β) : Prop:=
  (∀bs,Blocks h bs→∀b∈bs,b.free=true→b.size<align16 n) ∧
    (heapMax<u64 (h.heapEnd+u64 (pagesFor (align16 n)*pageSize)) ∨
      (mapPages B h.heapEnd (pagesFor (align16 n)) 0 h.backing).1=false)

@[simp] theorem allocCount_modify (h : Heap β) (a : ℕ) (f : BlockHeader→BlockHeader) :
    (h.modify a f).allocCount=h.allocCount:=rfl

@[simp] theorem allocCount_setPrev (h : Heap β) (q : Option ℕ) (v : ℕ) : (h.setPrev q v).allocCount=h.allocCount:=by
  cases q <;> rfl

@[simp] theorem allocCount_split (size blk : ℕ) (h : Heap β) : (split size blk h).allocCount=h.allocCount:=by
  simp only [split]
  split <;> simp

@[simp] theorem allocCount_coalesce (q : Option ℕ) (h : Heap β) : (coalesce q h).allocCount=h.allocCount:=by
  cases q with
  | none=>rfl
  | some a=>
    simp only [coalesce]
    split
    · rfl
    split
    · rfl
    · split <;> simp

@[simp] theorem allocCount_kfree (q : Option ℕ) (h : Heap β) : (kfree q h).allocCount=h.allocCount:=by
  cases q with
  | none=>rfl
  | some a=>
    simp only [kfree]
    split
    · rfl
    · split <;> simp

theorem allocCount_relocate (size p c : ℕ) (h : Heap β) : (relocate size p c h).2.allocCount=h.allocCount:=by
  simp [relocate]

theorem fst_take (size c : ℕ) (h : Heap β) : (take size c h).1=some (u64 (c+headerSize)):=rfl

theorem allocCount_take (size c : ℕ) (h : Heap β) : (take size c h).2.allocCount=u64 (h.allocCount+1):=by
  simp [take]

theorem u64_succ_ne (x : ℕ) : u64 (x+1)≠x:=by
  unfold u64
  omega

theorem agrees_iff (hb : Blocks h bs) (hm : b∈used bs) (hlt : b.size<n) :
    Agrees B b.payload n h↔Unservable B n h:=by
  have hn : n≠0:=by omega
  constructor
  · rintro ⟨q,h1,h2,hre,hpl,-,-,hcount,-⟩
    rcases krealloc_found hb hm hlt with ⟨l,c,r,rfl,hf,hc,hk⟩ | ⟨hno,hk⟩
    · rcases kmalloc_found B hb hn with ⟨l',c',r',-,-,-,hk'⟩ | ⟨hno,-⟩
      · have h1' : (relocate (align16 n) b.payload c.addr h).2=h1:=
          congrArg Prod.snd (some.inj (hk.symm.trans hre))
        rw [reallocPlain,hk',map_some,fst_take,elim_some] at hpl
        obtain ⟨-,h2'⟩:=Prod.mk.inj (some.inj hpl)
        rw [←h1',←h2',allocCount_relocate,allocCount_kfree] at hcount
        have htake:=allocCount_take (align16 n) c'.addr h
        exact absurd (htake.symm.trans hcount.symm) (u64_succ_ne h.allocCount)
      · exact absurd hc (Nat.not_le.mpr (hno c (by simp) hf))
    · refine ⟨fun bs' hb' c hc=>hno c (hb'.unique hb▸hc),?_⟩
      obtain rfl:=congrArg Prod.fst (some.inj (hk.symm.trans hre))
      rcases kmalloc_found B hb hn with ⟨l,c,r,rfl,hf,hc,-⟩ | ⟨-,hk'⟩
      · exact absurd hc (Nat.not_le.mpr (hno c (by simp) hf))
      rcases expand_cases B (align16 n) h with ⟨hmax,-⟩ | ⟨-,⟨c,hmap,-⟩ | ⟨c,-,he⟩⟩
      · exact .inl hmax
      · exact .inr (congrArg Prod.fst hmap)
      -- the heap was extended, so that only `kmalloc` returns a block
      rw [reallocPlain,hk',he] at hpl
      cases hg : grown (pagesFor (align16 n)) c h with
      | none=>
        rw [hg] at hpl
        cases hpl
      | some h'=>
        rw [hg] at hpl
        cases congrArg Prod.fst (some.inj hpl)
  · rintro ⟨hno,hfail⟩
    have hno:=hno bs hb
    have hre : krealloc (some b.payload) n h=some (none,h):=by
      rcases krealloc_found hb hm hlt with ⟨l,c,r,rfl,hf,hc,-⟩ | ⟨-,hk⟩
      · exact absurd hc (Nat.not_le.mpr (hno c (by simp) hf))
      · exact hk
    have hpl : ∃c,reallocPlain B b.payload n h=some (none,{h with backing:=c}):=by
      rcases kmalloc_found B hb hn with ⟨l,c,r,rfl,hf,hc,-⟩ | ⟨-,hk⟩
      · exact absurd hc (Nat.not_le.mpr (hno c (by simp) hf))
      rw [reallocPlain,hk]
      rcases expand_cases B (align16 n) h with ⟨-,he⟩ | ⟨hmax,⟨c,-,he⟩ | ⟨c,hmap,-⟩⟩
      · exact ⟨h.backing,by rw [he]; rfl⟩
      · exact ⟨c,by rw [he]; rfl⟩
      rcases hfail with hmax' | hfail
      · exact absurd hmax' hmax
      · rw [hmap] at hfail
        cases hfail
    obtain ⟨c,hpl⟩:=hpl
    exact ⟨none,h,_,hre,hpl,by simp,⟨bs,hb,hb.congr rfl rfl rfl⟩,rfl,rfl⟩

/-- In every heap that a client can reach, growing a live block agrees with its plain
counterpart exactly if neither of them can be served. -/
theorem krealloc_agrees_iff (B : Backing β) (garbage : ℕ→BlockHeader) (byte : ℕ→UInt8) (b : β) :
    ∃h₀,init B garbage byte b=some h₀ ∧ ∀c,Run B ⟨h₀,fun _=>none⟩ c→∀p m,c.live p=some m →
    ∀n,(c.heap.header (usub64 p headerSize)).size<n→(Agrees B p n c.heap↔Unservable B n c.heap):=by
  obtain ⟨h₀,bs,hinit,hb⟩:=init_spec B garbage byte b
  refine ⟨h₀,hinit,fun c hr p m hp n hlt=>?_⟩
  obtain ⟨bs',hb',ho'⟩:=hr.blocks hb (by simp [Owned])
  obtain ⟨d,hd,rfl,-⟩:=ho' p m hp
  rw [hb'.usub64_payload hd.1,(hb'.header_of_mem hd.1).2.2] at hlt
  exact agrees_iff hb' hd hlt

def oneBlock : Option (Option ℕ×Heap Unit):=
  (init endless (fun _=>⟨0,false,none,none,0⟩) (fun _=>0) ()).bind (kmalloc endless 16)

/-- With a page to be had `kmalloc` extends the heap and `krealloc` gives up. With a free block
both return it, but only one of them counts. -/
theorem krealloc_differs : oneBlock.map Prod.fst=some (some 0xFFFF900000000028) ∧
    (oneBlock.bind fun e=>krealloc e.1 8000 e.2).map Prod.fst=some none ∧
    (oneBlock.bind fun e=>reallocPlain endless 0xFFFF900000000028 8000 e.2).map Prod.fst =
    some (some 0xFFFF900000001028) ∧
    (oneBlock.bind fun e=>krealloc e.1 100 e.2).map (fun e=>(e.1,e.2.allocCount,e.2.freeCount)) =
    some (some 0xFFFF900000000060,1,0) ∧ (oneBlock.bind fun e=>reallocPlain endless 0xFFFF900000000028 100 e.2).map
    (fun e=>(e.1,e.2.allocCount,e.2.freeCount))=some (some 0xFFFF900000000060,2,1):=by
  refine ⟨?_,?_,?_,?_,?_⟩ <;> decide +kernel

end Knail.KernelHeap
