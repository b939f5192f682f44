import Knail.HeapIntegrity
import Knail.MemoryMap

/-!
# Requests beyond the size of the heap

The size of a request passes five roundings and comparisons of 64 bits. Most requests beyond the heap are turned away
by the limit, or because there are never that many frames; the largest ones wrap around to a request for one page.
-/
namespace Knail.KernelHeap

open FrameAllocator (Pmm)

abbrev Frames:={p : Pmm // FrameAllocator.Sound p}

/-- The heap on top of the frame allocator. Of the page mapper only the frames count that it
takes for its tables. -/
def frameBacking (tables : ℕ→ℕ→Pmm→ℕ) : Backing Frames where
  allocFrame p:=((FrameAllocator.allocFrame p.1).1,⟨(FrameAllocator.allocFrame p.1).2,p.2.step .alloc⟩)
  mapPage virt phys p:=
    ⟨FrameAllocator.run (List.replicate (tables virt phys p.1) .alloc) p.1,p.2.run _⟩

variable {tables : ℕ→ℕ→Pmm→ℕ} {h : Heap Frames} {bs : List Block} {n : ℕ}

theorem used_le_run {p : Pmm} (hp : FrameAllocator.Sound p) (k : ℕ) :
    p.usedFrames≤(FrameAllocator.run (List.replicate k .alloc) p).usedFrames:=by
  induction k generalizing p with
  | zero=>exact le_rfl
  | succ k ih=>
    refine le_trans ?_ (ih (hp.step .alloc))
    rcases hp.allocFrame_spec with ⟨he,-⟩ | ⟨x,p',he,ha,-⟩
    · rw [FrameAllocator.step,he]
    · rw [FrameAllocator.step,he,ha.used]
      exact Nat.le_succ _

theorem mapPages_le {base k i : ℕ} {p : Frames} (hm : (mapPages (frameBacking tables) base k i p).1=true) :
    k+p.1.usedFrames≤p.1.totalFrames:=by
  induction k generalizing i p with
  | zero=>
    rw [p.2.used,Nat.zero_add]
    exact p.1.bitmap.card_members_le _
  | succ k ih=>
    simp only [mapPages] at hm
    split at hm
    · cases hm
    rename_i hne
    have hk:=ih hm
    rcases p.2.allocFrame_spec with ⟨he,-⟩ | ⟨x,p',he,ha,hs⟩
    · exact absurd (by simp [frameBacking,he]) hne
    have hle:=used_le_run hs (tables (u64 (base+i*pageSize)) (x*FrameAllocator.pageSize) p')
    have htotal:=hs.run_total (List.replicate (tables (u64 (base+i*pageSize)) (x*FrameAllocator.pageSize) p') .alloc)
    simp only [frameBacking,he] at hk
    have hused:=ha.used
    have hsame:=ha.total
    omega

def NoFrame (p : Frames) : Prop:=∀f,1≤f→f<p.1.totalFrames→FrameAllocator.isUsed p.1 f=true

theorem mapPages_one {base : ℕ} {p : Frames} : (mapPages (frameBacking tables) base 1 0 p).1=false↔NoFrame p:=by
  rw [NoFrame,←p.2.correct.full]
  simp only [mapPages]
  split
  · rename_i he
    exact iff_of_true rfl he
  · rename_i hne
    exact iff_of_false (by simp) hne

/-- `kmalloc` returns null and leaves the list and its headers alone. -/
def Refused (B : Backing Frames) (n : ℕ) (h : Heap Frames) : Prop:=
  ∃h',kmalloc B n h=some (none,h') ∧ h'.header=h.header ∧ h'.head=h.head ∧ h'.heapEnd=h.heapEnd

/-- The size does not wrap around, or what it wraps to cannot be had: no page is to be had, and
for a size that wraps to zero no block is free. -/
def Refusable (n : ℕ) (h : Heap Frames) : Prop:=
  n≤18446744073709547472 ∨
    (n≤18446744073709551600 ∨ ∀bs,Blocks h bs→∀b∈bs,b.free=false) ∧
      (heapMax<h.heapEnd+4096 ∨ NoFrame h.backing)

theorem align16_of_le (hn : n≤18446744073709551600) : align16 n=(n+15)/16*16:=by
  rw [align16,u64_of_lt (by omega)]

theorem align16_wrapped (hn : 18446744073709551600<n) (hlt : n<18446744073709551616) : align16 n=0:=by
  unfold align16 u64
  omega

theorem pagesFor_of_le (hn : n≤18446744073709547472) : pagesFor (align16 n)=((n+15)/16*16+4135)/4096:=by
  have hbytes : u64 ((n+15)/16*16+headerSize)=(n+15)/16*16+40:=u64_of_lt (by rw [headerSize]; omega)
  rw [align16_of_le (by omega),pagesFor,hbytes,pageSize,u64_of_lt (by omega)]
  omega

theorem pagesFor_wrapped (hn : 18446744073709547472<n) (hlt : n<18446744073709551616) : pagesFor (align16 n)=1:=by
  unfold pagesFor align16 u64 headerSize pageSize
  omega

theorem Blocks.size_lt {β : Type} {h : Heap β} {b : Block} (hb : Blocks h bs) (hm : b∈bs) : b.size<1073741824:=by
  obtain ⟨h1,h2⟩:=hb.bounds hm
  have h3:=hb.bound
  simp only [Block.stop,headerSize,heapStart,heapMax] at h1 h2 h3
  omega

theorem refused_of_expand {h' : Heap Frames}
    (hk : kmalloc (frameBacking tables) n h=(expand (frameBacking tables) (align16 n) h).map fun e=>
    e.1.elim (none,e.2) fun blk=>take (align16 n) blk e.2)
    (he : expand (frameBacking tables) (align16 n) h=some (none,h')) (hh : h'.header=h.header)
    (hd : h'.head=h.head) (hend : h'.heapEnd=h.heapEnd) : Refused (frameBacking tables) n h:=
  ⟨h',by rw [hk,he]; rfl,hh,hd,hend⟩

theorem refused_of_le (hb : Blocks h bs) (hlo : heapMax-heapStart<n) (hn : n≤18446744073709547472) :
    Refused (frameBacking tables) n h:=by
  have halign:=align16_of_le (show n≤18446744073709551600 by omega)
  have hpages:=pagesFor_of_le hn
  have hbound:=hb.bound
  simp only [heapMax,heapStart] at hlo hbound
  rcases kmalloc_found (frameBacking tables) hb (show n≠0 by omega) with ⟨l,b,r,rfl,-,hfit,-⟩ | ⟨-,hk⟩
  · have:=hb.size_lt (b:=b) (by simp)
    omega
  rcases expand_cases (frameBacking tables) (align16 n) h with ⟨-,he⟩ | ⟨hmax,⟨c,-,he⟩ | ⟨c,hm,-⟩⟩
  · exact refused_of_expand hk he rfl rfl rfl
  · exact refused_of_expand hk he rfl rfl rfl
  -- the end of the heap has wrapped around, and there are not that many frames
  have hle:=mapPages_le (congrArg Prod.fst hm)
  have htotal:=h.backing.2.total
  have htiles:=hb.tiles.bounds.1
  simp only [heapMax,heapStart,FrameAllocator.maxFrames,u64,pageSize] at hmax htotal htiles
  omega

theorem refused_wrapped (hb : Blocks h bs) (hn : 18446744073709547472<n) (hlt : n<18446744073709551616)
    (hfree : n≤18446744073709551600 ∨ ∀b∈bs,b.free=false) (hpage : heapMax<h.heapEnd+4096 ∨ NoFrame h.backing) :
    Refused (frameBacking tables) n h:=by
  have hpages:=pagesFor_wrapped hn hlt
  have hbound:=hb.bound
  rcases kmalloc_found (frameBacking tables) hb (show n≠0 by omega) with ⟨l,b,r,rfl,hf,hfit,-⟩ | ⟨-,hk⟩
  · rcases hfree with hle | hno
    · have:=hb.size_lt (b:=b) (by simp)
      rw [align16_of_le hle] at hfit
      omega
    · simp [hno b (by simp)] at hf
  · rcases expand_cases (frameBacking tables) (align16 n) h with ⟨-,he⟩ | ⟨hmax,⟨c,-,he⟩ | ⟨c,hm,-⟩⟩
    · exact refused_of_expand hk he rfl rfl rfl
    · exact refused_of_expand hk he rfl rfl rfl
    rw [hpages] at hmax hm
    rcases hpage with hfull | hnone
    · simp only [heapMax,u64,pageSize] at hmax hfull hbound
      omega
    have hfail : (mapPages (frameBacking tables) h.heapEnd 1 0 h.backing).1=false:=mapPages_one.mpr hnone
    rw [hm] at hfail
    cases hfail

theorem Refused.refusable (hr : Refused (frameBacking tables) n h) (hb : Blocks h bs)
    (hlt : n<18446744073709551616) : Refusable n h:=by
  obtain ⟨h',hk',-⟩:=hr
  by_cases hn : n≤18446744073709547472
  · exact .inl hn
  have hpages:=pagesFor_wrapped (by omega) hlt
  have hbound:=hb.bound
  rcases kmalloc_found (frameBacking tables) hb (show n≠0 by omega) with ⟨l,b,r,-,-,-,hk⟩ | ⟨hno,hk⟩
  · rw [hk] at hk'
    cases hk'
  refine .inr ⟨?_,?_⟩
  · by_cases hle : n≤18446744073709551600
    · exact .inl hle
    refine .inr fun bs' hb' b hm=>?_
    rw [hb'.unique hb] at hm
    by_contra hf
    have:=hno b hm (by simpa using hf)
    rw [align16_wrapped (by omega) hlt] at this
    omega
  · rcases expand_cases (frameBacking tables) (align16 n) h with ⟨hmax,-⟩ | ⟨hmax,⟨c,hm,-⟩ | ⟨c,-,he⟩⟩
    · simp only [heapMax,u64,pageSize] at hmax hbound ⊢
      omega
    · rw [hpages] at hm
      exact .inr (mapPages_one.mp (congrArg Prod.fst hm))
    rw [hpages] at hmax he
    have hfit : h.heapEnd+1*4096≤heapMax:=by
      simp only [heapMax,u64,pageSize] at hmax hbound ⊢
      omega
    obtain ⟨h1,hg,-⟩:=hb.grown c le_rfl hfit
    rw [hk,he,hg] at hk'
    cases hk'

theorem refused_iff (hb : Blocks h bs) (hlo : heapMax-heapStart<n) (hlt : n<18446744073709551616) :
    Refused (frameBacking tables) n h↔Refusable n h:=by
  refine ⟨fun hr=>hr.refusable hb hlt,fun hr=>?_⟩
  rcases hr with hn | ⟨hfree,hpage⟩
  · exact refused_of_le hb hlo hn
  by_cases hn : n≤18446744073709547472
  · exact refused_of_le hb hlo hn
  · exact refused_wrapped hb (by omega) hlt (hfree.imp_right fun hf=>hf bs hb) hpage

/-- Runs of calls with sizes within the heap, and of calls beyond it that can be refused. -/
inductive RequestRun (B : Backing Frames) (c₀ : Client Frames) : Client Frames→Prop
  | start : RequestRun B c₀ c₀
  | within {c c' : Client Frames} (op : Op) : RequestRun B c₀ c → op.Valid c→step B op c=some c' →
      RequestRun B c₀ c'
  | beyond {c c' : Client Frames} {n : ℕ} : RequestRun B c₀ c→heapMax-heapStart<n→n<18446744073709551616 →
      Refusable n c.heap→step B (.kmalloc n) c=some c'→RequestRun B c₀ c'

theorem RequestRun.blocks {c0 c : Client Frames} (hr : RequestRun (frameBacking tables) c0 c)
    (h0 : ∃bs,Blocks c0.heap bs ∧ Owned c0.live bs) : ∃bs,Blocks c.heap bs ∧ Owned c.live bs:=by
  induction hr with
  | start=>exact h0
  | within op _ hop hs ih=>
    obtain ⟨bs,hb,ho⟩:=ih
    obtain ⟨c',bs',hs',hspec⟩:=step_spec hb ho hop
    obtain rfl:=Option.some.inj (hs.symm.trans hs')
    exact ⟨bs',hspec⟩
  | beyond _ hlo hlt hcan hs ih=>
    obtain ⟨bs,hb,ho⟩:=ih
    obtain ⟨h',hk,hh,hd,hend⟩ : Refused (frameBacking tables) _ _:=(refused_iff hb hlo hlt).mpr hcan
    simp only [step,hk,hold,Option.map_some,Option.some_inj] at hs
    subst hs
    exact ⟨bs,hb.congr hh hd hend,ho⟩

/-- In every heap that such calls lead to, a request beyond the heap is refused exactly if
`Refusable` says so. -/
theorem requests_beyond_heap (tables : ℕ→ℕ→Pmm→ℕ) (garbage : ℕ→BlockHeader) (byte : ℕ→UInt8) (p : Frames) :
    ∃h₀,init (frameBacking tables) garbage byte p=some h₀ ∧
    ∀c,RequestRun (frameBacking tables) ⟨h₀,fun _=>none⟩ c→∀n,heapMax-heapStart<n →
    n<18446744073709551616→(Refused (frameBacking tables) n c.heap↔Refusable n c.heap):=by
  obtain ⟨h₀,bs,hinit,hb⟩:=init_spec (frameBacking tables) garbage byte p
  refine ⟨h₀,hinit,fun c hr n hlo hlt=>?_⟩
  obtain ⟨bs',hb',-⟩:=hr.blocks ⟨bs,hb,by simp [Owned]⟩
  exact refused_iff hb' hlo hlt

def eightFree : Frames:=⟨⟨fun _=>0,8,0⟩,by decide,by decide⟩

/-- The largest request gets a block of no bytes, and one for 16 bytes less a block that is cut
inside its own header. -/
theorem largest_request_granted : ∃h₀,
    init (frameBacking fun _ _ _=>0) (fun _=>⟨0,false,none,none,0⟩) (fun _=>0) eightFree=some h₀ ∧
    (kmalloc (frameBacking fun _ _ _=>0) 18446744073709551615 h₀).map Prod.fst=some (some 0xFFFF900000000028) ∧
    (kmalloc (frameBacking fun _ _ _=>0) 18446744073709551600 h₀).map Prod.fst=some (some 0xFFFF900000001028):=by
  have hsome : (init (frameBacking fun _ _ _=>0) (fun _=>⟨0,false,none,none,0⟩) (fun _=>0) eightFree).isSome =
      true:=by decide +kernel
  obtain ⟨h₀,hinit⟩:=Option.isSome_iff_exists.mp hsome
  have hall : (init (frameBacking fun _ _ _=>0) (fun _=>⟨0,false,none,none,0⟩) (fun _=>0) eightFree).map
      (fun h=>((kmalloc (frameBacking fun _ _ _=>0) 18446744073709551615 h).map Prod.fst,
        (kmalloc (frameBacking fun _ _ _=>0) 18446744073709551600 h).map Prod.fst)) =
      some (some (some 0xFFFF900000000028),some (some 0xFFFF900000001028)):=by decide +kernel
  rw [hinit,Option.map_some,Option.some_inj,Prod.mk.injEq] at hall
  exact ⟨h₀,hinit,hall⟩

end Knail.KernelHeap
