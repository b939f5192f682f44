import Knail.SpawnConfinement

/-!
# Enough memory for a process

With enough frames and heap blocks, `spawn_elf` starts a process from any image in the lower half.
-/
namespace Knail.Spawn

open PageTables Elf List Option

variable {m m₁ m' : Machine} {level level' : ℕ→Option ℕ} {home : ℕ→Option ℕ×ℕ} {r k t i j f va n : ℕ}
  {vs : List ℕ} {al : Allocations} {s : Kernel}

/-- The next offers of the allocator are different free frames. -/
def Plenty (n : ℕ) (m : Machine) : Prop:=
  ∃fs rest,m.supply=fs++rest ∧ fs.length=n ∧ fs.Nodup ∧ ∀f∈fs,IsFrame f ∧ f∉m.used

namespace Plenty

theorem congr (h : Plenty n m) (hused : m'.used=m.used) (hsupply : m'.supply=m.supply) : Plenty n m':=by
  unfold Plenty
  rw [hused,hsupply]
  exact h

theorem alloc (h : Plenty (n+1) m) : (allocFrame m).1≠0 ∧ Plenty n (allocFrame m).2:=by
  obtain ⟨fs,rest,hs,hl,hd,hf⟩:=h
  cases fs with
  | nil=>cases hl
  | cons f fs=>
    obtain ⟨hfs,hd⟩:=nodup_cons.mp hd
    rw [allocFrame,hs]
    simp only [cons_append,if_pos (hf f mem_cons_self)]
    refine ⟨(hf f mem_cons_self).1.1,fs,rest,rfl,Nat.succ.inj hl,hd,fun g hg=>?_⟩
    obtain ⟨hframe,hused⟩:=hf g (mem_cons_of_mem _ hg)
    exact ⟨hframe,not_mem_cons_of_ne_of_not_mem (ne_of_mem_of_not_mem hg hfs) hused⟩

theorem of_alloc (h0 : (allocFrame m).1≠0) (h : Plenty n (allocFrame m).2) : Plenty (n+1) m:=by
  unfold allocFrame at h0 h
  cases hs : m.supply with
  | nil=>simp [hs] at h0
  | cons f rest=>
    simp only [hs] at h0 h
    by_cases hf : IsFrame f ∧ f∉m.used
    · simp only [if_pos hf] at h
      obtain ⟨fs,rest',hs',hl,hd,hfs⟩:=h
      refine ⟨f::fs,rest',hs.trans (congrArg (f :: ·) hs'),by rw [length_cons,hl],?_,fun g hg=>?_⟩
      · exact nodup_cons.mpr ⟨fun hm=>(hfs f hm).2 mem_cons_self,hd⟩
      rcases mem_cons.mp hg with rfl | hg
      · exact hf
      · exact ⟨(hfs g hg).1,fun hu=>(hfs g hg).2 (mem_cons_of_mem _ hu)⟩
    · simp [if_neg hf] at h0

theorem mono (h : Plenty (n+1) m) : Plenty n m:=by
  obtain ⟨fs,rest,hs,hl,hd,hf⟩:=h
  cases fs with
  | nil=>cases hl
  | cons f fs=>
    have hne : f::fs≠[]:=cons_ne_nil f fs
    refine ⟨(f::fs).dropLast,(f::fs).getLast hne::rest,?_,?_,hd.sublist (dropLast_sublist _),?_⟩
    · rw [hs,append_cons,dropLast_append_getLast]
    · rw [length_dropLast,hl]
      rfl
    · exact fun g hg=>hf g (dropLast_subset _ hg)

theorem allocTable (h : Plenty (n+1) m) : IsFrame (allocTable m).1 ∧ Plenty n (allocTable m).2:=by
  obtain ⟨h0,hn⟩:=h.alloc
  have hframe : IsFrame (PageTables.allocTable m).1:=by
    rcases allocFrame_cases m with ⟨h0',-⟩ | ⟨hframe,-⟩
    · exact absurd h0' h0
    · simpa [PageTables.allocTable,h0] using hframe
  refine ⟨hframe,?_⟩
  simp only [PageTables.allocTable,if_neg h0]
  exact hn.congr rfl rfl

/-- A table is found or made. -/
theorem getOrCreate (h : Plenty (n+1) m) (ht : Tables m level home) (htl : level t=some (j+1))
    (f i : ℕ) : (getOrCreate t i f m).1≠0 ∧ Plenty n (getOrCreate t i f m).2:=by
  have huser : Plenty (n+1) (withUser t i f m):=h.congr (withUser_used t i f m) (by unfold withUser; split <;> rfl)
  have hentry : (withUser t i f m).mem t i=m.mem t i ∨ (withUser t i f m).mem t i=m.mem t i|||flagUser:=by
    unfold withUser
    split
    · exact .inr (by rw [mem_write_self,Function.update_self])
    · exact .inl rfl
  have hbits : entryPhys ((withUser t i f m).mem t i)=entryPhys (m.mem t i) ∧
      (withUser t i f m).mem t i&&&flagHuge=m.mem t i&&&flagHuge:=by
    rcases hentry with he | he
    · rw [he]
      exact ⟨rfl,rfl⟩
    · rw [he]
      exact ⟨(or_user _).1,(or_user _).2.2.1⟩
  unfold PageTables.getOrCreate
  split
  · rename_i hp
    dsimp only
    rw [hbits.2]
    split
    · obtain ⟨hframe,hn⟩:=huser.allocTable
      simp only [splitHuge,if_neg hframe.1]
      refine ⟨?_,hn.congr rfl rfl⟩
      rw [mem_write_self,Function.update_self]
      have hflags : TableFlags (if f&&&flagUser≠0 then flagPresent|||flagWrite|||flagUser else flagPresent|||flagWrite):=
        tableFlags_spec f
      rw [(entry_table hframe hflags).1]
      exact hframe.1
    · rename_i hh
      have hs : slots m (j+1) t i = .table (entryPhys (m.mem t i)):=by
        simp [slots,decode,hp,not_not.mp hh]
      refine ⟨?_,huser.mono⟩
      rw [hbits.1]
      exact (ht.frame (ht.forest.child htl hs).1).1
  · obtain ⟨hframe,hn⟩:=h.allocTable
    simp only [if_neg hframe.1]
    exact ⟨hframe.1,hn.congr rfl rfl⟩

theorem mapPage (h : Plenty (n+3) m) (ht : Tables m level home) (hr : level r=some 3) (v p flags : ℕ) :
    (mapPage r v p flags m).1=true ∧ Plenty n (mapPage r v p flags m).2:=by
  have hf:=tableFlags_spec flags
  obtain ⟨level1,home1,c1⟩:=getOrCreate_spec ht hr hf (pml4Idx v)
  obtain ⟨h1,p1⟩:=h.getOrCreate ht hr (tableFlags flags) (pml4Idx v)
  obtain ⟨hl1,-⟩:=c1.child h1
  obtain ⟨level2,home2,c2⟩:=getOrCreate_spec c1.tables hl1 hf (pdptIdx v)
  obtain ⟨h2,p2⟩:=p1.getOrCreate c1.tables hl1 (tableFlags flags) (pdptIdx v)
  obtain ⟨hl2,-⟩:=c2.child h2
  obtain ⟨h3,p3⟩:=p2.getOrCreate c2.tables hl2 (tableFlags flags) (pdIdx v)
  simp only [PageTables.mapPage,if_neg h1,if_neg h2,if_neg h3]
  exact ⟨trivial,p3.congr rfl rfl⟩

theorem mapFrame (h : Plenty (n+4) m) (ht : Tables m level home) (hr : level r=some 3) (va : ℕ) :
    (mapFrame r va m).1=true ∧ Plenty n (mapFrame r va m).2:=by
  obtain ⟨h0,hn⟩:=h.alloc
  rcases mapFrame_cases r va m with ⟨m₁,he,-⟩ | ⟨f,m₁,-,he,hm⟩
  · rw [he] at h0
    exact absurd rfl h0
  rw [hm]
  have ht1:=tables_allocFrame ht
  rw [he] at hn ht1
  exact hn.mapPage ht1 hr va f userRw

theorem mapPages (h : Plenty (n+4*vs.length) m) (hs : Space r m level []) :
    (mapPages r vs m).1=true ∧ Plenty n (mapPages r vs m).2:=by
  induction vs generalizing m level with
  | nil=>exact ⟨rfl,h⟩
  | cons va vs ih=>
    obtain ⟨home,ht⟩:=hs.tables
    obtain ⟨hok,hn⟩:=Plenty.mapFrame h ht hs.root va
    obtain ⟨level',hm,-⟩:=hs.mapFrame va
    simp only [mapPages]
    rcases he : Spawn.mapFrame r va m with ⟨b,m₁⟩
    rw [he] at hok hn hm
    cases hok
    exact ih hn ⟨hm.tables,hm.keeps.level_eq hs.root,by simp⟩

theorem createUserSpace (h : Plenty (n+3) m) (k : ℕ) :
    (createUserSpace k m).2.1=true ∧ Plenty n (createUserSpace k m).2.2:=by
  obtain ⟨h1,p1⟩:=h.allocTable
  have p1' : Plenty (n+2) ((PageTables.allocTable m).2.fill (PageTables.allocTable m).1 fun i=>
      if i<256 then 0 else (PageTables.allocTable m).2.mem (PageTables.allocTable m).1 i):=p1.congr rfl rfl
  obtain ⟨h2,p2⟩:=p1'.allocTable
  obtain ⟨h3,p3⟩:=p2.allocTable
  simp only [PageTables.createUserSpace,if_neg h1.1,if_neg h2.1,if_neg h3.1]
  exact ⟨trivial,p3.congr rfl rfl⟩

end Plenty

/-- Every `kmalloc` of `spawn_user` returns a block. -/
structure Allocations.Blocks (al : Allocations) : Prop where
  stackBuf : al.stackBuf.block.isSome
  task : al.task.block.isSome
  kstack : al.kstack.block.isSome
  scstack : al.scstack.block.isSome
  fdTable : al.fdTable.block.isSome

theorem makeTask_ok (h : al.Blocks) (k r quantum : ℕ) (s : Kernel) :
    (makeTask k r quantum al s).1 = .ok s.sched.nextTid:=by
  obtain ⟨t,ht⟩:=isSome_iff_exists.mp h.task
  obtain ⟨kstack,hk⟩:=isSome_iff_exists.mp h.kstack
  obtain ⟨scstack,hs⟩:=isSome_iff_exists.mp h.scstack
  obtain ⟨fdt,hf⟩:=isSome_iff_exists.mp h.fdTable
  simp only [makeTask,ht,hk,hs,hf]
  rfl

theorem startUser_ok (h : Space r s.machine level stackPages) (hk : level k=some 3)
    (hg : InHeap al.heapPages) (hb : al.Blocks) (entry quantum : ℕ) (args : Args) :
    (startUser k r entry quantum args al s).1=some (.ok s.sched.nextTid):=by
  have hstack (va : ℕ) (hva : va∈stackPages) : va<2^47:=(stackPages_lt hva).trans (by decide)
  obtain ⟨level1,h1,hk1,-⟩:=h.grow hk hstack al.stackBuf.grown fun g hg'=>hg g (by simp [Allocations.heapPages,hg'])
  obtain ⟨buf,hbuf⟩:=isSome_iff_exists.mp hb.stackBuf
  obtain ⟨m3,hrun,-⟩:=(h1.activate hk1 hstack).runStores
    (buildStack (buf+stackBufSize) args.argv args.argc args.envp args.envc entry).stores fun st hst=>by
      obtain ⟨hlt,va,hva,hpage⟩:=stackStores_covered (depth_buildStack ..) hst
      exact ⟨.inl hlt,va,hva,sameWalk_of_page hpage⟩
  have hmachine : (s.kmalloc k al.stackBuf).machine=grow k al.stackBuf.grown s.machine:=rfl
  simp only [startUser,hbuf,hmachine,hrun,makeTask_ok hb]
  rfl

theorem activate_supply (k r : ℕ) (m : Machine) : (activate k r m).supply=m.supply:=by
  unfold activate
  split
  · split <;> rfl
  · rfl

theorem runStores_frames (r : ℕ) (stores : List (ℕ×UInt8)) (m : Machine) :
    (runStores r stores m).2.1.used=m.used ∧ (runStores r stores m).2.1.supply=m.supply:=by
  induction stores generalizing m with
  | nil=>exact ⟨rfl,rfl⟩
  | cons st rest ih=>
    obtain ⟨a,b⟩:=st
    rw [runStores]
    cases translate r a m with
    | none=>exact ⟨rfl,rfl⟩
    | some p=>exact ih (storePhys p b m)

/-- With four frames for each page, three for the space and the heap blocks of the task, a process is
started. -/
theorem spawnElf_succeeds {image : Image} (mem : ℕ→UInt8) (args : Args)
    (hb : HeapReady k s.machine) (hg : InHeap al.heapPages) (hblocks : al.Blocks)
    (hpages : ∀va∈imagePages image,va<2^47) (hseg : ∀seg∈image.segments,0<seg.memsz→seg.vaddr+seg.memsz≤2^47)
    (hp : Plenty (4*stackPages.length+4*(imagePages image).length+3) s.machine) :
    (spawnElf k mem image args al s).result=some (.ok s.sched.nextTid):=by
  obtain ⟨level0,home0,ht,hk⟩:=hb.tables
  obtain ⟨hfull,p1⟩:=hp.createUserSpace k
  rcases hnew : createUserSpace k s.machine with ⟨r,full,m₁⟩
  rw [hnew] at hfull p1
  subst hfull
  have hr : r≠0:=by
    obtain ⟨level',hn⟩:=createUserSpace_spec ht hk
    rw [hnew] at hn
    exact (hn.full rfl).1
  obtain ⟨level1,owner1,h1⟩:=ready_create ht hk hb.low hnew hr
  obtain ⟨hok2,p2⟩:=p1.mapPages h1.space
  obtain ⟨level2,owner2,h2,-⟩:=h1.mapPages (imagePages image) hk hb.low fun pre va post he _=>hpages va (by simp [he])
  rcases hmap : mapPages r (imagePages image) m₁ with ⟨b,m2⟩
  rw [hmap] at hok2 p2 h2
  cases hok2
  obtain ⟨m3,hrun,h3,-⟩:=h2.copy hk (h2.entry rfl) (by simpa using hpages) mem (by simp) hseg
  have p3 : Plenty (0+4*stackPages.length) m3:=by
    obtain ⟨hused,hsupply⟩:=runStores_frames r (imageStores mem image) (activate k r m2)
    rw [hrun,activate_used] at hused
    rw [hrun,activate_supply] at hsupply
    exact p2.congr hused hsupply
  obtain ⟨hok4,-⟩:=p3.mapPages (h3.mono (nil_subset _)).space
  obtain ⟨level4,owner4,h4,-⟩:=h3.mapPages stackPages hk hb.low fun pre va post he _=>
    (stackPages_lt (by simp [he])).trans (by decide)
  rcases hstack : mapPages r stackPages m3 with ⟨b,m4⟩
  rw [hstack] at hok4 h4
  cases hok4
  have hs4 : Space r (s.withMachine m4).machine level4 stackPages:=(h4.mono (subset_append_left ..)).space
  have hstart:=startUser_ok hs4 (h4.isolated.kernel hk).1 hg hblocks image.entry defaultQuantum args
  obtain ⟨r,rfl⟩:=Nat.exists_eq_succ_of_ne_zero hr
  rcases hu : startUser k (r+1) image.entry defaultQuantum args al (s.withMachine m4) with ⟨res,s'⟩
  rw [hu] at hstart
  subst hstart
  have huser : spawnUser k (r+1) image.entry defaultQuantum args al (s.withMachine m3) =
      (some (.ok s.sched.nextTid),s'):=by
    simp only [spawnUser,Kernel.withMachine,hstack]
    exact hu
  simp only [spawnElf,hnew,hmap,hrun,activate_self,huser]

end Knail.Spawn
