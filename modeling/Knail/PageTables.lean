import Knail.KernelTypes
import Mathlib.Algebra.Group.Nat.Defs
import Mathlib.Logic.Function.Basic

/-!
# Four-level page tables

Physical memory is read and written as page tables: a frame address and an index give a 64-bit entry. Frames come from
an allocator of which only the contract is modelled: an offer that is in use, or is no frame address, counts as the
failure value 0.
-/
namespace Knail.PageTables

def flagPresent : ℕ:=0x1
def flagWrite : ℕ:=0x2
def flagUser : ℕ:=0x4
def flagHuge : ℕ:=0x80

def physMask : ℕ:=0x000FFFFFFFFFF000

def entryPhys (e : ℕ) : ℕ:=e&&&physMask

def entryBase (e : ℕ) : ℕ:=e&&&0xFFFFFFFFFFFFF000

/-- `pml4_idx`, `pdpt_idx`, `pd_idx` and `pt_idx` for the levels 3 to 0. -/
def tableIdx (level virt : ℕ) : ℕ:=virt/2^(12+9*level)%512

def pml4Idx (virt : ℕ) : ℕ:=tableIdx 3 virt
def pdptIdx (virt : ℕ) : ℕ:=tableIdx 2 virt
def pdIdx (virt : ℕ) : ℕ:=tableIdx 1 virt
def ptIdx (virt : ℕ) : ℕ:=tableIdx 0 virt

/-- Memory, the frames in use, the coming offers, and the frames written or freed so far. -/
structure Machine where
  mem : ℕ→ℕ→ℕ
  used : List ℕ
  supply : List ℕ
  touched : List ℕ

namespace Machine

def write (m : Machine) (table idx e : ℕ) : Machine:=
  { m with
    mem:=Function.update m.mem table (Function.update (m.mem table) idx e)
    touched:=table::m.touched }

def fill (m : Machine) (table : ℕ) (entries : ℕ→ℕ) : Machine:=
  {m with mem:=Function.update m.mem table entries,touched:=table::m.touched}

end Machine

/-- A nonzero multiple of the page size that an entry can hold. -/
def IsFrame (f : ℕ) : Prop:=f≠0 ∧ f&&&physMask=f

instance (f : ℕ) : Decidable (IsFrame f):=inferInstanceAs (Decidable (_ ∧ _))

def allocFrame (m : Machine) : ℕ×Machine:=
  match m.supply with
  | []=>(0,m)
  | f::rest=>
    if IsFrame f ∧ f∉m.used then (f,{m with used:=f::m.used,supply:=rest})
    else (0,{m with supply:=rest})

def freeFrame (f : ℕ) (m : Machine) : Machine:=
  {m with used:=m.used.filter (· ≠ f),touched:=f::m.touched}

def allocTable (m : Machine) : ℕ×Machine:=
  let (phys,m):=allocFrame m
  if phys=0 then (0,m) else (phys,m.fill phys fun _=>0)

/-- User mappings need the user bit in every entry of the walk. -/
def withUser (table idx flags : ℕ) (m : Machine) : Machine:=
  if flags&&&flagUser≠0 then m.write table idx (m.mem table idx|||flagUser) else m

/-- Replace a huge page by a table of 512 pages that cover the same 2 MiB. -/
def splitHuge (table idx flags : ℕ) (m : Machine) : ℕ×Machine:=
  let (pt,m):=allocTable m
  if pt=0 then (0,m)
  else
    let hugePhys:=entryPhys (m.mem table idx)
    let eflags:=m.mem table idx&&&0xFFF&&&0xFFFFFFFFFFFFFF7F
    let m:=m.fill pt fun i=>(hugePhys+i*0x1000)|||eflags
    let splitFlags:=flagPresent|||flagWrite
    let splitFlags:=if flags&&&flagUser≠0 then splitFlags|||flagUser else splitFlags
    let m:=m.write table idx (pt|||splitFlags)
    (entryPhys (m.mem table idx),m)

/-- A child table of an entry, created if absent and split if huge; 0 without a frame. -/
def getOrCreate (table idx flags : ℕ) (m : Machine) : ℕ×Machine:=
  if m.mem table idx&&&flagPresent≠0 then
    let m:=withUser table idx flags m
    if m.mem table idx&&&flagHuge≠0 then splitHuge table idx flags m
    else (entryPhys (m.mem table idx),m)
  else
    let (child,m):=allocTable m
    if child=0 then (0,m) else (child,m.write table idx (child|||flags))

def tableFlags (flags : ℕ) : ℕ:=
  if flags&&&flagUser≠0 then flagPresent|||flagWrite|||flagUser else flagPresent|||flagWrite

def mapPage (pml4 virt phys flags : ℕ) (m : Machine) : Bool×Machine:=
  let (pdpt,m):=getOrCreate pml4 (pml4Idx virt) (tableFlags flags) m
  if pdpt=0 then (false,m)
  else
    let (pd,m):=getOrCreate pdpt (pdptIdx virt) (tableFlags flags) m
    if pd=0 then (false,m)
    else
      let (pt,m):=getOrCreate pd (pdIdx virt) (tableFlags flags) m
      if pt=0 then (false,m) else (true,m.write pt (ptIdx virt) ((phys&&&physMask)|||flags))

/-- No level checks for a huge page: below one, the page itself is taken for a table. -/
def unmapPage (pml4 virt : ℕ) (m : Machine) : Machine:=
  let l4e:=m.mem pml4 (pml4Idx virt)
  if l4e&&&flagPresent=0 then m
  else
    let l3e:=m.mem (entryPhys l4e) (pdptIdx virt)
    if l3e&&&flagPresent=0 then m
    else
      let l2e:=m.mem (entryPhys l3e) (pdIdx virt)
      if l2e&&&flagPresent=0 then m else m.write (entryPhys l2e) (ptIdx virt) 0

def virtToPhys (pml4 virt : ℕ) (m : Machine) : ℕ:=
  let l4e:=m.mem pml4 (pml4Idx virt)
  if l4e&&&flagPresent=0 then 0
  else
    let l3e:=m.mem (entryPhys l4e) (pdptIdx virt)
    if l3e&&&flagPresent=0 then 0
    else
      let l2e:=m.mem (entryPhys l3e) (pdIdx virt)
      if l2e&&&flagPresent=0 then 0
      else if l2e&&&flagHuge≠0 then entryPhys l2e+virt%0x200000
      else
        let l1e:=m.mem (entryPhys l2e) (ptIdx virt)
        if l1e&&&flagPresent=0 then 0 else entryPhys l1e+virt%0x1000

def identityEntry (i : ℕ) : ℕ:=i*0x200000|||(flagPresent|||flagWrite|||flagHuge)

/-- `vmm::init`, with the kernel's PML4. The result `none` is a null table dereferenced. -/
def init (m : Machine) : Option (ℕ×Machine):=
  let (pml4,m):=allocTable m
  if pml4=0 then none
  else
    let (pdpt,m):=allocTable m
    let m:=m.write pml4 0 (pdpt|||(flagPresent|||flagWrite))
    let (pd,m):=allocTable m
    if pdpt=0 then none
    else
      let m:=m.write pdpt 0 (pd|||(flagPresent|||flagWrite))
      if pd=0 then none
      else
        let m:=m.fill pd identityEntry
        let (hiPdpt,m):=allocTable m
        let m:=m.write pml4 511 (hiPdpt|||(flagPresent|||flagWrite))
        let (hiPd,m):=allocTable m
        if hiPdpt=0 then none
        else
          let m:=m.write hiPdpt 510 (hiPd|||(flagPresent|||flagWrite))
          if hiPd=0 then none else some (pml4,m.fill hiPd identityEntry)

/-- The PML4 of the new space, 0 if there is none, and whether every step succeeded. -/
def createUserSpace (kernel : ℕ) (m : Machine) : ℕ×Bool×Machine:=
  let (pml4,m):=allocTable m
  if pml4=0 then (0,false,m)
  else
    let m:=m.fill pml4 fun i=>if i<256 then 0 else m.mem pml4 i
    let (lowPdpt,m):=allocTable m
    if lowPdpt=0 then (pml4,false,m)
    else
      let (lowPd,m):=allocTable m
      if lowPd=0 then (pml4,false,freeFrame lowPdpt m)
      else
        let m:=m.write pml4 0 (lowPdpt|||(flagPresent|||flagWrite))
        let m:=m.write lowPdpt 0 (lowPd|||(flagPresent|||flagWrite))
        let m:=m.fill lowPd identityEntry
        (pml4,true,m.fill pml4 fun i=>if 256 ≤ i ∧ i<512 then m.mem kernel i else m.mem pml4 i)

/-- The innermost loop of `destroy_user_space`: the page tables of one directory. -/
def freePd (pd : ℕ) (m : Machine) : Machine:=
  (List.range 512).foldl (fun m k=>
    let pde:=m.mem pd k
    if pde&&&flagPresent=0 ∨ pde&&&flagHuge≠0 then m else freeFrame (entryBase pde) m) m

def freePdpt (pdpt : ℕ) (m : Machine) : Machine:=
  (List.range 512).foldl (fun m j=>
    let pe:=m.mem pdpt j
    if pe&&&flagPresent=0 ∨ pe&&&flagHuge≠0 then m
    else freeFrame (entryBase pe) (freePd (entryBase pe) m)) m

def destroyUserSpace (pml4 : ℕ) (m : Machine) : Machine:=
  if pml4=0 then m
  else freeFrame pml4 ((List.range 256).foldl (fun m i=>
    let e:=m.mem pml4 i
    if e&&&flagPresent=0 then m else freeFrame (entryBase e) (freePdpt (entryBase e) m)) m)

/-- The copies that `activate` makes before it loads CR3. -/
def activate (kernel pml4 : ℕ) (m : Machine) : Machine:=
  if pml4≠0 ∧ pml4≠kernel then
    let m:=if m.mem pml4 0&&&flagPresent=0 then m.write pml4 0 (m.mem kernel 0) else m
    m.fill pml4 fun i=>if 256 ≤ i ∧ i<512 then m.mem kernel i else m.mem pml4 i
  else m

end Knail.PageTables
