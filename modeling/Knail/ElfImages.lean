import Knail.ByteWords
import Knail.KernelTypes

/-!
# Executable images

`elf::load` reads a file into a heap buffer and checks it. Offsets from the file are added in 64 bits, so nothing here
keeps a read inside the buffer, and the segments in memory are not checked at all.
-/
namespace Knail.Elf

def wordSize : ℕ:=18446744073709551616

/-- A segment to load. The loader has compared the two sizes. -/
structure Segment where
  vaddr : ℕ
  filesz : ℕ
  memsz : ℕ
  flags : ℕ
  /-- The address of the bytes from the file. -/
  data : ℕ
  filesz_le : filesz ≤ memsz
  vaddr_lt : vaddr<wordSize
  memsz_lt : memsz<wordSize

structure Image where
  entry : ℕ
  segments : List Segment
  fileData : ℕ
  fileSize : ℕ

structure Phdr where
  type : ℕ
  flags : ℕ
  offset : ℕ
  vaddr : ℕ
  filesz : ℕ
  memsz : ℕ
  vaddr_lt : vaddr<wordSize
  memsz_lt : memsz<wordSize

def ptLoad : ℕ:=1
def etExec : ℕ:=2
def etDyn : ℕ:=3
def emX8664 : ℕ:=0x3E
def phdrSize : ℕ:=56
def maxSegments : ℕ:=16

/-- An error code and the line that is written to the serial port. -/
structure LoadError where
  code : KError
  message : String
  deriving DecidableEq, Repr

def fail (message : String) : LoadError:=⟨.filesystemCorrupt,message⟩

variable (mem : ℕ→UInt8)

theorem getLE_eight_lt (a : ℕ) : getLE mem 8 a<wordSize:=getLE_lt mem 8 a

def phdrAt (a : ℕ) : Phdr where
  type:=getLE mem 4 a
  flags:=getLE mem 4 (a+4)
  offset:=getLE mem 8 (a+8)
  vaddr:=getLE mem 8 (a+16)
  filesz:=getLE mem 8 (a+32)
  memsz:=getLE mem 8 (a+40)
  vaddr_lt:=getLE_eight_lt mem _
  memsz_lt:=getLE_eight_lt mem _

/-- The checks of the file header, in their order. -/
def checkHeader (buf size : ℕ) : Except LoadError Unit:=
  if mem buf≠0x7F ∨ mem (buf+1)≠0x45 ∨ mem (buf+2)≠0x4C ∨ mem (buf+3)≠0x46 then .error (fail "[ELF] bad magic")
  else if mem (buf+4)≠2 then .error (fail "[ELF] not 64-bit")
  else if mem (buf+5)≠1 then .error (fail "[ELF] not little-endian")
  else if getLE mem 2 (buf+16)≠etExec ∧ getLE mem 2 (buf+16)≠etDyn then .error (fail "[ELF] not executable")
  else if getLE mem 2 (buf+18)≠emX8664 then .error (fail "[ELF] not x86-64")
  else if getLE mem 2 (buf+54)≠phdrSize then .error (fail "[ELF] bad phentsize")
  else if getLE mem 2 (buf+56)=0 ∨ 64<getLE mem 2 (buf+56) then .error (fail "[ELF] bad phnum")
  else if size<u64 (getLE mem 8 (buf+32)+getLE mem 2 (buf+56)*phdrSize) then
    .error (fail "[ELF] phdrs outside file")
  else .ok ()

/-- One turn of the loop over the program headers. -/
def addSegment (buf size : ℕ) (segments : List Segment) (ph : Phdr) : Except LoadError (List Segment):=
  if ph.type≠ptLoad then .ok segments
  else if size<u64 (ph.offset+ph.filesz) then .error (fail "[ELF] segment outside file")
  else if h : ph.memsz<ph.filesz then .error (fail "[ELF] memsz < filesz")
  else if maxSegments ≤ segments.length then .error (fail "[ELF] too many segments")
  else .ok (segments++[{
    vaddr:=ph.vaddr
    filesz:=ph.filesz
    memsz:=ph.memsz
    flags:=ph.flags
    data:=u64 (buf+ph.offset)
    filesz_le:=Nat.le_of_not_lt h
    vaddr_lt:=ph.vaddr_lt
    memsz_lt:=ph.memsz_lt }])

/-- What `load` makes of a file that has been read into a buffer. -/
def validate (buf size : ℕ) : Except LoadError Image:=do
  checkHeader mem buf size
  let phdrs:=u64 (buf+getLE mem 8 (buf+32))
  let segments ← (List.range (getLE mem 2 (buf+56))).foldlM
    (fun segments i=>addSegment buf size segments (phdrAt mem (phdrs+i*phdrSize))) []
  if segments=[] then .error (fail "[ELF] no loadable segments")
  else .ok ⟨getLE mem 8 (buf+24),segments,buf,size⟩

/-- The loop that reads the file, with the results of `vfs::read`. -/
def readFile (size : ℕ) : List (Except KError ℕ)→ℕ→Except LoadError ℕ
  | [], total=>.ok total
  | r::rs, total=>
    if size≤total then .ok total
    else
      match r with
      | .error e=>.error ⟨e, "[ELF] read error"⟩
      | .ok 0=>.ok total
      | .ok n=>readFile size rs (total+n)

/-- `elf::load`, given the size of the file if it can be opened, the buffer from `kmalloc`, the
results of `vfs::read`, and the memory after the file has been read. -/
def load (file buffer : Option ℕ) (reads : List (Except KError ℕ)) : Except LoadError Image:=do
  match file with
  | none=>.error ⟨.notFound, "[ELF] cannot open: "⟩
  | some size=>
    if size<64 then .error (fail "[ELF] file too small")
    else
      match buffer with
      | none=>.error ⟨.outOfMemory, "[ELF] out of memory"⟩
      | some buf=>
        let total ← readFile size reads 0
        if total≠size then .error ⟨.ioError, "[ELF] short read: got "⟩ else validate mem buf size

end Knail.Elf
