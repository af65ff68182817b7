import Dbos.Kernel.Process.Pages

/-! # Loading an executable

`elf.c`, with what `read_node_tarfs` does for a regular file. An array of the
source that is read behind its end has no value here, and neither has the call. -/

namespace Dbos.Loader

open Dbos.Loop Dbos.Paging

def space : Nat := 2 ^ 32

/-! ## Bytes of a frame -/

def wordOf (bytes : Nat → UInt8) : Nat :=
  (bytes 0).toNat + 0x100 * (bytes 1).toNat + 0x10000 * (bytes 2).toNat +
    0x1000000 * (bytes 3).toNat

/-- `memcpy_8` to a frame that is mapped by `temp_map_page`. -/
def copyBytes (words : Nat → Nat) (offset : Nat) (bytes : List UInt8) : Nat → Nat := fun index =>
  wordOf fun place =>
    if offset ≤ 4 * index + place ∧ 4 * index + place < offset + bytes.length then
      bytes.getD (4 * index + place - offset) 0
    else byteOf (words index) place

/-! ## Files -/

/-- A regular file of the ramdisk, which lies between `0xC0000000` and the kernel
heap at `0xD0000000`. -/
structure File where
  name : List UInt8
  data : List UInt8
  small : data.length < 2 ^ 28

/-- What `read_node_tarfs` copies to the buffer. -/
def readNodeTarfs (file : File) (startAt size : Nat) : List UInt8 :=
  if file.data.length ≤ startAt ∨ 2 ^ 31 ≤ startAt then []
  else
    let len :=
      if (startAt + size) % space > file.data.length - 1 then file.data.length - startAt
      else size
    (file.data.drop startAt).take len

/-- A buffer is read into; what is not read keeps its old contents. -/
def fillBuffer (buffer : Nat → UInt8) (bytes : List UInt8) : Nat → UInt8 := fun index =>
  bytes.getD index (buffer index)

def half (buffer : Nat → UInt8) (offset : Nat) : Nat :=
  (buffer offset).toNat + 0x100 * (buffer (offset + 1)).toNat

def word (buffer : Nat → UInt8) (offset : Nat) : Nat := wordOf fun place => buffer (offset + place)

/-! ## Headers -/

/-- The fields of `Elf32_Ehdr` that are used. -/
structure Ehdr where
  eIdent : List UInt8
  eType : Nat
  eMachine : Nat
  ePhoff : Nat
  ePhentsize : Nat
  ePhnum : Nat
deriving DecidableEq

def ehdr (buffer : Nat → UInt8) : Ehdr where
  eIdent := (List.range 16).map buffer
  eType := half buffer 16
  eMachine := half buffer 18
  ePhoff := word buffer 28
  ePhentsize := half buffer 42
  ePhnum := half buffer 44

/-- The fields of `Elf32_Phdr` that are used. -/
structure Phdr where
  pType : Nat
  pOffset : Nat
  pVaddr : Nat
  pFilesz : Nat
  pMemsz : Nat
deriving DecidableEq

def phdr (buffer : Nat → UInt8) : Phdr where
  pType := word buffer 0
  pOffset := word buffer 4
  pVaddr := word buffer 8
  pFilesz := word buffer 16
  pMemsz := word buffer 20

/-- `validate_elf`: the magic, 32 bits, little endian, the current version, x86, and
a relocatable file or an executable. -/
def validateElf (header : Ehdr) : Bool :=
  header.eIdent.take 7 = [0x7F, 0x45, 0x4C, 0x46, 1, 1, 1] ∧ header.eMachine = 3 ∧
    (header.eType = 1 ∨ header.eType = 2)

/-- What the two buffers for headers hold before they are read into, the second one
for each program header. -/
structure Leftover where
  header : Nat → UInt8
  program : Nat → Nat → UInt8

def readHeader (file : File) (leftover : Leftover) : Ehdr :=
  ehdr (fillBuffer leftover.header (readNodeTarfs file 0 52))

/-- The program headers in the order of the loop. With an entry size of 0 the loop
ends at once. -/
def programHeaders (file : File) (leftover : Leftover) : List Phdr :=
  let header := readHeader file leftover
  (List.range (if header.ePhentsize = 0 then 0 else header.ePhnum)).map fun index =>
    phdr (fillBuffer (leftover.program index)
      (readNodeTarfs file ((header.ePhoff + index * header.ePhentsize) % space) 32))

/-! ## Segments -/

namespace Phdr

/-- `p_vaddr != 0 && p_type == PT_LOAD`. -/
def Loadable (segment : Phdr) : Prop := segment.pVaddr ≠ 0 ∧ segment.pType = 1

instance (segment : Phdr) : Decidable segment.Loadable := inferInstanceAs (Decidable (_ ∧ _))

/-- `end - start`. -/
def length (segment : Phdr) : Nat :=
  ((segment.pVaddr + segment.pMemsz) % space + space - segment.pVaddr) % space

def sizeInPages (segment : Phdr) : Nat :=
  segment.length / 4096 + if segment.length % 4096 ≠ 0 then 1 else 0

/-- The page that `start + (i * 0x1000)` lies in. -/
def page (segment : Phdr) (index : Nat) : Nat :=
  (segment.pVaddr + index * 0x1000) % space / 4096

def fileEnd (segment : Phdr) : Nat := (segment.pOffset + segment.pFilesz) % space

end Phdr

/-- The loop that copies the file from `fileAddCur` on, one page to each of the frames. -/
def copyFile (file : File) (fileEnd : Nat) : List Nat → Nat → Machine → Option Machine
  | physicals, fileAddCur, machine =>
      if fileAddCur < fileEnd then
        match physicals with
        | [] => none
        | frame :: rest =>
            let size := if fileEnd - fileAddCur > 0x1000 then 4096 else fileEnd - fileAddCur
            let words := copyBytes (machine.memory frame) 0 (readNodeTarfs file fileAddCur size)
            copyFile file fileEnd rest ((fileAddCur + 0x1000) % space)
              { machine with memory := Function.update machine.memory frame words }
      else some machine

/-- The body of the loop over the program headers. -/
def loadSegment (file : File) (pdir : Nat) (machine : Machine) (segment : Phdr) :
    Option Machine :=
  if segment.Loadable then
    let mapped := loop segment.sizeInPages (mapNextPage pdir segment.page zeroFill) (machine, [])
    copyFile file segment.fileEnd mapped.2 segment.pOffset mapped.1
  else some machine

/-- `elf_load_executable`. A file that is no executable is not loaded. -/
def elfLoadExecutable (file : File) (leftover : Leftover) (pdir : Nat) (machine : Machine) :
    Option Machine :=
  if validateElf (readHeader file leftover) then
    (programHeaders file leftover).foldlM (loadSegment file pdir) machine
  else some machine

end Dbos.Loader
