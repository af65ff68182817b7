import Mathlib.Algebra.Group.Nat.Defs
import Mathlib.Logic.Function.Basic
import Dbos.Kernel.Util.Strings

/-! # The tar file system

`find_in_directory_tarfs` and what it calls. The archive is memory: a node says
where its bytes start. Loops are given fuel; a `none` is a search that has not
come to an end or that has overrun its buffer. -/

namespace Dbos.Tarfs

open Dbos.Strings

abbrev Memory := Nat → UInt8

/-- The values of `type_flags`. -/
inductive TypeFlags where
  | none
  | file
  | symlink
  | character
  | block
  | directory
  | fifo
deriving DecidableEq, Repr

/-- The part of `vfs_gen_node_t` that the driver uses. -/
structure Node where
  name : Str
  size : Nat
  typeFlags : TypeFlags
  basePointer : Nat
deriving DecidableEq, Repr

def hdrSize : Nat := 512

/-- The number of values of a `uint32_t`. -/
def wordSize : Nat := 2 ^ 32

/-- A `tarfs_hdr_t` in memory. -/
abbrev Header := Nat → UInt8

@[irreducible] def Header.string (header : Header) (offset : Nat) : Str :=
  ((List.range (hdrSize - offset)).map fun index => header (offset + index)).takeWhile
    fun byte => byte ≠ 0

/-- `header->name`. -/
def Header.name (header : Header) : Str := header.string 0

/-- `get_file_size_tarfs` on `header->size`. A `char` is signed. -/
def getFileSizeTarfs (header : Header) : Nat :=
  ((List.range 12).map fun index => header (124 + index)).foldl
    (fun size byte =>
      if byte = 0 ∨ byte = 0x20 then size
      else (((size * 8 : Nat) + byte.toInt8.toInt - 0x30) % (wordSize : Int)).toNat) 0

def Header.typeflag (header : Header) : UInt8 := header 156

/-- `"ustar  "`, which `header->magic` is compared with. -/
def magic : Str := [0x75, 0x73, 0x74, 0x61, 0x72, 0x20, 0x20]

def Header.isUstar (header : Header) : Bool := header.string 257 = magic

def getTypeFlags (flag : UInt8) : TypeFlags :=
  if flag = 0x30 ∨ flag = 0 then .file
  else if flag = 0x31 ∨ flag = 0x32 then .symlink
  else if flag = 0x33 then .character
  else if flag = 0x34 then .block
  else if flag = 0x35 then .directory
  else if flag = 0x36 then .fifo
  else .none

/-- `read_node_tarfs` of `TARFS_HDR_SIZE` bytes into the header buffer. -/
def readNodeTarfs (memory : Memory) (node : Node) (startAt : Nat) (header : Header) :
    Option Header :=
  if node.basePointer = 0 then some header
  else if node.typeFlags ≠ .directory ∧ (node.size ≤ startAt ∨ 2 ^ 31 ≤ startAt) then
    some header
  else
    let len :=
      if (startAt + hdrSize) % wordSize > (node.size + wordSize - 1) % wordSize then
        (node.size + wordSize - startAt) % wordSize
      else hdrSize
    if len ≤ hdrSize then
      some fun index =>
        if index < len then memory ((node.basePointer + startAt + index) % wordSize)
        else header index
    else none

/-- What `check_parse_filename` returns, with the name it leaves in the header:
-1 for a header that is not in the directory `parent`, 0 for one that is, 1 for
the root. A header whose name has no slash makes it follow a `NULL`. -/
def checkParseFilename (name parent : Str) : Option (Int × Str) :=
  match name with
  | [] => some (-1, name)
  | dot :: path =>
      if path = [slash] then some (1, parent)
      else
        let path := if path.getLast? = some slash then path.dropLast else path
        match strstr path parent with
        | none => some (-1, dot :: path)
        | some found =>
            (strrchr path slash).map fun childName =>
              let occ := found.drop parent.length
              -- For the root the slash that was found is where the child begins.
              let occ := if parent = [slash] then found else occ
              if strncmp occ childName childName.length = 0 then (0, childName.drop 1)
              else (-1, dot :: path)

/-- The name field after `check_parse_filename`. -/
def Header.setName (header : Header) (name : Str) : Header := fun index =>
  if index < 100 then name.getD index 0 else header index

/-- `build_node_tarfs` for the header at `address` of the directory `node`. -/
def buildNodeTarfs (node : Node) (header : Header) (address : Nat) : Node where
  name := header.name
  size := getFileSizeTarfs header
  typeFlags := getTypeFlags header.typeflag
  basePointer :=
    if getFileSizeTarfs header > 0 then (node.basePointer + address + hdrSize) % wordSize
    else node.basePointer

def align (address : Nat) : Nat :=
  if address % hdrSize ≠ 0 then (address + (hdrSize - address % hdrSize)) % wordSize
  else address

/-- The loop of `find_in_directory_tarfs_internal` over the headers. -/
def searchLoop (memory : Memory) (node : Node) (chunk : Str) :
    Nat → Nat → Header → Option (Option Node)
  | 0, _, _ => none
  | fuel + 1, address, header =>
      let address := align address
      match readNodeTarfs memory node address header with
      | none => none
      | some header =>
          if header.isUstar then
            match checkParseFilename header.name node.name with
            | none => none
            | some (isChild, name) =>
                let size := getFileSizeTarfs header
                let header := header.setName name
                if isChild = 0 ∧ name = chunk then
                  some (some (buildNodeTarfs node header address))
                else
                  searchLoop memory node chunk fuel ((address + hdrSize + size) % wordSize)
                    header
          else some none

/-- `find_in_directory_tarfs_internal`. The recursion has fuel of its own. -/
def findInDirectoryTarfsInternal (memory : Memory) (fuel : Nat) :
    Nat → Node → Str → Str → Option (Option Node)
  | 0, _, _, _ => none
  | depth + 1, node, path, filename =>
      let chunk := (path.drop 1).takeWhile fun byte => byte ≠ slash
      match searchLoop memory node chunk fuel 0 (fun _ => 0) with
      | none => none
      | some none => some none
      | some (some found) =>
          if found.name = filename then some (some found)
          else
            findInDirectoryTarfsInternal memory fuel depth found (path.drop (1 + chunk.length))
              filename

def findInDirectoryTarfs (memory : Memory) (fuel : Nat) (node : Node) (path : Str) :
    Option (Option Node) :=
  if path.head? ≠ some slash then some none
  else if path.length = 1 then some (some node)
  else
    match strrchr path slash with
    | none => some none
    | some filename =>
        findInDirectoryTarfsInternal memory fuel path.length node path (filename.drop 1)

end Dbos.Tarfs
