import Dbos.Foundation.Pieces

/-! # Paths

`parse_path` cuts a path into segments in place: it copies the path into a
buffer with every slash replaced by a `NUL`. The callers then walk over the
buffer with `strlen`. Here that walk is related to the list of segments. -/

namespace Dbos.Vfs

open Dbos.Pieces

/-- The characters of a file name or a path. -/
abbrev Name := List Char

def nul : Char := '\x00'

/-- A C string: its characters do not include the terminating `NUL`. -/
structure CString where
  chars : List Char
  noNul : nul ∉ chars

/-- `parse_path`: the number of slashes, and the buffer. The buffer has one more
byte than the path, which is zero because `kern_malloc` clears what it returns. -/
def parsePath (path : List Char) : Nat × List Char :=
  (path.count '/', path.map (fun char => if char = '/' then nul else char) ++ [nul])

def readSegment (iterator : List Char) : Name :=
  iterator.takeWhile fun char => char ≠ nul

/-- `path_iterator += strlen(path_iterator) + 1`. -/
def nextSegment (iterator : List Char) : List Char :=
  iterator.drop ((readSegment iterator).length + 1)

/-! ## Segments -/

/-- Segments one after the other, each with a slash in front of it. -/
abbrev slashed (segments : List Name) : List Char := joined '/' segments

theorem readSegment_marked {segment : Name} (noNul : nul ∉ segment) (segments : List Name) :
    readSegment (marked nul (segment :: segments)) = segment := by
  have all : ∀ char ∈ segment, decide (char ≠ nul) = true := by
    intro char member
    refine decide_eq_true fun isNul => ?_
    exact noNul (isNul ▸ member)
  simp only [readSegment, marked, List.flatMap_cons, List.append_assoc]
  rw [List.takeWhile_append_of_pos all]
  simp

theorem nextSegment_marked {segment : Name} (noNul : nul ∉ segment) (segments : List Name) :
    nextSegment (marked nul (segment :: segments)) = marked nul segments := by
  unfold nextSegment
  rw [readSegment_marked noNul]
  simp [marked, List.drop_append]

end Dbos.Vfs
