import Mathlib.Data.Nat.Bitwise
import Mathlib.Tactic.Ring
import Dbos.Foundation.Loop
import Dbos.Foundation.Numerals
import Dbos.Foundation.TextBuffer

/-! # Reading bitmaps

`bmp_read` reads all pixels in one piece, three bytes for each, and turns the rows around.
The rows of a file are padded to words, so a row begins where it is looked for only if
there is no padding, or no row in front of it. -/

namespace Dbos.Libbmp

open Dbos.Loop Dbos.TextBuffer

/-! ## The functions -/

def unsigneds : Nat := 2 ^ 32

/-- What is used of `bmp_img_t`: the offset of the header, the size of the info header and
the bytes of the file. -/
structure Image where
  offset : Nat
  width : Int
  height : Int
  imageFile : Option (List UInt8)

def bmpSize (image : Image) : Nat :=
  ((image.width * image.height) % unsigneds).toNat * 3 % unsigneds

def bmpPixels (image : Image) : Nat := bmpSize image / 3

def combined (alpha red green blue : UInt8) : UInt32 :=
  (alpha.toUInt32 <<< 24) ||| (red.toUInt32 <<< 16) ||| (green.toUInt32 <<< 8) ||| blue.toUInt32

/-- What `fread` reads after `fseek`: the bytes that are there, and no more than `count`. -/
def freadAt (file : List UInt8) (position count : Nat) : List UInt8 :=
  (file.drop position).take count

/-- The loops of `bmp_read`. -/
def turnRows (image : Image) (pixs : Buffer) (alpha : UInt8) (buffer : Nat → UInt32) :
    Nat → UInt32 :=
  loop image.width.toNat (fun buffer i =>
    loop image.height.toNat (fun buffer j =>
      let invJ := image.height - 1 - j
      let regIndex := (i + j * image.width).toNat
      let inv := (i + invJ * image.width).toNat
      Function.update buffer regIndex
        (combined alpha (pixs (3 * inv + 2)) (pixs (3 * inv + 1)) (pixs (3 * inv)))) buffer) buffer

/-- `bmp_read`, with what it returns and the buffer after it. The block from `malloc` has
bytes of its own before the file is read. -/
def bmpRead (image : Image) (block : Buffer) (buffer : Nat → UInt32) (start pixels : Nat)
    (alpha : UInt8) : Int × (Nat → UInt32) :=
  match image.imageFile with
  | none => (-1, buffer)
  | some file =>
      let pixs := freadAt file ((image.offset + start) % unsigneds) (pixels * 3 % unsigneds)
      if pixs.length ≠ pixels * 3 % unsigneds then (-1, buffer)
      else ((pixs.length / 3 * 4 : Nat), turnRows image (splice block 0 pixs) alpha buffer)

/-! ## Loops over a grid -/

section Grid

variable {Value : Type} {width : Nat} {value : Nat → Nat → Value} {cells : Nat → Value}

theorem column_row {column row other otherRow : Nat} (inside : column < width)
    (otherInside : other < width) (same : column + row * width = other + otherRow * width) :
    column = other ∧ row = otherRow := by
  have positive : 0 < width := Nat.zero_lt_of_lt inside
  have columns := congrArg (· % width) same
  simp only [Nat.add_mul_mod_self_right, Nat.mod_eq_of_lt inside,
    Nat.mod_eq_of_lt otherInside] at columns
  subst columns
  exact ⟨rfl, Nat.eq_of_mul_eq_mul_right positive (Nat.add_left_cancel same)⟩

theorem fillColumn_at {count index column row : Nat} (inside : column < width)
    (indexInside : index < width) :
    loop count
        (fun cells row => Function.update cells (index + row * width) (value index row)) cells
        (column + row * width) =
      if column = index ∧ row < count then value column row else cells (column + row * width) := by
  induction count with
  | zero => simp
  | succ count induction =>
      rw [loop_succ]
      by_cases here : column + row * width = index + count * width
      · rcases column_row inside indexInside here with ⟨rfl, rfl⟩
        rw [Function.update_self, if_pos ⟨rfl, Nat.lt_succ_self _⟩]
      · rw [Function.update_of_ne here, induction]
        have apart : ¬(column = index ∧ row = count) := fun ⟨sameColumn, sameRow⟩ =>
          here (by rw [sameColumn, sameRow])
        congr 1
        apply propext
        omega

theorem fillGrid_at {count height column row : Nat} (inside : column < width) (below : row < height)
    (atMost : count ≤ width) :
    loop count (fun cells index => loop height (fun cells row =>
        Function.update cells (index + row * width) (value index row)) cells) cells
        (column + row * width) =
      if column < count then value column row else cells (column + row * width) := by
  induction count with
  | zero => simp
  | succ count induction =>
      rw [loop_succ, fillColumn_at inside (by omega), induction (by omega)]
      by_cases here : column = count
      · rw [if_pos ⟨here, below⟩, if_pos (by omega)]
      · rw [if_neg fun both => here both.1]
        congr 1
        apply propext
        omega

end Grid

/-! ## One pixel -/

/-- The number `alpha:red:green:blue`. -/
def argb (alpha red green blue : UInt8) : Nat :=
  0x1000000 * alpha.toNat + 0x10000 * red.toNat + 0x100 * green.toNat + blue.toNat

theorem toNat_combined (alpha red green blue : UInt8) :
    (combined alpha red green blue).toNat = argb alpha red green blue := by
  have alphaBound := alpha.toNat_lt
  have redBound := red.toNat_lt
  have greenBound := green.toNat_lt
  have blueBound := blue.toNat_lt
  have byte {number : Nat} (small : number < 2 ^ 8) {places : Nat} (atMost : places ≤ 24) :
      number <<< places % 2 ^ 32 = number <<< places := by
    rw [Nat.shiftLeft_eq]
    apply Nat.mod_eq_of_lt
    have power : 2 ^ places ≤ 2 ^ 24 := Nat.pow_le_pow_right (by decide) atMost
    calc
      number * 2 ^ places ≤ (2 ^ 8 - 1) * 2 ^ 24 := Nat.mul_le_mul (by omega) power
      _ < 2 ^ 32 := by decide
  unfold combined argb
  simp only [UInt32.toNat_or, UInt32.toNat_shiftLeft, UInt8.toNat_toUInt32]
  simp only [UInt32.reduceToNat, Nat.reduceMod]
  rw [byte alphaBound (by decide), byte redBound (by decide), byte greenBound (by decide)]
  simp only [Nat.shiftLeft_eq]
  rw [Numerals.shifted_or 24 alpha.toNat (by omega),
    show alpha.toNat * 2 ^ 24 + red.toNat * 2 ^ 16 =
      (alpha.toNat * 2 ^ 8 + red.toNat) * 2 ^ 16 by ring,
    Numerals.shifted_or 16 _ (by omega),
    show (alpha.toNat * 2 ^ 8 + red.toNat) * 2 ^ 16 + green.toNat * 2 ^ 8 =
      ((alpha.toNat * 2 ^ 8 + red.toNat) * 2 ^ 8 + green.toNat) * 2 ^ 8 by ring,
    Numerals.shifted_or 8 _ (by omega)]
  ring

theorem argb_mod (alpha red green blue : UInt8) :
    argb alpha red green blue % 0x100 = blue.toNat := by
  have blueBound := blue.toNat_lt
  unfold argb
  omega

/-! ## What is read -/

variable {offset width height : Nat} {file : List UInt8}

def byteAt (file : List UInt8) (place : Nat) : UInt8 := file.getD place 0

def rowBytes (width : Nat) : Nat := (3 * width + 3) / 4 * 4

/-- Each pixel of the buffer is that of the file, whose rows go from the bottom up. -/
def Decoded (offset width height : Nat) (file : List UInt8) (alpha : UInt8)
    (buffer : Nat → UInt32) : Prop :=
  ∀ x < width, ∀ y < height,
    let place := offset + rowBytes width * (height - 1 - y) + 3 * x
    (buffer (x + y * width)).toNat =
      argb alpha (byteAt file (place + 2)) (byteAt file (place + 1)) (byteAt file place)

def Decodes (offset width height : Nat) : Prop :=
  ∀ file : List UInt8, offset + rowBytes width * height ≤ file.length →
    ∀ block buffer alpha,
      let image : Image := ⟨offset, width, height, some file⟩
      Decoded offset width height file alpha
        (bmpRead image block buffer 0 (bmpPixels image) alpha).2

theorem bmpPixels_eq (small : 3 * (width * height) < unsigneds) :
    bmpPixels ⟨offset, width, height, some file⟩ = width * height := by
  unfold bmpPixels bmpSize
  have product : ((width : Int) * (height : Int)) % (unsigneds : Int) =
      ((width * height : Nat) : Int) := by
    rw [← Int.natCast_mul, ← Int.natCast_mod, Nat.mod_eq_of_lt (by omega)]
  simp only [product, Int.toNat_natCast]
  rw [Nat.mod_eq_of_lt (by omega), Nat.mul_div_cancel _ (by decide)]

theorem bmpRead_at (enough : offset + 3 * (width * height) ≤ file.length)
    (small : offset + 3 * (width * height) < unsigneds) (block : Buffer) (buffer : Nat → UInt32)
    (alpha : UInt8) {x y : Nat} (inside : x < width) (below : y < height) :
    let image : Image := ⟨offset, width, height, some file⟩
    let place := offset + 3 * (x + (height - 1 - y) * width)
    ((bmpRead image block buffer 0 (bmpPixels image) alpha).2 (x + y * width)).toNat =
      argb alpha (byteAt file (place + 2)) (byteAt file (place + 1)) (byteAt file place) := by
  intro image place
  have pixels : bmpPixels image = width * height := bmpPixels_eq (by omega)
  have isRead : freadAt file ((offset + 0) % unsigneds) (width * height * 3 % unsigneds) =
      (file.drop offset).take (3 * (width * height)) := by
    unfold freadAt
    rw [Nat.add_zero, Nat.mod_eq_of_lt (by omega), Nat.mod_eq_of_lt (by omega), Nat.mul_comm _ 3]
  have length : ((file.drop offset).take (3 * (width * height))).length = 3 * (width * height) := by
    rw [List.length_take, List.length_drop]
    omega
  have cell : x + (height - 1 - y) * width < width * height := by
    calc
      x + (height - 1 - y) * width < width + (height - 1 - y) * width := by omega
      _ = (height - 1 - y + 1) * width := by ring
      _ ≤ height * width := Nat.mul_le_mul_right _ (by omega)
      _ = width * height := Nat.mul_comm _ _
  have bytes : ∀ index < 3, splice block 0 ((file.drop offset).take (3 * (width * height)))
      (3 * (x + (height - 1 - y) * width) + index) = byteAt file (place + index) := by
    intro index less
    have inBlock := @splice_inside block 0 (3 * (x + (height - 1 - y) * width) + index)
      ((file.drop offset).take (3 * (width * height))) (by omega)
    rw [Nat.zero_add] at inBlock
    rw [inBlock, List.getElem_take, List.getElem_drop]
    unfold byteAt
    rw [List.getD_eq_getElem _ _ (by omega)]
    congr 1
    omega
  have turned : (bmpRead image block buffer 0 (bmpPixels image) alpha).2 =
      turnRows image (splice block 0 ((file.drop offset).take (3 * (width * height)))) alpha
        buffer := by
    unfold bmpRead
    simp only [pixels, image]
    rw [isRead, if_neg (by rw [length, Nat.mod_eq_of_lt (by omega)]; omega)]
  have row : (height : Int) - 1 - (y : Int) = ((height - 1 - y : Nat) : Int) := by omega
  rw [turned]
  unfold turnRows
  simp only [image, Int.toNat_natCast, ← Int.natCast_mul, ← Int.natCast_add]
  rw [fillGrid_at inside below (Nat.le_refl _), if_pos inside, row]
  simp only [← Int.natCast_mul, ← Int.natCast_add, Int.toNat_natCast]
  rw [toNat_combined, bytes 2 (by decide), bytes 1 (by decide)]
  have first := bytes 0 (by decide)
  rw [Nat.add_zero, Nat.add_zero] at first
  rw [first]

/-! ## Which sizes are read -/

theorem le_rowBytes (width : Nat) : 3 * width ≤ rowBytes width := by
  unfold rowBytes
  omega

theorem rowBytes_eq_iff (width : Nat) : rowBytes width = 3 * width ↔ width % 4 = 0 := by
  unfold rowBytes
  omega

theorem unpadded_le (width height : Nat) : 3 * (width * height) ≤ rowBytes width * height := by
  rw [← Nat.mul_assoc]
  exact Nat.mul_le_mul_right _ (le_rowBytes width)

theorem decodes_of_unpadded (small : offset + rowBytes width * height < unsigneds)
    (aligned : width % 4 = 0 ∨ height = 1) : Decodes offset width height := by
  intro file enough block buffer alpha image x inside y below place
  have atMost := unpadded_le width height
  have isPlace : place = offset + 3 * (x + (height - 1 - y) * width) := by
    unfold place
    rcases aligned with noPadding | oneRow
    · rw [(rowBytes_eq_iff width).mpr noPadding]
      ring
    · subst oneRow
      rw [show 1 - 1 - y = 0 by omega]
      ring
  rw [isPlace]
  exact bmpRead_at (by omega) (by omega) block buffer alpha inside below

/-- A file with zeros, and a 1 in the first pixel of the top row. -/
def oneMarked (offset width height : Nat) : List UInt8 :=
  (List.replicate (offset + rowBytes width * height) 0).set
    (offset + rowBytes width * (height - 1)) 1

theorem byteAt_oneMarked {place : Nat} (inside : offset + rowBytes width * (height - 1) <
    offset + rowBytes width * height) :
    byteAt (oneMarked offset width height) place =
      if place = offset + rowBytes width * (height - 1) then 1 else 0 := by
  unfold byteAt oneMarked
  rw [List.getD_eq_getElem?_getD, List.getElem?_set, List.length_replicate]
  by_cases here : offset + rowBytes width * (height - 1) = place
  · rw [if_pos here, if_pos inside, if_pos here.symm]
    rfl
  · rw [if_neg here, if_neg (Ne.symm here), List.getElem?_replicate]
    split
    · rfl
    · rfl

theorem not_decodes_of_padded (small : offset + rowBytes width * height < unsigneds)
    (padded : width % 4 ≠ 0) (rows : 2 ≤ height) : ¬Decodes offset width height := by
  intro decodes
  have atMost := unpadded_le width height
  have positive : 0 < width := by omega
  have longer : 3 * width < rowBytes width :=
    Nat.lt_of_le_of_ne (le_rowBytes width) fun same =>
      padded ((rowBytes_eq_iff width).mp same.symm)
  have inside : offset + rowBytes width * (height - 1) < offset + rowBytes width * height := by
    apply Nat.add_lt_add_left
    exact Nat.mul_lt_mul_of_pos_left (by omega) (by omega)
  have before : 3 * (0 + (height - 1 - 0) * width) < rowBytes width * (height - 1) := by
    rw [Nat.zero_add, Nat.sub_zero, Nat.mul_comm _ width, ← Nat.mul_assoc]
    exact Nat.mul_lt_mul_of_pos_right longer (by omega)
  have length : offset + rowBytes width * height ≤ (oneMarked offset width height).length := by
    unfold oneMarked
    rw [List.length_set, List.length_replicate]
  have right := decodes (oneMarked offset width height) length (fun _ => 0) (fun _ => 0) 0 0
    positive 0 (by omega)
  have isRead := @bmpRead_at offset width height (oneMarked offset width height) (by omega)
    (by omega) (fun _ => 0) (fun _ => 0) 0 0 0 positive (by omega)
  simp only at right isRead
  rw [right] at isRead
  have blues := congrArg (· % 0x100) isRead
  simp only [argb_mod, byteAt_oneMarked inside] at blues
  rw [if_pos (by rw [Nat.sub_zero]; omega), if_neg (by omega)] at blues
  cases blues

/-- Bitmaps of a size are decoded if and only if their rows need no padding or there is only
one row. -/
theorem decodes_iff (small : offset + rowBytes width * height < unsigneds) (positive : 0 < height) :
    Decodes offset width height ↔ width % 4 = 0 ∨ height = 1 := by
  constructor
  · intro decodes
    by_contra neither
    rw [not_or] at neither
    exact not_decodes_of_padded small neither.1 (by omega) decodes
  · exact decodes_of_unpadded small

theorem decodes_iff_twoRows : Decodes 54 1 2 ↔ 1 % 4 = 0 ∨ 2 = 1 :=
  decodes_iff (by decide) (by decide)

/-- One column of two pixels: the upper one begins three bytes behind the lower one for the
code, and four bytes behind it in the file. -/
theorem not_decodes_twoRows : ¬Decodes 54 1 2 := by
  intro decodes
  have upper := decodes (List.replicate 58 0 ++ [1, 0, 0, 0]) (by decide) (fun _ => 0) (fun _ => 0)
    0 0 (by decide) 0 (by decide)
  revert upper
  decide +kernel

end Dbos.Libbmp
