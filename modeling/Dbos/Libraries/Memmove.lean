import Dbos.Foundation.ByteMemory
import Dbos.Foundation.Loop

/-! # Moving memory

`memmove` copies from the first byte if the destination is below the source, and otherwise
from the end, by words where everything is aligned. In each direction the bytes that are
still to be read have not been written yet. -/

namespace Dbos.Memmove

open Dbos.ByteMemory Dbos.Loop

/-! ## The functions -/

/-- `memcpy`, with the pointer that it returns. -/
def memcpy (memory : Memory) (destination source num : Nat) : Nat × Memory :=
  (destination, loop num (fun memory i =>
    store memory (destination + i) (load memory (source + i))) memory)

/-- The loop over the words, from the last one down. -/
def moveWords (dst src : Nat) : (words : Nat) → Memory → Memory
  | 0, memory => memory
  | i + 1, memory =>
      moveWords dst src i (storeWord memory (dst + 4 * i) (loadWord memory (src + 4 * i)))

/-- The loop over the bytes, from the last one down. -/
def moveBytes (dst src : Nat) : (len : Nat) → Memory → Memory
  | 0, memory => memory
  | i + 1, memory => moveBytes dst src i (store memory (dst + i) (load memory (src + i)))

/-- `memmove`. A `long` has four bytes. -/
def memmove (memory : Memory) (dst src len : Nat) : Nat × Memory :=
  if dst < src then memcpy memory dst src len
  else if dst % 4 = 0 ∧ src % 4 = 0 ∧ len % 4 = 0 then
    (dst, moveWords dst src (len / 4) memory)
  else (dst, moveBytes dst src len memory)

/-! ## What is moved so far -/

/-- The bytes from `low` up to `high` have been moved, and nothing else is written. -/
structure Moved (before after : Memory) (dst src low high : Nat) : Prop where
  copied : ∀ index, low ≤ index → index < high →
    load after (dst + index) = load before (src + index)
  kept : ∀ address < space, address < dst + low ∨ dst + high ≤ address →
    load after address = load before address

variable {before memory : Memory} {dst src len : Nat}

theorem Moved.none (before : Memory) (dst src index : Nat) :
    Moved before before dst src index index := by
  constructor
  · intro other above below
    omega
  · intro address _ _
    rfl

/-- Upwards, the next byte of the source is still there. -/
theorem Moved.forward {high : Nat} (moved : Moved before memory dst src 0 high)
    (isBelow : dst < src) (inside : high < len) (srcBound : src + len ≤ space) :
    Moved before (store memory (dst + high) (load memory (src + high))) dst src 0 (high + 1) := by
  have source : load memory (src + high) = load before (src + high) :=
    moved.kept _ (by omega) (.inr (by omega))
  constructor
  · intro index _ below
    by_cases isLast : index = high
    · rw [isLast, load_store_self, source]
    · rw [load_store_of_ne (by omega) (by omega) (by omega)]
      exact moved.copied index (Nat.zero_le _) (by omega)
  · intro address bound outside
    rw [load_store_of_ne (by omega) bound (by omega)]
    exact moved.kept address bound (by omega)

theorem Moved.backward {low : Nat} (moved : Moved before memory dst src (low + 1) len)
    (notBelow : src ≤ dst) (inside : low < len) (dstBound : dst + len ≤ space) :
    Moved before (store memory (dst + low) (load memory (src + low))) dst src low len := by
  have source : load memory (src + low) = load before (src + low) :=
    moved.kept _ (by omega) (.inl (by omega))
  constructor
  · intro index above below
    by_cases isFirst : index = low
    · rw [isFirst, load_store_self, source]
    · rw [load_store_of_ne (by omega) (by omega) (by omega)]
      exact moved.copied index (by omega) below
  · intro address bound outside
    rw [load_store_of_ne (by omega) bound (by omega)]
    exact moved.kept address bound (by omega)

theorem load_storeWord_loadWord {address source : Nat} (bound : address + 4 ≤ space) {index : Nat}
    (inside : index < 4) :
    load (storeWord memory address (loadWord memory source)) (address + index) =
      load memory (source + index) := by
  have byte0 := (load memory source).toNat_lt
  have byte1 := (load memory (source + 1)).toNat_lt
  have byte2 := (load memory (source + 2)).toNat_lt
  have byte3 := (load memory (source + 3)).toNat_lt
  unfold storeWord
  apply UInt8.toNat_inj.mp
  obtain rfl | rfl | rfl | rfl : index = 0 ∨ index = 1 ∨ index = 2 ∨ index = 3 := by omega
  · rw [load_store_of_ne (by omega) (by omega) (by omega),
      load_store_of_ne (by omega) (by omega) (by omega),
      load_store_of_ne (by omega) (by omega) (by omega), Nat.add_zero, load_store_self,
      UInt8.toNat_ofNat', Nat.add_zero]
    unfold loadWord
    omega
  · rw [load_store_of_ne (by omega) (by omega) (by omega),
      load_store_of_ne (by omega) (by omega) (by omega), load_store_self, UInt8.toNat_ofNat']
    unfold loadWord
    omega
  · rw [load_store_of_ne (by omega) (by omega) (by omega), load_store_self, UInt8.toNat_ofNat']
    unfold loadWord
    omega
  · rw [load_store_self, UInt8.toNat_ofNat']
    unfold loadWord
    omega

theorem Moved.backwardWord {low : Nat} (moved : Moved before memory dst src (low + 4) len)
    (notBelow : src ≤ dst) (inside : low + 4 ≤ len) (dstBound : dst + len ≤ space) :
    Moved before (storeWord memory (dst + low) (loadWord memory (src + low))) dst src low len := by
  constructor
  · intro index above below
    by_cases isWord : index < low + 4
    · obtain ⟨offset, rfl⟩ := Nat.exists_eq_add_of_le above
      rw [← Nat.add_assoc, ← Nat.add_assoc,
        load_storeWord_loadWord (by omega) (by omega)]
      exact moved.kept _ (by omega) (.inl (by omega))
    · rw [load_storeWord_of_outside (by omega) (by omega) (.inr (by omega))]
      exact moved.copied index (by omega) below
  · intro address bound outside
    rw [load_storeWord_of_outside (by omega) bound (by omega)]
    exact moved.kept address bound (by omega)

/-! ## The three paths -/

theorem moved_memcpy (isBelow : dst < src) (srcBound : src + len ≤ space) :
    Moved before (memcpy before dst src len).2 dst src 0 len := by
  apply loop_invariant (motive := fun index memory => Moved before memory dst src 0 index)
  · exact Moved.none before dst src 0
  · intro index inside memory moved
    exact moved.forward isBelow inside srcBound

theorem Moved.moveBytes {low : Nat} (moved : Moved before memory dst src low len)
    (notBelow : src ≤ dst) (inside : low ≤ len) (dstBound : dst + len ≤ space) :
    Moved before (moveBytes dst src low memory) dst src 0 len := by
  induction low generalizing memory with
  | zero => exact moved
  | succ low induction =>
      exact induction (moved.backward notBelow inside dstBound) (by omega)

theorem Moved.moveWords {words : Nat} (moved : Moved before memory dst src (4 * words) len)
    (notBelow : src ≤ dst) (inside : 4 * words ≤ len) (dstBound : dst + len ≤ space) :
    Moved before (moveWords dst src words memory) dst src 0 len := by
  induction words generalizing memory with
  | zero => exact moved
  | succ words induction =>
      exact induction (moved.backwardWord notBelow (by omega) dstBound) (by omega)

theorem moved_memmove (dstBound : dst + len ≤ space) (srcBound : src + len ≤ space) :
    Moved before (memmove before dst src len).2 dst src 0 len := by
  unfold memmove
  split
  next isBelow => exact moved_memcpy isBelow srcBound
  next notBelow =>
    split
    next aligned =>
      have start : Moved before before dst src (4 * (len / 4)) len := by
        rw [show 4 * (len / 4) = len by omega]
        exact Moved.none before dst src len
      exact start.moveWords (by omega) (by omega) dstBound
    next =>
      exact (Moved.none before dst src len).moveBytes (by omega) (Nat.le_refl _) dstBound

/-- The bytes are moved whatever the overlap is, and no other byte changes. -/
theorem memmove_correct (before : Memory) (dst src len : Nat) (dstBound : dst + len ≤ space)
    (srcBound : src + len ≤ space) :
    (memmove before dst src len).1 = dst ∧
      (∀ index < len, load (memmove before dst src len).2 (dst + index) =
        load before (src + index)) ∧
      ∀ address < space, ¬(dst ≤ address ∧ address < dst + len) →
        load (memmove before dst src len).2 address = load before address := by
  have moved := @moved_memmove before _ _ _ dstBound srcBound
  refine ⟨?_, fun index inside => moved.copied index (Nat.zero_le _) inside,
    fun address bound outside => moved.kept address bound (by omega)⟩
  unfold memmove memcpy
  split
  · rfl
  · split
    · rfl
    · rfl

/-- Three bytes that are moved up by one. -/
theorem memmove_correct_overlapping :
    load (memmove (storeBytes (fun _ => 0) 16 [1, 2, 3]) 17 16 3).2 19 = 3 := by
  have moved := (memmove_correct (storeBytes (fun _ => 0) 16 [1, 2, 3]) 17 16 3 (by decide)
    (by decide)).2.1 2 (by decide)
  have stored : load (storeBytes (fun _ => 0) 16 [1, 2, 3]) (16 + 2) = 3 :=
    load_storeBytes (by decide) (by decide)
  exact moved.trans stored

end Dbos.Memmove
