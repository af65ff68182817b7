import Mathlib.Algebra.Group.Nat.Defs
import Mathlib.Logic.Function.Basic

/-! # Byte memory

A memory of bytes with little-endian words. Addresses wrap around at the end of
the address space. -/

namespace Dbos.ByteMemory

/-- The number of addresses, which is the number of words as well. -/
def space : Nat := 2 ^ 32

abbrev Memory := Nat → UInt8

def load (memory : Memory) (address : Nat) : UInt8 := memory (address % space)

def store (memory : Memory) (address : Nat) (value : UInt8) : Memory :=
  Function.update memory (address % space) value

def loadWord (memory : Memory) (address : Nat) : Nat :=
  (load memory address).toNat + 0x100 * (load memory (address + 1)).toNat +
    0x10000 * (load memory (address + 2)).toNat + 0x1000000 * (load memory (address + 3)).toNat

def storeWord (memory : Memory) (address word : Nat) : Memory :=
  store (store (store (store memory address (.ofNat word))
    (address + 1) (.ofNat (word / 0x100)))
    (address + 2) (.ofNat (word / 0x10000)))
    (address + 3) (.ofNat (word / 0x1000000))

/-- Set `length` bytes from the address on. -/
def fill (memory : Memory) (address : Nat) (value : UInt8) (length : Nat) : Memory := fun other =>
  if (other + space - address % space) % space < length then value else memory other

/-- The memories have the same bytes from `first` up to `last`. -/
def SameOn (first last : Nat) (memory other : Memory) : Prop :=
  ∀ address, first ≤ address → address < last → load memory address = load other address

theorem SameOn.trans {first last : Nat} {memory middle other : Memory}
    (before : SameOn first last memory middle) (after : SameOn first last middle other) :
    SameOn first last memory other := fun address low high =>
  (before address low high).trans (after address low high)

theorem SameOn.mono {first last low high : Nat} {memory other : Memory}
    (same : SameOn first last memory other) (above : first ≤ low) (below : high ≤ last) :
    SameOn low high memory other := fun address atLeast less =>
  same address (Nat.le_trans above atLeast) (Nat.lt_of_lt_of_le less below)

theorem SameOn.loadWord {first last address : Nat} {memory other : Memory}
    (same : SameOn first last memory other) (above : first ≤ address)
    (below : address + 4 ≤ last) : loadWord memory address = loadWord other address := by
  unfold ByteMemory.loadWord
  rw [same address above (by omega), same (address + 1) (by omega) (by omega),
    same (address + 2) (by omega) (by omega), same (address + 3) (by omega) (by omega)]

theorem load_store_self (memory : Memory) (address : Nat) (value : UInt8) :
    load (store memory address value) address = value :=
  Function.update_self _ _ _

theorem load_store_of_ne {memory : Memory} {address other : Nat} {value : UInt8}
    (bound : address < space) (otherBound : other < space) (different : other ≠ address) :
    load (store memory address value) other = load memory other := by
  unfold load store
  rw [Nat.mod_eq_of_lt bound, Nat.mod_eq_of_lt otherBound, Function.update_of_ne different]

theorem load_storeWord_of_outside {memory : Memory} {address other word : Nat}
    (bound : address + 4 ≤ space) (otherBound : other < space)
    (outside : other < address ∨ address + 4 ≤ other) :
    load (storeWord memory address word) other = load memory other := by
  unfold storeWord
  rw [load_store_of_ne (by omega) otherBound (by omega),
    load_store_of_ne (by omega) otherBound (by omega),
    load_store_of_ne (by omega) otherBound (by omega),
    load_store_of_ne (by omega) otherBound (by omega)]

theorem sameOn_storeWord {memory : Memory} {address word first last : Nat}
    (bound : address + 4 ≤ space) (lastBound : last ≤ space)
    (outside : last ≤ address ∨ address + 4 ≤ first) :
    SameOn first last (storeWord memory address word) memory := fun other above below =>
  load_storeWord_of_outside bound (by omega) (by omega)

theorem sameOn_store {memory : Memory} {address first last : Nat} {value : UInt8}
    (bound : address < space) (lastBound : last ≤ space)
    (outside : last ≤ address ∨ address < first) :
    SameOn first last (store memory address value) memory := fun other above below =>
  load_store_of_ne bound (by omega) (by omega)

theorem loadWord_storeWord {memory : Memory} {address word : Nat}
    (bound : address + 4 ≤ space) (small : word < space) :
    loadWord (storeWord memory address word) address = word := by
  have byte0 : load (storeWord memory address word) address = .ofNat word := by
    unfold storeWord
    rw [load_store_of_ne (by omega) (by omega) (by omega),
      load_store_of_ne (by omega) (by omega) (by omega),
      load_store_of_ne (by omega) (by omega) (by omega), load_store_self]
  have byte1 : load (storeWord memory address word) (address + 1) = .ofNat (word / 0x100) := by
    unfold storeWord
    rw [load_store_of_ne (by omega) (by omega) (by omega),
      load_store_of_ne (by omega) (by omega) (by omega), load_store_self]
  have byte2 : load (storeWord memory address word) (address + 2) = .ofNat (word / 0x10000) := by
    unfold storeWord
    rw [load_store_of_ne (by omega) (by omega) (by omega), load_store_self]
  have byte3 : load (storeWord memory address word) (address + 3) = .ofNat (word / 0x1000000) :=
    load_store_self _ _ _
  unfold loadWord
  rw [byte0, byte1, byte2, byte3]
  simp only [UInt8.toNat_ofNat']
  unfold space at small
  omega

theorem loadWord_lt (memory : Memory) (address : Nat) : loadWord memory address < space := by
  have byte0 := (load memory address).toNat_lt
  have byte1 := (load memory (address + 1)).toNat_lt
  have byte2 := (load memory (address + 2)).toNat_lt
  have byte3 := (load memory (address + 3)).toNat_lt
  unfold loadWord space
  omega

theorem load_fill_inside {memory : Memory} {address length other : Nat} {value : UInt8}
    (bound : address + length ≤ space) (above : address ≤ other)
    (below : other < address + length) : load (fill memory address value length) other = value := by
  unfold load fill space at *
  rw [if_pos (by omega)]

theorem sameOn_fill {memory : Memory} {address length first last : Nat} {value : UInt8}
    (bound : address + length ≤ space) (lastBound : last ≤ space)
    (outside : last ≤ address ∨ address + length ≤ first) :
    SameOn first last (fill memory address value length) memory := by
  intro other above below
  unfold load fill space at *
  rw [if_neg (by omega)]

/-! ## Bytes one after the other -/

def storeBytes (memory : Memory) (address : Nat) : List UInt8 → Memory
  | [] => memory
  | byte :: bytes => storeBytes (store memory address byte) (address + 1) bytes

theorem sameOn_storeBytes {memory : Memory} {address first last : Nat} {bytes : List UInt8}
    (bound : address + bytes.length ≤ space) (lastBound : last ≤ space)
    (outside : last ≤ address ∨ address + bytes.length ≤ first) :
    SameOn first last (storeBytes memory address bytes) memory := by
  induction bytes generalizing memory address with
  | nil =>
      intro other _ _
      rfl
  | cons byte bytes induction =>
      rw [List.length_cons] at bound outside
      apply (induction (by omega) (by omega)).trans
      exact sameOn_store (by omega) lastBound (by omega)

theorem load_storeBytes {memory : Memory} {address index : Nat} {bytes : List UInt8}
    (bound : address + bytes.length ≤ space) (inside : index < bytes.length) :
    load (storeBytes memory address bytes) (address + index) = bytes[index] := by
  induction bytes generalizing memory address index with
  | nil => cases inside
  | cons byte bytes induction =>
      rw [List.length_cons] at bound
      cases index with
      | zero =>
          have kept : SameOn address (address + 1)
              (storeBytes (store memory address byte) (address + 1) bytes)
              (store memory address byte) :=
            sameOn_storeBytes (by omega) (by omega) (.inl (Nat.le_refl _))
          have first := kept address (Nat.le_refl _) (Nat.lt_succ_self _)
          rw [load_store_self] at first
          exact first
      | succ index =>
          have later := @induction (store memory address byte) (address + 1) index (by omega)
            (by simpa using inside)
          rw [storeBytes, List.getElem_cons_succ, ← later]
          congr 1
          omega

end Dbos.ByteMemory
