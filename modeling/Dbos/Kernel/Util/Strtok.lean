import Dbos.Foundation.Tokens
import Dbos.Kernel.Util.Strings
import Dbos.Libraries.Bootstrap

/-! # Tokens in memory

`strtok` keeps its place in a static cursor and ends each token by a 0 that it writes over
the delimiter. A `NULL` string that is scanned makes the result `none`. -/

namespace Dbos.Strtok

open Dbos.ByteMemory Dbos.Bootstrap Dbos.Strings Dbos.Tokens

/-! ## The functions -/

/-- `strchr` on a string that is no pointer into the memory. -/
def strchr : Str → UInt8 → Option Str
  | [], character => if character = 0 then some [] else none
  | byte :: string, character =>
      if byte = character then some (byte :: string) else strchr string character

def strcspn (memory : Memory) (string2 : Str) : (fuel string1 : Nat) → Option Nat
  | 0, _ => none
  | fuel + 1, string1 =>
      if load memory string1 = 0 then some 0
      else if (strchr string2 (load memory string1)).isSome then some 0
      else (strcspn memory string2 fuel (string1 + 1)).map (· + 1)

/-- The first loop of `strtok`: where the token begins, if there is one. -/
def skipDelimiters (memory : Memory) (delimiters : Option Str) :
    (fuel string : Nat) → Option (Option Nat)
  | 0, _ => none
  | fuel + 1, string =>
      if load memory string = 0 then some none
      else
        delimiters.bind fun characters =>
          if (strchr characters (load memory string)).isSome then
            skipDelimiters memory delimiters fuel (string + 1)
          else some (some string)

/-- The memory and `stored_string`. -/
structure State where
  memory : Memory
  storedString : Nat

def strtok (state : State) (string : Nat) (delimiters : Option Str) : Option (Nat × State) :=
  let string := if string = 0 then state.storedString else string
  if string = 0 then none
  else
    (skipDelimiters state.memory delimiters space string).bind fun
      | none => some (0, state)
      | some string =>
          delimiters.bind fun characters =>
            (strcspn state.memory characters space string).map fun length =>
              let stored := string + length
              if load state.memory stored ≠ 0 then
                (string, ⟨store state.memory stored 0, stored + 1⟩)
              else (string, ⟨state.memory, stored⟩)

/-! ## One delimiter -/

variable {memory : Memory} {delimiter : UInt8} {text : Str} {string fuel : Nat}

theorem isSome_strchr_singleton {character : UInt8} (nonzero : character ≠ 0) :
    (strchr [delimiter] character).isSome = true ↔ character = delimiter := by
  unfold strchr
  by_cases same : delimiter = character
  · simp [same]
  · simp [same, Ne.symm same, strchr, nonzero]

theorem strcspn_eq (clean : 0 ∉ text) (isString : StringAt memory string text)
    (enough : text.length < fuel) :
    strcspn memory [delimiter] fuel string =
      some (text.takeWhile (· ≠ delimiter)).length := by
  induction text generalizing string fuel with
  | nil =>
      have ends : load memory string = 0 := isString.ends
      cases fuel with
      | zero => cases enough
      | succ fuel =>
          rw [strcspn, if_pos ends]
          rfl
  | cons byte text induction =>
      rw [List.mem_cons, not_or] at clean
      have isByte : load memory string = byte := isString.bytes 0 (Nat.zero_lt_succ _)
      cases fuel with
      | zero => cases enough
      | succ fuel =>
          rw [strcspn, isByte, if_neg (Ne.symm clean.1),
            induction clean.2 isString.tail (Nat.lt_of_succ_lt_succ enough)]
          by_cases same : byte = delimiter
          · rw [if_pos ((isSome_strchr_singleton (Ne.symm clean.1)).mpr same)]
            simp [same]
          · rw [if_neg fun found => same ((isSome_strchr_singleton (Ne.symm clean.1)).mp found)]
            simp [same]

theorem skipDelimiters_eq (clean : 0 ∉ text) (isString : StringAt memory string text)
    (enough : text.length < fuel) :
    skipDelimiters memory (some [delimiter]) fuel string =
      some (if text.dropWhile (· = delimiter) = [] then none
        else some (string + leading delimiter text)) := by
  induction text generalizing string fuel with
  | nil =>
      have ends : load memory string = 0 := isString.ends
      cases fuel with
      | zero => cases enough
      | succ fuel =>
          rw [skipDelimiters, if_pos ends]
          rfl
  | cons byte text induction =>
      rw [List.mem_cons, not_or] at clean
      have isByte : load memory string = byte := isString.bytes 0 (Nat.zero_lt_succ _)
      cases fuel with
      | zero => cases enough
      | succ fuel =>
          rw [skipDelimiters, isByte, if_neg (Ne.symm clean.1), Option.bind_some,
            induction clean.2 isString.tail (Nat.lt_of_succ_lt_succ enough)]
          by_cases same : byte = delimiter
          · rw [if_pos ((isSome_strchr_singleton (Ne.symm clean.1)).mpr same)]
            unfold leading
            simp [same, Nat.add_assoc, Nat.add_comm 1]
          · rw [if_neg fun found => same ((isSome_strchr_singleton (Ne.symm clean.1)).mp found)]
            unfold leading
            simp [same]

/-! ## One call -/

/-- What a call does that finds a token in the text. -/
structure Cut (memory : Memory) (start : Nat) (delimiter : UInt8) (text : Str) (found : Nat)
    (state : State) : Prop where
  isFound : found = start + leading delimiter text
  isStored : state.storedString = start + (text.length - (rest delimiter text).length)
  token : StringAt state.memory found (token delimiter text)
  rest : StringAt state.memory state.storedString (rest delimiter text)
  kept : ∀ address < space, address < start ∨ start + text.length ≤ address →
    load state.memory address = load memory address

variable {state : State} {start : Nat}

/-- The text that a call goes on with begins at the address. -/
def Begins (state : State) (string start : Nat) : Prop :=
  start ≠ 0 ∧ start = if string = 0 then state.storedString else string

theorem strtok_of_nil (begins : Begins state string start) (clean : 0 ∉ text)
    (isString : StringAt state.memory start text) (bound : start + text.length < space)
    (isNil : token delimiter text = []) :
    strtok state string (some [delimiter]) = some (0, state) := by
  have noToken : text.dropWhile (· = delimiter) = [] := by
    rw [List.dropWhile_eq_nil_iff]
    simpa using token_eq_nil_iff.mp isNil
  unfold strtok
  simp only [← begins.2]
  rw [if_neg begins.1, skipDelimiters_eq clean isString (by omega), if_pos noToken]
  rfl

theorem strtok_of_token (begins : Begins state string start) (clean : 0 ∉ text)
    (isString : StringAt state.memory start text) (bound : start + text.length < space)
    (isToken : token delimiter text ≠ []) :
    ∃ found next, strtok state string (some [delimiter]) = some (found, next) ∧
      Cut state.memory start delimiter text found next := by
  have split := @length_split _ _ delimiter text
  have someToken : text.dropWhile (· = delimiter) ≠ [] := by
    intro isNil
    unfold token at isToken
    rw [isNil] at isToken
    exact isToken rfl
  have atToken : StringAt state.memory (start + leading delimiter text)
      (text.dropWhile (· = delimiter)) := by
    rw [← drop_leading]
    exact isString.drop (by omega)
  have atBehind : StringAt state.memory
      (start + leading delimiter text + (token delimiter text).length) (behind delimiter text) := by
    rw [← drop_token, Nat.add_assoc]
    exact isString.drop (by omega)
  have tokenBytes : ∀ index (below : index < (token delimiter text).length),
      load state.memory (start + leading delimiter text + index) =
        (token delimiter text)[index] := by
    intro index below
    have isPrefix : token delimiter text <+: text.dropWhile (· = delimiter) :=
      List.takeWhile_prefix _
    rw [atToken.bytes index (Nat.lt_of_lt_of_le below isPrefix.length_le)]
    exact (isPrefix.getElem below).symm
  have spanned : strcspn state.memory [delimiter] space (start + leading delimiter text) =
      some (token delimiter text).length := by
    apply strcspn_eq _ atToken
    · rw [← drop_leading, List.length_drop]
      omega
    · exact fun isMember => clean ((List.dropWhile_suffix _).subset isMember)
  unfold strtok
  simp only [← begins.2]
  rw [if_neg begins.1, skipDelimiters_eq clean isString (by omega), if_neg someToken]
  simp only [Option.bind_some, spanned, Option.map_some]
  rcases @behind_eq _ _ delimiter text with ⟨isNil, noRest⟩ | isBehind
  · -- The token ends where the text ends.
    have ends := atBehind.ends
    rw [isNil, List.length_nil, Nat.add_zero] at ends
    rw [isNil, List.length_nil] at split
    rw [if_neg (not_not_intro ends)]
    refine ⟨_, _, rfl, rfl, ?_, ⟨tokenBytes, ends⟩, ?_, fun _ _ _ => rfl⟩
    · rw [noRest, List.length_nil]
      simp only
      omega
    · rw [noRest]
      exact ⟨fun index below => absurd below (Nat.not_lt_zero index), ends⟩
  · -- The delimiter behind the token is overwritten.
    rw [isBehind, List.length_cons] at split
    rw [isBehind] at atBehind
    have isDelimiter := atBehind.bytes 0 (Nat.zero_lt_succ _)
    rw [Nat.add_zero, List.getElem_cons_zero] at isDelimiter
    have nonzero : delimiter ≠ 0 := by
      rintro rfl
      have isMember : (0 : UInt8) ∈ behind 0 text := isBehind ▸ List.mem_cons_self
      rw [← drop_token] at isMember
      exact clean (List.mem_of_mem_drop isMember)
    rw [if_pos (by rw [isDelimiter]; exact nonzero)]
    refine ⟨_, _, rfl, rfl, ?_, ⟨fun index below => ?_, load_store_self _ _ _⟩, ?_, ?_⟩
    · simp only
      omega
    · rw [load_store_of_ne (by omega) (by omega) (by omega)]
      exact tokenBytes index below
    · exact atBehind.tail.congr (sameOn_store (by omega) (by omega) (.inr (by omega)))
    · intro address addressBound outside
      exact load_store_of_ne (by omega) addressBound (by omega)

/-! ## Any call -/

theorem strcspn_stops {length : Nat}
    (isLength : strcspn memory [delimiter] fuel string = some length) :
    load memory (string + length) = 0 ∨ load memory (string + length) = delimiter := by
  induction fuel generalizing string length with
  | zero => cases isLength
  | succ fuel induction =>
      rw [strcspn] at isLength
      by_cases isZero : load memory string = 0
      · rw [if_pos isZero, Option.some_inj] at isLength
        subst isLength
        exact .inl isZero
      · rw [if_neg isZero] at isLength
        split at isLength
        next found =>
          rw [Option.some_inj] at isLength
          subst isLength
          exact .inr ((isSome_strchr_singleton isZero).mp found)
        next =>
          obtain ⟨shorter, isShorter, rfl⟩ := Option.map_eq_some_iff.mp isLength
          rw [Nat.add_comm shorter 1, ← Nat.add_assoc]
          exact induction isShorter

theorem strtok_keeps {found : Nat} {next : State}
    (isNext : strtok state string (some [delimiter]) = some (found, next)) {address : Nat}
    (different : load state.memory address ≠ delimiter) :
    load next.memory address = load state.memory address := by
  unfold strtok at isNext
  simp only at isNext
  generalize (if string = 0 then state.storedString else string) = start at isNext
  split at isNext
  · cases isNext
  · obtain ⟨place, -, isNext⟩ := Option.bind_eq_some_iff.mp isNext
    cases place with
    | none =>
        cases isNext
        rfl
    | some place =>
        simp only [Option.bind_some] at isNext
        obtain ⟨length, isLength, isNext⟩ := Option.map_eq_some_iff.mp isNext
        split at isNext
        next nonzero =>
          cases isNext
          have isDelimiter := (strcspn_stops isLength).resolve_left nonzero
          have apart : address % space ≠ (found + length) % space := by
            intro same
            unfold load at different isDelimiter
            rw [same] at different
            exact different isDelimiter
          exact Function.update_of_ne apart _ _
        next =>
          cases isNext
          rfl

end Dbos.Strtok
