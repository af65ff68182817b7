import Dbos.Kernel.Util.Strings
import Dbos.Libraries.Bootstrap

/-! # Searching in memory

`strstr` with its pointers. `adv` runs ahead of the place that is compared by the length of
the needle less one. It is set there without a look at what it passes, so for a needle that
is too long it starts behind the terminator of the haystack. -/

namespace Dbos.Strstr

open Dbos.ByteMemory Dbos.Bootstrap Dbos.Strings

/-! ## The function -/

/-- `while (*++oper2) adv++;`. -/
def advance (memory : Memory) : (fuel oper2 adv : Nat) → Option Nat
  | 0, _, _ => none
  | fuel + 1, oper2, adv =>
      if load memory (oper2 + 1) = 0 then some adv
      else advance memory fuel (oper2 + 1) (adv + 1)

/-- The inner loop, with the `oper2` that it ends with. -/
def compare (memory : Memory) : (fuel oper1 oper2 : Nat) → Option Nat
  | 0, _, _ => none
  | fuel + 1, oper1, oper2 =>
      if load memory oper1 ≠ 0 ∧ load memory oper2 ≠ 0 ∧ load memory oper1 = load memory oper2 then
        compare memory fuel (oper1 + 1) (oper2 + 1)
      else some oper2

/-- The outer loop. -/
def search (memory : Memory) (needle : Nat) : (fuel oper1 adv : Nat) → Option Nat
  | 0, _, _ => none
  | fuel + 1, oper1, adv =>
      if load memory adv = 0 then some 0
      else
        (compare memory space oper1 needle).bind fun oper2 =>
          if load memory oper2 = 0 then some (oper1 % space)
          else search memory needle fuel (oper1 + 1) (adv + 1)

/-- `strstr`. A loop that has not ended after all addresses does not end at all. -/
def strstr (memory : Memory) (haystack needle : Nat) : Option Nat :=
  if haystack = 0 ∨ needle = 0 ∨ load memory haystack = 0 ∨ load memory needle = 0 then some 0
  else
    (advance memory space needle haystack).bind fun adv =>
      search memory needle space haystack adv

/-! ## What it promises -/

/-- The pointer to the first occurrence, or `NULL`. -/
def FirstOccurrence (haystack : Nat) (h n : Str) (pointer : Nat) : Prop :=
  (∃ before, FirstAt h n before ∧ pointer = haystack + before.length) ∨ ¬n <:+: h ∧ pointer = 0

/-- One pointer is right, and it is returned whatever else is in memory. -/
def FindsFirst (haystack needle : Nat) (h n : Str) : Prop :=
  ∃ pointer, FirstOccurrence haystack h n pointer ∧
    ∀ memory, StringAt memory haystack h → StringAt memory needle n →
      strstr memory haystack needle = some pointer

/-! ## The loops -/

variable {memory : Memory} {haystack needle : Nat} {h n : Str}

theorem advance_eq (clean : 0 ∉ n) (nonempty : n ≠ []) {oper2 : Nat}
    (isString : StringAt memory oper2 n) {fuel : Nat} (enough : n.length ≤ fuel) (adv : Nat) :
    advance memory fuel oper2 adv = some (adv + (n.length - 1)) := by
  induction n generalizing oper2 fuel adv with
  | nil => exact absurd rfl nonempty
  | cons byte n induction =>
      rw [List.length_cons] at enough
      rw [List.mem_cons, not_or] at clean
      cases fuel with
      | zero => omega
      | succ fuel =>
          rw [advance]
          by_cases isLast : n = []
          · subst isLast
            have ends : load memory (oper2 + 1) = 0 := isString.tail.ends
            rw [if_pos ends]
            rfl
          · have positive := List.length_pos_iff.mpr isLast
            rw [if_neg (isString.tail.load_ne_zero clean.2 positive),
              induction clean.2 isLast isString.tail (by omega), List.length_cons]
            congr 1
            omega

theorem compare_spec (clean : 0 ∉ n) {oper1 oper2 : Nat} (isString : StringAt memory oper2 n)
    {fuel : Nat} (enough : n.length < fuel) :
    ∃ last, compare memory fuel oper1 oper2 = some last ∧
      (load memory last = 0 ↔
        ∀ index (inside : index < n.length), load memory (oper1 + index) = n[index]) := by
  induction n generalizing oper1 oper2 fuel with
  | nil =>
      have ends : load memory oper2 = 0 := isString.ends
      cases fuel with
      | zero => cases enough
      | succ fuel =>
          refine ⟨oper2, ?_, ?_⟩
          · rw [compare, if_neg (fun ⟨_, nonzero, _⟩ => nonzero ends)]
          · exact ⟨fun _ _ inside => absurd inside (Nat.not_lt_zero _), fun _ => ends⟩
  | cons byte n induction =>
      rw [List.mem_cons, not_or] at clean
      have isByte : load memory oper2 = byte := isString.bytes 0 (Nat.zero_lt_succ _)
      have nonzero : load memory oper2 ≠ 0 := isByte ▸ Ne.symm clean.1
      cases fuel with
      | zero => cases enough
      | succ fuel =>
          rw [compare]
          by_cases same : load memory oper1 = load memory oper2
          · rw [if_pos ⟨same ▸ nonzero, nonzero, same⟩]
            rcases @induction clean.2 (oper1 + 1) (oper2 + 1) isString.tail fuel
              (Nat.lt_of_succ_lt_succ enough) with ⟨last, compared, atEnd⟩
            refine ⟨last, compared, atEnd.trans ⟨?_, ?_⟩⟩
            · intro rest index inside
              cases index with
              | zero => exact same.trans isByte
              | succ index =>
                  rw [List.getElem_cons_succ, ← rest index (Nat.lt_of_succ_lt_succ inside),
                    Nat.add_assoc, Nat.add_comm 1]
            · intro all index inside
              rw [Nat.add_assoc, Nat.add_comm 1]
              exact all (index + 1) (Nat.succ_lt_succ inside)
          · refine ⟨oper2, if_neg fun ⟨_, _, equal⟩ => same equal, ?_⟩
            constructor
            · exact fun isZero => absurd isZero nonzero
            · exact fun all => absurd ((all 0 (Nat.zero_lt_succ _)).trans isByte.symm) same

theorem bytes_iff_isPrefixOf (clean : 0 ∉ n) {oper1 : Nat} (isString : StringAt memory oper1 h) :
    (∀ index (inside : index < n.length), load memory (oper1 + index) = n[index]) ↔
      n.isPrefixOf h = true := by
  rw [List.isPrefixOf_iff_prefix]
  constructor
  · intro all
    have fits : n.length ≤ h.length := by
      by_contra longer
      have isZero := all h.length (by omega)
      rw [isString.ends] at isZero
      exact clean (isZero ▸ List.getElem_mem _)
    rw [List.prefix_iff_eq_take]
    apply List.ext_getElem
    · rw [List.length_take, Nat.min_eq_left fits]
    · intro index inside _
      rw [List.getElem_take, ← isString.bytes index (by omega)]
      exact (all index inside).symm
  · rintro ⟨rest, rfl⟩ index inside
    rw [isString.bytes index (by rw [List.length_append]; omega), List.getElem_append_left inside]

/-! ## A needle that is not too long -/

theorem length_of_strstrLoop {oper1 ahead found : Str}
    (isFound : strstrLoop n oper1 ahead = some found) : found.length ≤ oper1.length := by
  induction ahead generalizing oper1 with
  | nil => cases isFound
  | cons byte ahead induction =>
      unfold strstrLoop at isFound
      split at isFound
      · rw [Option.some_inj.mp isFound]
      · have atMost := induction isFound
        rw [List.length_drop] at atMost
        omega

/-- Within the haystack, the search over pointers is the search over lists. -/
theorem search_eq (needleClean : 0 ∉ n) (needleSmall : n.length < space)
    (isNeedle : StringAt memory needle n) {ahead : Str} {oper1 adv : Nat} (clean : 0 ∉ ahead)
    (isHaystack : StringAt memory oper1 h) (isAhead : StringAt memory adv ahead)
    (shorter : ahead.length ≤ h.length) (bound : oper1 + h.length < space) {fuel : Nat}
    (enough : ahead.length < fuel) :
    search memory needle fuel oper1 adv =
      some (match strstrLoop n h ahead with
        | none => 0
        | some found => oper1 + (h.length - found.length)) := by
  induction ahead generalizing h oper1 adv fuel with
  | nil =>
      cases fuel with
      | zero => cases enough
      | succ fuel =>
          have ends : load memory adv = 0 := isAhead.ends
          rw [search, if_pos ends]
          rfl
  | cons byte ahead induction =>
      rw [List.mem_cons, not_or] at clean
      rw [List.length_cons] at shorter
      cases fuel with
      | zero => cases enough
      | succ fuel =>
          have isByte : load memory adv = byte := isAhead.bytes 0 (Nat.zero_lt_succ _)
          rcases @compare_spec memory n needleClean oper1 needle isNeedle space needleSmall with
            ⟨last, compared, atEnd⟩
          rw [bytes_iff_isPrefixOf needleClean isHaystack] at atEnd
          rw [search, if_neg (isByte ▸ Ne.symm clean.1), compared, Option.bind_some]
          cases h with
          | nil => cases shorter
          | cons head rest =>
              rw [List.length_cons] at shorter bound
              unfold strstrLoop
              by_cases here : n.isPrefixOf (head :: rest) = true
              · rw [if_pos (atEnd.mpr here), if_pos here, Nat.mod_eq_of_lt (by omega)]
                simp
              · rw [if_neg (fun isZero => here (atEnd.mp isZero)), if_neg here,
                  induction clean.2 isHaystack.tail isAhead.tail (by omega) (by omega)
                    (Nat.lt_of_succ_lt_succ enough)]
                rw [List.drop_one, List.tail_cons]
                congr 1
                cases found : strstrLoop n rest ahead with
                | none => rfl
                | some place =>
                    have atMost := length_of_strstrLoop found
                    simp only [List.length_cons]
                    omega

theorem strstr_eq (needleClean : 0 ∉ n) (nonempty : n ≠ []) (clean : 0 ∉ h) (isNull : haystack ≠ 0)
    (needleNull : needle ≠ 0) (isHaystack : StringAt memory haystack h)
    (isNeedle : StringAt memory needle n) (bound : haystack + h.length < space)
    (needleBound : needle + n.length < space) (fits : n.length ≤ h.length + 1) :
    strstr memory haystack needle =
      some (match Strings.strstr h n with
        | none => 0
        | some found => haystack + (h.length - found.length)) := by
  have positive := List.length_pos_iff.mpr nonempty
  have needleBegins : load memory needle ≠ 0 := isNeedle.load_ne_zero needleClean positive
  unfold strstr Strings.strstr
  by_cases empty : h = []
  · subst empty
    have ends : load memory haystack = 0 := isHaystack.ends
    rw [if_pos (.inr (.inr (.inl ends))), if_pos (.inl rfl)]
  · have begins : load memory haystack ≠ 0 :=
      isHaystack.load_ne_zero clean (List.length_pos_iff.mpr empty)
    rw [if_neg
        (by simp only [isNull, needleNull, begins, needleBegins, or_self, not_false_eq_true]),
      if_neg (by simp only [empty, nonempty, or_self, not_false_eq_true]),
      advance_eq needleClean nonempty isNeedle (by omega), Option.bind_some]
    have isAhead : StringAt memory (haystack + (n.length - 1)) (h.drop (n.length - 1)) :=
      isHaystack.drop (by omega)
    apply search_eq needleClean (by omega) isNeedle
      (fun isMember => clean (List.mem_of_mem_drop isMember)) isHaystack isAhead _ bound
    · rw [List.length_drop]
      omega
    · rw [List.length_drop]
      omega

theorem findsFirst_of_short (needleClean : 0 ∉ n) (nonempty : n ≠ []) (clean : 0 ∉ h)
    (isNull : haystack ≠ 0) (needleNull : needle ≠ 0) (bound : haystack + h.length < space)
    (needleBound : needle + n.length < space) (fits : n.length ≤ h.length + 1) :
    FindsFirst haystack needle h n := by
  refine ⟨_, ?_, fun memory isHaystack isNeedle => strstr_eq needleClean nonempty clean isNull
    needleNull isHaystack isNeedle bound needleBound fits⟩
  cases found : Strings.strstr h n with
  | some place =>
      rcases (strstr_eq_some_iff nonempty).mp found with ⟨before, split, isFirst⟩
      refine .inl ⟨before, isFirst, ?_⟩
      rw [split, List.length_append]
      simp
  | none =>
      refine .inr ⟨fun occurs => ?_, rfl⟩
      rcases exists_firstAt occurs with ⟨before, isFirst⟩
      have split : h = before ++ h.drop before.length :=
        (List.prefix_iff_eq_append.mp ((List.prefix_append before n).trans isFirst.occurs)).symm
      have isSome := (strstr_eq_some_iff nonempty).mpr ⟨before, split, isFirst⟩
      rw [found] at isSome
      cases isSome

/-! ## A needle that is too long -/

/-- The search goes on until all bytes of the needle are there, in whatever memory. -/
theorem search_of_match (needleClean : 0 ∉ n) (needleSmall : n.length < space)
    (isNeedle : StringAt memory needle n) {distance oper1 adv fuel : Nat}
    (ahead : ∀ index ≤ distance, load memory (adv + index) ≠ 0)
    (nowhere : ∀ place < distance, ∃ index, ∃ inside : index < n.length,
      load memory (oper1 + place + index) ≠ n[index])
    (here : ∀ index (inside : index < n.length), load memory (oper1 + distance + index) = n[index])
    (enough : distance < fuel) :
    search memory needle fuel oper1 adv = some ((oper1 + distance) % space) := by
  induction distance generalizing oper1 adv fuel with
  | zero =>
      cases fuel with
      | zero => cases enough
      | succ fuel =>
          rcases @compare_spec memory n needleClean oper1 needle isNeedle space needleSmall with
            ⟨last, compared, atEnd⟩
          have nonzero : load memory adv ≠ 0 := ahead 0 (Nat.le_refl 0)
          rw [search, if_neg nonzero, compared, Option.bind_some, if_pos (atEnd.mpr here)]
          rfl
  | succ distance induction =>
      cases fuel with
      | zero => cases enough
      | succ fuel =>
          rcases @compare_spec memory n needleClean oper1 needle isNeedle space needleSmall with
            ⟨last, compared, atEnd⟩
          rcases nowhere 0 (Nat.zero_lt_succ _) with ⟨index, inside, different⟩
          have nonzero : load memory adv ≠ 0 := ahead 0 (Nat.zero_le _)
          rw [search, if_neg nonzero, compared, Option.bind_some,
            if_neg fun isZero => different (atEnd.mp isZero index inside),
            induction _ _ _ (Nat.lt_of_succ_lt_succ enough)]
          · rw [Nat.add_assoc, Nat.add_comm 1]
          · intro other atMost
            rw [Nat.add_assoc, Nat.add_comm 1]
            exact ahead (other + 1) (Nat.succ_le_succ atMost)
          · intro place less
            rw [Nat.add_assoc oper1, Nat.add_comm 1]
            exact nowhere (place + 1) (Nat.succ_lt_succ less)
          · rw [Nat.add_assoc oper1, Nat.add_comm 1]
            exact here

/-- Everything but the two strings is this byte. -/
def surrounded (memory : Memory) (haystack needle : Nat) (h n : Str) (byte : UInt8) : Memory :=
  fun address =>
    if haystack ≤ address ∧ address ≤ haystack + h.length ∨
        needle ≤ address ∧ address ≤ needle + n.length then memory address
    else byte


variable {byte : UInt8}

theorem stringAt_surrounded (isHaystack : StringAt memory haystack h)
    (bound : haystack + h.length < space) :
    StringAt (surrounded memory haystack needle h n byte) haystack h := by
  refine isHaystack.congr fun address above below => ?_
  unfold load surrounded
  rw [Nat.mod_eq_of_lt (by omega), if_pos (.inl (by omega))]

theorem stringAt_surrounded_needle (isNeedle : StringAt memory needle n)
    (bound : needle + n.length < space) :
    StringAt (surrounded memory haystack needle h n byte) needle n := by
  refine isNeedle.congr fun address above below => ?_
  unfold load surrounded
  rw [Nat.mod_eq_of_lt (by omega), if_pos (.inr (by omega))]

theorem load_surrounded_ne_zero (clean : 0 ∉ h) (needleClean : 0 ∉ n)
    (isHaystack : StringAt memory haystack h) (isNeedle : StringAt memory needle n)
    (nonzero : byte ≠ 0) {address : Nat} (noEnd : address % space ≠ haystack + h.length)
    (noNeedleEnd : address % space ≠ needle + n.length) :
    load (surrounded memory haystack needle h n byte) address ≠ 0 := by
  unfold load surrounded
  split
  next inside =>
    rcases inside with ⟨above, below⟩ | ⟨above, below⟩
    · have byteNonzero := @StringAt.load_ne_zero _ _ _ isHaystack clean (address % space - haystack)
        (by omega)
      unfold load at byteNonzero
      rwa [Nat.add_sub_cancel' above, Nat.mod_mod] at byteNonzero
    · have byteNonzero := @StringAt.load_ne_zero _ _ _ isNeedle needleClean
        (address % space - needle) (by omega)
      unfold load at byteNonzero
      rwa [Nat.add_sub_cancel' above, Nat.mod_mod] at byteNonzero
  next => exact nonzero

theorem apart_or_ends (clean : 0 ∉ h) (needleClean : 0 ∉ n)
    (isHaystack : StringAt memory haystack h) (isNeedle : StringAt memory needle n) :
    haystack + h.length < needle ∨ needle + n.length < haystack ∨
      haystack + h.length = needle + n.length := by
  by_contra overlap
  rw [not_or, not_or] at overlap
  rcases Nat.lt_or_ge (haystack + h.length) (needle + n.length) with before | after
  · have inside : haystack + h.length - needle < n.length := by omega
    apply isNeedle.load_ne_zero needleClean inside
    rw [Nat.add_sub_cancel' (by omega)]
    exact isHaystack.ends
  · have inside : needle + n.length - haystack < h.length := by omega
    apply isHaystack.load_ne_zero clean inside
    rw [Nat.add_sub_cancel' (by omega)]
    exact isNeedle.ends

theorem strstr_surrounded (clean : 0 ∉ h) (needleClean : 0 ∉ n) (nonempty : h ≠ [])
    (isNull : haystack ≠ 0) (needleNull : needle ≠ 0)
    (isHaystack : StringAt memory haystack h) (isNeedle : StringAt memory needle n)
    (bound : haystack + h.length < space) (needleBound : needle + n.length < space)
    (long : h.length + 2 ≤ n.length) (nonzero : byte ≠ 0) (differs : n.head? ≠ some byte) :
    strstr (surrounded memory haystack needle h n byte) haystack needle = some needle := by
  have holdsHaystack : StringAt (surrounded memory haystack needle h n byte) haystack h :=
    stringAt_surrounded isHaystack bound
  have holdsNeedle : StringAt (surrounded memory haystack needle h n byte) needle n :=
    stringAt_surrounded_needle isNeedle needleBound
  have positive := List.length_pos_iff.mpr nonempty
  have begins := holdsHaystack.load_ne_zero clean positive
  have needleBegins := @StringAt.load_ne_zero _ _ _ holdsNeedle needleClean 0 (by omega)
  rw [Nat.add_zero] at begins needleBegins
  have separate := apart_or_ends clean needleClean isHaystack isNeedle
  -- The way from the haystack up to the needle, around the end of the address space.
  obtain ⟨distance, isDistance, less⟩ : ∃ distance, (haystack + distance = needle ∨
      haystack + distance = needle + space) ∧ distance < space := by
    rcases Nat.lt_or_ge haystack needle with above | below
    · exact ⟨needle - haystack, .inl (by omega), by omega⟩
    · exact ⟨needle + space - haystack, .inr (by omega), by omega⟩
  unfold strstr
  rw [if_neg (by simp only [isNull, needleNull, begins, needleBegins, or_self, not_false_eq_true]),
    advance_eq needleClean (List.ne_nil_of_length_pos (by omega)) holdsNeedle (by omega),
    Option.bind_some, search_of_match needleClean (by omega) holdsNeedle _ _ _ less]
  · rcases isDistance with isNeedle | isNeedle
    · rw [isNeedle, Nat.mod_eq_of_lt (by omega)]
    · rw [isNeedle, Nat.add_mod_right, Nat.mod_eq_of_lt (by omega)]
  · intro index atMost
    apply load_surrounded_ne_zero clean needleClean isHaystack isNeedle nonzero
    · unfold space at *
      omega
    · unfold space at *
      omega
  · intro place before
    by_cases inHaystack : place ≤ h.length
    · refine ⟨h.length - place, by omega, fun same => ?_⟩
      rw [Nat.add_assoc, Nat.add_sub_cancel' inHaystack, holdsHaystack.ends] at same
      exact needleClean (same ▸ List.getElem_mem _)
    · refine ⟨0, by omega, fun same => differs ?_⟩
      have outside :
          load (surrounded memory haystack needle h n byte) (haystack + place) = byte := by
        unfold load surrounded
        rw [if_neg]
        unfold space at *
        omega
      rw [List.head?_eq_getElem?, List.getElem?_eq_getElem (by omega), ← same, Nat.add_zero,
        outside]
  · intro index inside
    rw [← holdsNeedle.bytes index inside]
    unfold load
    rcases isDistance with isNeedle | isNeedle
    · rw [isNeedle]
    · rw [isNeedle, Nat.add_right_comm, Nat.add_mod_right]

theorem not_findsFirst_of_long (clean : 0 ∉ h) (needleClean : 0 ∉ n) (nonempty : h ≠ [])
    (isNull : haystack ≠ 0) (needleNull : needle ≠ 0)
    (isHaystack : StringAt memory haystack h) (isNeedle : StringAt memory needle n)
    (bound : haystack + h.length < space) (needleBound : needle + n.length < space)
    (long : h.length + 2 ≤ n.length) : ¬FindsFirst haystack needle h n := by
  rintro ⟨pointer, isFirst, finds⟩
  obtain ⟨byte, nonzero, differs⟩ : ∃ byte : UInt8, byte ≠ 0 ∧ n.head? ≠ some byte := by
    by_cases isOne : n.head? = some 1
    · exact ⟨2, by decide, isOne ▸ by decide⟩
    · exact ⟨1, by decide, isOne⟩
  have found := finds (surrounded memory haystack needle h n byte)
    (stringAt_surrounded isHaystack bound) (stringAt_surrounded_needle isNeedle needleBound)
  rw [strstr_surrounded clean needleClean nonempty isNull needleNull isHaystack isNeedle bound
    needleBound long nonzero differs, Option.some_inj] at found
  rcases isFirst with ⟨before, isFirst, -⟩ | ⟨-, isZero⟩
  · have atMost := isFirst.occurs.length_le
    rw [List.length_append] at atMost
    omega
  · exact needleNull (found.trans isZero)

/-- The first occurrence is found in every memory if and only if `adv` starts at the
terminator of the haystack at the latest. -/
theorem findsFirst_iff (isHaystack : StringAt memory haystack h)
    (isNeedle : StringAt memory needle n)
    (clean : 0 ∉ h) (needleClean : 0 ∉ n) (nonempty : h ≠ []) (needleNonempty : n ≠ [])
    (isNull : haystack ≠ 0) (needleNull : needle ≠ 0) (bound : haystack + h.length < space)
    (needleBound : needle + n.length < space) :
    FindsFirst haystack needle h n ↔ n.length ≤ h.length + 1 := by
  constructor
  · intro finds
    by_contra long
    exact not_findsFirst_of_long clean needleClean nonempty isNull needleNull isHaystack isNeedle
      bound needleBound (by omega) finds
  · exact findsFirst_of_short needleClean needleNonempty clean isNull needleNull bound needleBound

/-- A memory with `/` at 16, and `abc` behind it. -/
def slashThenName : Memory := storeBytes (fun _ => 0) 16 [0x2F, 0, 0x61, 0x62, 0x63]

theorem stringAt_slashThenName : StringAt slashThenName 16 [0x2F] ∧
    StringAt slashThenName 18 [0x61, 0x62, 0x63] := by
  constructor
  · constructor
    · decide
    · rfl
  · constructor
    · decide
    · rfl

theorem findsFirst_iff_slash : FindsFirst 16 18 [0x2F] [0x61, 0x62, 0x63] ↔ 3 ≤ 1 + 1 :=
  findsFirst_iff stringAt_slashThenName.1 stringAt_slashThenName.2 (by decide) (by decide)
    (by decide) (by decide) (by decide) (by decide) (by decide) (by decide)

/-- The name behind the path is found in the path. -/
theorem not_findsFirst_slash : ¬FindsFirst 16 18 [0x2F] [0x61, 0x62, 0x63] := by
  rintro ⟨pointer, isFirst, finds⟩
  have found : strstr slashThenName 16 18 = some 18 := by decide
  rw [finds slashThenName stringAt_slashThenName.1 stringAt_slashThenName.2,
    Option.some_inj] at found
  rcases isFirst with ⟨before, isFirst, -⟩ | ⟨-, isZero⟩
  · have atMost := isFirst.occurs.length_le
    simp at atMost
  · omega

end Dbos.Strstr
