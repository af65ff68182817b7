import Mathlib.Data.List.Infix

/-! # Byte strings

The functions of `string.c` that the tar file system uses. A `char *` is the
list of the bytes from where it points to the terminating `NUL`, which is not
part of the list. -/

namespace Dbos.Strings

abbrev Str := List UInt8

def slash : UInt8 := 0x2F

def strncmp : Str → Str → Nat → Int
  | _, _, 0 => 0
  | [], [], _ + 1 => 0
  | [], _ :: _, _ + 1 => -1
  | _ :: _, [], _ + 1 => 1
  | first :: string1, second :: string2, length + 1 =>
      if first < second then -1
      else if second < first then 1
      else strncmp string1 string2 length

/-- The main loop of `strstr`; `adv` is the tail of the haystack that is still
long enough, so its end ends the search. -/
def strstrLoop (needle : Str) : Str → Str → Option Str
  | _, [] => none
  | oper1, _ :: adv =>
      if needle.isPrefixOf oper1 then some oper1 else strstrLoop needle (oper1.drop 1) adv

def strstr (haystack needle : Str) : Option Str :=
  if haystack = [] ∨ needle = [] then none
  else strstrLoop needle haystack (haystack.drop (needle.length - 1))

def strrchr : Str → UInt8 → Option Str
  | [], _ => none
  | byte :: string, character =>
      match strrchr string character with
      | some found => some found
      | none => if byte = character then some (byte :: string) else none

/-! ## What the functions find -/

theorem strncmp_eq_zero_iff (string1 string2 : Str) :
    strncmp string1 string2 string2.length = 0 ↔ string2 <+: string1 := by
  induction string2 generalizing string1 with
  | nil => cases string1 <;> simp [strncmp]
  | cons second string2 induction =>
      cases string1 with
      | nil => simp [strncmp]
      | cons first string1 =>
          rw [List.length_cons, strncmp, List.cons_prefix_cons, ← induction string1]
          by_cases equal : first = second
          · subst equal
            simp
          · have other : ¬second = first := fun same => equal same.symm
            by_cases less : first < second
            · simp [less, other]
            · have greater : second < first := by
                rw [UInt8.lt_iff_toNat_lt] at less ⊢
                have different : first.toNat ≠ second.toNat := fun same =>
                  equal (UInt8.toNat_inj.mp same)
                omega
              simp [less, greater, other]

/-- `before` is what stands in front of the first occurrence of the needle. -/
structure FirstAt (haystack needle before : Str) : Prop where
  occurs : before ++ needle <+: haystack
  first : ∀ earlier, earlier ++ needle <+: haystack → before.length ≤ earlier.length

instance FirstAt.decidable (haystack needle before : Str) :
    Decidable (FirstAt haystack needle before) :=
  decidable_of_iff
    (before ++ needle <+: haystack ∧ ∀ earlier ∈ haystack.inits,
      earlier ++ needle <+: haystack → before.length ≤ earlier.length)
    ⟨fun ⟨occurs, first⟩ => ⟨occurs, fun earlier found => first earlier
        ((List.mem_inits _ _).mpr ((List.prefix_append earlier needle).trans found)) found⟩,
      fun ⟨occurs, first⟩ => ⟨occurs, fun earlier _ found => first earlier found⟩⟩

theorem FirstAt.nil {haystack needle before : Str} (firstAt : FirstAt haystack needle before)
    (here : needle <+: haystack) : before = [] :=
  List.length_eq_zero_iff.mp (Nat.le_zero.mp (firstAt.first [] here))

theorem FirstAt.unique {haystack needle before other : Str}
    (firstAt : FirstAt haystack needle before) (otherAt : FirstAt haystack needle other) :
    before = other := by
  have sameLength := Nat.le_antisymm (firstAt.first other otherAt.occurs)
    (otherAt.first before firstAt.occurs)
  have left := (List.prefix_append before needle).trans firstAt.occurs
  have right := (List.prefix_append other needle).trans otherAt.occurs
  exact (List.prefix_of_prefix_length_le left right (Nat.le_of_eq sameLength)).eq_of_length
    sameLength

theorem firstAt_nil_iff {haystack before : Str} : FirstAt haystack [] before ↔ before = [] := by
  constructor
  · exact fun firstAt => firstAt.nil List.nil_prefix
  · rintro rfl
    exact ⟨List.nil_prefix, fun _ _ => Nat.zero_le _⟩

theorem firstAt_cons_iff {head : UInt8} {rest needle before : Str}
    (notHere : ¬needle <+: head :: rest) :
    FirstAt (head :: rest) needle (head :: before) ↔ FirstAt rest needle before := by
  constructor
  · rintro ⟨occurs, first⟩
    refine ⟨(List.cons_prefix_cons.mp occurs).2, fun earlier found => ?_⟩
    exact Nat.le_of_succ_le_succ
      (first (head :: earlier) (List.cons_prefix_cons.mpr ⟨rfl, found⟩))
  · rintro ⟨occurs, first⟩
    refine ⟨List.cons_prefix_cons.mpr ⟨rfl, occurs⟩, fun earlier found => ?_⟩
    cases earlier with
    | nil => exact absurd found notHere
    | cons other earlier =>
        exact Nat.succ_le_succ (first earlier (List.cons_prefix_cons.mp found).2)

theorem exists_firstAt {haystack needle : Str} (occurs : needle <:+: haystack) :
    ∃ before, FirstAt haystack needle before := by
  induction haystack with
  | nil =>
      rw [List.infix_nil] at occurs
      subst occurs
      exact ⟨[], firstAt_nil_iff.mpr rfl⟩
  | cons head rest induction =>
      by_cases here : needle <+: head :: rest
      · exact ⟨[], here, fun _ _ => Nat.zero_le _⟩
      · rcases List.infix_cons_iff.mp occurs with isHere | later
        · exact absurd isHere here
        · rcases induction later with ⟨before, isFirst⟩
          exact ⟨head :: before, (firstAt_cons_iff here).mpr isFirst⟩

theorem strstrLoop_eq_some_iff {needle oper1 adv found : Str} (nonempty : needle ≠ [])
    (ahead : adv = oper1.drop (needle.length - 1)) :
    strstrLoop needle oper1 adv = some found ↔
      ∃ before, oper1 = before ++ found ∧ FirstAt oper1 needle before := by
  induction adv generalizing oper1 with
  | nil =>
      have short : oper1.length < needle.length := by
        have positive := List.length_pos_iff.mpr nonempty
        have ends := List.drop_eq_nil_iff.mp ahead.symm
        omega
      simp only [strstrLoop, reduceCtorEq, false_iff]
      rintro ⟨before, -, occurs, -⟩
      have bound := occurs.length_le
      rw [List.length_append] at bound
      omega
  | cons byte adv induction =>
      cases oper1 with
      | nil => simp at ahead
      | cons head rest =>
          have restAhead : adv = rest.drop (needle.length - 1) := by
            have tails := congrArg List.tail ahead
            rwa [List.tail_cons, List.tail_drop, List.drop_succ_cons] at tails
          unfold strstrLoop
          simp only [List.isPrefixOf_iff_prefix, List.drop_one, List.tail_cons]
          split
          case isTrue here =>
            rw [Option.some_inj]
            constructor
            · rintro rfl
              exact ⟨[], rfl, here, fun _ _ => Nat.zero_le _⟩
            · rintro ⟨before, split, firstAt⟩
              rw [split, firstAt.nil here, List.nil_append]
          case isFalse notHere =>
            rw [induction restAhead]
            constructor
            · rintro ⟨before, split, firstAt⟩
              exact ⟨head :: before, by rw [split, List.cons_append],
                (firstAt_cons_iff notHere).mpr firstAt⟩
            · rintro ⟨before, split, firstAt⟩
              cases before with
              | nil => exact absurd firstAt.occurs notHere
              | cons other before =>
                  rw [List.cons_append, List.cons.injEq] at split
                  rcases split with ⟨rfl, split⟩
                  exact ⟨before, split, (firstAt_cons_iff notHere).mp firstAt⟩

theorem strstr_eq_some_iff {haystack needle found : Str} (nonempty : needle ≠ []) :
    strstr haystack needle = some found ↔
      ∃ before, haystack = before ++ found ∧ FirstAt haystack needle before := by
  unfold strstr
  split
  case isTrue empty =>
    have noHaystack := empty.resolve_right nonempty
    simp only [noHaystack, reduceCtorEq, false_iff]
    rintro ⟨before, -, occurs, -⟩
    exact nonempty (List.append_eq_nil_iff.mp (List.prefix_nil.mp occurs)).2
  case isFalse => exact strstrLoop_eq_some_iff nonempty rfl

theorem strrchr_of_notMem {string : Str} {character : UInt8} (absent : character ∉ string) :
    strrchr string character = none := by
  induction string with
  | nil => rfl
  | cons byte string induction =>
      rw [List.mem_cons, not_or] at absent
      rw [strrchr, induction absent.2]
      simp [Ne.symm absent.1]

theorem strrchr_append_cons (before : Str) {after : Str} {character : UInt8}
    (absent : character ∉ after) :
    strrchr (before ++ character :: after) character = some (character :: after) := by
  induction before with
  | nil => simp [strrchr, strrchr_of_notMem absent]
  | cons byte before induction => rw [List.cons_append, strrchr, induction]

end Dbos.Strings
