import Dbos.Foundation.Tokens

/-! # The shell

`shell_run_command` copies the words of a line into blocks of fixed sizes: one for the name
of the executable, one for the pointers to the arguments and one for each argument. `malloc`
fills a block with zeros, which is what ends the name and the pointers. -/

namespace Dbos.Shell

open Tokens

def cmdLen : Nat := 50
def argLen : Nat := 100

def argSlots : Nat := 5

/-- What is read behind the `NUL` of the line, behind the block for the name and behind the
pointers, where a pointer stands for the memory it points to and `none` for `NULL`. -/
structure Around where
  line : List UInt8
  cmd : List UInt8
  args : List (Option (List UInt8))

/-- A block from `malloc`. -/
def zeros (size : Nat) : List UInt8 := List.replicate size 0

/-! ## Strings -/

/-- The string at the start of the memory, if there is a `NUL`. -/
def stringOf (memory : List UInt8) : Option (List UInt8) :=
  if 0 ∈ memory then some (memory.takeWhile (· ≠ 0)) else none

/-- `strcat` into a block. There is no result if it stores behind the block. -/
def strcat (dest src : List UInt8) : Option (List UInt8) :=
  (stringOf dest).bind fun text =>
    if text.length + src.length < dest.length then
      some (text ++ (src ++ 0 :: dest.drop (text.length + src.length + 1)))
    else none

/-! ## The functions -/

/-- `while(*line && *line != ' ') block[index++] = *line++`: the block, the index and the line
afterwards. There is no result if it stores behind the block. -/
def copyWord : (line block : List UInt8) → (index : Nat) →
    Option (List UInt8 × Nat × List UInt8)
  | [], _, _ => none
  | c :: line, block, index =>
      if c = 0 ∨ c = 0x20 then some (block, index, c :: line)
      else if index < block.length then copyWord line (block.set index c) (index + 1)
      else none

/-- `while(*line)`: one argument, with what ends it skipped. There is no result if a pointer or
a character is stored outside of its block. -/
def copyArgs : (fuel : Nat) → (line : List UInt8) → (args : List (Option (List UInt8))) →
    (argIndex : Nat) → Option (List (Option (List UInt8)))
  | 0, _, _, _ => none
  | _ + 1, [], _, _ => none
  | fuel + 1, c :: line, args, argIndex =>
      if c = 0 then some args
      else if argIndex < args.length then
        (copyWord (c :: line) (zeros argLen) 0).bind fun (arg, j, line) =>
          if j < argLen then
            copyArgs fuel line.tail (args.set argIndex (some (arg.set j 0))) (argIndex + 1)
          else none
      else none

/-- The strings up to the `NULL` that `spawn` counts to. -/
def argvOf : List (Option (List UInt8)) → Option (List (List UInt8))
  | [] => none
  | none :: _ => some []
  | some arg :: args =>
      (stringOf arg).bind fun text => (argvOf args).map fun texts => text :: texts

inductive Outcome where
  | invalidName
  | spawned (filename : List UInt8) (argv : List (List UInt8))
deriving DecidableEq

/-- `shell_execute`, up to `spawn`. Without arguments the pointer to them is `NULL`. -/
def shellExecute (around : Around) (filename : List UInt8)
    (args : Option (List (Option (List UInt8)))) : Option Outcome :=
  (stringOf (filename ++ around.cmd)).bind fun name =>
    (strcat ((zeros (name.length + 2)).set 0 0x2F) name).bind fun path =>
      (stringOf path).bind fun filename =>
        match args with
        | none => some (.spawned filename [])
        | some args => (argvOf (args ++ around.args)).map fun argv => .spawned filename argv

/-- `shell_run_command`. The memory that it reads holds the line, a `NUL` and more. -/
def shellRunCommand (around : Around) (line : List UInt8) : Option Outcome :=
  (copyWord (line ++ 0 :: around.line) (zeros cmdLen) 0).bind fun (cmd, cmdIndex, rest) =>
    if cmdIndex < 2 then some .invalidName
    else if line.length ≤ cmdIndex + 1 then shellExecute around cmd none
    else
      (copyArgs (line.length + around.line.length + 1) rest.tail
        (List.replicate argSlots none) 0).bind fun args => shellExecute around cmd (some args)

/-! ## Lines that are split into their words -/

/-- The first word is spawned with the other ones as its arguments. -/
def Splits (around : Around) (line : List UInt8) : Prop :=
  shellRunCommand around line =
    some (.spawned (0x2F :: token 0x20 line) (tokensOf 0x20 line).tail)

/-- The words stand in the line one space apart and fit in the blocks, and there is a zero
behind each block that they fill and behind the end of the line. -/
structure Fits (around : Around) (line : List UInt8) : Prop where
  starts : line.head? ≠ some 0x20
  single : line.IsChain fun c next => c ≠ 0x20 ∨ next ≠ 0x20
  name : (token 0x20 line).length < cmdLen ∨
    (token 0x20 line).length = cmdLen ∧ around.cmd.head? = some 0
  short : ∀ word ∈ (tokensOf 0x20 line).tail, word.length < argLen
  count : (tokensOf 0x20 line).tail.length < argSlots ∨
    (tokensOf 0x20 line).tail.length = argSlots ∧ around.args.head? = some none
  ends : (tokensOf 0x20 line).tail = [] ∨ line.getLast? = some 0x20 ∨
    around.line.head? = some 0

/-! ## Strings are read -/

theorem zeros_succ (size : Nat) : zeros (size + 1) = 0 :: zeros size := List.replicate_succ

theorem length_zeros (size : Nat) : (zeros size).length = size := List.length_replicate

theorem stringOf_append {text more : List UInt8} (clean : 0 ∉ text) :
    stringOf (text ++ 0 :: more) = some text := by
  rw [stringOf, if_pos (by simp), takeWhile_append_delimiter clean]

theorem stringOf_zeros {text : List UInt8} (clean : 0 ∉ text) {size : Nat} (room : 0 < size)
    (more : List UInt8) : stringOf (text ++ zeros size ++ more) = some text := by
  obtain ⟨less, rfl⟩ : ∃ less, size = less + 1 := ⟨size - 1, by omega⟩
  rw [zeros_succ, List.append_assoc, List.cons_append, stringOf_append clean]

theorem clean_of_stringOf {memory text : List UInt8} (isString : stringOf memory = some text) :
    0 ∉ text := by
  unfold stringOf at isString
  split at isString
  · cases isString
    intro isMember
    simpa using List.mem_takeWhile_imp isMember
  · cases isString

theorem stringOf_full_iff {text more : List UInt8} (clean : 0 ∉ text) :
    stringOf (text ++ more) = some text ↔ more.head? = some 0 := by
  cases more with
  | nil => simp [stringOf, clean]
  | cons byte more =>
      constructor
      · intro isString
        by_contra notZero
        rw [List.head?_cons, Option.some.injEq] at notZero
        have all : ∀ item ∈ text, decide (item ≠ 0) = true := fun item isMember =>
          decide_eq_true fun same => clean (same ▸ isMember)
        unfold stringOf at isString
        split at isString
        case isFalse => cases isString
        case isTrue =>
          rw [List.takeWhile_append_of_pos all, List.takeWhile_cons_of_pos (by simpa using notZero)]
            at isString
          have length := congrArg (fun found => (found.map List.length).getD 0) isString
          simp at length
      · intro isZero
        cases isZero
        exact stringOf_append clean

theorem shellExecute_eq (around : Around) (filename : List UInt8)
    (args : Option (List (Option (List UInt8)))) :
    shellExecute around filename args =
      (stringOf (filename ++ around.cmd)).bind fun name =>
        match args with
        | none => some (.spawned (0x2F :: name) [])
        | some args =>
            (argvOf (args ++ around.args)).map fun argv => .spawned (0x2F :: name) argv := by
  unfold shellExecute
  cases isString : stringOf (filename ++ around.cmd) with
  | none => rfl
  | some name =>
      have clean : (0 : UInt8) ∉ 0x2F :: name := by
        rw [List.mem_cons, not_or]
        exact ⟨by decide, clean_of_stringOf isString⟩
      have slash : stringOf (0x2F :: zeros (name.length + 1)) = some [0x2F] := rfl
      have isPath : strcat ((zeros (name.length + 2)).set 0 0x2F) name =
          some (0x2F :: name ++ [0]) := by
        rw [zeros_succ, List.set_cons_zero, strcat, slash, Option.bind_some, if_pos]
        · simp [zeros, Nat.add_comm]
        · simp only [List.length_cons, List.length_nil, length_zeros]
          omega
      rw [Option.bind_some, Option.bind_some, isPath, Option.bind_some, stringOf_append clean,
        Option.bind_some]

/-! ## Words are copied -/

def IsWord (word : List UInt8) : Prop := 0 ∉ word ∧ 0x20 ∉ word

theorem copyWord_append {word : List UInt8} (isWord : IsWord word) {sep : UInt8}
    (ends : sep = 0 ∨ sep = 0x20) (more front : List UInt8) (room : Nat) :
    copyWord (word ++ sep :: more) (front ++ zeros room) front.length =
      if word.length ≤ room then
        some (front ++ (word ++ zeros (room - word.length)), front.length + word.length,
          sep :: more)
      else none := by
  induction word generalizing front room with
  | nil =>
      rw [List.nil_append, copyWord, if_pos ends, List.length_nil, if_pos (Nat.zero_le _)]
      rfl
  | cons c word induction =>
      obtain ⟨clean, whole⟩ := isWord
      rw [List.mem_cons, not_or] at clean whole
      have goesOn : ¬(c = 0 ∨ c = 0x20) :=
        not_or.mpr ⟨fun same => clean.1 same.symm, fun same => whole.1 same.symm⟩
      rw [List.cons_append, copyWord, if_neg goesOn, List.length_append, length_zeros]
      cases room with
      | zero =>
          rw [if_neg (by omega), if_neg (by rw [List.length_cons]; omega)]
      | succ room =>
          have stored : (front ++ zeros (room + 1)).set front.length c =
              (front ++ [c]) ++ zeros room := by
            rw [zeros_succ, List.set_append_right _ _ (Nat.le_refl _), Nat.sub_self,
              List.set_cons_zero, List.append_assoc]
            rfl
          have next := induction ⟨clean.2, whole.2⟩ (front ++ [c]) room
          rw [List.length_append, List.length_singleton] at next
          rw [if_pos (by omega), stored, next, List.length_cons]
          by_cases fits : word.length ≤ room
          · rw [if_pos fits, if_pos (Nat.succ_le_succ fits), Nat.add_sub_add_right]
            simp [Nat.add_comm, Nat.add_left_comm]
          · rw [if_neg fits, if_neg fun both => fits (Nat.le_of_succ_le_succ both)]

theorem copyWord_zeros {word : List UInt8} (isWord : IsWord word) {sep : UInt8}
    (ends : sep = 0 ∨ sep = 0x20) (more : List UInt8) (room : Nat) :
    copyWord (word ++ sep :: more) (zeros room) 0 =
      if word.length ≤ room then
        some (word ++ zeros (room - word.length), word.length, sep :: more)
      else none := by
  have copied := copyWord_append isWord ends more [] room
  simpa using copied

def argBlock (word : List UInt8) : List UInt8 := word ++ zeros (argLen - word.length)

/-- Pointers that are set, and the ones that are not. -/
def slots (set : List (List UInt8)) (free : Nat) : List (Option (List UInt8)) :=
  set.map some ++ List.replicate free none

theorem length_slots (set : List (List UInt8)) (free : Nat) :
    (slots set free).length = set.length + free := by
  rw [slots, List.length_append, List.length_map, List.length_replicate]

theorem set_slots (set : List (List UInt8)) (free : Nat) (arg : List UInt8) :
    (slots set (free + 1)).set set.length (some arg) = slots (set ++ [arg]) free := by
  unfold slots
  rw [List.set_append_right _ _ (by rw [List.length_map]), List.length_map, Nat.sub_self,
    List.replicate_succ, List.set_cons_zero, List.map_append, List.append_assoc]
  rfl

theorem copyArgs_word {word : List UInt8} (isWord : IsWord word) {sep : UInt8}
    (ends : sep = 0 ∨ sep = 0x20) (begins : word ≠ [] ∨ sep = 0x20) (more : List UInt8)
    (set : List (List UInt8)) (free fuel : Nat) :
    copyArgs (fuel + 1) (word ++ sep :: more) (slots set free) set.length =
      if 0 < free ∧ word.length < argLen then
        copyArgs fuel more (slots (set ++ [argBlock word]) (free - 1))
          (set ++ [argBlock word]).length
      else none := by
  have copied := copyWord_zeros isWord ends more argLen
  obtain ⟨c, line, isLine, notZero⟩ : ∃ c line, word ++ sep :: more = c :: line ∧ c ≠ 0 := by
    cases word with
    | nil =>
        have isSpace := begins.resolve_left (fun nonempty => nonempty rfl)
        exact ⟨sep, more, rfl, by rw [isSpace]; decide⟩
    | cons c word => exact ⟨c, _, rfl, fun same => isWord.1 (same ▸ List.mem_cons_self)⟩
  rw [isLine] at copied ⊢
  rw [copyArgs, if_neg notZero, length_slots, copied]
  cases free with
  | zero => rw [if_neg (by omega), if_neg (by omega)]
  | succ free =>
      rw [if_pos (by omega)]
      by_cases fits : word.length < argLen
      · have room : argLen - word.length = argLen - word.length - 1 + 1 := by omega
        have ended : (word ++ zeros (argLen - word.length)).set word.length 0 = argBlock word := by
          unfold argBlock
          rw [room, zeros_succ, List.set_append_right _ _ (Nat.le_refl _), Nat.sub_self,
            List.set_cons_zero]
        simp only [if_pos (Nat.le_of_lt fits), Option.bind_some, if_pos fits, ended, set_slots,
          List.tail_cons]
        rw [if_pos ⟨Nat.succ_pos _, fits⟩, Nat.add_sub_cancel, List.length_append]
        rfl
      · have tooLong : ¬(0 < free + 1 ∧ word.length < argLen) := fun both => fits both.2
        rw [if_neg tooLong]
        by_cases full : word.length ≤ argLen
        · simp only [if_pos full, Option.bind_some, if_neg fits]
        · simp only [if_neg full, Option.bind_none]

/-- What the loop leaves, whatever it reads. -/
theorem copyArgs_slots {fuel free : Nat} {line : List UInt8} {set : List (List UInt8)}
    {args : List (Option (List UInt8))}
    (isArgs : copyArgs fuel line (slots set free) set.length = some args) :
    ∃ extra, args = slots (set ++ extra) (free - extra.length) ∧ extra.length ≤ free ∧
      (extra = [] → line.head? = some 0) := by
  induction fuel generalizing line set free with
  | zero => cases isArgs
  | succ fuel induction =>
      cases line with
      | nil => cases isArgs
      | cons c line =>
          rw [copyArgs, length_slots] at isArgs
          split at isArgs
          case isTrue isZero =>
            cases isArgs
            exact ⟨[], by simp, Nat.zero_le _, fun _ => congrArg some isZero⟩
          split at isArgs
          case isFalse => cases isArgs
          case isTrue room =>
            obtain ⟨⟨arg, j, rest⟩, -, goesOn⟩ := Option.bind_eq_some_iff.mp isArgs
            simp only at goesOn
            split at goesOn
            case isFalse => cases goesOn
            case isTrue =>
              obtain ⟨less, rfl⟩ : ∃ less, free = less + 1 := ⟨free - 1, by omega⟩
              rw [set_slots] at goesOn
              have count : set.length + 1 = (set ++ [arg.set j 0]).length := by
                rw [List.length_append, List.length_singleton]
              rw [count] at goesOn
              obtain ⟨extra, isSlots, atMost, -⟩ := induction goesOn
              refine ⟨arg.set j 0 :: extra, ?_, ?_, nofun⟩
              · rw [isSlots, List.append_assoc, List.length_cons, Nat.add_sub_add_right]
                rfl
              · rw [List.length_cons]
                omega

/-! ## The arguments of a line -/

/-- The loop stops at the `NUL` behind a space, or at a zero behind the `NUL`. -/
def Stops (text beyond : List UInt8) : Prop :=
  text = [] ∨ text.getLast? = some 0x20 ∨ beyond.head? = some 0

theorem stops_append {piece more beyond : List UInt8} :
    Stops (piece ++ 0x20 :: more) beyond ↔ Stops more beyond := by
  unfold Stops
  cases more with
  | nil => simp
  | cons c more => simp [List.getLast?_append, List.getLast?_cons_cons]

theorem stops_piece {piece beyond : List UInt8} (nonempty : piece ≠ []) (whole : 0x20 ∉ piece) :
    Stops piece beyond ↔ beyond.head? = some 0 := by
  have notSpace : piece.getLast? ≠ some 0x20 := fun same => whole (List.mem_of_getLast? same)
  simp [Stops, nonempty, notSpace]

theorem copyArgs_text {text beyond : List UInt8} (clean : 0 ∉ text)
    (short : ∀ field ∈ fields 0x20 text, field.length < argLen) (stops : Stops text beyond)
    {set : List (List UInt8)} {free fuel : Nat} (room : (fields 0x20 text).length ≤ free)
    (enough : text.length < fuel) :
    copyArgs fuel (text ++ 0 :: beyond) (slots set free) set.length =
      some (slots (set ++ (fields 0x20 text).map argBlock)
        (free - (fields 0x20 text).length)) := by
  obtain ⟨depth, rfl⟩ : ∃ depth, fuel = depth + 1 := ⟨fuel - 1, by omega⟩
  induction text using @fields_induction UInt8 _ 0x20 generalizing set free depth with
  | nil =>
      rw [List.nil_append, copyArgs, if_pos rfl, fields_nil]
      simp
  | last piece nonempty whole =>
      have zero := (stops_piece nonempty whole).mp stops
      have positive := List.length_pos_iff.mpr nonempty
      rw [fields_self nonempty whole] at short room ⊢
      obtain ⟨less, rfl⟩ : ∃ less, depth = less + 1 := ⟨depth - 1, by omega⟩
      obtain ⟨more, rfl⟩ := List.head?_eq_some_iff.mp zero
      rw [copyArgs_word ⟨clean, whole⟩ (.inl rfl) (.inl nonempty),
        if_pos ⟨room, short piece List.mem_cons_self⟩, copyArgs, if_pos rfl]
      rfl
  | field piece more whole induction =>
      rw [List.mem_append, List.mem_cons, not_or, not_or] at clean
      rw [List.length_append, List.length_cons] at enough
      rw [fields_append whole] at short room ⊢
      rw [List.length_cons] at room
      obtain ⟨less, rfl⟩ : ∃ less, depth = less + 1 := ⟨depth - 1, by omega⟩
      rw [List.append_assoc, List.cons_append,
        copyArgs_word ⟨clean.1, whole⟩ (.inr rfl) (.inr rfl),
        if_pos ⟨by omega, short piece List.mem_cons_self⟩,
        induction clean.2.2 (fun field isMember => short field (List.mem_cons_of_mem _ isMember))
          (stops_append.mp stops) (by omega) less (by omega)]
      rw [List.map_cons, List.length_cons, List.append_assoc, Nat.sub_sub, Nat.add_comm 1]
      rfl

theorem copyArgs_text_cases {text beyond : List UInt8} (clean : 0 ∉ text)
    {set : List (List UInt8)} {free fuel : Nat} {args : List (Option (List UInt8))}
    (isArgs : copyArgs fuel (text ++ 0 :: beyond) (slots set free) set.length = some args) :
    (∀ field ∈ fields 0x20 text, field.length < argLen) ∧
      ∃ extra, args = slots (set ++ ((fields 0x20 text).map argBlock ++ extra))
          (free - ((fields 0x20 text).length + extra.length)) ∧
        (fields 0x20 text).length + extra.length ≤ free ∧ (extra = [] → Stops text beyond) := by
  obtain ⟨depth, rfl⟩ : ∃ depth, fuel = depth + 1 := by
    cases fuel with
    | zero => cases isArgs
    | succ depth => exact ⟨depth, rfl⟩
  induction text using @fields_induction UInt8 _ 0x20 generalizing set free depth with
  | nil =>
      rw [List.nil_append, copyArgs, if_pos rfl] at isArgs
      cases isArgs
      refine ⟨by simp, [], ?_, by simp, fun _ => .inl rfl⟩
      simp
  | last piece nonempty whole =>
      rw [copyArgs_word ⟨clean, whole⟩ (.inl rfl) (.inl nonempty)] at isArgs
      split at isArgs
      case isFalse => cases isArgs
      case isTrue fits =>
        obtain ⟨extra, isSlots, atMost, stops⟩ := copyArgs_slots isArgs
        rw [fields_self nonempty whole]
        refine ⟨by simpa using fits.2, extra, ?_, ?_, fun none => ?_⟩
        · rw [isSlots, List.append_assoc, Nat.sub_sub]
          rfl
        · rw [List.length_singleton]
          omega
        · exact (stops_piece nonempty whole).mpr (stops none)
  | field piece more whole induction =>
      rw [List.mem_append, List.mem_cons, not_or, not_or] at clean
      rw [List.append_assoc, List.cons_append,
        copyArgs_word ⟨clean.1, whole⟩ (.inr rfl) (.inr rfl)] at isArgs
      split at isArgs
      case isFalse => cases isArgs
      case isTrue fits =>
        obtain ⟨less, rfl⟩ : ∃ less, depth = less + 1 := by
          cases depth with
          | zero => cases isArgs
          | succ less => exact ⟨less, rfl⟩
        obtain ⟨short, extra, isSlots, atMost, stops⟩ := induction clean.2.2 less isArgs
        rw [fields_append whole, List.forall_mem_cons, List.length_cons]
        refine ⟨⟨fits.2, short⟩, extra, ?_, by omega, fun none => stops_append.mpr (stops none)⟩
        rw [isSlots, List.append_assoc, Nat.sub_sub, List.map_cons]
        congr 1
        omega

/-! ## What is spawned -/

theorem argvOf_blocks {words : List (List UInt8)} (clean : ∀ word ∈ words, 0 ∉ word)
    (short : ∀ word ∈ words, word.length < argLen) (more : List (Option (List UInt8))) :
    argvOf ((words.map argBlock).map some ++ more) =
      (argvOf more).map fun texts => words ++ texts := by
  induction words with
  | nil => simp
  | cons word words induction =>
      rw [List.forall_mem_cons] at clean short
      have isString : stringOf (argBlock word) = some word := by
        have ended := stringOf_zeros clean.1 (Nat.sub_pos_of_lt short.1) []
        rwa [List.append_nil] at ended
      rw [List.map_cons, List.map_cons, List.cons_append, argvOf, isString, Option.bind_some,
        induction clean.2 short.2, Option.map_map]
      rfl

theorem argvOf_cases {blocks : List (List UInt8)} {more : List (Option (List UInt8))}
    {argv : List (List UInt8)} (isArgv : argvOf (blocks.map some ++ more) = some argv) :
    ∃ texts rest, argv = texts ++ rest ∧ texts.length = blocks.length ∧
      argvOf more = some rest := by
  induction blocks generalizing argv with
  | nil => exact ⟨[], argv, rfl, rfl, isArgv⟩
  | cons block blocks induction =>
      rw [List.map_cons, List.cons_append, argvOf] at isArgv
      obtain ⟨text, -, mapped⟩ := Option.bind_eq_some_iff.mp isArgv
      obtain ⟨others, isOthers, rfl⟩ := Option.map_eq_some_iff.mp mapped
      obtain ⟨texts, rest, rfl, length, isRest⟩ := induction isOthers
      exact ⟨text :: texts, rest, rfl, congrArg (· + 1) length, isRest⟩

theorem argvOf_eq_nil_iff (args : List (Option (List UInt8))) :
    argvOf args = some [] ↔ args.head? = some none := by
  cases args with
  | nil => simp [argvOf]
  | cons arg args =>
      cases arg with
      | none => simp [argvOf]
      | some arg => simp [argvOf, Option.bind_eq_some_iff]

theorem clean_of_mem_tokensOf {text word : List UInt8} (clean : 0 ∉ text)
    (isMember : word ∈ tokensOf 0x20 text) : 0 ∉ word := by
  intro inside
  obtain ⟨found, isFound, rfl⟩ := List.mem_map.mp isMember
  exact clean (mem_of_mem_tokensAt isFound inside).1

/-- The arguments are the words if no field is empty, all fit, and the loop stops. -/
theorem argvOf_copyArgs_iff {text beyond : List UInt8} (clean : 0 ∉ text) {fuel : Nat}
    (enough : text.length < fuel) (more : List (Option (List UInt8))) :
    ((copyArgs fuel (text ++ 0 :: beyond) (List.replicate argSlots none) 0).bind fun args =>
        argvOf (args ++ more)) = some (tokensOf 0x20 text) ↔
      (∀ field ∈ fields 0x20 text, field ≠ []) ∧
        (∀ word ∈ tokensOf 0x20 text, word.length < argLen) ∧
        ((tokensOf 0x20 text).length < argSlots ∨
          (tokensOf 0x20 text).length = argSlots ∧ more.head? = some none) ∧
        Stops text beyond := by
  have isTokens := @filter_fields UInt8 _ 0x20 text
  have free : ∀ count : Nat, count ≤ argSlots →
      (argvOf (List.replicate (argSlots - count) none ++ more) = some [] ↔
        count < argSlots ∨ count = argSlots ∧ more.head? = some none) := by
    intro count atMost
    rw [argvOf_eq_nil_iff]
    rcases Nat.lt_or_ge count argSlots with less | notLess
    · obtain ⟨others, isOthers⟩ : ∃ others, argSlots - count = others + 1 :=
        ⟨argSlots - count - 1, by omega⟩
      simp [isOthers, less, List.replicate_succ]
    · have same : count = argSlots := Nat.le_antisymm atMost notLess
      simp [same]
  constructor
  · intro isArgv
    obtain ⟨args, isArgs, isArgv⟩ := Option.bind_eq_some_iff.mp isArgv
    obtain ⟨short, extra, rfl, atMost, stops⟩ :=
      @copyArgs_text_cases text beyond clean [] argSlots fuel args isArgs
    rw [List.nil_append, slots, List.append_assoc] at isArgv
    obtain ⟨texts, rest, split, length, isRest⟩ := argvOf_cases isArgv
    have fewer := List.length_filter_le (fun field => decide (field ≠ [])) (fields 0x20 text)
    rw [isTokens, split, List.length_append, length, List.length_append, List.length_map] at fewer
    have noExtra : extra = [] := List.length_eq_zero_iff.mp (by omega)
    have noRest : rest = [] := List.length_eq_zero_iff.mp (by omega)
    have count : (tokensOf 0x20 text).length = (fields 0x20 text).length := by
      rw [split, noRest, List.append_nil, length, noExtra, List.append_nil, List.length_map]
    have nonempty : ∀ field ∈ fields 0x20 text, field ≠ [] := by
      rw [← isTokens, List.length_filter_eq_length_iff] at count
      exact fun field isMember => of_decide_eq_true (count field isMember)
    refine ⟨nonempty, ?_, ?_, stops noExtra⟩
    · intro word isMember
      rw [← isTokens] at isMember
      exact short word (List.mem_filter.mp isMember).1
    · rw [noExtra, List.length_nil, Nat.add_zero, ← count, noRest] at isRest
      exact (free _ (by rw [count]; omega)).mp isRest
  · rintro ⟨nonempty, short, count, stops⟩
    have same : fields 0x20 text = tokensOf 0x20 text := by
      rw [← isTokens]
      exact (List.filter_eq_self.mpr fun field isMember =>
        decide_eq_true (nonempty field isMember)).symm
    have atMost : (tokensOf 0x20 text).length ≤ argSlots := by omega
    rw [← same] at short
    have isArgs := @copyArgs_text _ beyond clean short stops [] argSlots fuel
      (by rw [same]; exact atMost) enough
    have words : ∀ word ∈ tokensOf 0x20 text, 0 ∉ word := fun word => clean_of_mem_tokensOf clean
    change copyArgs fuel (text ++ 0 :: beyond) (List.replicate argSlots none) 0 = _ at isArgs
    rw [isArgs, Option.bind_some, List.nil_append, slots, List.append_assoc, same,
      argvOf_blocks words (same ▸ short), (free _ atMost).mpr count, Option.map_some,
      List.append_nil]

theorem stringOf_name_iff {word : List UInt8} (clean : 0 ∉ word) (fits : word.length ≤ cmdLen)
    (more : List UInt8) :
    stringOf (word ++ zeros (cmdLen - word.length) ++ more) = some word ↔
      word.length < cmdLen ∨ word.length = cmdLen ∧ more.head? = some 0 := by
  rcases Nat.lt_or_ge word.length cmdLen with less | notLess
  · have ended := stringOf_zeros clean (Nat.sub_pos_of_lt less) more
    exact ⟨fun _ => .inl less, fun _ => ended⟩
  · have same : word.length = cmdLen := Nat.le_antisymm fits notLess
    rw [same, Nat.sub_self]
    simp [zeros, stringOf_full_iff clean]

/-! ## Commands -/

section Command

variable {around : Around} {line word more : List UInt8}

theorem shellRunCommand_word {sep : UInt8} (isWord : IsWord word) (ends : sep = 0 ∨ sep = 0x20)
    (isLine : line ++ 0 :: around.line = word ++ sep :: more) :
    shellRunCommand around line =
      if word.length ≤ cmdLen then
        if word.length < 2 then some .invalidName
        else if line.length ≤ word.length + 1 then
          shellExecute around (word ++ zeros (cmdLen - word.length)) none
        else
          (copyArgs (line.length + around.line.length + 1) more
            (List.replicate argSlots none) 0).bind fun args =>
              shellExecute around (word ++ zeros (cmdLen - word.length)) (some args)
      else none := by
  rw [shellRunCommand, isLine, copyWord_zeros isWord ends]
  by_cases fits : word.length ≤ cmdLen
  · simp only [if_pos fits, Option.bind_some, List.tail_cons]
  · simp only [if_neg fits, Option.bind_none]

variable (clean : 0 ∉ word) (fits : word.length ≤ cmdLen)

include clean fits

theorem shellExecute_none_iff :
    shellExecute around (word ++ zeros (cmdLen - word.length)) none =
        some (.spawned (0x2F :: word) []) ↔
      word.length < cmdLen ∨ word.length = cmdLen ∧ around.cmd.head? = some 0 := by
  rw [shellExecute_eq, ← stringOf_name_iff clean fits, Option.bind_eq_some_iff]
  simp

theorem shellExecute_some_iff (args : List (Option (List UInt8))) (argv : List (List UInt8)) :
    shellExecute around (word ++ zeros (cmdLen - word.length)) (some args) =
        some (.spawned (0x2F :: word) argv) ↔
      (word.length < cmdLen ∨ word.length = cmdLen ∧ around.cmd.head? = some 0) ∧
        argvOf (args ++ around.args) = some argv := by
  rw [shellExecute_eq, ← stringOf_name_iff clean fits, Option.bind_eq_some_iff]
  constructor
  · rintro ⟨name, isName, mapped⟩
    obtain ⟨found, isFound, same⟩ := Option.map_eq_some_iff.mp mapped
    cases same
    exact ⟨isName, isFound⟩
  · rintro ⟨isName, isArgv⟩
    exact ⟨word, isName, by simp only [isArgv, Option.map_some]⟩

end Command

section Splits

variable {around : Around} {line word text : List UInt8}

/-- A line whose first word is all of it, or all but a space. -/
theorem splits_name_iff (isWord : IsWord word) (long : 2 ≤ word.length)
    (isLine : line = word ∨ line = word ++ [0x20]) :
    Splits around line ↔ Fits around line := by
  have nonempty : word ≠ [] := List.length_pos_iff.mp (by omega)
  have isSplit : token 0x20 line = word ∧ tokensOf 0x20 line = [word] ∧
      fields 0x20 line = [word] := by
    rcases isLine with rfl | rfl
    · obtain ⟨-, isToken, isRest⟩ := token_self nonempty isWord.2
      have found : token 0x20 line ≠ [] := by rwa [isToken]
      refine ⟨isToken, ?_, fields_self nonempty isWord.2⟩
      rw [tokensOf_of_token found, isToken, isRest, tokensOf_of_nil rfl]
    · obtain ⟨-, isToken, isRest⟩ := @token_append_delimiter _ _ _ _ [] nonempty isWord.2
      have found : token 0x20 (word ++ [0x20]) ≠ [] := by rwa [isToken]
      refine ⟨isToken, ?_, ?_⟩
      · rw [tokensOf_of_token found, isToken, isRest, tokensOf_of_nil rfl]
      · rw [fields_append isWord.2, fields_nil]
  obtain ⟨isToken, isTokens, isFields⟩ := isSplit
  have runs : shellRunCommand around line =
      if word.length ≤ cmdLen then
        shellExecute around (word ++ zeros (cmdLen - word.length)) none
      else none := by
    have notShort : ¬word.length < 2 := Nat.not_lt.mpr long
    rcases isLine with rfl | rfl
    · have noMore : line.length ≤ line.length + 1 := Nat.le_succ _
      rw [shellRunCommand_word isWord (.inl rfl) rfl, if_neg notShort, if_pos noMore]
    · have split : word ++ [0x20] ++ 0 :: around.line = word ++ 0x20 :: 0 :: around.line := by
        rw [List.append_assoc]
        rfl
      have noMore : (word ++ [0x20]).length ≤ word.length + 1 := by
        rw [List.length_append, List.length_singleton]
      rw [shellRunCommand_word isWord (.inr rfl) split, if_neg notShort, if_pos noMore]
  have apart := (forall_fields_ne_nil_iff line).mp (by rw [isFields]; simpa using nonempty)
  unfold Splits
  rw [isToken, isTokens, List.tail_cons, runs]
  constructor
  · intro spawned
    split at spawned
    case isFalse => cases spawned
    case isTrue fits =>
      refine ⟨apart.1, apart.2, ?_, ?_, ?_, ?_⟩
      · rw [isToken]
        exact (shellExecute_none_iff isWord.1 fits).mp spawned
      · simp [isTokens]
      · rw [isTokens]
        exact .inl (by decide : 0 < argSlots)
      · exact .inl (by rw [isTokens]; rfl)
  · intro fits
    have name := fits.name
    rw [isToken] at name
    have atMost : word.length ≤ cmdLen := by omega
    rw [if_pos atMost]
    exact (shellExecute_none_iff isWord.1 atMost).mpr name

theorem splits_args_iff (isWord : IsWord word) (long : 2 ≤ word.length) (clean : 0 ∉ text)
    (nonempty : text ≠ []) :
    Splits around (word ++ 0x20 :: text) ↔ Fits around (word ++ 0x20 :: text) := by
  have someWord : word ≠ [] := List.length_pos_iff.mp (by omega)
  have someText := List.length_pos_iff.mpr nonempty
  obtain ⟨-, isToken, isRest⟩ := @token_append_delimiter _ _ _ _ text someWord isWord.2
  have found : token 0x20 (word ++ 0x20 :: text) ≠ [] := by rwa [isToken]
  have isTokens : tokensOf 0x20 (word ++ 0x20 :: text) = word :: tokensOf 0x20 text := by
    rw [tokensOf_of_token found, isToken, isRest]
  have isFields := @fields_append _ _ _ _ text isWord.2
  have apart := @forall_fields_ne_nil_iff UInt8 _ 0x20 (word ++ 0x20 :: text)
  rw [isFields, List.forall_mem_cons, and_iff_right someWord] at apart
  have last : (word ++ 0x20 :: text).getLast? = text.getLast? := by
    rw [List.getLast?_append, List.getLast?_cons]
    cases text with
    | nil => exact absurd rfl nonempty
    | cons c text => simp [List.getLast?_cons]
  have split : word ++ 0x20 :: text ++ 0 :: around.line =
      word ++ 0x20 :: (text ++ 0 :: around.line) := by
    rw [List.append_assoc, List.cons_append]
  have length : (word ++ 0x20 :: text).length = word.length + (text.length + 1) := by
    rw [List.length_append, List.length_cons]
  have isArgv := @argvOf_copyArgs_iff text around.line clean
    ((word ++ 0x20 :: text).length + around.line.length + 1) (by omega) around.args
  have notShort : ¬word.length < 2 := Nat.not_lt.mpr long
  have isLonger : ¬(word ++ 0x20 :: text).length ≤ word.length + 1 := by omega
  unfold Splits
  rw [isToken, isTokens, List.tail_cons, shellRunCommand_word isWord (.inr rfl) split,
    if_neg notShort, if_neg isLonger]
  by_cases fits : word.length ≤ cmdLen
  case neg =>
    rw [if_neg fits]
    refine ⟨nofun, fun allFit => ?_⟩
    have name := allFit.name
    rw [isToken] at name
    omega
  rw [if_pos fits]
  have spawns : ((copyArgs ((word ++ 0x20 :: text).length + around.line.length + 1)
      (text ++ 0 :: around.line) (List.replicate argSlots none) 0).bind fun args =>
        shellExecute around (word ++ zeros (cmdLen - word.length)) (some args)) =
          some (.spawned (0x2F :: word) (tokensOf 0x20 text)) ↔
      (word.length < cmdLen ∨ word.length = cmdLen ∧ around.cmd.head? = some 0) ∧
        ((copyArgs ((word ++ 0x20 :: text).length + around.line.length + 1)
          (text ++ 0 :: around.line) (List.replicate argSlots none) 0).bind fun args =>
            argvOf (args ++ around.args)) = some (tokensOf 0x20 text) := by
    simp only [Option.bind_eq_some_iff, shellExecute_some_iff isWord.1 fits]
    constructor
    · rintro ⟨args, isArgs, name, isArgv⟩
      exact ⟨name, args, isArgs, isArgv⟩
    · rintro ⟨name, args, isArgs, isArgv⟩
      exact ⟨args, isArgs, name, isArgv⟩
  rw [spawns, isArgv]
  constructor
  · rintro ⟨name, filled, short, count, stops⟩
    refine ⟨(apart.mp filled).1, (apart.mp filled).2, ?_, ?_, ?_, ?_⟩
    · rwa [isToken]
    · rwa [isTokens]
    · rwa [isTokens]
    · rw [last]
      exact .inr (stops.resolve_left nonempty)
  · intro allFit
    obtain ⟨starts, single, name, short, count, ends⟩ := allFit
    rw [isToken] at name
    rw [isTokens, List.tail_cons] at short count ends
    rw [last] at ends
    have filled := apart.mpr ⟨starts, single⟩
    refine ⟨name, filled, short, count, .inr (ends.resolve_left fun noWords => ?_)⟩
    rw [← filter_fields, List.filter_eq_nil_iff] at noWords
    cases isNone : fields 0x20 text with
    | nil =>
        rw [fields, if_neg nonempty] at isNone
        cases isNone
    | cons field others =>
        rw [isNone] at filled noWords
        have isEmpty := noWords field List.mem_cons_self
        simp [filled field List.mem_cons_self] at isEmpty

end Splits

theorem splits_iff {line : List UInt8} (clean : 0 ∉ line) (long : 2 ≤ (token 0x20 line).length)
    (around : Around) : Splits around line ↔ Fits around line := by
  by_cases starts : line.head? = some 0x20
  · obtain ⟨more, rfl⟩ := List.head?_eq_some_iff.mp starts
    have invalid : shellRunCommand around (0x20 :: more) = some .invalidName := by
      rw [@shellRunCommand_word around (0x20 :: more) [] (more ++ 0 :: around.line) 0x20
        ⟨nofun, nofun⟩ (.inr rfl) rfl]
      rfl
    unfold Splits
    rw [invalid]
    exact ⟨nofun, fun fits => absurd starts fits.starts⟩
  by_cases isMember : 0x20 ∈ line
  · obtain ⟨word, text, rfl, whole⟩ := List.eq_append_cons_of_mem isMember
    have nonempty : word ≠ [] := by
      rintro rfl
      exact starts rfl
    rw [(token_append_delimiter nonempty whole).2.1] at long
    rw [List.mem_append, List.mem_cons, not_or, not_or] at clean
    by_cases empty : text = []
    · exact splits_name_iff ⟨clean.1, whole⟩ long (.inr (by rw [empty]))
    · exact splits_args_iff ⟨clean.1, whole⟩ long clean.2.2 empty
  · have nonempty : line ≠ [] := by
      rintro rfl
      exact absurd long (by decide)
    rw [(token_self nonempty isMember).2.1] at long
    exact splits_name_iff ⟨clean, isMember⟩ long (.inl rfl)

/-- `ls a`. -/
theorem splits_iff_ls :
    Splits ⟨[0], [0], [none]⟩ [0x6C, 0x73, 0x20, 0x61] ↔
      Fits ⟨[0], [0], [none]⟩ [0x6C, 0x73, 0x20, 0x61] :=
  splits_iff (by decide) (by decide) _

/-- The sixth argument of `ls a b c d e f` has no slot. -/
theorem not_splits_sixArguments :
    ¬Splits ⟨[0], [0], [none]⟩
      [0x6C, 0x73, 0x20, 0x61, 0x20, 0x62, 0x20, 0x63, 0x20, 0x64, 0x20, 0x65, 0x20, 0x66] := by
  have stuck : shellRunCommand ⟨[0], [0], [none]⟩
      [0x6C, 0x73, 0x20, 0x61, 0x20, 0x62, 0x20, 0x63, 0x20, 0x64, 0x20, 0x65, 0x20, 0x66] =
        none := by
    decide +kernel
  unfold Splits
  rw [stuck]
  nofun

end Dbos.Shell
