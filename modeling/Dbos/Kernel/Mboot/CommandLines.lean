import Dbos.Kernel.Mboot.Multiboot

/-! # Which command lines are parsed safely

`NULL` is scanned in three ways: a command line without tokens leaves the cursor as it was
at first, a token without a key leaves its key `NULL`, and the last call of `strtok` needs
delimiters if the last token has not been used up. -/

namespace Dbos.Multiboot

open Dbos.ByteMemory Dbos.Bootstrap Dbos.Strings Dbos.Tokens Dbos.Strtok

/-- The line is parsed, and any key can be looked up as long as nothing else writes to it. -/
def SafelyParsed (memory : Memory) (cmd : Nat) (text : Str) : Prop :=
  ∃ params next, parseMultibootParams memory cmd = some (params, next) ∧
    ∀ later, SameOn cmd (cmd + text.length + 1) later next.memory →
      ∀ key keyText, key ≠ 0 → 0 ∉ keyText → StringAt later key keyText →
        (paramsFindByKey later key params).isSome = true

/-- The line has a token, each token has more than equals signs, and the last one is used
up by its key and its value. -/
def Parsable (text : Str) : Prop :=
  tokensOf comma text ≠ [] ∧ (∀ param ∈ tokensOf comma text, ∃ byte ∈ param, byte ≠ equals) ∧
    ∀ param, (tokensOf comma text).getLast? = some param → remainder param = []

variable {memory : Memory} {state : State} {cmd : Nat} {text : Str}

/-! ## Lines that are parsed -/

theorem keyed_iff : Keyed (tokensAt comma cmd text) ↔
    ∀ param ∈ tokensOf comma text, ∃ byte ∈ param, byte ≠ equals := by
  rw [← map_snd_tokensAt cmd text]
  unfold Keyed
  simp only [ne_eq, token_eq_nil_iff, not_forall, List.forall_mem_map, exists_prop]

theorem settled_iff : (∀ other, (tokensAt comma cmd text).getLast? = some other →
      remainder other.2 = []) ↔
    ∀ param, (tokensOf comma text).getLast? = some param → remainder param = [] := by
  rw [← map_snd_tokensAt cmd text, List.getLast?_map]
  constructor
  · intro settled param isLast
    obtain ⟨other, isOther, rfl⟩ := Option.map_eq_some_iff.mp isLast
    exact settled other isOther
  · exact fun settled other isLast => settled other.2 (by rw [isLast]; rfl)

theorem tokensOf_eq_nil_iff : tokensOf comma text = [] ↔ token comma text = [] := by
  unfold tokensOf
  constructor
  · intro isNil
    by_contra isToken
    rw [tokensAt_of_token isToken] at isNil
    cases isNil
  · intro isNil
    rw [tokensAt_of_nil isNil]
    rfl

theorem safelyParsed_of_parsable (clean : 0 ∉ text) (isNull : cmd ≠ 0)
    (isString : StringAt memory cmd text) (bound : cmd + text.length < space)
    (parsable : Parsable text) : SafelyParsed memory cmd text := by
  rcases parsable with ⟨nonempty, keyed, settled⟩
  rcases parse_spec clean isNull isString bound
    (fun isNil => nonempty (tokensOf_eq_nil_iff.mpr isNil)) (keyed_iff.mpr keyed)
    (settled_iff.mpr settled) with ⟨params, next, before, isParsed, laid, parsed⟩
  refine ⟨params, next, isParsed, fun later same key keyText keyNull keyClean isKey => ?_⟩
  have parsedLater : Parsed later (tokensAt comma cmd text) params :=
    parsed.congr laid fun address atLeast atMost => same address atLeast (by omega)
  have tokenClean : ∀ other ∈ tokensAt comma cmd text, 0 ∉ token equals other.2 := by
    intro other isMember inside
    have inText := (List.dropWhile_suffix _).subset ((List.takeWhile_prefix _).subset inside)
    exact cleanTokens clean isMember inText
  rcases paramsFindByKey_eq parsedLater isNull laid bound tokenClean keyNull keyClean isKey with
    ⟨pointer, isFound, -⟩
  rw [isFound]
  rfl

/-! ## Tokens without a key -/

theorem setParam_keeps {progress after : List Param × State} {full : Nat}
    (isNext : setParam progress full = some after) :
    (∃ param, after.1 = progress.1 ++ [param]) ∧
      ∀ address, load progress.2.memory address ≠ equals →
        load after.2.memory address = load progress.2.memory address := by
  obtain ⟨⟨paramKey, middle⟩, isKey, isNext⟩ := Option.bind_eq_some_iff.mp isNext
  obtain ⟨⟨paramVal, next⟩, isVal, rfl⟩ := Option.map_eq_some_iff.mp isNext
  refine ⟨⟨_, rfl⟩, fun address different => ?_⟩
  have keptKey := strtok_keeps isKey different
  have keptVal := strtok_keeps isVal (keptKey ▸ different)
  exact keptVal.trans keptKey

theorem foldlM_setParam_keeps {places : List Nat} {progress after : List Param × State}
    (isNext : places.foldlM setParam progress = some after) :
    (∃ more, after.1 = progress.1 ++ more) ∧
      ∀ address, load progress.2.memory address ≠ equals →
        load after.2.memory address = load progress.2.memory address := by
  induction places generalizing progress with
  | nil =>
      have same : progress = after := Option.some_inj.mp isNext
      rw [← same]
      exact ⟨⟨[], (List.append_nil _).symm⟩, fun _ _ => rfl⟩
  | cons place places induction =>
      rw [List.foldlM_cons] at isNext
      obtain ⟨middle, isMiddle, isNext⟩ := Option.bind_eq_some_iff.mp isNext
      rcases setParam_keeps isMiddle with ⟨⟨param, isParam⟩, kept⟩
      rcases induction isNext with ⟨⟨more, isMore⟩, keptNext⟩
      refine ⟨⟨param :: more, ?_⟩, fun address different => ?_⟩
      · rw [isMore, isParam, List.append_assoc]
        rfl
      · rw [keptNext address (kept address different ▸ different)]
        exact kept address different

/-- A comparison with an empty string goes past such a parameter. -/
def Passed (memory : Memory) (param : Param) : Prop :=
  param.paramKey ≠ 0 ∧ load memory param.paramKey ≠ 0

theorem foldlM_not_keyed {first last : Nat} {found : List (Nat × Str)} (positive : first ≠ 0)
    (laid : Laid state.memory last first found) (bound : last < space)
    (clean : ∀ other ∈ found, 0 ∉ other.2) (notKeyed : ¬Keyed found) {params : List Param}
    {after : List Param × State}
    (isNext : (found.map Prod.fst).foldlM setParam (params, state) = some after) :
    ∃ passed param more, after.1 = params ++ passed ++ param :: more ∧ param.paramKey = 0 ∧
      ∀ other ∈ passed, Passed after.2.memory other := by
  induction found generalizing first state params with
  | nil => exact absurd (fun other isMember => nomatch isMember) notKeyed
  | cons head others induction =>
      rcases head with ⟨place, text⟩
      rcases laid with ⟨above, below, isString, laid⟩
      have textClean : 0 ∉ text := clean _ List.mem_cons_self
      rw [List.map_cons, List.foldlM_cons] at isNext
      obtain ⟨middle, isMiddle, isNext⟩ := Option.bind_eq_some_iff.mp isNext
      by_cases textKeyed : token equals text = []
      · have begins : Begins state place place := ⟨by omega, (if_neg (by omega)).symm⟩
        have noKey := strtok_of_nil begins textClean isString (by omega) textKeyed
        unfold setParam at isMiddle
        simp only [noKey, Option.bind_some] at isMiddle
        obtain ⟨⟨paramVal, next⟩, -, rfl⟩ := Option.map_eq_some_iff.mp isMiddle
        rcases foldlM_setParam_keeps isNext with ⟨⟨more, isMore⟩, -⟩
        refine ⟨[], ⟨0, paramVal⟩, more, ?_, rfl, fun other isMember => nomatch isMember⟩
        rw [isMore, List.append_nil, List.append_assoc]
        rfl
      · rcases setParam_spec textClean (by omega) isString (by omega) textKeyed params with
          ⟨param, next, isParam, isParamAt, -, -, -, kept⟩
        rw [isParam, Option.some_inj] at isMiddle
        subst isMiddle
        have laidNext : Laid next.memory last (place + text.length + 1) others :=
          laid.congr fun address atLeast atMost => kept address (by omega) (.inr (by omega))
        have othersNotKeyed : ¬Keyed others := fun keyed => notKeyed fun other isMember => by
          rcases List.mem_cons.mp isMember with rfl | later
          · exact textKeyed
          · exact keyed other later
        rcases induction (by omega) laidNext
          (fun other isMember => clean other (List.mem_cons_of_mem _ isMember)) othersNotKeyed
          isNext with ⟨passed, keyless, more, isAfter, noKey, allPassed⟩
        refine ⟨param :: passed, keyless, more, ?_, noKey, fun other isMember => ?_⟩
        · rw [isAfter]
          simp
        · rcases List.mem_cons.mp isMember with rfl | later
          · have positiveLength := List.length_pos_iff.mpr textKeyed
            have isByte := isParamAt.key.bytes 0 positiveLength
            rw [Nat.add_zero] at isByte
            have isMember : (token equals text)[0] ∈ token equals text := List.getElem_mem _
            have notEquals : load next.memory other.paramKey ≠ equals := by
              rw [isByte]
              exact fun same => notMem_token text (same ▸ isMember)
            have keptByte := (foldlM_setParam_keeps isNext).2 other.paramKey notEquals
            have keyAbove := isParamAt.keyAbove
            refine ⟨by omega, ?_⟩
            rw [keptByte, isByte]
            intro isZero
            have inText := (List.dropWhile_suffix _).subset
              ((List.takeWhile_prefix _).subset (isZero ▸ isMember))
            exact textClean inText
          · exact allPassed other later

theorem paramsFindByKey_passed {passed : List Param} {param : Param} {more : List Param} {key : Nat}
    (isPassed : ∀ other ∈ passed, Passed memory other) (noKey : param.paramKey = 0)
    (isEmpty : load memory key = 0) :
    paramsFindByKey memory key (passed ++ param :: more) = none := by
  induction passed with
  | nil =>
      rw [List.nil_append, paramsFindByKey, strcmp, if_pos (.inl noKey)]
      rfl
  | cons other passed induction =>
      rcases isPassed other List.mem_cons_self with ⟨isNull, nonzero⟩
      rw [List.cons_append, paramsFindByKey]
      by_cases keyNull : key = 0
      · rw [strcmp, if_pos (.inr keyNull)]
        rfl
      · have differs : strcmp memory other.paramKey key = some 1 := by
          have isSucc : space = 4294967295 + 1 := rfl
          rw [strcmp, if_neg (not_or.mpr ⟨isNull, keyNull⟩), isSucc, strcmpFrom,
            if_pos (.inl nonzero), if_pos (by rw [isEmpty]; exact nonzero)]
        rw [differs, Option.bind_some, if_neg (by decide)]
        exact induction fun later isMember => isPassed later (List.mem_cons_of_mem _ isMember)

/-! ## Lines that are not parsed -/

theorem parse_of_no_token (clean : 0 ∉ text) (isNull : cmd ≠ 0)
    (isString : StringAt memory cmd text)
    (bound : cmd + text.length < space) (noToken : token comma text = []) :
    parseMultibootParams memory cmd = none := by
  have begins : Begins ⟨memory, 0⟩ cmd cmd := ⟨isNull, (if_neg isNull).symm⟩
  have isNil := strtok_of_nil begins clean isString bound noToken
  have scansNull : strtok ⟨memory, 0⟩ 0 (some [comma]) = none := rfl
  unfold parseMultibootParams
  rw [isNil, Option.bind_some]
  obtain ⟨fuel, isFuel⟩ : ∃ fuel, space = fuel + 1 := ⟨space - 1, by decide⟩
  simp only [isFuel, collectParams, scansNull, Option.bind_none]

theorem setParams_of_remainder {first last : Nat} {found : List (Nat × Str)} (positive : first ≠ 0)
    (laid : Laid state.memory last first found) (bound : last < space)
    (clean : ∀ other ∈ found, 0 ∉ other.2) (keyed : Keyed found) {other : Nat × Str}
    (isLast : found.getLast? = some other) (remains : remainder other.2 ≠ []) :
    setParams (found.map Prod.fst) state = none := by
  rcases foldlM_setParam positive laid bound clean keyed [] with
    ⟨params, next, folded, -, lastSpec, -⟩
  rcases lastSpec other isLast with ⟨isRest, cursor, restClean⟩
  have nonzero := isRest.load_ne_zero restClean (List.length_pos_iff.mpr remains)
  rw [Nat.add_zero] at nonzero
  have flushed : strtok next 0 none = none := by
    rw [strtok_none cursor, if_neg nonzero]
  unfold setParams
  rw [folded, Option.bind_some]
  simp only [flushed, Option.map_none]

theorem strtok_none_same {found : Nat} {next : State}
    (isNext : strtok state 0 none = some (found, next)) : next = state := by
  by_cases cursor : state.storedString = 0
  · have scansNull : strtok state 0 none = none := by
      unfold strtok
      simp only [if_true, cursor]
    rw [scansNull] at isNext
    cases isNext
  · rw [strtok_none cursor] at isNext
    split at isNext
    · cases isNext
      rfl
    · cases isNext

theorem not_safelyParsed_of_not_keyed (clean : 0 ∉ text) (isNull : cmd ≠ 0)
    (isString : StringAt memory cmd text) (bound : cmd + text.length < space)
    (isToken : token comma text ≠ []) (notKeyed : ¬Keyed (tokensAt comma cmd text)) :
    ¬SafelyParsed memory cmd text := by
  rintro ⟨params, next, isParsed, finds⟩
  rcases collected_spec clean isNull isString bound isToken with ⟨middle, isSet, laid, ends⟩
  rw [isSet] at isParsed
  obtain ⟨⟨folded, last⟩, isFolded, isParsed⟩ := Option.bind_eq_some_iff.mp isParsed
  obtain ⟨⟨found, flushed⟩, isFlushed, isResult⟩ := Option.map_eq_some_iff.mp isParsed
  obtain ⟨rfl, rfl⟩ := Prod.mk.inj isResult
  rcases foldlM_not_keyed isNull laid bound (fun other => cleanTokens clean) notKeyed isFolded with
    ⟨passed, param, more, isParams, noKey, isPassed⟩
  have same : flushed = last := strtok_none_same isFlushed
  have stillEnds : load flushed.memory (cmd + text.length) = 0 := by
    rw [same, (foldlM_setParam_keeps isFolded).2 _ (by rw [ends]; decide)]
    exact ends
  have isEmpty : StringAt flushed.memory (cmd + text.length) [] :=
    ⟨fun index below => absurd below (Nat.not_lt_zero index), stillEnds⟩
  have isSome := finds flushed.memory (fun _ _ _ => rfl) (cmd + text.length) [] (by omega)
    List.not_mem_nil isEmpty
  have areParams : folded = passed ++ param :: more := isParams
  rw [areParams, paramsFindByKey_passed (same ▸ isPassed) noKey stillEnds]
    at isSome
  cases isSome

/-- A line is parsed safely if and only if no token lacks a key and the last one is used up. -/
theorem safelyParsed_iff (clean : 0 ∉ text) (isNull : cmd ≠ 0) (isString : StringAt memory cmd text)
    (bound : cmd + text.length < space) : SafelyParsed memory cmd text ↔ Parsable text := by
  refine ⟨fun safely => ?_, safelyParsed_of_parsable clean isNull isString bound⟩
  have isToken : token comma text ≠ [] := by
    intro noToken
    rcases safely with ⟨params, next, isParsed, -⟩
    rw [parse_of_no_token clean isNull isString bound noToken] at isParsed
    cases isParsed
  have keyed : Keyed (tokensAt comma cmd text) := by
    by_contra notKeyed
    exact not_safelyParsed_of_not_keyed clean isNull isString bound isToken notKeyed safely
  refine ⟨fun isNil => isToken (tokensOf_eq_nil_iff.mp isNil), keyed_iff.mp keyed,
    (@settled_iff cmd text).mp fun other isLast => ?_⟩
  by_contra remains
  rcases collected_spec clean isNull isString bound isToken with ⟨middle, isSet, laid, -⟩
  rcases safely with ⟨params, next, isParsed, -⟩
  rw [isSet, setParams_of_remainder isNull laid bound (fun other => cleanTokens clean) keyed isLast
    remains] at isParsed
  cases isParsed

/-- `k=v=w` at 16. -/
def twoValuesLine : Memory := storeBytes (fun _ => 0) 16 [0x6B, 0x3D, 0x76, 0x3D, 0x77]

theorem safelyParsed_iff_twoValues :
    SafelyParsed twoValuesLine 16 [0x6B, 0x3D, 0x76, 0x3D, 0x77] ↔
      Parsable [0x6B, 0x3D, 0x76, 0x3D, 0x77] := by
  apply safelyParsed_iff
  · decide
  · decide
  · constructor
    · decide
    · rfl
  · decide

/-- The second value is still to be scanned when the delimiters are `NULL`. -/
theorem not_safelyParsed_twoValues :
    ¬SafelyParsed twoValuesLine 16 [0x6B, 0x3D, 0x76, 0x3D, 0x77] := by
  rintro ⟨params, next, isParsed, -⟩
  have fails : (parseMultibootParams twoValuesLine 16).isNone = true := by decide
  rw [isParsed] at fails
  cases fails

end Dbos.Multiboot
