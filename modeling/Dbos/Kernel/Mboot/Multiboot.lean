import Mathlib.Data.List.Find
import Dbos.Kernel.Util.Strtok

/-! # Boot parameters

The command line is cut at commas first, and each of its parameters at equals signs then.
Both go through the one cursor of `strtok`. The nodes and records that are allocated on the
way are lists here; the `NULL` pointer is 0. -/

namespace Dbos.Multiboot

open Dbos.ByteMemory Dbos.Bootstrap Dbos.Strings Dbos.Tokens Dbos.Strtok

/-! ## The functions -/

def comma : UInt8 := 0x2C

def equals : UInt8 := 0x3D

/-- `mboot_param_t`. -/
structure Param where
  paramKey : Nat
  paramVal : Nat

/-- The loop of `parse_multiboot_params`. -/
def collectParams : (fuel : Nat) → List Nat → State → Option (List Nat × State)
  | 0, _, _ => none
  | fuel + 1, p, state =>
      (strtok state 0 (some [comma])).bind fun (fullparam, state) =>
        if fullparam = 0 then some (p, state) else collectParams fuel (p ++ [fullparam]) state

/-- The body of the loop of `set_params`. -/
def setParam (progress : List Param × State) (full : Nat) : Option (List Param × State) :=
  (strtok progress.2 full (some [equals])).bind fun (paramKey, state) =>
    (strtok state 0 (some [equals])).map fun (paramVal, state) =>
      (progress.1 ++ [⟨paramKey, paramVal⟩], state)

def setParams (lst : List Nat) (state : State) : Option (List Param × State) :=
  (lst.foldlM setParam ([], state)).bind fun (params, state) =>
    (strtok state 0 none).map fun (_, state) => (params, state)

/-- `parse_multiboot_params`, with the list that `params` is set to. It is the first to call
`strtok`. -/
def parseMultibootParams (memory : Memory) (cmd : Nat) : Option (List Param × State) :=
  (strtok ⟨memory, 0⟩ cmd (some [comma])).bind fun (fullparam, state) =>
    (collectParams space [fullparam] state).bind fun (p, state) => setParams p state

def strcmpFrom (memory : Memory) : (fuel str1 str2 : Nat) → Option Nat
  | 0, _, _ => none
  | fuel + 1, str1, str2 =>
      if load memory str1 ≠ 0 ∨ load memory str2 ≠ 0 then
        if load memory str1 ≠ load memory str2 then some 1
        else strcmpFrom memory fuel (str1 + 1) (str2 + 1)
      else some 0

def strcmp (memory : Memory) (str1 str2 : Nat) : Option Nat :=
  if str1 = 0 ∨ str2 = 0 then none else strcmpFrom memory space str1 str2

def paramsFindByKey (memory : Memory) (key : Nat) : List Param → Option Nat
  | [] => some 0
  | param :: params =>
      (strcmp memory param.paramKey key).bind fun compared =>
        if compared = 0 then some param.paramVal else paramsFindByKey memory key params

/-! ## Cutting at the commas -/

variable {memory : Memory} {state : State}

/-- The strings are in memory, one behind the other. -/
def Laid (memory : Memory) (last : Nat) : Nat → List (Nat × Str) → Prop
  | _, [] => True
  | first, (place, text) :: others =>
      first ≤ place ∧ place + text.length ≤ last ∧ StringAt memory place text ∧
        Laid memory last (place + text.length + 1) others

theorem Laid.congr {other : Memory} {first last : Nat} {found : List (Nat × Str)}
    (laid : Laid memory last first found)
    (same : ∀ address, first ≤ address → address ≤ last → load other address = load memory address) :
    Laid other last first found := by
  induction found generalizing first with
  | nil => trivial
  | cons head others induction =>
      rcases head with ⟨place, text⟩
      rcases laid with ⟨above, below, isString, laid⟩
      refine ⟨above, below, isString.congr fun address atLeast less => ?_, induction laid ?_⟩
      · exact same address (by omega) (by omega)
      · exact fun address atLeast atMost => same address (by omega) atMost

theorem Laid.mono {first later last : Nat} {found : List (Nat × Str)}
    (laid : Laid memory last later found) (before : first ≤ later) :
    Laid memory last first found := by
  cases found with
  | nil => trivial
  | cons head others =>
      rcases laid with ⟨above, below, isString, laid⟩
      exact ⟨Nat.le_trans before above, below, isString, laid⟩

theorem Cut.next {delimiter : UInt8} {text : Str} {start found : Nat} {next : State}
    (cut : Cut memory start delimiter text found next) (clean : 0 ∉ text)
    (isToken : token delimiter text ≠ []) :
    Begins next 0 next.storedString ∧ 0 ∉ rest delimiter text ∧
      next.storedString + (rest delimiter text).length = start + text.length ∧
      start ≤ found ∧ found + (token delimiter text).length ≤ start + text.length ∧
      (rest delimiter text ≠ [] → found + (token delimiter text).length < next.storedString) := by
  have split := @length_split _ _ delimiter text
  have shorter := length_rest_lt isToken
  have isStored := cut.isStored
  have isFound := cut.isFound
  refine ⟨⟨by omega, rfl⟩, fun isMember => ?_, by omega, by omega, by omega, fun some => ?_⟩
  · rw [← drop_rest] at isMember
    exact clean (List.mem_of_mem_drop isMember)
  · rcases @behind_eq _ _ delimiter text with ⟨-, noRest⟩ | isBehind
    · exact absurd noRest some
    · rw [isBehind, List.length_cons] at split
      omega

/-- The token that has been cut stands in front of those that are found later. -/
theorem Laid.of_cut {start found : Nat} {text : Str} {middle : State} {next : Memory}
    (cut : Cut memory start comma text found middle) (clean : 0 ∉ text)
    (isToken : token comma text ≠ []) (bound : start + text.length < space)
    (laid : Laid next (middle.storedString + (rest comma text).length) middle.storedString
      (tokensAt comma middle.storedString (rest comma text)))
    (kept : ∀ address < space, address < middle.storedString ∨
      middle.storedString + (rest comma text).length ≤ address →
        load next address = load middle.memory address) :
    Laid next (start + text.length) start (tokensAt comma start text) ∧
      ∀ address < space, address < start ∨ start + text.length ≤ address →
        load next address = load memory address := by
  rcases Cut.next cut clean isToken with ⟨-, -, ends, above, below, apart⟩
  have shorter := length_rest_lt isToken
  rw [tokensAt_of_token isToken, ← cut.isStored, ← cut.isFound]
  refine ⟨⟨above, below, ?_, ?_⟩, fun address addressBound outside => ?_⟩
  · refine cut.token.congr fun address atLeast less => ?_
    apply kept address (by omega)
    by_cases noRest : rest comma text = []
    · rw [noRest, List.length_nil, Nat.add_zero]
      omega
    · have before := apart noRest
      omega
  · by_cases noRest : rest comma text = []
    · rw [noRest, tokensAt_of_nil rfl]
      trivial
    · rw [ends] at laid
      exact laid.mono (apart noRest)
  · rw [kept address addressBound (by omega)]
    exact cut.kept address addressBound outside

theorem collectParams_spec {start fuel : Nat} {text : Str} (clean : 0 ∉ text)
    (begins : Begins state 0 start) (isString : StringAt state.memory start text)
    (bound : start + text.length < space) (enough : text.length < fuel) (p : List Nat) :
    ∃ next, collectParams fuel p state =
        some (p ++ (tokensAt comma start text).map Prod.fst, next) ∧
      Laid next.memory (start + text.length) start (tokensAt comma start text) ∧
      ∀ address < space, address < start ∨ start + text.length ≤ address →
        load next.memory address = load state.memory address := by
  induction fuel generalizing state start text p with
  | zero => cases enough
  | succ fuel induction =>
      by_cases isToken : token comma text = []
      · have step : collectParams (fuel + 1) p state = some (p, state) := by
          rw [collectParams, strtok_of_nil begins clean isString bound isToken]
          rfl
        rw [step, tokensAt_of_nil isToken, List.map_nil, List.append_nil]
        exact ⟨state, rfl, trivial, fun _ _ _ => rfl⟩
      · rcases strtok_of_token begins clean isString bound isToken with ⟨found, middle, isCut, cut⟩
        rcases Cut.next cut clean isToken with ⟨nextBegins, nextClean, ends, above, -, -⟩
        have shorter := length_rest_lt isToken
        have nonzero := begins.1
        have step : collectParams (fuel + 1) p state =
            collectParams fuel (p ++ [found]) middle := by
          rw [collectParams, isCut]
          exact if_neg (by omega)
        rcases @induction middle middle.storedString (rest comma text) nextClean nextBegins
          cut.rest (by omega) (by omega) (p ++ [found]) with ⟨next, collected, laid, kept⟩
        refine ⟨next, ?_, Laid.of_cut cut clean isToken bound laid kept⟩
        rw [step, collected, tokensAt_of_token isToken, ← cut.isStored, ← cut.isFound,
          List.map_cons, List.append_assoc, List.singleton_append]

/-! ## Cutting at the equals signs -/

/-- What the second call finds: the value, or nothing. -/
def valueOf (text : Str) : Str := token equals (rest equals text)

/-- What both calls leave behind them. -/
def remainder (text : Str) : Str :=
  if valueOf text = [] then rest equals text else rest equals (rest equals text)

/-- The parameter that a token is parsed into. -/
structure ParamAt (memory : Memory) (place : Nat) (text : Str) (param : Param) : Prop where
  key : StringAt memory param.paramKey (token equals text)
  keyAbove : place ≤ param.paramKey
  keyBelow : param.paramKey + (token equals text).length ≤ place + text.length
  value : if valueOf text = [] then param.paramVal = 0
    else StringAt memory param.paramVal (valueOf text) ∧ place ≤ param.paramVal ∧
      param.paramVal + (valueOf text).length ≤ place + text.length

theorem ParamAt.congr {other : Memory} {place : Nat} {text : Str} {param : Param}
    (isParam : ParamAt memory place text param)
    (same : ∀ address, place ≤ address → address ≤ place + text.length →
      load other address = load memory address) :
    ParamAt other place text param := by
  rcases isParam with ⟨key, keyAbove, keyBelow, value⟩
  refine ⟨key.congr fun address atLeast less => same address (by omega) (by omega), keyAbove,
    keyBelow, ?_⟩
  split
  next noValue => rwa [if_pos noValue] at value
  next someValue =>
    rw [if_neg someValue] at value
    rcases value with ⟨isString, above, below⟩
    exact ⟨isString.congr fun address atLeast less => same address (by omega) (by omega), above,
      below⟩

theorem setParam_spec {place : Nat} {text : Str} (clean : 0 ∉ text) (nonzero : place ≠ 0)
    (isString : StringAt state.memory place text) (bound : place + text.length < space)
    (isKey : token equals text ≠ []) (params : List Param) :
    ∃ param next, setParam (params, state) place = some (params ++ [param], next) ∧
      ParamAt next.memory place text param ∧
      StringAt next.memory next.storedString (remainder text) ∧ next.storedString ≠ 0 ∧
      0 ∉ remainder text ∧
      ∀ address < space, address < place ∨ place + text.length ≤ address →
        load next.memory address = load state.memory address := by
  have begins : Begins state place place := ⟨nonzero, (if_neg nonzero).symm⟩
  rcases strtok_of_token begins clean isString bound isKey with ⟨paramKey, middle, isCut, cut⟩
  rcases Cut.next cut clean isKey with ⟨nextBegins, nextClean, ends, above, below, apart⟩
  have shorter := length_rest_lt isKey
  by_cases isValue : valueOf text = []
  · have noValue := strtok_of_nil nextBegins nextClean cut.rest (by omega) isValue
    refine ⟨⟨paramKey, 0⟩, middle, ?_, ⟨cut.token, above, below, ?_⟩, ?_, nextBegins.1, ?_,
      cut.kept⟩
    · unfold setParam
      simp only [isCut, noValue, Option.bind_some, Option.map_some]
    · rw [if_pos isValue]
    · rw [remainder, if_pos isValue]
      exact cut.rest
    · rw [remainder, if_pos isValue]
      exact nextClean
  · rcases strtok_of_token nextBegins nextClean cut.rest (by omega) isValue with
      ⟨paramVal, next, isNextCut, nextCut⟩
    rcases Cut.next nextCut nextClean isValue with
      ⟨lastBegins, lastClean, nextEnds, nextAbove, nextBelow, -⟩
    have someRest : rest equals text ≠ [] := by
      intro noRest
      unfold valueOf at isValue
      rw [noRest] at isValue
      exact isValue rfl
    have before := apart someRest
    refine ⟨⟨paramKey, paramVal⟩, next, ?_, ⟨?_, above, below, ?_⟩, ?_, lastBegins.1, ?_, ?_⟩
    · unfold setParam
      simp only [isCut, isNextCut, Option.bind_some, Option.map_some]
    · refine cut.token.congr fun address atLeast less => ?_
      exact nextCut.kept address (by omega) (.inl (by omega))
    · rw [if_neg isValue]
      exact ⟨nextCut.token, by show place ≤ paramVal; omega,
        by show paramVal + (token equals (rest equals text)).length ≤ _; omega⟩
    · rw [remainder, if_neg isValue]
      exact nextCut.rest
    · rw [remainder, if_neg isValue]
      exact lastClean
    · intro address addressBound outside
      rw [nextCut.kept address addressBound (by omega)]
      exact cut.kept address addressBound outside

/-- The parameters that the tokens are parsed into. -/
def Parsed (memory : Memory) : List (Nat × Str) → List Param → Prop :=
  List.Forall₂ fun found param => ParamAt memory found.1 found.2 param

def Keyed (found : List (Nat × Str)) : Prop := ∀ other ∈ found, token equals other.2 ≠ []

theorem foldlM_setParam {first last : Nat} {found : List (Nat × Str)} (positive : first ≠ 0)
    (laid : Laid state.memory last first found) (bound : last < space)
    (clean : ∀ other ∈ found, 0 ∉ other.2) (keyed : Keyed found) (params : List Param) :
    ∃ more next, (found.map Prod.fst).foldlM setParam (params, state) =
        some (params ++ more, next) ∧
      Parsed next.memory found more ∧
      (∀ other, found.getLast? = some other →
        StringAt next.memory next.storedString (remainder other.2) ∧ next.storedString ≠ 0 ∧
          0 ∉ remainder other.2) ∧
      ∀ address < space, address < first ∨ last ≤ address →
        load next.memory address = load state.memory address := by
  induction found generalizing first state params with
  | nil =>
      refine ⟨[], state, ?_, .nil, ?_, fun _ _ _ => rfl⟩
      · rw [List.append_nil]
        rfl
      · intro other isLast
        cases isLast
  | cons head others induction =>
      rcases head with ⟨place, text⟩
      rcases laid with ⟨above, below, isString, laid⟩
      have textClean : 0 ∉ text := clean _ List.mem_cons_self
      have textKeyed : token equals text ≠ [] := keyed _ List.mem_cons_self
      rcases setParam_spec textClean (by omega) isString (by omega) textKeyed params with
        ⟨param, middle, isParam, isParamAt, isRest, cursor, restClean, kept⟩
      have keptLater : ∀ address, place + text.length + 1 ≤ address → address ≤ last →
          load middle.memory address = load state.memory address := by
        intro address atLeast atMost
        exact kept address (by omega) (.inr (by omega))
      rcases @induction middle (place + text.length + 1) (by omega) (laid.congr keptLater)
        (fun other isMember => clean other (List.mem_cons_of_mem _ isMember))
        (fun other isMember => keyed other (List.mem_cons_of_mem _ isMember))
        (params ++ [param]) with ⟨more, next, folded, parsed, isLast, keptNext⟩
      have isParamNext : ParamAt next.memory place text param :=
        isParamAt.congr fun address atLeast atMost =>
          keptNext address (by omega) (.inl (by omega))
      refine ⟨param :: more, next, ?_, .cons isParamNext parsed, ?_, ?_⟩
      · rw [List.map_cons, List.foldlM_cons, isParam]
        simpa using folded
      · intro other isOther
        cases others with
        | nil =>
            cases isOther
            have same : middle = next := (Prod.mk.inj (Option.some_inj.mp folded)).2
            rw [← same]
            exact ⟨isRest, cursor, restClean⟩
        | cons following others => exact isLast other (by simpa using isOther)
      · intro address addressBound outside
        rw [keptNext address addressBound (by omega)]
        exact kept address addressBound (by omega)

theorem Parsed.congr {found : List (Nat × Str)} {params : List Param}
    (parsed : Parsed memory found params) {before other : Memory} {first last : Nat}
    (laid : Laid before last first found)
    (same : ∀ address, first ≤ address → address ≤ last → load other address = load memory address) :
    Parsed other found params := by
  induction parsed generalizing first with
  | nil => exact .nil
  | cons isParam parsed induction =>
      rcases laid with ⟨above, below, -, laid⟩
      refine .cons (isParam.congr fun address atLeast atMost => ?_) (induction laid ?_)
      · exact same address (by omega) (by omega)
      · exact fun address atLeast atMost => same address (by omega) atMost

/-! ## Finding a parameter -/

theorem strcmpFrom_eq {string other : Str} (clean : 0 ∉ string) (otherClean : 0 ∉ other)
    {str1 str2 fuel : Nat} (isString : StringAt memory str1 string)
    (isOther : StringAt memory str2 other) (enough : string.length < fuel) :
    strcmpFrom memory fuel str1 str2 = some (if string = other then 0 else 1) := by
  induction string generalizing other str1 str2 fuel with
  | nil =>
      have ends : load memory str1 = 0 := isString.ends
      cases fuel with
      | zero => cases enough
      | succ fuel =>
          cases other with
          | nil =>
              have otherEnds : load memory str2 = 0 := isOther.ends
              rw [strcmpFrom, if_neg (by simp [ends, otherEnds])]
              rfl
          | cons byte other =>
              have nonzero := isOther.load_ne_zero otherClean (Nat.zero_lt_succ _)
              rw [Nat.add_zero] at nonzero
              rw [strcmpFrom, if_pos (.inr nonzero), if_pos (by rw [ends]; exact Ne.symm nonzero)]
              rfl
  | cons byte string induction =>
      have isByte : load memory str1 = byte := isString.bytes 0 (Nat.zero_lt_succ _)
      rw [List.mem_cons, not_or] at clean
      have nonzero : load memory str1 ≠ 0 := isByte ▸ Ne.symm clean.1
      cases fuel with
      | zero => cases enough
      | succ fuel =>
          rw [strcmpFrom, if_pos (.inl nonzero)]
          cases other with
          | nil =>
              have otherEnds : load memory str2 = 0 := isOther.ends
              rw [if_pos (by rw [otherEnds]; exact nonzero)]
              rfl
          | cons otherByte other =>
              have isOtherByte : load memory str2 = otherByte :=
                isOther.bytes 0 (Nat.zero_lt_succ _)
              rw [List.mem_cons, not_or] at otherClean
              rw [isByte, isOtherByte]
              by_cases same : byte = otherByte
              · rw [if_neg (not_not_intro same),
                  induction clean.2 otherClean.2 isString.tail isOther.tail
                    (Nat.lt_of_succ_lt_succ enough)]
                simp [same]
              · rw [if_pos same]
                simp [same]

theorem strcmp_eq {string other : Str} (clean : 0 ∉ string) (otherClean : 0 ∉ other)
    {str1 str2 : Nat} (isNull : str1 ≠ 0) (otherNull : str2 ≠ 0)
    (isString : StringAt memory str1 string) (isOther : StringAt memory str2 other)
    (bound : string.length < space) :
    strcmp memory str1 str2 = some (if string = other then 0 else 1) := by
  unfold strcmp
  rw [if_neg (not_or.mpr ⟨isNull, otherNull⟩)]
  exact strcmpFrom_eq clean otherClean isString isOther bound

/-- The value of the first parameter with the key, or `NULL`. -/
theorem paramsFindByKey_eq {found : List (Nat × Str)} {params : List Param}
    (parsed : Parsed memory found params) {before : Memory} {first last : Nat}
    (positive : first ≠ 0) (laid : Laid before last first found) (bound : last < space)
    (clean : ∀ other ∈ found, 0 ∉ token equals other.2) {key : Nat} {keyText : Str}
    (keyNull : key ≠ 0) (keyClean : 0 ∉ keyText) (isKey : StringAt memory key keyText) :
    ∃ pointer, paramsFindByKey memory key params = some pointer ∧
      match found.find? fun other => token equals other.2 = keyText with
      | none => pointer = 0
      | some other =>
          if valueOf other.2 = [] then pointer = 0
          else pointer ≠ 0 ∧ StringAt memory pointer (valueOf other.2) := by
  induction parsed generalizing first with
  | nil => exact ⟨0, rfl, rfl⟩
  | @cons head param others params isParam parsed induction =>
      rcases head with ⟨place, text⟩
      rcases laid with ⟨above, below, -, laid⟩
      have keyAbove := isParam.keyAbove
      have keyBelow := isParam.keyBelow
      have value := isParam.value
      simp only at keyAbove keyBelow value
      have compared := strcmp_eq (clean _ List.mem_cons_self) keyClean (by omega) keyNull
        isParam.key isKey (by simp only; omega)
      rw [paramsFindByKey, compared, Option.bind_some, List.find?_cons]
      by_cases same : token equals text = keyText
      · rw [if_pos same, if_pos rfl]
        refine ⟨param.paramVal, rfl, ?_⟩
        simp only [same, decide_true]
        split
        next noValue => rwa [if_pos noValue] at value
        next someValue =>
          rw [if_neg someValue] at value
          exact ⟨by omega, value.1⟩
      · rw [if_neg same, if_neg (by decide)]
        simp only [same, decide_false]
        exact induction (by omega) laid fun other isMember =>
          clean other (List.mem_cons_of_mem _ isMember)

/-! ## Parsing a command line -/

theorem strtok_none (cursor : state.storedString ≠ 0) :
    strtok state 0 none =
      if load state.memory state.storedString = 0 then some (0, state) else none := by
  have unrolled : skipDelimiters state.memory none space state.storedString =
      if load state.memory state.storedString = 0 then some none else none := rfl
  unfold strtok
  simp only [if_true, cursor, if_false]
  rw [unrolled]
  split
  · rfl
  · rfl

variable {cmd : Nat} {text : Str}

theorem collected_spec (clean : 0 ∉ text) (isNull : cmd ≠ 0) (isString : StringAt memory cmd text)
    (bound : cmd + text.length < space) (isToken : token comma text ≠ []) :
    ∃ middle, parseMultibootParams memory cmd =
        setParams ((tokensAt comma cmd text).map Prod.fst) middle ∧
      Laid middle.memory (cmd + text.length) cmd (tokensAt comma cmd text) ∧
      load middle.memory (cmd + text.length) = 0 := by
  have begins : Begins ⟨memory, 0⟩ cmd cmd := ⟨isNull, (if_neg isNull).symm⟩
  rcases strtok_of_token begins clean isString bound isToken with ⟨found, first, isCut, cut⟩
  rcases Cut.next cut clean isToken with ⟨nextBegins, nextClean, ends, -, -, -⟩
  have shorter := length_rest_lt isToken
  have enough : (rest comma text).length < space := by omega
  rcases collectParams_spec nextClean nextBegins cut.rest (by omega) enough [found] with
    ⟨middle, collected, laid, kept⟩
  rcases Laid.of_cut cut clean isToken bound laid kept with ⟨laid, kept⟩
  refine ⟨middle, ?_, laid, ?_⟩
  · unfold parseMultibootParams
    rw [tokensAt_of_token isToken, ← cut.isStored, ← cut.isFound, isCut]
    simp only [Option.bind_some, collected, List.map_cons, List.singleton_append]
  · rw [kept _ bound (.inr (Nat.le_refl _))]
    exact isString.ends

theorem cleanTokens (clean : 0 ∉ text) {other : Nat × Str}
    (isMember : other ∈ tokensAt comma cmd text) : 0 ∉ other.2 := fun inside =>
  clean (mem_of_mem_tokensAt isMember inside).1

theorem parse_spec (clean : 0 ∉ text) (isNull : cmd ≠ 0) (isString : StringAt memory cmd text)
    (bound : cmd + text.length < space) (isToken : token comma text ≠ [])
    (keyed : Keyed (tokensAt comma cmd text))
    (settled : ∀ other, (tokensAt comma cmd text).getLast? = some other → remainder other.2 = []) :
    ∃ params next before, parseMultibootParams memory cmd = some (params, next) ∧
      Laid before (cmd + text.length) cmd (tokensAt comma cmd text) ∧
      Parsed next.memory (tokensAt comma cmd text) params := by
  rcases collected_spec clean isNull isString bound isToken with ⟨middle, isParsed, laid, -⟩
  rcases foldlM_setParam isNull laid bound (fun other => cleanTokens clean) keyed [] with
    ⟨params, next, folded, parsed, isLast, -⟩
  refine ⟨params, next, middle.memory, ?_, laid, parsed⟩
  have nonempty : tokensAt comma cmd text ≠ [] := by
    rw [tokensAt_of_token isToken]
    exact List.cons_ne_nil _ _
  have last := List.getLast?_eq_some_getLast nonempty
  rcases isLast _ last with ⟨isRest, cursor, -⟩
  rw [settled _ last] at isRest
  have ends : load next.memory next.storedString = 0 := isRest.ends
  have flushed : strtok next 0 none = some (0, next) := by
    rw [strtok_none cursor, if_pos ends]
  rw [isParsed, setParams, folded, Option.bind_some]
  simp only [flushed, List.nil_append, Option.map_some]

/-! ## The round trip -/

/-- `key=value`. -/
def written (pair : Str × Str) : Str := pair.1 ++ equals :: pair.2

/-- `k1=v1,k2=v2` and so on. -/
def commandLine : List (Str × Str) → Str
  | [] => []
  | [pair] => written pair
  | pair :: other :: pairs => written pair ++ comma :: commandLine (other :: pairs)

/-- Keys and values are not empty, and have no separators and no 0. -/
def Plain (string : Str) : Prop :=
  string ≠ [] ∧ ∀ byte ∈ string, byte ≠ comma ∧ byte ≠ equals ∧ byte ≠ 0

theorem Plain.apart {string : Str} (plain : Plain string) :
    comma ∉ string ∧ equals ∉ string ∧ 0 ∉ string :=
  ⟨fun isMember => (plain.2 _ isMember).1 rfl, fun isMember => (plain.2 _ isMember).2.1 rfl,
    fun isMember => (plain.2 _ isMember).2.2 rfl⟩

def PlainPair (pair : Str × Str) : Prop := Plain pair.1 ∧ Plain pair.2

theorem PlainPair.parts {pair : Str × Str} (plain : PlainPair pair) :
    token equals (written pair) = pair.1 ∧ valueOf (written pair) = pair.2 ∧
      remainder (written pair) = [] := by
  have isKey := @token_append_delimiter _ _ equals pair.1 pair.2 plain.1.1 plain.1.apart.2.1
  have isValue := @token_self _ _ equals pair.2 plain.2.1 plain.2.apart.2.1
  have isValueOf : valueOf (written pair) = pair.2 := by
    unfold valueOf written
    rw [isKey.2.2, isValue.2.1]
  refine ⟨isKey.2.1, isValueOf, ?_⟩
  rw [remainder, if_neg (isValueOf ▸ plain.2.1)]
  unfold written
  rw [isKey.2.2, isValue.2.2]

theorem PlainPair.written {pair : Str × Str} (plain : PlainPair pair) :
    written pair ≠ [] ∧ comma ∉ written pair ∧ 0 ∉ written pair := by
  have keyApart := plain.1.apart
  have valueApart := plain.2.apart
  unfold Multiboot.written
  refine ⟨by simp, ?_, ?_⟩
  · simp only [List.mem_append, List.mem_cons, keyApart.1, valueApart.1, or_false, false_or]
    decide
  · simp only [List.mem_append, List.mem_cons, keyApart.2.2, valueApart.2.2, or_false, false_or]
    decide

theorem clean_commandLine {pairs : List (Str × Str)} (plain : ∀ pair ∈ pairs, PlainPair pair) :
    0 ∉ commandLine pairs := by
  fun_induction commandLine pairs with
  | case1 => exact List.not_mem_nil
  | case2 pair => exact (plain pair List.mem_cons_self).written.2.2
  | case3 pair other pairs induction =>
      rw [List.mem_append, List.mem_cons, not_or, not_or]
      exact ⟨(plain pair List.mem_cons_self).written.2.2, by decide,
        induction fun other isMember => plain other (List.mem_cons_of_mem _ isMember)⟩

theorem tokensAt_commandLine {pairs : List (Str × Str)} (plain : ∀ pair ∈ pairs, PlainPair pair)
    (start : Nat) :
    (tokensAt comma start (commandLine pairs)).map Prod.snd = pairs.map written := by
  fun_induction commandLine pairs generalizing start with
  | case1 =>
      rw [tokensAt_of_nil rfl]
      rfl
  | case2 pair =>
      have isWritten := (plain pair List.mem_cons_self).written
      have parts := token_self isWritten.1 isWritten.2.1
      rw [tokensAt_of_token (by rw [parts.2.1]; exact isWritten.1), parts.2.1, parts.2.2,
        tokensAt_of_nil rfl]
      rfl
  | case3 pair other pairs induction =>
      have isWritten := (plain pair List.mem_cons_self).written
      have parts := @token_append_delimiter _ _ _ _ (commandLine (other :: pairs)) isWritten.1
        isWritten.2.1
      rw [tokensAt_of_token (by rw [parts.2.1]; exact isWritten.1), parts.2.1, parts.2.2,
        List.map_cons, List.map_cons,
        induction fun other isMember => plain other (List.mem_cons_of_mem _ isMember)]

/-- After the command line is parsed, each key is found with the value of the first pair that
has it, as long as nothing else writes to the command line. -/
def RoundTrips (memory : Memory) (cmd : Nat) (pairs : List (Str × Str)) : Prop :=
  ∃ params next, parseMultibootParams memory cmd = some (params, next) ∧
    ∀ later, SameOn cmd (cmd + (commandLine pairs).length + 1) later next.memory →
      ∀ key keyText, key ≠ 0 → 0 ∉ keyText → StringAt later key keyText →
        ∃ pointer, paramsFindByKey later key params = some pointer ∧
          match pairs.find? fun pair => pair.1 = keyText with
          | none => pointer = 0
          | some pair => pointer ≠ 0 ∧ StringAt later pointer pair.2

theorem parseMultibootParams_roundTrips {pairs : List (Str × Str)} (nonempty : pairs ≠ [])
    (plain : ∀ pair ∈ pairs, PlainPair pair) (isNull : cmd ≠ 0)
    (isString : StringAt memory cmd (commandLine pairs))
    (bound : cmd + (commandLine pairs).length < space) : RoundTrips memory cmd pairs := by
  have clean := clean_commandLine plain
  have texts := tokensAt_commandLine plain cmd
  have isPair : ∀ other ∈ tokensAt comma cmd (commandLine pairs),
      ∃ pair ∈ pairs, written pair = other.2 := by
    intro other isMember
    have isText : other.2 ∈ pairs.map written := texts ▸ List.mem_map_of_mem isMember
    exact List.mem_map.mp isText
  have isToken : token comma (commandLine pairs) ≠ [] := by
    intro isNil
    rw [tokensAt_of_nil isNil] at texts
    exact nonempty (List.map_eq_nil_iff.mp texts.symm)
  have keyed : Keyed (tokensAt comma cmd (commandLine pairs)) := by
    intro other isMember
    rcases isPair other isMember with ⟨pair, isMember, isWritten⟩
    rw [← isWritten, (plain pair isMember).parts.1]
    exact (plain pair isMember).1.1
  have settled : ∀ other, (tokensAt comma cmd (commandLine pairs)).getLast? = some other →
      remainder other.2 = [] := by
    intro other isLast
    rcases isPair other (List.mem_of_getLast? isLast) with ⟨pair, isMember, isWritten⟩
    rw [← isWritten]
    exact (plain pair isMember).parts.2.2
  rcases parse_spec clean isNull isString bound isToken keyed settled with
    ⟨params, next, before, isParsed, laid, parsed⟩
  refine ⟨params, next, isParsed, fun later same key keyText keyNull keyClean isKey => ?_⟩
  have parsedLater : Parsed later (tokensAt comma cmd (commandLine pairs)) params :=
    parsed.congr laid fun address atLeast atMost => same address atLeast (by omega)
  have tokenClean : ∀ other ∈ tokensAt comma cmd (commandLine pairs),
      0 ∉ token equals other.2 := by
    intro other isMember
    rcases isPair other isMember with ⟨pair, isMember, isWritten⟩
    rw [← isWritten, (plain pair isMember).parts.1]
    exact (plain pair isMember).1.apart.2.2
  rcases paramsFindByKey_eq parsedLater isNull laid bound tokenClean keyNull keyClean isKey with
    ⟨pointer, isFound, isValue⟩
  refine ⟨pointer, isFound, ?_⟩
  have samePair : ((tokensAt comma cmd (commandLine pairs)).find? fun other =>
      token equals other.2 = keyText).map Prod.snd =
        (pairs.find? fun pair => pair.1 = keyText).map written := by
    have inTokens : (pairs.map written).find? (fun string => token equals string = keyText) =
        ((tokensAt comma cmd (commandLine pairs)).find? fun other =>
          token equals other.2 = keyText).map Prod.snd := by
      rw [← texts, List.find?_map]
      rfl
    have sameKeys : pairs.find? ((fun string => token equals string = keyText) ∘ written) =
        pairs.find? fun pair => pair.1 = keyText := by
      apply List.find?_congr
      intro pair isMember
      rw [Function.comp_apply, (plain pair isMember).parts.1]
    rw [← inTokens, List.find?_map, sameKeys]
  cases isPairFound : pairs.find? fun pair => pair.1 = keyText with
  | none =>
      rw [isPairFound, Option.map_none, Option.map_eq_none_iff] at samePair
      rw [samePair] at isValue
      exact isValue
  | some pair =>
      rw [isPairFound, Option.map_some, Option.map_eq_some_iff] at samePair
      rcases samePair with ⟨other, isOther, isWritten⟩
      rw [isOther] at isValue
      have isPlain := plain pair (List.mem_of_find?_eq_some isPairFound)
      simp only [isWritten, isPlain.parts.2.1, isPlain.2.1, if_false] at isValue
      exact isValue

/-- `a=b,c=d,a=e` at 16. -/
def keyTwiceLine : Memory :=
  storeBytes (fun _ => 0) 16
    [0x61, 0x3D, 0x62, 0x2C, 0x63, 0x3D, 0x64, 0x2C, 0x61, 0x3D, 0x65]

theorem parseMultibootParams_roundTrips_keyTwice :
    RoundTrips keyTwiceLine 16
      [([0x61], [0x62]), ([0x63], [0x64]), ([0x61], [0x65])] := by
  apply parseMultibootParams_roundTrips
  · decide
  · simp [PlainPair, Plain, comma, equals]
  · decide
  · constructor
    · decide
    · rfl
  · decide

end Dbos.Multiboot
