import Quench.Compute.JsonGrammar
import Quench.Lib.Reader

/-!
# The JSON state machine

`JsonConstrainer::advance_char` of `compute/json_constrain.cu`. Every opener pushes its
continuation, the state in which the reader goes on once the construct is closed. A number ends at
the first character that does not continue it, and that character is read again in the parent state.

`std::vector` is a list with its back first. A refused character may leave the state changed.
-/

namespace Quench

open Lib (isDigit)
open Json (byte isSpace)

/-- `JsonState`. -/
inductive JsonState where
  | start
  | objectStart
  | objectKey
  | afterKey
  | afterColon
  | afterValue
  | arrayStart
  | arrayAfterValue
  | arrayNeedValue
  | objectNeedKey
  | inString
  | inStringEscape
  | inNumber
  | inLiteral
  | done
  deriving DecidableEq, Repr

/-- The members of `JsonConstrainer` that `advance_char` reads and writes. -/
structure JsonFsm where
  stateStack : List JsonState := []
  currentState : JsonState := .start
  wsRun : Nat := 0
  numSeenFrac : Bool := false
  numSeenExp : Bool := false
  numExpSignOk : Bool := false
  numNeedDigit : Bool := false
  partialLiteral : List UInt8 := []
  targetLiteral : List UInt8 := []
  deriving DecidableEq, Repr

namespace JsonFsm

/-- `reset`. -/
def reset : JsonFsm := {}

variable (c : UInt8) (s : JsonFsm)

/-- `enter_number_`. -/
def enterNumber : JsonFsm :=
  { s with
    numSeenFrac := false
    numSeenExp := false
    numExpSignOk := false
    numNeedDigit := c == byte '-' }

/-- Go on in the continuation on top of the stack. -/
def pop : JsonFsm :=
  match s.stateStack with
  | [] => { s with currentState := .done }
  | top :: rest => { s with currentState := top, stateStack := rest }

/-- Open a construct with this continuation. -/
def push (continuation state : JsonState) : JsonFsm :=
  { s with stateStack := continuation :: s.stateStack, currentState := state }

/-- Open a literal, whose first character has been read. -/
def pushLiteral (continuation : JsonState) (target : List Char) : JsonFsm :=
  { s.push continuation .inLiteral with
    targetLiteral := target.map byte
    partialLiteral := (target.map byte).take 1 }

/-- The branches that open a value, the same in an object and in an array but for the
continuation. -/
def openValue (continuation : JsonState) (c : UInt8) (s : JsonFsm) : Option JsonFsm :=
  if c = byte '"' then some (s.push continuation .inString)
  else if c = byte '{' then some (s.push continuation .objectStart)
  else if c = byte '[' then some (s.push continuation .arrayStart)
  else if c = byte 't' then some (s.pushLiteral continuation ['t', 'r', 'u', 'e'])
  else if c = byte 'f' then some (s.pushLiteral continuation ['f', 'a', 'l', 's', 'e'])
  else if c = byte 'n' then some (s.pushLiteral continuation ['n', 'u', 'l', 'l'])
  else if isDigit c || c == byte '-' then some ((s.push continuation .inNumber).enterNumber c)
  else none

/-- Whether a character continues the number, and the number's state after it. -/
def continueNumber : Option JsonFsm :=
  if isDigit c then some { s with numNeedDigit := false, numExpSignOk := false }
  else if c = byte '.' then
    if !s.numSeenFrac && !s.numSeenExp && !s.numNeedDigit then
      some { s with numSeenFrac := true, numNeedDigit := true }
    else none
  else if c = byte 'e' ∨ c = byte 'E' then
    if !s.numSeenExp && !s.numNeedDigit then
      some { s with numSeenExp := true, numExpSignOk := true, numNeedDigit := true }
    else none
  else if c = byte '+' ∨ c = byte '-' then
    if s.numExpSignOk then some { s with numExpSignOk := false, numNeedDigit := true } else none
  else none

/-- What one pass over the state machine does with a character. -/
inductive Step where
  | reject (s : JsonFsm)
  | accept (s : JsonFsm)
  | again (s : JsonFsm)

/-- Accept with a new state, or reject and keep the old one. -/
def acceptOr : Option JsonFsm → Step
  | some s' => .accept s'
  | none => .reject s

/-- The `switch` of `advance_char`, for a character that is not skipped as whitespace. -/
def dispatch : Step :=
  match s.currentState with
  | .start =>
    if c = byte '{' then .accept { s with currentState := .objectStart }
    else if c = byte '[' then .accept { s with currentState := .arrayStart }
    else .reject s
  | .objectStart | .objectNeedKey =>
    if c = byte '"' then .accept (s.push .afterKey .inString)
    else if c = byte '}' then
      if s.currentState = .objectNeedKey then .reject s else .accept s.pop
    else .reject s
  | .afterKey =>
    if c = byte ':' then .accept { s with currentState := .afterColon } else .reject s
  | .afterColon => s.acceptOr (s.openValue .afterValue c)
  | .afterValue =>
    if c = byte ',' then .accept { s with currentState := .objectNeedKey }
    else if c = byte '}' then .accept s.pop
    else .reject s
  | .arrayStart | .arrayNeedValue =>
    if c = byte ']' then
      if s.currentState = .arrayNeedValue then .reject s else .accept s.pop
    else s.acceptOr (s.openValue .arrayAfterValue c)
  | .arrayAfterValue =>
    if c = byte ',' then .accept { s with currentState := .arrayNeedValue }
    else if c = byte ']' then .accept s.pop
    else .reject s
  | .inString =>
    if c = byte '\\' then .accept { s with currentState := .inStringEscape }
    else if c = byte '"' then .accept s.pop
    else if c < 0x20 then .reject s
    else .accept s
  | .inStringEscape =>
    if c < 0x20 then .reject s else .accept { s with currentState := .inString }
  | .inNumber =>
    match s.continueNumber c with
    | some s' => .accept s'
    | none => if s.numNeedDigit then .reject s else .again s.pop
  | .inLiteral =>
    if s.targetLiteral[s.partialLiteral.length]? = some c then
      let s := { s with partialLiteral := s.partialLiteral ++ [c] }
      .accept (if s.targetLiteral.length ≤ s.partialLiteral.length then s.pop else s)
    else .reject s
  | .done => .reject s
  -- no `case`: `OBJECT_KEY` falls through the `switch`
  | .objectKey => .accept s

/-- A run of whitespace ends. -/
def endSpace : JsonFsm := { s with wsRun := 0 }

/-- Whitespace outside strings is skipped and counted. -/
def skipOrDispatch : Step :=
  if s.currentState ≠ .inString ∧ s.currentState ≠ .inStringEscape ∧ isSpace c then
    .accept { s with wsRun := s.wsRun + 1 }
  else dispatch c s.endSpace

/-- `advance_char` but for the reading again of a character. Whitespace ends a number before it is
skipped. -/
def readOnce : Step :=
  if s.currentState = .inNumber ∧ isSpace c then
    if s.numNeedDigit then .reject s else skipOrDispatch c s.pop
  else skipOrDispatch c s

/-- `advance_char` with at most `fuel` readings of the character. -/
def advanceWithFuel (c : UInt8) : Nat → JsonFsm → Bool × JsonFsm
  | 0, s => (false, s)
  | fuel + 1, s =>
    match readOnce c s with
    | .reject s => (false, s)
    | .accept s => (true, s)
    | .again s => advanceWithFuel c fuel s

/-- How often a character may still be read: each reading but the last pops the stack or ends the
document. -/
def readings : Nat := if s.currentState = .done then 0 else s.stateStack.length + 1

/-- `advance_char`. -/
def advanceChar : Bool × JsonFsm :=
  advanceWithFuel c (s.readings + 1) s

/-- The state machine as a reader. -/
def reader : Lib.Reader JsonFsm UInt8 where
  step c s := if (advanceChar c s).1 then some (advanceChar c s).2 else none

/-! ## Reading a character again -/

variable {c : UInt8} {s s' : JsonFsm}

@[simp]
theorem endSpace_currentState : s.endSpace.currentState = s.currentState := rfl

@[simp]
theorem endSpace_stateStack : s.endSpace.stateStack = s.stateStack := rfl

@[simp]
theorem endSpace_numNeedDigit : s.endSpace.numNeedDigit = s.numNeedDigit := rfl

@[simp]
theorem endSpace_partialLiteral : s.endSpace.partialLiteral = s.partialLiteral := rfl

@[simp]
theorem endSpace_targetLiteral : s.endSpace.targetLiteral = s.targetLiteral := rfl

theorem acceptOr_ne_again (o : Option JsonFsm) : s.acceptOr o ≠ .again s' := by
  cases o <;> simp [acceptOr]

/-- Only the end of a number has its character read again. -/
theorem dispatch_again (h : dispatch c s = .again s') :
    s.currentState = .inNumber ∧ s' = s.pop := by
  obtain ⟨stack, state, ws, frac, exp, sign, digit, spelled, target⟩ := s
  cases state <;> simp only [dispatch] at h
  case inNumber =>
    split at h
    · cases h
    · split at h <;> cases h
      exact ⟨rfl, rfl⟩
  case afterColon => exact absurd h (acceptOr_ne_again _)
  case arrayStart | arrayNeedValue =>
    split at h
    · split at h <;> cases h
    · exact absurd h (acceptOr_ne_again _)
  all_goals (repeat' split at h) <;> cases h

/-- What an accepted character does, state by state. -/
inductive Accepted (c : UInt8) (s : JsonFsm) : JsonFsm → Prop where
  | root {state : JsonState} (h : s.currentState = .start)
      (hc : c = byte '{' ∧ state = .objectStart ∨ c = byte '[' ∧ state = .arrayStart) :
      Accepted c s { s with currentState := state }
  | key (h : s.currentState = .objectStart ∨ s.currentState = .objectNeedKey)
      (hc : c = byte '"') :
      Accepted c s (s.push .afterKey .inString)
  | colon (h : s.currentState = .afterKey) (hc : c = byte ':') :
      Accepted c s { s with currentState := .afterColon }
  | value {k : JsonState} {s' : JsonFsm}
      (h : s.currentState = .afterColon ∧ k = .afterValue ∨
        (s.currentState = .arrayStart ∨ s.currentState = .arrayNeedValue) ∧ k = .arrayAfterValue)
      (hopen : s.openValue k c = some s') : Accepted c s s'
  | comma {state : JsonState}
      (h : s.currentState = .afterValue ∧ state = .objectNeedKey ∨
        s.currentState = .arrayAfterValue ∧ state = .arrayNeedValue)
      (hc : c = byte ',') :
      Accepted c s { s with currentState := state }
  | close (h : s.currentState = .objectStart ∨ s.currentState = .afterValue ∨
      s.currentState = .arrayStart ∨ s.currentState = .arrayAfterValue ∨
      s.currentState = .inString) : Accepted c s s.pop
  | escape (h : s.currentState = .inString) :
      Accepted c s { s with currentState := .inStringEscape }
  | escaped (h : s.currentState = .inStringEscape) :
      Accepted c s { s with currentState := .inString }
  | char (h : s.currentState = .inString ∨ s.currentState = .objectKey) : Accepted c s s
  | number {s' : JsonFsm} (h : s.currentState = .inNumber) (hnext : s.continueNumber c = some s') :
      Accepted c s s'
  | letter (h : s.currentState = .inLiteral)
      (hc : s.targetLiteral[s.partialLiteral.length]? = some c)
      (hmore : (s.partialLiteral ++ [c]).length < s.targetLiteral.length) :
      Accepted c s { s with partialLiteral := s.partialLiteral ++ [c] }
  | lastLetter (h : s.currentState = .inLiteral)
      (hc : s.targetLiteral[s.partialLiteral.length]? = some c) :
      Accepted c s { s with partialLiteral := s.partialLiteral ++ [c] }.pop

theorem acceptOr_eq_accept {o : Option JsonFsm} (h : s.acceptOr o = .accept s') : o = some s' := by
  cases o with
  | none => cases h
  | some t =>
    cases h
    rfl

theorem dispatch_accept (h : dispatch c s = .accept s') : Accepted c s s' := by
  obtain ⟨stack, state, ws, frac, exp, sign, digit, spelled, target⟩ := s
  cases state <;> simp only [dispatch, reduceCtorEq, if_false, if_true, ite_self] at h
  case start =>
    split_ifs at h with hbrace hbracket <;> cases h
    · exact .root rfl (.inl ⟨hbrace, rfl⟩)
    · exact .root rfl (.inr ⟨hbracket, rfl⟩)
  case objectStart =>
    split_ifs at h with hquote <;> cases h
    · exact .key (.inl rfl) hquote
    · exact .close (.inl rfl)
  case objectNeedKey =>
    split_ifs at h with hquote
    cases h
    exact .key (.inr rfl) hquote
  case afterKey =>
    split_ifs at h with hcolon
    cases h
    exact .colon rfl hcolon
  case afterColon => exact .value (.inl ⟨rfl, rfl⟩) (acceptOr_eq_accept h)
  case afterValue =>
    split_ifs at h with hcomma <;> cases h
    · exact .comma (.inl ⟨rfl, rfl⟩) hcomma
    · exact .close (.inr (.inl rfl))
  case arrayStart =>
    split at h
    · cases h
      exact .close (.inr (.inr (.inl rfl)))
    · exact .value (.inr ⟨.inl rfl, rfl⟩) (acceptOr_eq_accept h)
  case arrayNeedValue =>
    split at h
    · cases h
    · exact .value (.inr ⟨.inr rfl, rfl⟩) (acceptOr_eq_accept h)
  case arrayAfterValue =>
    split_ifs at h with hcomma <;> cases h
    · exact .comma (.inr ⟨rfl, rfl⟩) hcomma
    · exact .close (.inr (.inr (.inr (.inl rfl))))
  case inString =>
    split_ifs at h <;> cases h
    · exact .escape rfl
    · exact .close (.inr (.inr (.inr (.inr rfl))))
    · exact .char (.inl rfl)
  case inStringEscape =>
    split_ifs at h
    cases h
    exact .escaped rfl
  case inNumber =>
    split at h
    next hnext =>
      cases h
      exact .number rfl hnext
    next => split at h <;> cases h
  case inLiteral =>
    split_ifs at h with hnext hend <;> cases h
    · exact .lastLetter rfl hnext
    · exact .letter rfl hnext (Nat.lt_of_not_le hend)
  case objectKey =>
    cases h
    exact .char (.inr rfl)

/-- A refused character leaves the state it was refused in. -/
theorem dispatch_reject (h : dispatch c s = .reject s') : s' = s := by
  have hopen : ∀ o : Option JsonFsm, s.acceptOr o = .reject s' → s' = s := by
    intro o ho
    cases o with
    | none =>
      cases ho
      rfl
    | some t => cases ho
  obtain ⟨stack, state, ws, frac, exp, sign, digit, spelled, target⟩ := s
  cases state <;> simp only [dispatch] at h
  case afterColon => exact hopen _ h
  case arrayStart | arrayNeedValue =>
    split at h
    · split at h <;> cases h
      rfl
    · exact hopen _ h
  all_goals (repeat' split at h) <;> cases h <;> rfl

/-- A character is skipped or accepted, or it is refused. -/
theorem skipOrDispatch_accept (h : skipOrDispatch c s = .accept s') :
    s' = { s with wsRun := s.wsRun + 1 } ∨ Accepted c s.endSpace s' := by
  rw [skipOrDispatch] at h
  split at h
  · cases h
    exact .inl rfl
  · exact .inr (dispatch_accept h)

theorem skipOrDispatch_reject (h : skipOrDispatch c s = .reject s') : s' = s.endSpace := by
  rw [skipOrDispatch] at h
  split at h
  · cases h
  · exact dispatch_reject h

theorem skipOrDispatch_again (h : skipOrDispatch c s = .again s') :
    s.currentState = .inNumber ∧ isSpace c = false ∧ s' = s.endSpace.pop := by
  rw [skipOrDispatch] at h
  split at h
  · cases h
  · rename_i hskip
    obtain ⟨hstate, rfl⟩ := dispatch_again h
    refine ⟨hstate, ?_, rfl⟩
    change s.currentState = .inNumber at hstate
    simpa [hstate] using hskip

theorem readOnce_again (h : readOnce c s = .again s') :
    s.currentState = .inNumber ∧ s' = s.endSpace.pop := by
  rw [readOnce] at h
  split at h
  · rename_i hspace
    split at h
    · cases h
    · rw [(skipOrDispatch_again h).2.1] at hspace
      cases hspace.2
  · obtain ⟨hstate, _, rfl⟩ := skipOrDispatch_again h
    exact ⟨hstate, rfl⟩

theorem pop_readings (h : s.currentState = .inNumber) : s.pop.readings < s.readings := by
  have hs : s.readings = s.stateStack.length + 1 := by
    simp [readings, h]
  rw [hs]
  cases hstack : s.stateStack with
  | nil => simp [readings, pop, hstack]
  | cons top rest =>
    simp only [readings, pop, hstack, List.length_cons]
    split <;> omega

theorem advanceWithFuel_eq {n m : Nat} (hn : s.readings < n) (hm : s.readings < m) :
    advanceWithFuel c n s = advanceWithFuel c m s := by
  induction n generalizing m s with
  | zero => exact absurd hn (Nat.not_lt_zero _)
  | succ n ih =>
    cases m with
    | zero => exact absurd hm (Nat.not_lt_zero _)
    | succ m =>
      rw [advanceWithFuel, advanceWithFuel]
      cases hread : readOnce c s with
      | reject t => rfl
      | accept t => rfl
      | again t =>
        obtain ⟨hstate, rfl⟩ := readOnce_again hread
        have hlt : s.endSpace.pop.readings < s.readings :=
          pop_readings (s := s.endSpace) hstate
        exact ih (by omega) (by omega)

/-- `advance_char` calls itself where a character is read again. -/
theorem advanceChar_eq : advanceChar c s =
      match readOnce c s with
      | .reject s => (false, s)
      | .accept s => (true, s)
      | .again s => advanceChar c s := by
  rw [advanceChar, advanceWithFuel]
  cases hread : readOnce c s with
  | reject t => rfl
  | accept t => rfl
  | again t =>
    obtain ⟨hstate, rfl⟩ := readOnce_again hread
    exact advanceWithFuel_eq (pop_readings (s := s.endSpace) hstate) (Nat.lt_succ_self _)

/-- The rule for one character, accepted or not: what holds of a state, whatever whitespace it has
counted and if a number ends in it, holds in another form after the character. -/
theorem advanceChar_rule {P Q : JsonFsm → Prop} (hspace : ∀ s n, P s → P { s with wsRun := n })
    (hstay : ∀ s, P s → Q s) (haccept : ∀ s t, P s → Accepted c s t → Q t)
    (hpop : ∀ s, P s → s.currentState = .inNumber → P s.pop) (hs : P s) :
    Q (advanceChar c s).2 := by
  have hreject : ∀ s t, P s → skipOrDispatch c s = .reject t → Q t := by
    intro s t hs h
    rw [skipOrDispatch_reject h]
    exact hstay _ (hspace s 0 hs)
  have hmove : ∀ s t, P s → skipOrDispatch c s = .accept t → Q t := by
    intro s t hs h
    rcases skipOrDispatch_accept h with rfl | haccepted
    · exact hstay _ (hspace s _ hs)
    · exact haccept _ t (hspace s 0 hs) haccepted
  -- each further reading has popped a continuation
  induction hn : s.readings using Nat.strong_induction_on generalizing s with
  | _ n ih =>
    rw [advanceChar_eq]
    cases hread : readOnce c s with
    | again t =>
      obtain ⟨hstate, rfl⟩ := readOnce_again hread
      have hlt : s.endSpace.pop.readings < n := hn ▸ pop_readings (s := s.endSpace) hstate
      exact ih _ hlt (hpop _ (hspace s 0 hs) hstate) rfl
    | reject t =>
      rw [readOnce] at hread
      split_ifs at hread with hnumber hneed
      · cases hread
        exact hstay _ hs
      · exact hreject _ t (hpop s hs hnumber.1) hread
      · exact hreject s t hs hread
    | accept t =>
      rw [readOnce] at hread
      split_ifs at hread with hnumber hneed
      · exact hmove _ t (hpop s hs hnumber.1) hread
      · exact hmove s t hs hread

theorem step_some (h : reader.step c s = some s') : (advanceChar c s).2 = s' := by
  change (if (advanceChar c s).1 then some (advanceChar c s).2 else none) = some s' at h
  split at h
  · exact Option.some.inj h
  · cases h

end JsonFsm

end Quench
