import Quench.Compute.JsonConstrain
import Quench.Lib.Runs

/-!
# The logit mask of JSON mode

`classify_token` of `compute/constrain_common.h` and `init`, `compute_allowed_mask`,
`sim_token_valid`, `update` and `apply_mask` of `compute/json_constrain.cu`. Tokens carry a bitfield
of categories, and a token that meets the one the state machine asks for is read through a copy of
it.

The preamble gate is closed and the device buffers are there. `applyMask` lists the tokens whose
logits the kernel leaves alone.
-/

namespace Quench

open Lib (isDigit)
open Json (byte isSpace isLower)

/-! ## Token categories -/

/-- `JsonTokenCat`. -/
inductive JsonTokenCat where
  | openBrace
  | closeBrace
  | openBracket
  | closeBracket
  | colon
  | comma
  | quote
  | stringChar
  | numberStart
  | trueStart
  | falseStart
  | nullStart
  | whitespace
  | literalCont
  | numberCont
  | eos
  deriving DecidableEq

/-- A bitfield of categories, as the list of those that are set. -/
abbrev CatMask := List JsonTokenCat

/-- The categories that are set under a condition. -/
def given (condition : Bool) (cats : CatMask) : CatMask := if condition then cats else []

/-- Two bitfields have a bit in common. -/
def CatMask.meets (cats mask : CatMask) : Bool := cats.any mask.contains

/-- `std::strchr` finds the terminator as well. -/
def strchr (text : List Char) (c : UInt8) : Bool := c == 0 || (text.map byte).contains c

/-- The structural character that a token is, or starts with. -/
def structuralCat (first : UInt8) : CatMask :=
  given (first == byte '{') [.openBrace] ++ given (first == byte '}') [.closeBrace] ++
    given (first == byte '[') [.openBracket] ++ given (first == byte ']') [.closeBracket] ++
    given (first == byte ':') [.colon] ++ given (first == byte ',') [.comma] ++
    given (first == byte '"') [.quote]

/-- `classify_token` for a token of one character. -/
def classifyChar (first : UInt8) : CatMask :=
  structuralCat first ++
    given (first == byte 't') [.trueStart, .stringChar, .literalCont] ++
    given (first == byte 'f') [.falseStart, .stringChar, .literalCont] ++
    given (first == byte 'n') [.nullStart, .stringChar, .literalCont] ++
    given (isDigit first) [.numberStart, .numberCont, .stringChar] ++
    given (first == byte '-') [.numberStart, .numberCont, .stringChar] ++
    given (first == byte '.' || first == byte 'e' || first == byte 'E' || first == byte '+')
      [.numberCont, .stringChar] ++
    given (isSpace first) [.whitespace] ++
    given (decide (32 ≤ first) && first != byte '"' && first != byte '\\') [.stringChar] ++
    given (strchr ['r', 'u', 'e', 'a', 'l', 's', 'k', 'l'] first) [.literalCont]

/-- `classify_token` for a longer token. -/
def classifyText (first : UInt8) (text : List UInt8) : CatMask :=
  let isWs := text.all isSpace
  let isStr := text.all fun c => !(decide (c < 32) || c == byte '"' || c == byte '\\')
  let isNum := text.all (strchr
    ['0', '1', '2', '3', '4', '5', '6', '7', '8', '9', '.', '-', '+', 'e', 'E'])
  let isLit := text.all isLower
  structuralCat first ++ given isWs [.whitespace] ++ given isStr [.stringChar] ++
    given isNum [.numberCont] ++
    given (isNum && (isDigit first || first == byte '-')) [.numberStart] ++
    given isLit [.literalCont] ++ given (isLit && first == byte 't') [.trueStart] ++
    given (isLit && first == byte 'f') [.falseStart] ++
    given (isLit && first == byte 'n') [.nullStart]

/-- `classify_token`. -/
def classifyToken : List UInt8 → CatMask
  | [] => [.whitespace]
  | [first] => classifyChar first
  | first :: rest => classifyText first (first :: rest)

/-- `0xFFFF`. -/
def allCats : CatMask :=
  [.openBrace, .closeBrace, .openBracket, .closeBracket, .colon, .comma, .quote, .stringChar,
    .numberStart, .trueStart, .falseStart, .nullStart, .whitespace, .literalCont, .numberCont, .eos]

/-- `CAT_VALUE_START`. -/
def catValueStart : CatMask :=
  [.openBrace, .openBracket, .quote, .numberStart, .trueStart, .falseStart, .nullStart]

/-! ## The mask of a state -/

namespace JsonFsm

variable (s : JsonFsm)

/-- The closers that `compute_allowed_mask` counts as still owed. -/
def needed : Nat :=
  s.stateStack.length +
    (if s.currentState ≠ .start ∧ s.currentState ≠ .done then 1 else 0) +
    (if s.currentState = .inStringEscape then 2
     else if s.currentState = .inString ∨ s.currentState = .objectKey then 1
     else 0)

/-- Whether the mask narrows to closers. -/
def forceClose (remainingBudget : Int) : Bool :=
  decide (0 ≤ remainingBudget ∧ s.currentState ≠ .done ∧ remainingBudget ≤ s.needed)

/-- The categories that a state asks for. -/
def stateCats : CatMask :=
  match s.currentState with
  | .start => [.openBrace, .openBracket]
  | .objectStart => [.quote, .closeBrace]
  | .afterKey => [.colon]
  | .afterColon => catValueStart
  | .afterValue => [.comma, .closeBrace]
  | .arrayStart => .closeBracket :: catValueStart
  | .arrayAfterValue => [.comma, .closeBracket]
  | .arrayNeedValue => catValueStart
  | .objectNeedKey => [.quote]
  | .inString => [.stringChar, .quote]
  | .inStringEscape => [.stringChar, .quote]
  | .inNumber => [.numberCont, .comma, .closeBrace, .closeBracket]
  | .inLiteral =>
    .literalCont ::
      if s.targetLiteral ≠ [] ∧ s.targetLiteral.length ≤ s.partialLiteral.length then
        [.comma, .closeBrace, .closeBracket]
      else []
  | .done => [.eos]
  | .objectKey => []

/-- `kMaxWsRun`. -/
def maxWsRun : Nat := 32

/-- `compute_allowed_mask`. -/
def computeAllowedMask (remainingBudget : Int) : CatMask :=
  if s.forceClose remainingBudget then
    if s.currentState = .inStringEscape then [.stringChar]
    else if s.currentState = .inString ∨ s.currentState = .objectKey then [.quote]
    else [.closeBrace, .closeBracket]
  else if s.currentState = .objectKey then allCats
  else given (s.wsRun < maxWsRun) [.whitespace] ++ s.stateCats

/-- `sim_token_valid`. -/
def simTokenValid (text : List UInt8) : Bool := (reader.read text s).isSome

/-- Read a text, whether its characters are accepted or not. -/
def advanceText (text : List UInt8) : JsonFsm :=
  Lib.runFrom (fun s c => (advanceChar c s).2) s text

end JsonFsm

/-- `string_token_needs_simulation`. -/
def stringTokenNeedsSimulation (text : List UInt8) : Bool :=
  text.any fun c => c == byte '"' || c == byte '\\' || decide (c < 0x20)

/-! ## The constrainer -/

/-- `JsonConstrainer`, with the texts of the vocabulary. -/
structure JsonConstrainer where
  tokenTexts : List (List UInt8)
  eosIds : List Int
  fsm : JsonFsm := .reset
  remainingBudget : Int := -1

namespace JsonConstrainer

variable (c : JsonConstrainer)

/-- `token_texts_`. -/
def tokenText (token : Nat) : List UInt8 := c.tokenTexts.getD token []

/-- `token_categories_`, as `init` fills them. -/
def tokenCategory (token : Nat) : CatMask :=
  if (token : Int) ∈ c.eosIds then [.eos] else classifyToken (c.tokenText token)

/-- `token_allow_` for one mask. -/
def tokenAllow (mask : CatMask) (token : Nat) : Bool :=
  (c.tokenCategory token).meets mask &&
    (c.tokenCategory token == [.eos] ||
      ((c.fsm.currentState == .inString || c.fsm.currentState == .inStringEscape) &&
        !stringTokenNeedsSimulation (c.tokenText token)) ||
      c.fsm.simTokenValid (c.tokenText token))

/-- The tokens that are classified, of the logits' width. -/
def classified (width : Nat) : List Nat := List.range (min width c.tokenTexts.length)

/-- The tokens allowed by one mask. -/
def allowed (width : Nat) (mask : CatMask) : List Nat :=
  (c.classified width).filter (c.tokenAllow mask)

/-- `apply_mask`: the tokens whose logits are left. If force-close leaves none, the ordinary mask
is tried; if that leaves none, the end of the text is allowed. -/
def applyMask (width : Nat) : List Nat :=
  let narrowed := c.allowed width (c.fsm.computeAllowedMask c.remainingBudget)
  let retried :=
    if narrowed = [] ∧ c.fsm.forceClose c.remainingBudget then
      c.allowed width (c.fsm.computeAllowedMask (-1))
    else narrowed
  if retried = [] then (c.classified width).filter (fun token => decide ((token : Int) ∈ c.eosIds))
  else retried

/-- `update`. -/
def update (token : Nat) : JsonConstrainer :=
  if token < c.tokenTexts.length then { c with fsm := c.fsm.advanceText (c.tokenText token) } else c

/-- A token is sampled, and one token fewer may follow. -/
def sample (token : Nat) : JsonConstrainer :=
  { c.update token with remainingBudget := c.remainingBudget - 1 }

end JsonConstrainer

end Quench
