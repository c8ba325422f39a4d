import Quench.Compute.JsonConstrain

/-!
# What the JSON state machine reads

Every state of the machine stands for a list of grammar symbols, those still to be read: its own
construct, then what the continuations on the stack ask for. `symbols_cons` compares one character
with the grammar, in both directions. The machine accepts everything the grammar allows and, where
`legal` does not hold, more than that.

`read_document_iff` says which accepted texts are documents; `document_read` that every document is
accepted.
-/

namespace Quench.JsonFsm

open Json Lib List Listing NumberPlace

variable {state : JsonState}

/-! ## The symbols of a state -/

/-- What is left of the enclosing construct at a continuation. -/
def frame : JsonState → List Symbol
  | .afterKey => .rule .nameSeparator :: .rule .value :: object.afterItem
  | .afterValue => object.afterItem
  | .arrayAfterValue => array.afterItem
  | _ => []

/-- What is left of the text once the current construct is closed. -/
def closing (stack : List JsonState) : List Symbol := stack.flatMap frame ++ [.rule .ws]

/-- The place in a number that the flags stand for. -/
def place (s : JsonFsm) : NumberPlace :=
  if s.numSeenExp then
    if s.numExpSignOk then .letter else if s.numNeedDigit then .sign else .exponent
  else if s.numSeenFrac then
    if s.numNeedDigit then .point else .fraction
  else if s.numNeedDigit then .minus
  else .integer

/-- What is left of the current construct. -/
def construct (s : JsonFsm) : List Symbol :=
  match s.currentState with
  | .objectStart => object.atFirst
  | .objectNeedKey => object.atItem
  | .afterColon => .rule .ws :: .rule .value :: object.afterItem
  | .arrayStart => array.atFirst
  | .arrayNeedValue => array.atItem
  | .inString => [.rule .chars, lit '"']
  | .inStringEscape => [.rule .escaped, .rule .chars, lit '"']
  | .inNumber => s.place.symbols
  | .inLiteral => letters (s.targetLiteral.drop s.partialLiteral.length)
  | state => frame state

/-- The symbols still to be read. -/
def symbols (s : JsonFsm) : List Symbol :=
  if s.currentState = .start then [.rule .text] else s.construct ++ closing s.stateStack

/-- The states that are used as continuations. -/
def IsFrame (state : JsonState) : Prop :=
  state = .afterKey ∨ state = .afterValue ∨ state = .arrayAfterValue

/-- The states inside a string, a number or a literal. -/
def IsScalar (state : JsonState) : Prop :=
  state = .inString ∨ state = .inStringEscape ∨ state = .inNumber ∨ state = .inLiteral

/-- The invariant of the machine. -/
structure WellFormed (s : JsonFsm) : Prop where
  frames : ∀ state ∈ s.stateStack, IsFrame state
  root : s.currentState = .start ∨ s.currentState = .done → s.stateStack = []
  notKey : s.currentState ≠ .objectKey
  sign : s.numExpSignOk = true → s.numSeenExp = true ∧ s.numNeedDigit = true
  literal : s.currentState = .inLiteral → s.partialLiteral.length < s.targetLiteral.length ∧
    ∀ b ∈ s.targetLiteral, isLower b = true
  nested : IsScalar s.currentState → s.stateStack ≠ []

/-! ## Continuations -/

theorem closing_cons (state : JsonState) (stack : List JsonState) :
    closing (state :: stack) = frame state ++ closing stack := by
  rw [closing, closing, flatMap_cons, append_assoc]

variable {stack : List JsonState} {c : UInt8} {w : List UInt8} {s s' : JsonFsm} {rest : List Symbol}
  {l : Listing} {text : List UInt8}

theorem spaced_frame (h : IsFrame state) : Spaced (frame state ++ rest) := by
  rcases h with rfl | rfl | rfl
  · exact spaced_token (a := ':') rfl rfl
  · exact spaced_afterItem
  · exact spaced_afterItem

theorem spaced_closing (h : ∀ state ∈ stack, IsFrame state) : Spaced (closing stack) := by
  cases stack with
  | nil => exact spaced_ws fun c w _ hw => absurd hw (by simp)
  | cons top rest =>
    rw [closing_cons]
    exact spaced_frame (h top mem_cons_self)

theorem not_isNumberChar_of_isSpace (h : isSpace c = true) : isNumberChar c = false := by
  revert c
  exact @Gbnf.forall_byte _ (by decide +kernel)

theorem stops_of (h : ∀ c w, isSpace c = false → Yields rest (c :: w) → isNumberChar c = false) :
    Stops rest := by
  intro c w hw
  cases hc : isSpace c with
  | true => exact not_isNumberChar_of_isSpace hc
  | false => exact h c w hc hw

theorem stops_afterItem (hl : isNumberChar (byte l.closer) = false) :
    Stops (l.afterItem ++ rest) :=
  stops_of fun c w hc hw => by
    rcases (afterItem_cons hc).mp hw with ⟨rfl, _⟩ | ⟨rfl, _⟩
    · rfl
    · exact hl

theorem stops_frame (h : IsFrame state) : Stops (frame state ++ rest) := by
  rcases h with rfl | rfl | rfl
  · refine stops_of fun c w hc hw => ?_
    rw [((yields_token_cons (a := ':') rfl hc).mp hw).1]
    rfl
  · exact stops_afterItem rfl
  · exact stops_afterItem rfl

theorem stops_closing (h : ∀ state ∈ stack, IsFrame state) : Stops (closing stack) := by
  cases stack with
  | nil => exact stops_of fun c w hc hw => absurd ((yields_ws_cons hc).mp hw) (by simp)
  | cons top rest =>
    rw [closing_cons]
    exact stops_frame (h top mem_cons_self)

section

variable (h : ∀ state ∈ s.stateStack, IsFrame state)
include h

/-- Closing a construct leaves what the stack asks for. -/
theorem symbols_pop : s.pop.symbols = closing s.stateStack := by
  rw [pop]
  cases hstack : s.stateStack with
  | nil => rfl
  | cons top rest =>
    rcases h top (by rw [hstack]; exact mem_cons_self) with rfl | rfl | rfl <;> rfl

/-- After the end of a construct the reader is at a continuation. -/
theorem pop_state : s.pop.currentState = .done ∨ IsFrame s.pop.currentState := by
  rw [pop]
  cases hstack : s.stateStack with
  | nil => exact .inl rfl
  | cons top rest => exact .inr (h top (by rw [hstack]; exact mem_cons_self))

theorem pop_not_scalar : ¬ IsScalar s.pop.currentState := by
  rcases pop_state h with h | h | h | h <;> simp [IsScalar, h]

end

/-! ## One character -/

/-- What the grammar asks for and `advance_char` does not look at: a known escape after a backslash,
no whitespace inside a literal, no digit after a leading zero. -/
def legal (s : JsonFsm) (c : UInt8) (w : List UInt8) : Bool :=
  match s.currentState with
  | .inLiteral => !isSpace c
  | .inStringEscape => startsEscape (c :: w)
  | .afterColon | .arrayStart | .arrayNeedValue => !(c == byte '0' && startsDigit w)
  | .inNumber =>
    !(s.numNeedDigit && !s.numSeenFrac && !s.numSeenExp && c == byte '0' && startsDigit w)
  | _ => true

theorem step_eq (c : UInt8) (s : JsonFsm) :
    reader.step c s =
      match readOnce c s with
      | .reject _ => none
      | .accept t => some t
      | .again t => reader.step c t := by
  change (if (advanceChar c s).1 then some (advanceChar c s).2 else none) = _
  rw [advanceChar_eq]
  cases readOnce c s <;> rfl

/-- Outside strings and numbers whitespace is skipped. -/
theorem step_space (hc : isSpace c = true) (hscalar : ¬ IsScalar s.currentState) :
    reader.step c s = some { s with wsRun := s.wsRun + 1 } := by
  rw [step_eq, readOnce, if_neg (fun h => hscalar (.inr (.inr (.inl h.1)))), skipOrDispatch,
    if_pos ⟨fun h => hscalar (.inl h), fun h => hscalar (.inr (.inl h)), hc⟩]

/-- The state that a step leaves, if it is accepted. -/
def Step.next : Step → Option JsonFsm
  | .accept s => some s
  | _ => none

theorem step_dispatch (hnumber : s.currentState ≠ .inNumber)
    (hc : isSpace c = false ∨ s.currentState = .inString ∨ s.currentState = .inStringEscape) :
    reader.step c s = (dispatch c s.endSpace).next := by
  have hskip : ¬ (s.currentState ≠ .inString ∧ s.currentState ≠ .inStringEscape ∧ isSpace c) := by
    rintro ⟨hstring, hescape, hspace⟩
    rcases hc with hc | hc | hc
    · rw [hc] at hspace
      cases hspace
    · exact hstring hc
    · exact hescape hc
  rw [step_eq, readOnce, if_neg (fun h => hnumber h.1), skipOrDispatch, if_neg hskip]
  cases hd : dispatch c s.endSpace with
  | reject t => rfl
  | accept t => rfl
  | again t => exact absurd (dispatch_again hd).1 hnumber

/-- The symbols just after the first character of a number. -/
theorem symbols_enterNumber (k : JsonState) (c : UInt8) :
    ((s.push k .inNumber).enterNumber c).symbols =
      (if c = byte '-' then minus.symbols else integer.symbols) ++
        closing (k :: s.stateStack) := by
  by_cases h : c = byte '-'
  · subst h
    rfl
  · simp [symbols, enterNumber, push, construct, place, h]

/-- Opening a value. -/
theorem openValue_reads {k : JsonState} (hk : IsFrame k) (hc : isSpace c = false) :
    Yields (.rule .value :: frame k ++ closing s.stateStack) (c :: w) ↔
      ∃ s', openValue k c s = some s' ∧ (!(c == byte '0' && startsDigit w)) = true ∧
        Yields s'.symbols w := by
  rw [cons_append, value_cons (stops_frame hk) hc, ← closing_cons]
  by_cases hopener : c = byte '"' ∨ c = byte '{' ∨ c = byte '[' ∨ c = byte 't' ∨ c = byte 'f' ∨
      c = byte 'n'
  · have hdigit : isDigit c = false := by
      rcases hopener with rfl | rfl | rfl | rfl | rfl | rfl <;> decide
    rcases hopener with rfl | rfl | rfl | rfl | rfl | rfl
    all_goals
      simp [openValue, byte_inj, hdigit]
      rfl
  obtain ⟨hquote, hbrace, hbracket, htrue, hfalse, hnull⟩ :
      c ≠ byte '"' ∧ c ≠ byte '{' ∧ c ≠ byte '[' ∧ c ≠ byte 't' ∧ c ≠ byte 'f' ∧ c ≠ byte 'n' := by
    simpa only [not_or] using hopener
  by_cases hminus : c = byte '-'
  · subst hminus
    simp [openValue, byte_inj, show isDigit (byte '-') = false by decide, symbols_enterNumber,
      NumberPlace.symbols]
  by_cases hdigit : isDigit c = true
  · simp [openValue, hquote, hbrace, hbracket, htrue, hfalse, hnull, hminus, hdigit,
      symbols_enterNumber, NumberPlace.symbols, imp_iff_not_or]
  · simp [openValue, hquote, hbrace, hbracket, htrue, hfalse, hnull, hminus, hdigit]

theorem symbols_eq (h : s.currentState ≠ .start) :
    s.symbols = s.construct ++ closing s.stateStack :=
  if_neg h

/-- Between tokens whitespace makes no difference. -/
theorem spaced_symbols (hs : s.WellFormed) (hscalar : ¬ IsScalar s.currentState) :
    Spaced s.symbols := by
  by_cases hstart : s.currentState = .start
  · rw [symbols, if_pos hstart]
    exact spaced_text
  rw [symbols_eq hstart, construct]
  cases hstate : s.currentState with
  | start => exact absurd hstate hstart
  | done => exact spaced_closing hs.frames
  | objectStart => exact spaced_atFirst member_space
  | objectNeedKey => exact spaced_atItem member_space
  | afterColon => exact spaced_ws fun c w hc h => star_ws.skip (value_space _ c w hc h)
  | arrayStart => exact spaced_atFirst value_space
  | arrayNeedValue => exact spaced_atItem value_space
  | afterKey => exact spaced_frame (.inl rfl)
  | afterValue => exact spaced_frame (.inr (.inl rfl))
  | arrayAfterValue => exact spaced_frame (.inr (.inr rfl))
  | objectKey => exact absurd hstate hs.notKey
  | inString | inStringEscape | inNumber | inLiteral => exact absurd hstate (by simp_all [IsScalar])

/-- The machine takes a character as the grammar has it, and the rest follows. -/
def Reads (s : JsonFsm) (c : UInt8) (w : List UInt8) : Prop :=
  ∃ s', reader.step c s = some s' ∧ s.legal c w = true ∧ Yields s'.symbols w

theorem reads_iff_of_some (hstep : reader.step c s = some s') :
    s.Reads c w ↔ s.legal c w = true ∧ Yields s'.symbols w := by
  simp [Reads, hstep]

theorem not_reads_of_none (hstep : reader.step c s = none) : ¬ s.Reads c w := by
  simp [Reads, hstep]

theorem reads_space (hs : s.WellFormed) (hc : isSpace c = true)
    (hscalar : ¬ IsScalar s.currentState) : Yields s.symbols (c :: w) ↔ s.Reads c w := by
  have hzero : c ≠ byte '0' := by
    rintro rfl
    cases hc
  have hlegal : s.legal c w = true := by
    rw [legal]
    split <;> simp_all [IsScalar]
  rw [spaced_symbols hs hscalar c w hc, reads_iff_of_some (step_space hc hscalar)]
  simp only [hlegal, true_and]
  rfl

section Branch

variable {P A R : Prop} [Decidable P] {t r : JsonFsm} {step : Step}

variable (hlegal : s.legal c w = true)
  (hstep : reader.step c s = (if P then .accept t else step).next)
include hlegal hstep

/-- A branch of the `switch` that accepts a character against an alternative of the grammar. -/
theorem reads_branch (ht : P → (A ↔ Yields t.symbols w)) (hapart : P → ¬ R)
    (hrest : ¬ P → reader.step c s = step.next → (R ↔ s.Reads c w)) : P ∧ A ∨ R ↔ s.Reads c w := by
  by_cases h : P
  · rw [if_pos h] at hstep
    rw [reads_iff_of_some hstep]
    simp only [h, hapart h, hlegal, ht h, true_and, or_false]
  · rw [if_neg h] at hstep
    simp only [h, false_and, false_or, hrest h hstep]

/-- The last branch. -/
theorem reads_last (hnone : step.next = none) (ht : P → (A ↔ Yields t.symbols w)) :
    P ∧ A ↔ s.Reads c w := by
  rw [← or_false (P ∧ A)]
  exact reads_branch hlegal hstep ht (fun _ => not_false)
    fun _ hrest => iff_of_false not_false (not_reads_of_none (hrest.trans hnone))

end Branch

variable {t : JsonFsm} {state k : JsonState}

/-- Closing the current construct. -/
theorem yields_closing (hs : s.WellFormed) (ht : t.stateStack = s.stateStack) :
    Yields (closing s.stateStack) w ↔ Yields t.pop.symbols w := by
  have hframes := hs.frames
  rw [← ht] at hframes ⊢
  rw [symbols_pop hframes]

theorem yields_pop (hs : s.WellFormed) (ht : t.stateStack = s.stateStack) :
    Yields (.rule .ws :: closing s.stateStack) w ↔ Yields t.pop.symbols w := by
  rw [(spaced_closing hs.frames).absorb, yields_closing hs ht]

theorem next_acceptOr (o : Option JsonFsm) : (s.acceptOr o).next = o := by
  cases o <;> rfl

-- With the state machine's state in place, the `switch` and the symbols are computed.
section Between

variable (hc : isSpace c = false)
include hc

theorem start_reads (hs : s.WellFormed) (hstate : s.currentState = .start) :
    Yields s.symbols (c :: w) ↔ s.Reads c w := by
  have hstack : s.stateStack = [] := hs.root (.inl hstate)
  cases s
  cases hstate
  cases hstack
  refine (text_cons hc).trans (reads_branch rfl (step_dispatch (by simp) (.inl hc))
    (fun _ => Iff.rfl) ?_ fun _ hrest => reads_last rfl hrest rfl fun _ => Iff.rfl)
  rintro rfl ⟨h, _⟩
  exact absurd h (by decide)

theorem done_reads (hs : s.WellFormed) (hstate : s.currentState = .done) :
    Yields s.symbols (c :: w) ↔ s.Reads c w := by
  have hstack : s.stateStack = [] := hs.root (.inr hstate)
  cases s
  cases hstate
  cases hstack
  refine (yields_ws_cons hc).trans (iff_of_false (by simp) (not_reads_of_none ?_))
  exact step_dispatch (by simp) (.inl hc)

theorem objectStart_reads (hs : s.WellFormed) (hstate : s.currentState = .objectStart) :
    Yields s.symbols (c :: w) ↔ s.Reads c w := by
  cases s
  cases hstate
  refine ((atFirst_cons hc).trans (or_comm.trans (or_congr_left member_cons))).trans
    (reads_branch rfl (step_dispatch (by simp) (.inl hc)) (fun _ => Iff.rfl) ?_
      fun _ hrest => reads_last rfl hrest rfl fun _ => yields_pop hs rfl)
  rintro rfl ⟨h, _⟩
  exact absurd h (by decide)

theorem objectNeedKey_reads (hstate : s.currentState = .objectNeedKey) :
    Yields s.symbols (c :: w) ↔ s.Reads c w := by
  cases s
  cases hstate
  exact ((atItem_cons hc).trans member_cons).trans
    (reads_last rfl (step_dispatch (by simp) (.inl hc)) (by split <;> rfl) fun _ => Iff.rfl)

theorem afterKey_reads (hstate : s.currentState = .afterKey) :
    Yields s.symbols (c :: w) ↔ s.Reads c w := by
  cases s
  cases hstate
  exact (yields_token_cons (a := ':') rfl hc).trans
    (reads_last rfl (step_dispatch (by simp) (.inl hc)) rfl fun _ => Iff.rfl)

theorem afterColon_reads (hstate : s.currentState = .afterColon) :
    Yields s.symbols (c :: w) ↔ s.Reads c w := by
  have hstep := step_dispatch (s := s) (by simp [hstate]) (.inl hc)
  simp only [dispatch, endSpace_currentState, hstate, next_acceptOr] at hstep
  rw [symbols_eq (by simp [hstate]), construct, hstate, Reads, hstep, legal, hstate]
  exact (yields_ws_cons hc).trans (openValue_reads (s := s.endSpace) (.inr (.inl rfl)) hc)

theorem arrayNeedValue_reads (hstate : s.currentState = .arrayNeedValue) :
    Yields s.symbols (c :: w) ↔ s.Reads c w := by
  have hstep := step_dispatch (s := s) (by simp [hstate]) (.inl hc)
  have hopen : reader.step c s = openValue .arrayAfterValue c s.endSpace := by
    rw [hstep]
    simp only [dispatch, endSpace_currentState, hstate, if_true]
    split
    · rename_i h
      subst h
      rfl
    · exact next_acceptOr _
  rw [symbols_eq (by simp [hstate]), construct, hstate, Reads, hopen, legal, hstate]
  exact (atItem_cons hc).trans (openValue_reads (s := s.endSpace) (.inr (.inr rfl)) hc)

theorem arrayStart_reads (hs : s.WellFormed) (hstate : s.currentState = .arrayStart) :
    Yields s.symbols (c :: w) ↔ s.Reads c w := by
  have hstep := step_dispatch (s := s) (by simp [hstate]) (.inl hc)
  have hopen := openValue_reads (s := s.endSpace) (k := .arrayAfterValue) (w := w)
    (.inr (.inr rfl)) hc
  have hnone : ∀ t, openValue .arrayAfterValue (byte ']') t = none := fun _ => rfl
  simp only [dispatch, endSpace_currentState, hstate, reduceCtorEq, if_false] at hstep
  rw [symbols_eq (by simp [hstate]), construct, hstate]
  refine ((atFirst_cons hc).trans (or_congr_right hopen)).trans ?_
  by_cases hclose : c = byte ']'
  · subst hclose
    have hlegal : s.legal (byte ']') w = true := by
      rw [legal, hstate]
      rfl
    rw [reads_iff_of_some hstep]
    simp only [hnone, hlegal, reduceCtorEq, false_and, exists_false, or_false, true_and]
    exact (and_iff_right rfl).trans (yields_pop hs rfl)
  · rw [if_neg hclose, next_acceptOr] at hstep
    rw [Reads, hstep, legal, hstate]
    simp [array, hclose]

theorem afterItem_reads (hs : s.WellFormed)
    (hstate : s.currentState = .afterValue ∨ s.currentState = .arrayAfterValue) :
    Yields s.symbols (c :: w) ↔ s.Reads c w := by
  cases s
  rcases hstate with hstate | hstate <;> cases hstate
  all_goals
    refine (afterItem_cons hc).trans (reads_branch rfl (step_dispatch (by simp) (.inl hc))
      (fun _ => Iff.rfl) ?_ fun _ hrest => reads_last rfl hrest rfl fun _ => yields_pop hs rfl)
    rintro rfl ⟨h, _⟩
    exact absurd h (by decide)

end Between

theorem string_reads (hs : s.WellFormed) (hstate : s.currentState = .inString) :
    Yields s.symbols (c :: w) ↔ s.Reads c w := by
  cases s
  cases hstate
  refine (chars_cons.trans or_left_comm).trans ?_
  refine reads_branch rfl (step_dispatch (by simp) (.inr (.inl rfl))) (fun _ => Iff.rfl) ?_
    fun hescape hrest => reads_branch rfl hrest (fun _ => yields_closing hs rfl) ?_
      fun hquote hrest => ?_
  · rintro rfl (⟨h, _⟩ | ⟨h, _⟩)
    · exact absurd h (by decide)
    · exact absurd h (by decide)
  · rintro rfl ⟨h, _⟩
    exact absurd h (by decide)
  · by_cases hcontrol : c < 0x20
    · rw [if_pos hcontrol] at hrest
      simp [not_reads_of_none hrest, Class.admits, hcontrol]
    · rw [if_neg hcontrol] at hrest
      have hadmits : Class.unescaped.admits c = true := by
        simp [Class.admits, hquote, hescape, UInt8.not_lt.mp hcontrol]
      rw [reads_iff_of_some hrest, and_iff_right hadmits]
      exact (and_iff_right rfl).symm

theorem not_startsEscape (hc : c < 0x20) : startsEscape (c :: w) = false := by
  have hbyte : simpleEscapes.contains c = false ∧ (c == byte 'u') = false := by
    revert c
    exact @Gbnf.forall_byte _ (by decide +kernel)
  rw [startsEscape, hbyte.1, hbyte.2]
  rfl

theorem escape_reads (hstate : s.currentState = .inStringEscape) :
    Yields s.symbols (c :: w) ↔ s.Reads c w := by
  have hstep := step_dispatch (s := s) (c := c) (by simp [hstate]) (.inr (.inr hstate))
  simp only [dispatch, endSpace_currentState, hstate] at hstep
  rw [symbols_eq (by simp [hstate]), construct, hstate]
  refine escaped_cons.trans ?_
  by_cases hcontrol : c < 0x20
  · rw [if_pos hcontrol] at hstep
    simp [not_reads_of_none hstep, not_startsEscape hcontrol]
  · rw [if_neg hcontrol] at hstep
    rw [reads_iff_of_some hstep, legal, hstate]
    rfl

theorem not_isSpace_of_isLower (h : isLower c = true) : isSpace c = false := by
  revert c
  exact @Gbnf.forall_byte _ (by decide +kernel)

theorem literal_reads (hs : s.WellFormed) (hstate : s.currentState = .inLiteral) :
    Yields s.symbols (c :: w) ↔ s.Reads c w := by
  obtain ⟨hlt, hlower⟩ := hs.literal hstate
  rw [symbols_eq (by simp [hstate]), construct, hstate]
  rw [drop_eq_getElem_cons hlt, letters_cons, @eq_comm _ c]
  cases hc : isSpace c with
  | true =>
    have hne : s.targetLiteral[s.partialLiteral.length] ≠ c := by
      rintro rfl
      rw [not_isSpace_of_isLower (hlower _ (getElem_mem hlt))] at hc
      cases hc
    simp [Reads, legal, hstate, hc, hne]
  | false =>
    have hstep := step_dispatch (s := s) (by simp [hstate]) (.inl hc)
    have hlegal : s.legal c w = true := by simp [legal, hstate, hc]
    simp only [dispatch, endSpace_currentState, endSpace_partialLiteral,
      endSpace_targetLiteral, hstate, getElem?_eq_getElem hlt, Option.some.injEq] at hstep
    refine reads_last hlegal hstep rfl fun _ => ?_
    rw [length_append, length_singleton]
    split
    · rename_i hend
      rw [drop_of_length_le hend]
      exact yields_closing hs rfl
    · simp [symbols, construct]

/-- Every state but a number. -/
theorem other_reads (hs : s.WellFormed) (hnumber : s.currentState ≠ .inNumber) :
    Yields s.symbols (c :: w) ↔ s.Reads c w := by
  by_cases hstring : s.currentState = .inString
  · exact string_reads hs hstring
  by_cases hescape : s.currentState = .inStringEscape
  · exact escape_reads hescape
  by_cases hliteral : s.currentState = .inLiteral
  · exact literal_reads hs hliteral
  have hscalar : ¬ IsScalar s.currentState := by simp [IsScalar, *]
  cases hc : isSpace c with
  | true => exact reads_space hs hc hscalar
  | false =>
    cases hstate : s.currentState with
    | start => exact start_reads hc hs hstate
    | objectStart => exact objectStart_reads hc hs hstate
    | objectKey => exact absurd hstate hs.notKey
    | afterKey => exact afterKey_reads hc hstate
    | afterColon => exact afterColon_reads hc hstate
    | afterValue => exact afterItem_reads hc hs (.inl hstate)
    | arrayStart => exact arrayStart_reads hc hs hstate
    | arrayAfterValue => exact afterItem_reads hc hs (.inr hstate)
    | arrayNeedValue => exact arrayNeedValue_reads hc hstate
    | objectNeedKey => exact objectNeedKey_reads hc hstate
    | done => exact done_reads hc hs hstate
    | inString | inStringEscape | inNumber | inLiteral => contradiction

/-! ## The invariant -/

theorem wellFormed_reset : reset.WellFormed where
  frames := by simp [reset]
  root _ := rfl
  notKey := by decide
  sign := by simp [reset]
  literal := by simp [reset]
  nested := by simp [reset, IsScalar]

theorem WellFormed.wsRun (hs : s.WellFormed) (n : Nat) : { s with wsRun := n }.WellFormed :=
  { hs with }

/-- Closing a construct only asks that the stack holds continuations. -/
theorem wellFormed_pop (hframes : ∀ state ∈ s.stateStack, IsFrame state)
    (hsign : s.numExpSignOk = true → s.numSeenExp = true ∧ s.numNeedDigit = true) :
    s.pop.WellFormed := by
  cases hstack : s.stateStack with
  | nil =>
    rw [pop, hstack]
    exact ⟨by simp, fun _ => rfl, by simp, hsign, by simp, by simp [IsScalar]⟩
  | cons top rest =>
    have htop := hframes top (by rw [hstack]; exact mem_cons_self)
    rw [pop, hstack]
    refine ⟨fun state h => hframes state (by rw [hstack]; exact mem_cons_of_mem _ h), ?_, ?_,
      hsign, ?_, ?_⟩
    all_goals rcases htop with rfl | rfl | rfl <;> simp [IsScalar]

theorem WellFormed.pop (hs : s.WellFormed) : s.pop.WellFormed := wellFormed_pop hs.frames hs.sign

/-- Inside a container, between tokens or in a string. -/
def Inner (state : JsonState) : Prop :=
  state ≠ .start ∧ state ≠ .done ∧ state ≠ .objectKey ∧ state ≠ .inLiteral

section

variable (hs : s.WellFormed)
include hs

theorem WellFormed.goto (h : Inner state) (hscalar : IsScalar state → IsScalar s.currentState) :
    { s with currentState := state }.WellFormed :=
  ⟨hs.frames, fun hroot => (hroot.elim h.1 h.2.1).elim, h.2.2.1, hs.sign,
    fun hliteral => absurd hliteral h.2.2.2, fun hnested => hs.nested (hscalar hnested)⟩

theorem WellFormed.push (hk : IsFrame k) (h : Inner state) :
    (s.push k state).WellFormed := by
  refine ⟨?_, fun hroot => (hroot.elim h.1 h.2.1).elim, h.2.2.1, hs.sign,
    fun hliteral => absurd hliteral h.2.2.2, fun _ => cons_ne_nil _ _⟩
  intro state hmem
  rcases mem_cons.mp hmem with rfl | hmem
  · exact hk
  · exact hs.frames state hmem

theorem WellFormed.pushLiteral {target : List Char} (hk : IsFrame k)
    (hlength : 1 < target.length) (hlower : target.all (fun a => isLower (byte a)) = true) :
    (s.pushLiteral k target).WellFormed := by
  have hpush : (s.push k .inString).WellFormed := hs.push hk (by simp [Inner])
  refine ⟨hpush.frames, fun h => ?_, JsonState.noConfusion, hs.sign, fun _ => ⟨?_, ?_⟩,
    fun _ => cons_ne_nil _ _⟩
  · rcases h with h | h <;> cases h
  · change ((target.map byte).take 1).length < (target.map byte).length
    rw [length_take, length_map]
    omega
  · intro b hb
    obtain ⟨a, ha, rfl⟩ := mem_map.mp hb
    exact all_eq_true.mp hlower a ha

theorem WellFormed.enterNumber (c : UInt8) : (s.enterNumber c).WellFormed :=
  { hs with sign := fun h => absurd h (by simp [JsonFsm.enterNumber]) }

theorem WellFormed.openValue (hk : IsFrame k) (h : s.openValue k c = some s') :
    s'.WellFormed := by
  rw [JsonFsm.openValue] at h
  split_ifs at h <;> cases h
  · exact hs.push hk (by simp [Inner])
  · exact hs.push hk (by simp [Inner])
  · exact hs.push hk (by simp [Inner])
  · exact hs.pushLiteral hk (by decide) rfl
  · exact hs.pushLiteral hk (by decide) rfl
  · exact hs.pushLiteral hk (by decide) rfl
  · exact (hs.push hk (by simp [Inner])).enterNumber c

theorem WellFormed.continueNumber (h : s.continueNumber c = some s') :
    s'.WellFormed := by
  rw [JsonFsm.continueNumber] at h
  split_ifs at h <;> cases h
  · exact { hs with sign := fun h => absurd h (by simp) }
  · exact { hs with sign := fun h => ⟨(hs.sign h).1, rfl⟩ }
  · exact { hs with sign := fun _ => ⟨rfl, rfl⟩ }
  · exact { hs with sign := fun h => absurd h (by simp) }

theorem WellFormed.accepted (h : Accepted c s s') : s'.WellFormed := by
  cases h with
  | root hstate hnext =>
    refine hs.goto ?_ ?_ <;> rcases hnext with ⟨_, rfl⟩ | ⟨_, rfl⟩ <;> simp [Inner, IsScalar]
  | key hstate => exact hs.push (.inl rfl) (by simp [Inner])
  | colon hstate => exact hs.goto (by simp [Inner]) (by simp [IsScalar])
  | value hstate hopen =>
    rcases hstate with ⟨_, rfl⟩ | ⟨_, rfl⟩
    · exact hs.openValue (.inr (.inl rfl)) hopen
    · exact hs.openValue (.inr (.inr rfl)) hopen
  | comma hstate =>
    refine hs.goto ?_ ?_ <;> rcases hstate with ⟨_, rfl⟩ | ⟨_, rfl⟩ <;> simp [Inner, IsScalar]
  | close hstate => exact hs.pop
  | escape hstate => exact hs.goto (by simp [Inner]) (by simp [IsScalar, hstate])
  | escaped hstate => exact hs.goto (by simp [Inner]) (by simp [IsScalar, hstate])
  | char hstate => exact hs
  | number hstate hnext => exact hs.continueNumber hnext
  | letter hstate _ hmore =>
    exact { hs with literal := fun _ => ⟨hmore, (hs.literal hstate).2⟩ }
  | lastLetter hstate => exact wellFormed_pop hs.frames hs.sign

/-- The invariant survives every character, accepted or not. -/
theorem WellFormed.advanceChar (c : UInt8) : (advanceChar c s).2.WellFormed :=
  advanceChar_rule (fun _ n hs => hs.wsRun n) (fun _ hs => hs) (fun _ _ hs h => hs.accepted h)
    (fun _ hs _ => hs.pop) hs

theorem WellFormed.step (h : reader.step c s = some s') : s'.WellFormed := by
  rw [← step_some h]
  exact hs.advanceChar c

/-! ## Numbers -/

/-- The flags follow the place. -/
theorem continueNumber_place (c : UInt8) :
    (s.continueNumber c).map place = s.place.next c := by
  have hsign := hs.sign
  by_cases hdigit : isDigit c = true
  · cases hexp : s.numSeenExp <;> cases hok : s.numExpSignOk <;> cases hfrac : s.numSeenFrac <;>
      cases hneed : s.numNeedDigit <;> simp_all [continueNumber, place, NumberPlace.next]
  by_cases hpoint : c = byte '.'
  · cases hexp : s.numSeenExp <;> cases hok : s.numExpSignOk <;> cases hfrac : s.numSeenFrac <;>
      cases hneed : s.numNeedDigit <;> simp_all [continueNumber, place, NumberPlace.next, byte_inj]
  by_cases hletter : c = byte 'e' ∨ c = byte 'E'
  · have hnot : ¬ (c = byte '+' ∨ c = byte '-') := by
      rcases hletter with rfl | rfl <;> decide
    cases hexp : s.numSeenExp <;> cases hok : s.numExpSignOk <;> cases hfrac : s.numSeenFrac <;>
      cases hneed : s.numNeedDigit <;> simp_all [continueNumber, place, NumberPlace.next]
  · cases hexp : s.numSeenExp <;> cases hok : s.numExpSignOk <;> cases hfrac : s.numSeenFrac <;>
      cases hneed : s.numNeedDigit <;> simp_all [continueNumber, place, NumberPlace.next]

theorem place_complete : s.place.complete = !s.numNeedDigit := by
  have hsign := hs.sign
  rw [place]
  split_ifs <;> simp_all [complete]

end

theorem place_eq_minus : s.place = .minus ↔
    s.numNeedDigit = true ∧ s.numSeenFrac = false ∧ s.numSeenExp = false := by
  rw [place]
  split_ifs <;> simp_all

theorem legal_number (hstate : s.currentState = .inNumber) :
    s.legal c w = true ↔ (s.place = .minus → c = byte '0' → startsDigit w = false) := by
  rw [place_eq_minus, legal, hstate]
  cases s.numNeedDigit <;> cases s.numSeenFrac <;> cases s.numSeenExp <;> simp [imp_iff_not_or]

theorem continueNumber_frame (h : s.continueNumber c = some s') :
    s'.currentState = s.currentState ∧ s'.stateStack = s.stateStack := by
  rw [continueNumber] at h
  split_ifs at h <;> cases h <;> exact ⟨rfl, rfl⟩

theorem dispatch_number (hstate : s.currentState = .inNumber) :
    dispatch c s =
      match s.continueNumber c with
      | some s' => .accept s'
      | none => if s.numNeedDigit then .reject s else .again s.pop := by
  cases hnext : s.continueNumber c <;> simp [dispatch, hstate, hnext]

/-- Whitespace ends a number. -/
theorem step_number_space (hs : s.WellFormed) (hstate : s.currentState = .inNumber)
    (hc : isSpace c = true) :
    reader.step c s =
      if s.numNeedDigit then none else some { s.pop with wsRun := s.pop.wsRun + 1 } := by
  have hpop := pop_not_scalar hs.frames
  rw [step_eq, readOnce, if_pos ⟨hstate, hc⟩]
  cases s.numNeedDigit with
  | true => rfl
  | false =>
    rw [if_neg Bool.false_ne_true, skipOrDispatch,
      if_pos ⟨fun h => hpop (.inl h), fun h => hpop (.inr (.inl h)), hc⟩]
    rfl

theorem step_number (hstate : s.currentState = .inNumber) (hc : isSpace c = false) :
    reader.step c s =
      match continueNumber c s.endSpace with
      | some t => some t
      | none => if s.numNeedDigit then none else reader.step c s.endSpace.pop := by
  have hnot : ¬ isSpace c = true := by simp [hc]
  rw [step_eq, readOnce, if_neg (fun h => hnot h.2), skipOrDispatch, if_neg (fun h => hnot h.2.2),
    dispatch_number (s := s.endSpace) hstate, endSpace_numNeedDigit]
  cases continueNumber c s.endSpace with
  | some t => rfl
  | none =>
    cases s.numNeedDigit <;> rfl

theorem pop_legal (hs : s.WellFormed) : s.pop.legal c w = true := by
  rcases pop_state hs.frames with h | h | h | h <;> simp [legal, h]

theorem number_reads (hs : s.WellFormed) (hstate : s.currentState = .inNumber) :
    Yields s.symbols (c :: w) ↔ s.Reads c w := by
  have hs₀ : s.endSpace.WellFormed := hs.wsRun 0
  have hnext : (continueNumber c s.endSpace).map place = s.place.next c :=
    continueNumber_place hs₀ c
  have hsymbols : s.symbols = s.place.symbols ++ closing s.stateStack := by
    rw [symbols_eq (by simp [hstate]), construct, hstate]
  rw [hsymbols, symbols_cons (stops_closing hs.frames), place_complete hs, ← hnext]
  cases hcont : continueNumber c s.endSpace with
  | some t =>
    -- the number goes on, and nothing else could follow
    rw [hcont] at hnext
    have hnumber := isNumberChar_of_next hnext.symm
    have hc : isSpace c = false := by
      cases hc : isSpace c with
      | false => rfl
      | true =>
        rw [not_isNumberChar_of_isSpace hc] at hnumber
        cases hnumber
    have hno : ¬ Yields (closing s.stateStack) (c :: w) := by
      intro h
      rw [stops_closing hs.frames c w h] at hnumber
      cases hnumber
    have hstep := step_number hstate hc
    rw [hcont] at hstep
    have ht : t.symbols = t.place.symbols ++ closing s.stateStack := by
      obtain ⟨hcurrent, hstack⟩ := continueNumber_frame hcont
      rw [endSpace_currentState, hstate] at hcurrent
      rw [symbols_eq (by rw [hcurrent]; decide), construct, hcurrent, hstack]
      rfl
    rw [reads_iff_of_some hstep, legal_number hstate, ht]
    simp [hno]
  | none =>
    -- the number ends, if it may, and the character belongs to what follows
    have hlegal : s.numNeedDigit = false → s.legal c w = true := by
      intro h
      simp [legal, hstate, h]
    cases hc : isSpace c with
    | true =>
      have hstep := step_number_space hs hstate hc
      cases hneed : s.numNeedDigit with
      | true =>
        rw [hneed, if_pos rfl] at hstep
        simp [not_reads_of_none hstep]
      | false =>
        rw [hneed, if_neg Bool.false_ne_true] at hstep
        rw [reads_iff_of_some hstep, spaced_closing hs.frames c w hc, hlegal hneed,
          yields_closing hs rfl]
        simp only [Option.map_none, reduceCtorEq, false_and, exists_false, false_or,
          Bool.not_false, true_and]
        exact Iff.rfl
    | false =>
      have hstep := step_number hstate hc
      rw [hcont] at hstep
      cases hneed : s.numNeedDigit with
      | true =>
        simp only [hneed, if_true] at hstep
        simp [not_reads_of_none hstep]
      | false =>
        simp only [hneed, Bool.false_eq_true, if_false] at hstep
        have hpop := other_reads (c := c) (w := w) hs₀.pop fun h =>
          pop_not_scalar hs₀.frames (.inr (.inr (.inl h)))
        rw [Reads, hstep, hlegal hneed, yields_closing (t := s.endSpace) hs rfl, hpop, Reads,
          pop_legal hs₀]
        simp

/-- One character, in every state. -/
theorem symbols_cons (hs : s.WellFormed) : Yields s.symbols (c :: w) ↔ s.Reads c w := by
  by_cases hstate : s.currentState = .inNumber
  · exact number_reads hs hstate
  · exact other_reads hs hstate

/-! ## Whole texts -/

theorem not_yields_close {symbols : List Symbol} (h : .rule l.close ∈ symbols) :
    ¬ Yields symbols [] := by
  intro hw
  have hclose : Yields [.rule l.close] [] := hw.nil_of_mem h
  rw [yields_token l.close_bodies] at hclose
  have hletter : Yields [lit l.closer] [] := hclose.nil_of_mem (by simp)
  exact Productions.not_yields_letter_nil hletter

theorem not_yields_text : ¬ Yields [.rule .text] [] := by
  intro h
  rw [yields_rule] at h
  simp only [Rule.bodies, mem_cons, not_mem_nil, or_false, exists_eq_or_imp,
    exists_eq_left, cons_append, nil_append] at h
  rcases h with h | h
  · exact not_yields_close (l := .object) (by simp [object]) ((yields_rule_one rfl).mp
      (h.nil_of_mem (x := .rule .object) (by simp)))
  · exact not_yields_close (l := .array) (by simp [array]) ((yields_rule_one rfl).mp
      (h.nil_of_mem (x := .rule .array) (by simp)))

theorem frame_close (h : IsFrame state) : ∃ l : Listing, .rule l.close ∈ frame state := by
  rcases h with rfl | rfl | rfl
  · exact ⟨.object, by simp [frame, afterItem]⟩
  · exact ⟨.object, by simp [frame, afterItem]⟩
  · exact ⟨.array, by simp [frame, afterItem]⟩

/-- Only the end of the document leaves nothing to read. -/
theorem symbols_nil (hs : s.WellFormed) : Yields s.symbols [] ↔ s.currentState = .done := by
  constructor
  · intro h
    by_contra hdone
    by_cases hstart : s.currentState = .start
    · rw [symbols, if_pos hstart] at h
      exact not_yields_text h
    rw [symbols_eq hstart] at h
    by_cases hscalar : IsScalar s.currentState
    · -- the enclosing container is still open
      obtain ⟨top, rest, hstack⟩ := exists_cons_of_ne_nil (hs.nested hscalar)
      obtain ⟨l, hl⟩ := frame_close (hs.frames top (by simp [hstack]))
      refine not_yields_close (l := l) ?_ h
      rw [hstack, closing_cons]
      simp [hl]
    · cases hstate : s.currentState with
      | start => exact hstart hstate
      | done => exact hdone hstate
      | objectKey => exact hs.notKey hstate
      | inString | inStringEscape | inNumber | inLiteral =>
        exact hscalar (by simp [IsScalar, hstate])
      | objectStart | objectNeedKey | afterColon | afterKey | afterValue =>
        refine not_yields_close (l := .object) ?_ h
        simp [construct, hstate, atFirst, atItem, afterItem, frame]
      | arrayStart | arrayNeedValue | arrayAfterValue =>
        refine not_yields_close (l := .array) ?_ h
        simp [construct, hstate, atFirst, atItem, afterItem, frame]
  · intro h
    have hsymbols : s.symbols = [.rule .ws] := by
      simp [symbols, construct, h, hs.root (.inr h), closing, frame]
    rw [hsymbols]
    exact star_ws.skip .nil

/-- Each character of a text is as the grammar has it, where `advance_char` does not look. -/
def Legal (text : List UInt8) (s : JsonFsm) : Prop :=
  reader.Guarded (fun s c w => s.legal c w = true) text s

/-- The grammar derives from a state what the machine reads from it. -/
theorem yields_iff_read (hs : s.WellFormed) :
    Yields s.symbols w ↔ Legal w s ∧ ∃ s', reader.read w s = some s' ∧ s'.currentState = .done := by
  have hinvariant : ∀ s c s', WellFormed s → reader.step c s = some s' → WellFormed s' :=
    fun _ _ _ hs h => hs.step h
  constructor
  · intro hw
    refine Reader.complete hinvariant (fun s w => Yields s.symbols w) (·.currentState = .done) ?_ ?_
      hs hw
    · exact fun s hs h => (symbols_nil hs).mp h
    · exact fun s c w hs h => (symbols_cons hs).mp h
  · rintro ⟨hlegal, s', hread, hdone⟩
    refine Reader.sound hinvariant (fun s w => Yields s.symbols w) (·.currentState = .done) ?_ ?_
      hs hlegal hread hdone
    · exact fun s hs h => (symbols_nil hs).mpr h
    · exact fun s c w s' hs hstep hg hw => (symbols_cons hs).mpr ⟨s', hstep, hg, hw⟩

theorem symbols_reset : reset.symbols = [.rule .text] := rfl

/-- Of the texts that the machine accepts, the documents are those in UTF-8 whose characters are
also legal where it does not look. -/
theorem read_document_iff (text : List UInt8) (s : JsonFsm)
    (hread : reader.read text reset = some s) (hdone : s.currentState = .done) :
    IsDocument text ↔ Legal text reset ∧ ∃ chars, utf8 chars = text := by
  rw [IsDocument, ← symbols_reset, yields_iff_read wellFormed_reset]
  constructor
  · rintro ⟨⟨hlegal, _⟩, hutf8⟩
    exact ⟨hlegal, hutf8⟩
  · rintro ⟨hlegal, hutf8⟩
    exact ⟨⟨hlegal, s, hread, hdone⟩, hutf8⟩

/-- The text `["\\u00e9", -0.5e+2, true]`. -/
def escapedText : List Char :=
  ['[', '"', '\\', 'u', '0', '0', 'e', '9', '"', ',', ' ', '-', '0', '.', '5', 'e', '+', '2', ',',
    't', 'r', 'u', 'e', ']']

theorem read_document_iff_escaped : IsDocument (utf8 escapedText) := by
  have hread : reader.read (utf8 escapedText) reset =
      some { currentState := .done, numSeenFrac := true, numSeenExp := true
             targetLiteral := ['t', 'r', 'u', 'e'].map byte
             partialLiteral := ['t', 'r', 'u', 'e'].map byte } := by
    decide +kernel
  have hlegal : Legal (utf8 escapedText) reset := by
    rw [Legal]
    decide +kernel
  exact (read_document_iff (utf8 escapedText) _ hread rfl).mpr ⟨hlegal, escapedText, rfl⟩

theorem not_isDocument_of_not_legal (h : ¬ Legal text reset) : ¬ IsDocument text := by
  rintro ⟨hyields, _⟩
  rw [← symbols_reset, yields_iff_read wellFormed_reset] at hyields
  exact h hyields.1

theorem not_isDocument_of_decodeLoop (h : Gbnf.decodeLoop text {} = none) : ¬ IsDocument text := by
  rintro ⟨_, chars, rfl⟩
  have hbound : ∀ cp ∈ chars.map Char.toNat, cp ≤ 0x10FFFF := by
    intro cp hcp
    obtain ⟨a, _, rfl⟩ := mem_map.mp hcp
    have hvalid : a.toNat < 0xd800 ∨ 0xdfff < a.toNat ∧ a.toNat < 0x110000 := a.valid
    omega
  have hzero : ({} : GbnfPartial).remaining = 0 := rfl
  obtain ⟨half, hdecode, _⟩ := Gbnf.decodeLoop_utf8 hbound hzero
  rw [utf8, hdecode] at h
  cases h

/-- An unknown escape, whitespace inside a literal, a leading zero and an octet that is not UTF-8:
the machine accepts the texts `["\\q"]`, `[t rue]`, `[01]` and `["` `0xFF` `"]`. -/
theorem accepted_not_documents :
    Forall (fun text =>
      (reader.read text reset).map currentState = some .done ∧ ¬ IsDocument text)
      [['[', '"', '\\', 'q', '"', ']'].map byte,
        ['[', 't', ' ', 'r', 'u', 'e', ']'].map byte, ['[', '0', '1', ']'].map byte,
        [byte '[', byte '"', 0xFF, byte '"', byte ']']] := by
  refine ⟨⟨by decide +kernel, not_isDocument_of_not_legal ?_⟩,
    ⟨by decide +kernel, not_isDocument_of_not_legal ?_⟩,
    ⟨by decide +kernel, not_isDocument_of_not_legal ?_⟩,
    ⟨by decide +kernel, not_isDocument_of_decodeLoop (by decide +kernel)⟩⟩
  all_goals
    rw [Legal]
    decide +kernel

/-- Every document is accepted, up to the end of the root with nothing left on the stack. -/
theorem document_read (text : List UInt8) (h : IsDocument text) :
    ∃ s, reader.read text reset = some s ∧ s.currentState = .done ∧ s.stateStack = [] := by
  rw [IsDocument, ← symbols_reset, yields_iff_read wellFormed_reset] at h
  obtain ⟨⟨_, s, hread, hdone⟩, _⟩ := h
  have hs : s.WellFormed :=
    Reader.read_invariant (fun _ _ _ hs h => hs.step h) wellFormed_reset hread
  exact ⟨s, hread, hdone, hs.root (.inr hdone)⟩

/-- The text ` {"a" : []} `. -/
theorem document_read_spaced : ∃ s,
    reader.read ([' ', '{', '"', 'a', '"', ' ', ':', ' ', '[', ']', '}', ' '].map byte) reset =
      some s ∧ s.currentState = .done ∧ s.stateStack = [] := by
  refine document_read _ ⟨?_, [' ', '{', '"', 'a', '"', ' ', ':', ' ', '[', ']', '}', ' '], rfl⟩
  rw [← symbols_reset, yields_iff_read wellFormed_reset]
  refine ⟨?_, { currentState := .done, wsRun := 1 }, by decide +kernel, rfl⟩
  rw [Legal]
  decide +kernel

end Quench.JsonFsm
