import Quench.Lib.Search

/-!
# The preamble gate

`PreambleGate` of `compute/preamble_gate.h` lets a reply begin without the mask. It watches for the
markers of a tool call in the last 32 bytes of the text, which it looks at once behind each token
and forgets at a transition.

So the gate sees a marker that is whole in front of some border between tokens, and the close marker
only behind the border at which the opener was seen (`Cut`). `absorbAll_cut` shows that this is
exactly when it sees the markers that the text has; a long token can hide them
(`long_token_hides_marker`).
-/

namespace Quench

open Lib List

/-- `PreambleGate::State`. -/
inductive GateState where
  | active | toolBody | toolArgs | terminalOff | off
  deriving DecidableEq

structure PreambleGate where
  configured : Bool := false
  thinkingOpen : Bool := true
  strictTool : Bool := false
  state : GateState := .off
  closeToken : Int := -1
  maxTokens : Int := 0
  seen : Int := 0
  openTokens : List Int := []
  closeTokens : List Int := []
  openPrefix : List UInt8 := []
  closeSuffix : List UInt8 := []
  charBuf : List UInt8 := []
  deriving DecidableEq

namespace PreambleGate

variable (g : PreambleGate)

def toolDetectionActive : Bool := g.openTokens ≠ [] || g.openPrefix ≠ []

/-- A reasoning block that is closed before the reply begins leaves nothing to wait for. -/
def reset : PreambleGate :=
  { g with
    state :=
      if g.configured && !(0 ≤ g.closeToken && !g.thinkingOpen && !g.toolDetectionActive) then
        .active
      else .off
    seen := 0
    charBuf := [] }

def configureWithTools (closeToken maxTokens : Int) (openTokens closeTokens : List Int)
    (openPrefix closeSuffix : List UInt8) (thinkingOpen : Bool := true)
    (strictTool : Bool := false) : PreambleGate :=
  reset
    { maxTokens := if 0 < maxTokens then maxTokens else 0
      closeToken, openTokens, closeTokens, openPrefix, closeSuffix, thinkingOpen, strictTool
      configured := 0 ≤ closeToken || 0 < maxTokens }

/-- `is_tool_open_token` and `is_tool_close_token`. -/
def isMarker (ids : List Int) (token : Int) : Bool := 0 ≤ token && ids.contains token

variable (text : List UInt8)

/-- `append_char_buf`. -/
def appendCharBuf : PreambleGate :=
  { g with charBuf := window 32 (g.charBuf ++ text) }

/-- The opener was seen. -/
def enterTool : PreambleGate :=
  { g with state := if g.strictTool then .toolArgs else .toolBody, charBuf := [] }

def startsJson : Bool :=
  text.any fun c => c == '\x7b'.toUInt8 || c == '['.toUInt8

/-- The end of `absorb_active`, behind the markers. -/
def absorbText : Bool × PreambleGate :=
  if startsJson text then (false, { g with state := .off })
  else if 0 < g.maxTokens ∧ g.maxTokens ≤ g.seen then (true, { g with state := .off })
  else (true, g)

def absorbActive (token : Int) (text : List UInt8) : Bool × PreambleGate :=
  let g := { g with seen := g.seen + 1 }
  if 0 ≤ g.closeToken ∧ token = g.closeToken then
    if g.toolDetectionActive then (true, { g with seen := 0, charBuf := [] })
    else (true, { g with state := .off })
  else if isMarker g.openTokens token then (true, g.enterTool)
  else if g.openPrefix = [] then g.absorbText text
  else
    let g := g.appendCharBuf text
    if (find g.openPrefix g.charBuf).isSome then (true, g.enterTool) else g.absorbText text

def absorbToolBody (token : Int) (text : List UInt8) : Bool × PreambleGate :=
  if isMarker g.closeTokens token then (true, { g with state := .terminalOff, charBuf := [] })
  else if g.closeSuffix = [] then (true, g)
  else
    let g := g.appendCharBuf text
    if (find g.closeSuffix g.charBuf).isSome then
      (true, { g with state := .terminalOff, charBuf := [] })
    else (true, g)

/-- `absorb`: whether the gate keeps the token for itself. -/
def absorb (token : Int) (text : List UInt8) : Bool × PreambleGate :=
  match g.state with
  | .active => g.absorbActive token text
  | .toolBody => g.absorbToolBody token text
  | .terminalOff => (true, g)
  | .toolArgs | .off => (false, g)

variable (tokens : List (Int × List UInt8))

/-- The gate behind some tokens. -/
def absorbAll : PreambleGate :=
  tokens.foldl (fun g token => (g.absorb token.1 token.2).2) g

/-- The text of some tokens. -/
def textOf : List UInt8 := tokens.flatMap Prod.snd

/-- The gate that knows the markers only by their text. -/
def watching (maxTokens : Int) (opener closer : List UInt8) : PreambleGate :=
  configureWithTools (-1) maxTokens [] [] opener closer

/-- The opener was seen. -/
def entered : Bool := g.state = .toolBody || g.state = .terminalOff

/-- At a border between tokens the last 32 bytes hold a marker. -/
def Shows (marker : List UInt8) (tokens : List (Int × List UInt8)) : Prop :=
  ∃ seen, seen <+: tokens ∧ marker <:+: window 32 (textOf seen)

/-- The token ends at the first border that shows a marker. -/
structure FirstShown (marker : List UInt8) (before : List (Int × List UInt8))
    (token : Int × List UInt8) : Prop where
  new : ¬ Shows marker before
  shown : marker <:+: window 32 (textOf (before ++ [token]))

/-- The close marker occurs behind the first opener. -/
def Closed (opener closer text : List UInt8) : Prop :=
  ∃ q, find opener text = some q ∧ closer <:+: text.drop (q + opener.length)

/-- Borders show the markers that the text has. The close marker has to be shown by the tokens
behind the border that is the first to show the opener. -/
structure Cut (opener closer : List UInt8) (tokens : List (Int × List UInt8)) : Prop where
  opens : opener <:+: textOf tokens → Shows opener tokens
  closes : Closed opener closer (textOf tokens) → ∀ before token after,
    tokens = before ++ token :: after → FirstShown opener before token → Shows closer after

/-! ## Behind some tokens -/

variable {g : PreambleGate} {tokens : List (Int × List UInt8)} {maxTokens : Int}
variable {opener closer : List UInt8}

theorem absorbAll_append (tokens more : List (Int × List UInt8)) :
    g.absorbAll (tokens ++ more) = (g.absorbAll tokens).absorbAll more :=
  foldl_append

theorem textOf_append (tokens more : List (Int × List UInt8)) :
    textOf (tokens ++ more) = textOf tokens ++ textOf more :=
  flatMap_append

theorem textOf_singleton (token : Int × List UInt8) : textOf [token] = token.2 :=
  append_nil _

theorem textOf_cons (token : Int × List UInt8) (more : List (Int × List UInt8)) :
    textOf (token :: more) = token.2 ++ textOf more :=
  flatMap_cons

theorem startsJson_append (first rest : List UInt8) :
    startsJson (first ++ rest) = (startsJson first || startsJson rest) :=
  any_append

theorem watching_eq (h : 0 < maxTokens) : watching maxTokens opener closer =
    { configured := true, state := .active, maxTokens, openPrefix := opener,
      closeSuffix := closer } := by
  simp [watching, configureWithTools, reset, h]

variable {marker past : List UInt8} {token : Int × List UInt8}

/-! ### Borders -/

theorem Shows.append (h : Shows marker tokens) (more : List (Int × List UInt8)) :
    Shows marker (tokens ++ more) := by
  obtain ⟨seen, hseen, hmarker⟩ := h
  exact ⟨seen, hseen.trans (prefix_append _ _), hmarker⟩

/-- What a border shows is in the text. -/
theorem Shows.isInfix (h : Shows marker tokens) : marker <:+: textOf tokens := by
  obtain ⟨seen, ⟨rest, rfl⟩, hmarker⟩ := h
  rw [textOf_append]
  exact (hmarker.trans (drop_suffix _ _).isInfix).trans (prefix_append _ _).isInfix

/-- One more token has one more border. -/
theorem shows_concat : Shows marker (tokens ++ [token]) ↔
    Shows marker tokens ∨ marker <:+: window 32 (textOf tokens ++ token.2) := by
  constructor
  · rintro ⟨seen, hseen, hmarker⟩
    rcases prefix_concat_iff.mp hseen with rfl | hseen
    · rw [textOf_append, textOf_singleton] at hmarker
      exact .inr hmarker
    · exact .inl ⟨seen, hseen, hmarker⟩
  · rintro (h | h)
    · exact h.append _
    · refine ⟨_, List.prefix_rfl, ?_⟩
      rwa [textOf_append, textOf_singleton]

theorem not_shows_nil (hmarker : marker ≠ []) : ¬ Shows marker [] := fun h =>
  hmarker (infix_nil.mp h.isInfix)

/-- Of the borders that show a marker one is the first. -/
theorem exists_firstShown (hmarker : marker ≠ []) (h : Shows marker tokens) :
    ∃ before token after, tokens = before ++ token :: after ∧ FirstShown marker before token := by
  induction tokens using List.reverseRecOn with
  | nil => exact absurd h (not_shows_nil hmarker)
  | append_singleton tokens token ih =>
    by_cases hpast : Shows marker tokens
    · obtain ⟨before, first, after, rfl, hfirst⟩ := ih hpast
      exact ⟨before, first, after ++ [token], by simp, hfirst⟩
    · refine ⟨tokens, token, [], rfl, hpast, ?_⟩
      rw [textOf_append, textOf_singleton]
      exact (shows_concat.mp h).resolve_left hpast

/-! ### The gate at a border -/

/-- An active gate behind one more token. -/
theorem absorb_active (hopener : opener ≠ []) {seen : Int} (hbudget : seen + 1 < maxTokens)
    (hmax : 0 < maxTokens) (hjson : startsJson token.2 = false) :
    ({ watching maxTokens opener closer with seen, charBuf := window 32 past }.absorb
      token.1 token.2).2 =
      if opener <:+: window 32 (past ++ token.2) then
        { watching maxTokens opener closer with state := .toolBody, seen := seen + 1 }
      else
        { watching maxTokens opener closer with
          seen := seen + 1, charBuf := window 32 (past ++ token.2) } := by
  simp only [watching_eq hmax, absorb, absorbActive, isMarker, contains_nil, Bool.and_false,
    appendCharBuf, window_append, isSome_find]
  rw [if_neg fun h => absurd h.1 (by decide), if_neg Bool.false_ne_true, if_neg hopener]
  split_ifs
  · rfl
  · rw [absorbText, hjson, if_neg Bool.false_ne_true, if_neg (by dsimp only; omega)]

/-- A gate in a tool call behind one more token. -/
theorem absorb_toolBody (hbody : g.state = .toolBody) (hclose : g.closeTokens = [])
    (hsuffix : g.closeSuffix ≠ []) :
    ({ g with charBuf := window 32 past }.absorb token.1 token.2).2 =
      if g.closeSuffix <:+: window 32 (past ++ token.2) then
        { g with state := .terminalOff, charBuf := [] }
      else { g with charBuf := window 32 (past ++ token.2) } := by
  simp only [absorb, hbody, absorbToolBody, isMarker, hclose, contains_nil, Bool.and_false,
    appendCharBuf, window_append, isSome_find, hsuffix]
  rw [if_neg Bool.false_ne_true, if_neg id]
  split_ifs <;> rfl

/-- As long as no border shows the opener, the gate stays active. -/
theorem absorbAll_active (hopener : opener ≠ []) (hbudget : tokens.length < maxTokens)
    (hjson : startsJson (textOf tokens) = false) (hnone : ¬ Shows opener tokens) :
    (watching maxTokens opener closer).absorbAll tokens =
      { watching maxTokens opener closer with
        seen := tokens.length, charBuf := window 32 (textOf tokens) } := by
  have hmax : 0 < maxTokens := by omega
  induction tokens using List.reverseRecOn with
  | nil => rw [watching_eq hmax]; rfl
  | append_singleton tokens token ih =>
    rw [length_append, length_singleton] at hbudget
    rw [textOf_append, textOf_singleton, startsJson_append, Bool.or_eq_false_iff] at hjson
    obtain ⟨hpast, hnow⟩ := not_or.mp (shows_concat.not.mp hnone)
    rw [absorbAll_append, ih (by omega) hjson.1 hpast, textOf_append, textOf_singleton]
    refine (absorb_active hopener (by push_cast at hbudget; omega) hmax hjson.2).trans ?_
    rw [if_neg hnow, length_append, length_singleton]
    push_cast
    rfl

open Classical in
/-- A gate in a tool call reaches its end if some border shows the close marker. -/
theorem absorbAll_toolBody (hbody : g.state = .toolBody) (hclose : g.closeTokens = [])
    (hsuffix : g.closeSuffix ≠ []) (hbuf : g.charBuf = []) :
    g.absorbAll tokens =
      if Shows g.closeSuffix tokens then { g with state := .terminalOff, charBuf := [] }
      else { g with charBuf := window 32 (textOf tokens) } := by
  induction tokens using List.reverseRecOn with
  | nil =>
    rw [if_neg (not_shows_nil hsuffix)]
    exact congrArg (fun buf => { g with charBuf := buf }) hbuf
  | append_singleton tokens token ih =>
    rw [absorbAll_append, ih, textOf_append, textOf_singleton, shows_concat]
    split_ifs with hpast hnow hnow
    · rfl
    · exact absurd (.inl hpast) hnow
    all_goals refine (absorb_toolBody hbody hclose hsuffix).trans ?_
    · exact if_pos (hnow.resolve_left hpast)
    · exact if_neg fun h => hnow (.inr h)

/-- The gate behind the first border that shows the opener, and behind further tokens. -/
theorem absorbAll_opened {before after : List (Int × List UInt8)} (hopener : opener ≠ [])
    (hcloser : closer ≠ []) (hbudget : (before ++ token :: after).length < maxTokens)
    (hjson : startsJson (textOf (before ++ token :: after)) = false)
    (hfirst : FirstShown opener before token) :
    let gate := (watching maxTokens opener closer).absorbAll (before ++ token :: after)
    gate.entered = true ∧ (gate.state = .terminalOff ↔ Shows closer after) := by
  have hmax : 0 < maxTokens := by omega
  rw [length_append, length_cons] at hbudget
  simp only [textOf_append, textOf_cons, startsJson_append, Bool.or_eq_false_iff] at hjson
  have hshown := hfirst.shown
  rw [textOf_append, textOf_singleton] at hshown
  have hcall : (watching maxTokens opener closer).absorbAll (before ++ [token]) =
      { watching maxTokens opener closer with
        state := .toolBody, seen := before.length + 1 } := by
    rw [absorbAll_append, absorbAll_active hopener (by omega) hjson.1 hfirst.new]
    exact (absorb_active hopener (by push_cast at hbudget; omega) hmax hjson.2.1).trans
      (if_pos hshown)
  rw [append_cons, absorbAll_append, hcall, watching_eq hmax,
    absorbAll_toolBody rfl rfl hcloser rfl]
  split_ifs with hclose <;> simp [entered, hclose]

/-- The tokens behind a border that shows the opener stand behind the first opener. -/
theorem closed_of_shows {before after : List (Int × List UInt8)}
    (hopener : opener <:+: textOf before) (h : Shows closer after) :
    Closed opener closer (textOf (before ++ after)) := by
  obtain ⟨first, rest, heq⟩ := hopener
  have hoccurs : OccursAt opener (textOf (before ++ after)) first.length := by
    simp only [OccursAt, textOf_append, ← heq, append_assoc, drop_left, prefix_append]
  obtain ⟨q, hq⟩ := Option.isSome_iff_exists.mp
    (isSome_find.mpr (hoccurs.isInfix.trans (drop_suffix _ _).isInfix))
  have hfirst := (find_eq_some hq).2 _ hoccurs
  have hlength := congrArg List.length heq
  simp only [length_append] at hlength
  refine ⟨q, hq, h.isInfix.trans ?_⟩
  rw [textOf_append, drop_append_of_le_length (by omega)]
  exact (suffix_append _ _).isInfix

/-- The gate sees the markers that the text has. -/
def Sees (gate : PreambleGate) (opener closer text : List UInt8) : Prop :=
  (gate.entered = true ↔ opener <:+: text) ∧
    (gate.state = .terminalOff ↔ Closed opener closer text)

theorem sees_iff (hopener : opener ≠ []) (hcloser : closer ≠ [])
    (hbudget : tokens.length < maxTokens) (hjson : startsJson (textOf tokens) = false) :
    Sees ((watching maxTokens opener closer).absorbAll tokens) opener closer (textOf tokens) ↔
      Cut opener closer tokens := by
  by_cases hshows : Shows opener tokens
  · -- the gate enters the call at the first border that shows the opener
    obtain ⟨before, token, after, rfl, hfirst⟩ := exists_firstShown hopener hshows
    obtain ⟨hin, hout⟩ := absorbAll_opened hopener hcloser hbudget hjson hfirst
    have hopened : opener <:+: textOf (before ++ [token]) :=
      hfirst.shown.trans (drop_suffix _ _).isInfix
    constructor
    · rintro ⟨-, hclosed⟩
      refine ⟨fun _ => hshows, fun hclose before' token' after' heq hfirst' => ?_⟩
      have hout' : ((watching maxTokens opener closer).absorbAll
          (before' ++ token' :: after')).state = .terminalOff ↔ Shows closer after' :=
        (absorbAll_opened hopener hcloser (heq ▸ hbudget) (heq ▸ hjson) hfirst').2
      rw [← heq] at hout'
      exact hout'.mp (hclosed.mpr hclose)
    · intro hcut
      refine ⟨iff_of_true hin hshows.isInfix, hout.trans ⟨fun h => ?_, fun h => ?_⟩⟩
      · rw [append_cons]
        exact closed_of_shows hopened h
      · exact hcut.closes h before token after rfl hfirst
  · -- the gate stays active, so the text must not have the opener
    have hopened : ∀ closer, Closed opener closer (textOf tokens) → opener <:+: textOf tokens := by
      rintro closer ⟨q, hq, -⟩
      exact isSome_find.mp (hq ▸ rfl)
    rw [absorbAll_active hopener hbudget hjson hshows, watching_eq (by omega)]
    constructor
    · rintro ⟨hin, -⟩
      have hnone : ¬ opener <:+: textOf tokens := fun h => absurd (hin.mpr h) (by simp [entered])
      exact ⟨fun h => absurd h hnone, fun h => absurd (hopened closer h) hnone⟩
    · intro hcut
      have hnone : ¬ opener <:+: textOf tokens := fun h => hshows (hcut.opens h)
      exact ⟨iff_of_false (by simp [entered]) hnone,
        iff_of_false nofun fun h => hnone (hopened closer h)⟩

/-- Two cuts of one text agree on the markers, and see those that the text has, if and only if both
show them at their borders. -/
theorem absorbAll_cut {more : List (Int × List UInt8)} (hopener : opener ≠ [])
    (hcloser : closer ≠ []) (hbudget : tokens.length < maxTokens ∧ more.length < maxTokens)
    (htext : textOf tokens = textOf more) (hjson : startsJson (textOf tokens) = false) :
    let first := (watching maxTokens opener closer).absorbAll tokens
    let second := (watching maxTokens opener closer).absorbAll more
    (first.entered = second.entered ∧ (first.entered = true ↔ opener <:+: textOf tokens)) ∧
      (first.state = .terminalOff ↔ second.state = .terminalOff) ∧
      (first.state = .terminalOff ↔ Closed opener closer (textOf tokens)) ↔
    Cut opener closer tokens ∧ Cut opener closer more := by
  intro first second
  have hfirst := sees_iff hopener hcloser hbudget.1 hjson
  have hsecond := sees_iff hopener hcloser hbudget.2 (htext ▸ hjson)
  rw [← hfirst, ← hsecond, ← htext, Bool.eq_iff_iff]
  constructor
  · rintro ⟨⟨hsame, hin⟩, hend, hout⟩
    exact ⟨⟨hin, hout⟩, hsame.symm.trans hin, hend.symm.trans hout⟩
  · rintro ⟨⟨hin, hout⟩, hin', hout'⟩
    exact ⟨⟨hin.trans hin'.symm, hin⟩, hout.trans hout'.symm, hout⟩

/-- The token that completes the opener goes on behind it. The other cut is into bytes. -/
theorem absorbAll_cut_call :
    let bytes : String → List UInt8 := fun text => text.toList.map Char.toUInt8
    let tokens := ["<function", "=get", "_time>", "</function>"].map fun text => (0, bytes text)
    let more := (bytes "<function=get_time></function>").map fun c => (0, [c])
    (Cut (bytes "<function=") (bytes "</function>") tokens ∧
      Cut (bytes "<function=") (bytes "</function>") more) ∧
      ((watching 99 (bytes "<function=") (bytes "</function>")).absorbAll tokens).state =
        .terminalOff := by
  intro bytes tokens more
  have hclosed : Closed (bytes "<function=") (bytes "</function>") (textOf tokens) :=
    ⟨0, rfl, bytes "get_time>", [], rfl⟩
  have hgate : ((watching 99 (bytes "<function=") (bytes "</function>")).absorbAll tokens).state =
      .terminalOff := by decide +kernel
  have hmore : ((watching 99 (bytes "<function=") (bytes "</function>")).absorbAll more).state =
      .terminalOff := by decide +kernel
  refine ⟨(@absorbAll_cut tokens 99 _ _ more (by decide) (by decide) (by decide) rfl rfl).mp
    ⟨⟨?_, iff_of_true ?_ ⟨[], bytes "get_time></function>", rfl⟩⟩,
      iff_of_true hgate hmore, iff_of_true hgate hclosed⟩, hgate⟩
  · simp only [entered, hgate, hmore]
  · simp only [entered, hgate]
    rfl

/-- One token with more than 22 bytes behind the opener is not searched where the opener stands,
while its bytes one by one are; and a close marker in the token of the opener is lost. -/
theorem long_token_hides_marker :
    let opener : List UInt8 := "<function=".toList.map Char.toUInt8
    let closer : List UInt8 := "</function>".toList.map Char.toUInt8
    let run := fun tokens => (watching 99 opener closer).absorbAll tokens
    let text := opener ++ "get_current_weather_in_paris>".toList.map Char.toUInt8
    ((run [(0, text)]).entered = false ∧ (run (text.map fun c => (0, [c]))).entered = true) ∧
    (run [(0, opener ++ closer)]).state = .toolBody ∧
    (run [(0, opener), (0, closer)]).state = .terminalOff := by
  decide +kernel

end PreambleGate

end Quench
