import Quench.Compute.GbnfComplete

/-!
# Cutting a text, and trying one

How a text is cut does not matter: `Tracks.updateText_append` says that two texts one after the
other are accepted exactly if they are accepted together, and leave the same matcher.

A trial by `would_accept` interns stacks in the arena that it shares with the state. Where no live
set is larger than the simulator keeps, an answer depends only on what was read (`Grants`), so a
trial changes no later one: `cut_and_try`.
-/

namespace Quench.Gbnf

open Lib GbnfMatcher List

variable {rules : List GbnfRule} {root : Nat}
variable {a : GbnfArena} {live : GbnfStackSet} {u : List Nat} {m : GbnfMatcher} {bytes : List UInt8}

/-! ## Cutting a text -/

theorem runLoop_append (rules : List GbnfRule) (text text' : List UInt8) (a : GbnfArena)
    (live : GbnfStackSet) (half : GbnfPartial) :
    runLoop rules (text ++ text') a live half =
      match runLoop rules text a live half with
      | (a, none) => (a, none)
      | (a, some (live, half)) => runLoop rules text' a live half := by
  induction text generalizing a live half with
  | nil => rfl
  | cons b text ih =>
    rw [cons_append, runLoop, runLoop]
    generalize runByte rules a live half b = result
    obtain ⟨a', _ | ⟨live', half'⟩⟩ := result
    · rfl
    · exact ih a' live' half'

variable {a' : GbnfArena} {live' : GbnfStackSet} {c : GbnfCall} {m' : GbnfMatcher}

/-- A codepoint that is read is read by a stack of the live set. -/
theorem Reads.reader {cp : Nat} (h : Reads rules root a live u)
    (hread : GbnfMatcher.runCp rules a live cp = (a', some live')) :
    ∃ s ∈ live, ∃ chars, a.topItem rules s = some (.letter chars) ∧ chars.matchesCp cp = true := by
  obtain ⟨-, -, hafter⟩ := stepInto_spec h.ok h.holds.self cp
  unfold GbnfMatcher.runCp at hread
  dsimp only at hread
  split at hread
  · cases hread
  next hne =>
    obtain ⟨s', hs'⟩ := exists_mem_of_ne_nil _ (mt List.isEmpty_iff.mpr hne)
    obtain ⟨next, ⟨p, rest, chars, ⟨s, hs, hdenotes⟩, hitem, hmatches, -⟩, -⟩ :=
      hafter.sound s' hs'
    exact ⟨s, hs, chars, (topItem_eq hdenotes).trans hitem, hmatches⟩

/-- The check at the end of a text passes if more text is read and passes it. -/
theorem Reads.canComplete_cut {half half' : GbnfPartial} {text : List UInt8}
    (h : Reads rules root a live u)
    (hloop : GbnfMatcher.runLoop rules text a live half = (a', some (live', half')))
    (hend : canComplete rules a' live' half' = true) : canComplete rules a live half = true := by
  induction text generalizing half with
  | nil =>
    cases hloop
    exact hend
  | cons b text ih =>
    rcases eq_zero_or_pos half.remaining with hzero | hpos
    · exact canComplete_of_zero hzero
    · rw [canComplete_iff hpos]
      cases hbyte : decodeByte half b with
      | none =>
        rw [runLoop_bad hbyte] at hloop
        cases hloop
      | some decoded =>
        obtain ⟨cp, half1⟩ := decoded
        cases cp with
        | none =>
          -- still inside the codepoint: the range was narrowed
          obtain ⟨hpos1, hlo, hhi⟩ := range_nested hpos hbyte
          rw [runLoop_half hbyte] at hloop
          obtain ⟨hle, s, hs, chars, hitem, hmeets⟩ := (canComplete_iff hpos1).mp (ih hloop)
          exact ⟨hlo.trans (hle.trans hhi), s, hs, chars, hitem, intersects_mono hlo hhi hle hmeets⟩
        | some cp =>
          obtain ⟨hlo, hhi⟩ := range_nested hpos hbyte
          rw [runLoop_cp hbyte] at hloop
          cases hread : GbnfMatcher.runCp rules a live cp with
          | mk a1 next =>
            rw [hread] at hloop
            cases next with
            | none => cases hloop
            | some live1 =>
              obtain ⟨s, hs, chars, hitem, hmatches⟩ := h.reader hread
              exact ⟨hlo.trans hhi, s, hs, chars, hitem, intersects_of_matches hlo hhi hmatches⟩

/-- Two texts are accepted one after the other exactly if they are accepted together, and then they
leave the same matcher. -/
theorem Tracks.updateText_append (h : Tracks m u bytes) (text text' : List UInt8) :
    ((m.updateText (text ++ text')).1 = true ↔
      (m.updateText text).1 = true ∧ ((m.updateText text).2.updateText text').1 = true) ∧
    ((m.updateText (text ++ text')).1 = true →
      (m.updateText (text ++ text')).2 = ((m.updateText text).2.updateText text').2) := by
  obtain ⟨-, -, hsound, -⟩ := h.reads.runLoop text m.half
  have happend :=
    runLoop_append m.grammar.rules text text' m.grammar.arena m.live m.half
  rcases hfirst : GbnfMatcher.runLoop m.grammar.rules text m.grammar.arena m.live m.half with
    ⟨a, _ | ⟨live, half⟩⟩
  · rw [hfirst] at happend
    rw [updateText_refused happend, updateText_refused hfirst]
    simp
  · rw [hfirst] at happend hsound
    obtain ⟨cps, -, hreads, -⟩ := hsound live half rfl
    rcases hsecond : GbnfMatcher.runLoop m.grammar.rules text' a live half with
      ⟨a', _ | ⟨live', half'⟩⟩
    · rw [updateText_refused (happend.trans hsecond)]
      by_cases hcheck : canComplete m.grammar.rules a live half = true
      · rw [updateText_accepted hfirst hcheck,
          updateText_refused (m := { m.withArena a with live, half }) hsecond]
        simp
      · rw [updateText_stuck hfirst hcheck]
        simp
    · by_cases hlast : canComplete m.grammar.rules a' live' half' = true
      · have hcheck := hreads.canComplete_cut hsecond hlast
        rw [updateText_accepted (happend.trans hsecond) hlast, updateText_accepted hfirst hcheck,
          updateText_accepted (m := { m.withArena a with live, half }) hsecond hlast]
        exact ⟨⟨fun _ => ⟨rfl, rfl⟩, fun _ => rfl⟩, fun _ => rfl⟩
      · rw [updateText_stuck (happend.trans hsecond) hlast]
        by_cases hcheck : canComplete m.grammar.rules a live half = true
        · rw [updateText_accepted hfirst hcheck,
            updateText_stuck (m := { m.withArena a with live, half }) hsecond hlast]
          simp
        · rw [updateText_stuck hfirst hcheck]
          simp

/-! ## What an answer depends on -/

/-- A live stack waits for a character set with some property. -/
def Awaits (rules : List GbnfRule) (root : Nat) (u : List Nat) (f : GbnfCharSet → Bool) : Prop :=
  ∃ p rest chars, p :: rest ∈ liveStacks rules root u ∧ itemAt rules p = some (.letter chars) ∧
    f chars = true

theorem Reads.awaits_iff (h : Reads rules root a live u) (hnarrow : Narrow rules root u)
    (f : GbnfCharSet → Bool) :
    (∃ s ∈ live, ∃ chars, a.topItem rules s = some (.letter chars) ∧ f chars = true) ↔
      Awaits rules root u f := by
  constructor
  · rintro ⟨s, hs, chars, hitem, hchars⟩
    obtain ⟨stack, hstack, hdenotes⟩ := h.holds.sound s hs
    cases stack with
    | nil =>
      cases hdenotes
      cases hitem
    | cons p rest => exact ⟨p, rest, chars, hstack, (topItem_eq hdenotes).symm.trans hitem, hchars⟩
  · rintro ⟨p, rest, chars, hstack, hitem, hchars⟩
    obtain ⟨s, hs, hdenotes⟩ := h.holds.complete hnarrow _ hstack
    exact ⟨s, hs, chars, (topItem_eq hdenotes).trans hitem, hchars⟩

/-- What the check at the end of a text asks of the codepoints read. -/
def Completes (rules : List GbnfRule) (root : Nat) (u : List Nat) (half : GbnfPartial) : Prop :=
  0 < half.remaining → (GbnfPartial.range half).1 ≤ (GbnfPartial.range half).2 ∧
    Awaits rules root u fun chars =>
      chars.intersects (GbnfPartial.range half).1 (GbnfPartial.range half).2

theorem Reads.completes_iff (h : Reads rules root a live u) (hnarrow : Narrow rules root u)
    (half : GbnfPartial) : canComplete rules a live half = true ↔ Completes rules root u half := by
  rcases eq_zero_or_pos half.remaining with hzero | hpos
  · simp [canComplete_of_zero hzero, Completes, hzero]
  · rw [canComplete_iff hpos, h.awaits_iff hnarrow fun chars =>
      chars.intersects (GbnfPartial.range half).1 (GbnfPartial.range half).2]
    exact ⟨fun hcheck _ => hcheck, fun hcheck => hcheck hpos⟩

/-- The codepoints that a text adds can all be read, and so can what it leaves unfinished. -/
def Allows (rules : List GbnfRule) (root : Nat) (u : List Nat) (half : GbnfPartial)
    (text : List UInt8) : Prop :=
  ∃ cps half', decodeLoop text half = some (cps, half') ∧ Readable rules root u cps ∧
    Completes rules root (u ++ cps) half'

/-- What a call answers, said of the codepoints read and the bytes of the next one. -/
def Grants (rules : List GbnfRule) (root : Nat) (u : List Nat) (half : GbnfPartial) :
    GbnfCall → Prop
  | .update text => Allows rules root u half text
  | .would text => Allows rules root u half text
  | .done => half.remaining = 0 ∧ [] ∈ liveStacks rules root u
  | .lead b =>
    if 0 < half.remaining then b &&& 0xC0 = 0x80
    else Awaits rules root u fun chars => chars.leadByte b.toNat
  | .reset => True

/-- No string that a text spells has more live stacks than the simulator keeps. -/
def NarrowText (rules : List GbnfRule) (root : Nat) (text : List UInt8) : Prop :=
  ∀ w, (∀ cp ∈ w, cp ≤ 0x10FFFF) → utf8 w <+: text → (liveStacks rules root w).encard ≤ kMaxStacks

theorem NarrowText.narrow {text : List UInt8} (h : NarrowText rules root text) {w : List Nat}
    (hscalar : ∀ cp ∈ w, cp ≤ 0x10FFFF) (hw : utf8 w <+: text) : Narrow rules root w := by
  rintro v ⟨tail, rfl⟩
  refine h v (fun cp hcp => hscalar cp (mem_append_left _ hcp)) ?_
  rw [utf8, flatMap_append] at hw
  exact (prefix_append _ _).trans hw

/-- The text of a call. -/
def GbnfCall.text : GbnfCall → List UInt8
  | .update text => text
  | .would text => text
  | _ => []

section Answers

theorem wouldAccept_eq_updateText (m : GbnfMatcher) (text : List UInt8) :
    (m.wouldAccept text).1 = (m.updateText text).1 := by
  unfold wouldAccept updateText
  generalize m.run text = result
  obtain ⟨a, _ | ⟨live, half⟩⟩ := result <;> rfl

theorem Tracks.allows_iff (h : Tracks m u bytes) {text : List UInt8}
    (hnarrow : NarrowText m.grammar.rules m.grammar.root (utf8 u ++ bytes ++ text)) :
    (m.updateText text).1 = true ↔ Allows m.grammar.rules m.grammar.root u m.half text := by
  obtain ⟨-, -, hsound, hcomplete⟩ := h.reads.runLoop text m.half
  have hexact : ∀ cps half, decodeLoop text m.half = some (cps, half) →
      Narrow m.grammar.rules m.grammar.root (u ++ cps) := by
    intro cps half hdecode
    obtain ⟨bytes', -, hsame, hscalar⟩ := h.reading.text hdecode
    refine hnarrow.narrow (fun cp hcp => (mem_append.mp hcp).elim (h.scalar cp) (hscalar cp))
      ⟨bytes', ?_⟩
    rw [utf8, flatMap_append, append_assoc]
    change utf8 u ++ (utf8 cps ++ bytes') = _
    rw [hsame, append_assoc]
  rcases hloop : GbnfMatcher.runLoop m.grammar.rules text m.grammar.arena m.live m.half with
    ⟨a, _ | ⟨live, half⟩⟩
  · rw [updateText_refused hloop]
    refine ⟨fun hfalse => (by cases hfalse), ?_⟩
    rintro ⟨cps, half, hdecode, hreadable, -⟩
    obtain ⟨live, hlive⟩ := hcomplete cps half hdecode (hexact cps half hdecode) hreadable
    rw [hloop] at hlive
    cases hlive
  · rw [hloop] at hsound
    obtain ⟨cps, hdecode, hreads, hreadable⟩ := hsound live half rfl
    have hcheck := hreads.completes_iff (hexact cps half hdecode) half
    have hallows : Allows m.grammar.rules m.grammar.root u m.half text ↔
        Completes m.grammar.rules m.grammar.root (u ++ cps) half := by
      refine ⟨?_, fun hcompletes => ⟨cps, half, hdecode, hreadable, hcompletes⟩⟩
      rintro ⟨cps', half', hdecode', -, hcompletes⟩
      obtain ⟨rfl, rfl⟩ := Prod.mk.inj (Option.some.inj (hdecode.symm.trans hdecode'))
      exact hcompletes
    rw [hallows, ← hcheck]
    by_cases hpass : canComplete m.grammar.rules a live half = true
    · rw [updateText_accepted hloop hpass]
      exact ⟨fun _ => hpass, fun _ => rfl⟩
    · rw [updateText_stuck hloop hpass]
      exact ⟨fun hfalse => (by cases hfalse), fun htrue => absurd htrue hpass⟩

/-- An answer depends only on what was read. -/
theorem Tracks.ask_iff (h : Tracks m u bytes)
    (hnarrow : NarrowText m.grammar.rules m.grammar.root (utf8 u ++ bytes ++ c.text)) :
    (ask m c).1 = true ↔ Grants m.grammar.rules m.grammar.root u m.half c := by
  have hread : Narrow m.grammar.rules m.grammar.root u :=
    hnarrow.narrow h.scalar (by rw [append_assoc]; exact prefix_append _ _)
  cases c with
  | update text => exact h.allows_iff hnarrow
  | would text =>
    change (m.wouldAccept text).1 = true ↔ _
    rw [wouldAccept_eq_updateText]
    exact h.allows_iff hnarrow
  | done =>
    change m.isDone = true ↔ _
    rw [GbnfMatcher.isDone, Bool.and_eq_true, beq_iff_eq, h.reads.holds.accepts_iff]
    refine and_congr_right fun _ => ?_
    exact ⟨h.reads.holds.neg_one_mem, h.reads.holds.mem_neg_one hread⟩
  | lead b =>
    change m.leadBytes b = true ↔ _
    unfold GbnfMatcher.leadBytes
    dsimp only [Grants]
    by_cases hhalf : 0 < m.half.remaining
    · rw [if_pos hhalf, if_pos hhalf, beq_iff_eq]
    · rw [if_neg hhalf, if_neg hhalf, ← h.reads.awaits_iff hread, GbnfArena.leadBytes,
        any_eq_true]
      refine exists_congr fun s => and_congr_right fun _ => ?_
      split
      next chars hitem => simp [hitem]
      next hother =>
        refine ⟨fun hfalse => (by cases hfalse), ?_⟩
        rintro ⟨chars, hitem, -⟩
        exact absurd hitem (hother chars)
  | reset => exact ⟨fun _ => trivial, fun _ => rfl⟩

end Answers

/-! ## Trials -/

/-- Two matchers that have read the same. -/
structure Same (m m' : GbnfMatcher) (u : List Nat) (bytes : List UInt8) : Prop where
  left : Tracks m u bytes
  right : Tracks m' u bytes
  rules : m'.grammar.rules = m.grammar.rules
  root : m'.grammar.root = m.grammar.root
  half : m'.half = m.half

/-- Matchers that have read the same answer the same, and go on to have read the same. -/
theorem Same.ask (h : Same m m' u bytes)
    (hnarrow : NarrowText m.grammar.rules m.grammar.root (utf8 u ++ bytes ++ c.text)) :
    (Gbnf.ask m c).1 = (Gbnf.ask m' c).1 ∧
      ∃ u' bytes', Same (Gbnf.ask m c).2 (Gbnf.ask m' c).2 u' bytes' ∧
        utf8 u' ++ bytes' = consumed (utf8 u ++ bytes) (Gbnf.ask m c).1 c := by
  have hanswer : (Gbnf.ask m c).1 = (Gbnf.ask m' c).1 := by
    rw [Bool.eq_iff_iff, h.left.ask_iff hnarrow,
      h.right.ask_iff (by rw [h.rules, h.root]; exact hnarrow), h.rules, h.root, h.half]
  refine ⟨hanswer, ?_⟩
  cases c with
  | update text =>
    obtain ⟨hrules, hroot⟩ := updateText_table m text
    obtain ⟨hrules', hroot'⟩ := updateText_table m' text
    have htable := hrules'.trans (h.rules.trans hrules.symm)
    have hstart := hroot'.trans (h.root.trans hroot.symm)
    change (m.updateText text).1 = (m'.updateText text).1 at hanswer
    change ∃ u' bytes', Same (m.updateText text).2 (m'.updateText text).2 u' bytes' ∧
      utf8 u' ++ bytes' = if (m.updateText text).1 then utf8 u ++ bytes ++ text else utf8 u ++ bytes
    obtain ⟨hfalse, htrue⟩ := h.left.updateText text
    obtain ⟨hfalse', htrue'⟩ := h.right.updateText text
    cases haccepted : (m.updateText text).1 with
    | false =>
      rw [haccepted] at hanswer
      obtain ⟨hleft, hhalf⟩ := hfalse haccepted
      obtain ⟨hright, hhalf'⟩ := hfalse' hanswer.symm
      exact ⟨u, bytes, ⟨hleft, hright, htable, hstart, hhalf'.trans (h.half.trans hhalf.symm)⟩, rfl⟩
    | true =>
      rw [haccepted] at hanswer
      obtain ⟨cps, rest, hdecode, hleft, hsame⟩ := htrue haccepted
      obtain ⟨cps', rest', hdecode', hright, hsame'⟩ := htrue' hanswer.symm
      rw [h.half, hdecode] at hdecode'
      obtain ⟨rfl, hhalf⟩ := Prod.mk.inj (Option.some.inj hdecode')
      obtain rfl : rest = rest' := append_cancel_left (hsame.trans hsame'.symm)
      exact ⟨u ++ cps, rest, ⟨hleft, hright, htable, hstart, hhalf.symm⟩, hsame⟩
  | would text =>
    exact ⟨u, bytes, ⟨h.left.wouldAccept text, h.right.wouldAccept text, h.rules, h.root, h.half⟩,
      rfl⟩
  | done => exact ⟨u, bytes, h, rfl⟩
  | lead b => exact ⟨u, bytes, h, rfl⟩
  | reset => exact ⟨[], [], ⟨h.left.reset, h.right.reset, h.rules, h.root, rfl⟩, rfl⟩

/-- The answers to a list of calls. -/
def answers : GbnfMatcher → List GbnfCall → List Bool
  | _, [] => []
  | m, c :: calls => (ask m c).1 :: answers (ask m c).2 calls

/-- What was read and a call's text spell no string with more live stacks than are kept. -/
def Roomy (rules : List GbnfRule) (root : Nat) (state : GbnfMatcher × List UInt8)
    (c : GbnfCall) : Prop := NarrowText rules root (state.2 ++ c.text)

theorem Same.answers (h : Same m m' u bytes) {calls : List GbnfCall}
    (hroomy : Meets call (Roomy m.grammar.rules m.grammar.root) (m, utf8 u ++ bytes) calls) :
    Gbnf.answers m calls = Gbnf.answers m' calls := by
  induction calls generalizing m m' u bytes with
  | nil => rfl
  | cons c calls ih =>
    obtain ⟨hfirst, hrest⟩ := hroomy
    obtain ⟨hanswer, u', bytes', hsame, hread⟩ := h.ask hfirst
    have htable : (Gbnf.ask m c).2.grammar.rules = m.grammar.rules ∧
        (Gbnf.ask m c).2.grammar.root = m.grammar.root := by
      cases c with
      | update text => exact updateText_table m text
      | _ => exact ⟨rfl, rfl⟩
    rw [Gbnf.answers, Gbnf.answers, hanswer, ih hsame]
    rw [htable.1, htable.2, hread]
    exact hrest

/-- **Independence of cuts and trials.** From every state that calls lead to: a text may be cut
anywhere; a trial answers what an update would; and it changes no later answer, as long as the
strings that the later calls spell have no more live stacks than the simulator keeps. -/
theorem cut_and_try {src : List UInt8} {start : GbnfMatcher} (hcompile : compile src = .ok start)
    (calls : List GbnfCall) : let m := (runFrom call (start, []) calls).1
    let read := (runFrom call (start, []) calls).2
    (∀ text text',
      ((m.updateText (text ++ text')).1 = true ↔
        (m.updateText text).1 = true ∧ ((m.updateText text).2.updateText text').1 = true) ∧
      ((m.updateText (text ++ text')).1 = true →
        (m.updateText (text ++ text')).2 = ((m.updateText text).2.updateText text').2)) ∧
    ∀ text, (m.wouldAccept text).1 = (m.updateText text).1 ∧
      ∀ later, Meets call (Roomy m.grammar.rules m.grammar.root) (m, read) later →
        answers (m.wouldAccept text).2 later = answers m later := by
  intro m read
  obtain ⟨-, -, u, bytes, hm, hread⟩ := compile_follows hcompile calls
  refine ⟨hm.updateText_append,
    fun text => ⟨wouldAccept_eq_updateText m text, fun later hroomy => ?_⟩⟩
  have hsame : Same m (m.wouldAccept text).2 u bytes := ⟨hm, hm.wouldAccept text, rfl, rfl, rfl⟩
  refine (hsame.answers ?_).symm
  rw [hread]
  exact hroomy

/-- The two texts of a letter, with a trial in between that fails. -/
theorem cut_and_try_accent : ∃ start, compile accentSource = .ok start ∧
    let m := (runFrom call (start, []) [.update [0xC3]]).1
    ((m.updateText ([0xA9] ++ [])).1 = true ↔
      (m.updateText [0xA9]).1 = true ∧ ((m.updateText [0xA9]).2.updateText []).1 = true) ∧
    (m.wouldAccept [0x20]).1 = (m.updateText [0x20]).1 ∧
    answers (m.wouldAccept [0x20]).2 [.update [0xA9], .done] =
      answers m [.update [0xA9], .done] := by
  obtain ⟨start, hcompile, hrules, hroot⟩ := compile_accent
  obtain ⟨hcut, htry⟩ := cut_and_try hcompile [.update [0xC3]]
  refine ⟨start, hcompile, (hcut [0xA9] []).1, (htry [0x20]).1, (htry [0x20]).2 _ ?_⟩
  obtain ⟨hsame, hsame', -⟩ := compile_follows hcompile [.update [0xC3]]
  rw [hsame, hsame', hrules, hroot]
  exact ⟨fun w _ _ => star_encard w, fun w _ _ => star_encard w, trivial⟩

end Quench.Gbnf
