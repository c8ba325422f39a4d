import Quench.Compute.RegexWalk

/-!
# The pattern compiler has enough fuel

Every piece that is read takes at least one byte, and the text of a group and the text that is read
again for a copy are shorter than the text they come from. So the recursion and its two loops never
run out of fuel (`existsUnique_parseRepeat`).
-/

namespace Quench.RegexNfa

open List

variable {parser parser' : Parser} {states : List NfaState} {text rest : List UInt8}
  {n fuel fuel' cur s a : Nat}

/-- What is left is shorter by at least so many bytes. -/
def Takes (count : Nat) (parser : Parser) : Prop :=
  ∀ {states text out}, parser states text = some out → out.2.2.length + count ≤ text.length

/-! ## Every piece takes a byte -/

/-- A class takes a byte. -/
theorem length_readClass {cls : CharClass} (h : readClass text = some (cls, rest)) :
    rest.length < text.length := by
  obtain ⟨source, hne, rfl, -⟩ := readClass_take h
  have hpos : 0 < source.length := length_pos_iff.mpr hne
  rw [length_append]
  omega

/-- Skipping a marker does not make the text longer. -/
theorem length_skipMarker : (skipMarker text).length ≤ text.length := by
  obtain ⟨marker, -, heq⟩ := skipMarker_eq text
  have hlength := congrArg length heq
  rw [length_append] at hlength
  omega

/-- How much is left is a relation that the descent respects. -/
theorem takes_walk : Walk fun count p q => q.2.length + count ≤ p.2.length where
  refl := le_rfl
  trans hpq hqr := by omega
  weaken hpq := by omega
  newState := le_rfl
  addEdge := le_rfl
  copy _ := le_rfl
  group {_ _ text _} hinner := by
    have : (skipMarker text).length ≤ text.length := length_skipMarker
    simp only [length_cons] at *
    omega
  charClass hread := Nat.succ_le_succ (length_readClass hread).le
  escape := Nat.le_succ _
  plain _ := le_rfl

/-! ## More fuel changes nothing -/

/-- Two parsers agree on short texts. -/
def Agree (n : Nat) (parser parser' : Parser) : Prop :=
  ∀ states text, text.length < n → parser states text = parser' states text

section

variable (h : Agree n parser parser')
include h

/-- The fuel of the loop over pieces does not matter. -/
theorem agree_concatLoop (hparser : Takes 1 parser) (hlt : text.length < n)
    (hfuel : text.length ≤ fuel) (hfuel' : text.length ≤ fuel') :
    concatLoop parser fuel states cur text = concatLoop parser' fuel' states cur text := by
  induction fuel generalizing states cur text fuel' with
  | zero =>
    obtain rfl := length_eq_zero_iff.mp (Nat.le_zero.mp hfuel)
    cases fuel' <;> rfl
  | succ fuel ih =>
    cases fuel' with
    | zero =>
      obtain rfl := length_eq_zero_iff.mp (Nat.le_zero.mp hfuel')
      rfl
    | succ fuel' =>
      rw [concatLoop, concatLoop, h states text hlt]
      split_ifs
      · rfl
      · refine Option.bind_congr fun out hbuilt => ?_
        obtain ⟨states', f, rest⟩ := out
        rw [← h states text hlt] at hbuilt
        have hpiece : rest.length + 1 ≤ text.length := hparser hbuilt
        exact ih (by omega) (by omega) (by omega)

/-- Branches agree where pieces do. -/
theorem agree_parseConcat (hparser : Takes 1 parser) :
    Agree n (parseConcat parser) (parseConcat parser') := by
  intro states text hlt
  rw [parseConcat, parseConcat, agree_concatLoop h hparser hlt le_rfl le_rfl]

/-- The fuel of the loop over branches does not matter. -/
theorem agree_altLoop (hparser : Takes 0 parser) (hlt : text.length ≤ n)
    (hfuel : text.length ≤ fuel) (hfuel' : text.length ≤ fuel') :
    altLoop parser s a fuel states text = altLoop parser' s a fuel' states text := by
  induction fuel generalizing states text fuel' with
  | zero =>
    obtain rfl := length_eq_zero_iff.mp (Nat.le_zero.mp hfuel)
    cases fuel' <;> rfl
  | succ fuel ih =>
    cases fuel' with
    | zero =>
      obtain rfl := length_eq_zero_iff.mp (Nat.le_zero.mp hfuel')
      rfl
    | succ fuel' =>
      cases text with
      | nil => rfl
      | cons c text =>
        rw [length_cons] at hlt hfuel hfuel'
        rw [altLoop, altLoop, tail_cons, h states text hlt]
        split_ifs
        · refine Option.bind_congr fun out hbuilt => ?_
          obtain ⟨states', next, rest⟩ := out
          rw [← h states text hlt] at hbuilt
          have hbranch : rest.length + 0 ≤ text.length := hparser hbuilt
          exact ih (by omega) (by omega) (by omega)
        · rfl

/-- Patterns agree where branches do. -/
theorem agree_parseAlt (hparser : Takes 0 parser) :
    Agree n (parseAlt parser) (parseAlt parser') := by
  intro states text hlt
  rw [parseAlt, parseAlt, h states text hlt]
  refine Option.bind_congr fun out hbuilt => ?_
  obtain ⟨states', first, rest⟩ := out
  rw [← h states text hlt] at hbuilt
  have hfirst : rest.length + 0 ≤ text.length := hparser hbuilt
  dsimp only
  rw [agree_altLoop h hparser (by omega) le_rfl le_rfl]

/-- The text of a group is shorter than the text of the atom. -/
theorem agree_parseAtom (hlt : text.length ≤ n) :
    parseAtom parser states text = parseAtom parser' states text := by
  cases text with
  | nil => rfl
  | cons c rest =>
    have : (skipMarker rest).length ≤ rest.length := length_skipMarker
    rw [length_cons] at hlt
    rw [parseAtom.eq_def, parseAtom.eq_def]
    dsimp only
    rw [h states (skipMarker rest) (by omega)]

/-- The copies are read from a shorter text. -/
theorem agree_afterAtom {source : List UInt8} {atom : Frag} (hlt : rest ≠ [] → source.length < n) :
    afterAtom parser source states atom rest = afterAtom parser' source states atom rest := by
  cases rest with
  | nil => rfl
  | cons q rest =>
    have hclone : cloneAtom parser source = cloneAtom parser' source := by
      funext states
      rw [cloneAtom, cloneAtom, h states source (hlt (cons_ne_nil _ _))]
    rw [afterAtom, afterAtom, hclone]

/-- One level of the recursion reads a longer text. -/
theorem agree_repeatOnce (hparser : Takes 1 parser) :
    Agree (n + 1) (repeatOnce parser) (repeatOnce parser') := by
  intro states text hlt
  have hconcat : Takes 0 (parseConcat parser) := takes_walk.parseConcat hparser
  have halt := agree_parseAlt (agree_parseConcat h hparser) hconcat
  have hatom : parseAtom (parseAlt (parseConcat parser)) states text =
      parseAtom (parseAlt (parseConcat parser')) states text :=
    agree_parseAtom halt (Nat.le_of_lt_succ hlt)
  rw [repeatOnce, repeatOnce, hatom]
  refine Option.bind_congr fun out hbuilt => ?_
  obtain ⟨states', atom, rest⟩ := out
  rw [← hatom] at hbuilt
  have hlength : rest.length + 1 ≤ text.length :=
    takes_walk.parseAtom (takes_walk.parseAlt hconcat) hbuilt
  refine agree_afterAtom h fun hne => ?_
  have hpos : 0 < rest.length := length_pos_iff.mpr hne
  rw [length_take]
  omega

end

/-- Any parsers that unfold once per level agree with the recursion. -/
theorem agree_parseRepeat (parsers : Nat → Parser)
    (h : ∀ k, parsers (k + 1) = repeatOnce (parsers k)) (fuel : Nat) :
    Agree fuel (parseRepeat fuel) (parsers fuel) := by
  induction fuel with
  | zero => exact fun _ _ hlt => absurd hlt (Nat.not_lt_zero _)
  | succ fuel ih =>
    rw [h]
    exact agree_repeatOnce ih (takes_walk.parseRepeat fuel)

/-- `parse_repeat` with fuel for its text. -/
def fueledRepeat : Parser := fun states text => parseRepeat (text.length + 1) states text

/-- More fuel than bytes changes nothing. -/
theorem agree_fueledRepeat (n : Nat) : Agree n (parseRepeat n) fueledRepeat := by
  intro states text hlt
  obtain ⟨extra, rfl⟩ := Nat.exists_eq_add_of_le hlt
  exact (agree_parseRepeat (fun k => parseRepeat (k + extra))
    (fun k => congrArg parseRepeat (Nat.succ_add k extra)) _ states text (Nat.lt_succ_self _)).symm

/-- `parse_repeat` ends on every text: its equation has exactly one solution. `compile` reads with
it, and its loops are done after at most one round for every byte. -/
theorem existsUnique_parseRepeat : ∃ parser : Parser,
    (∀ other : Parser, other = repeatOnce other ↔ other = parser) ∧
    (∀ pattern, parseAlt (parseConcat (parseRepeat (pattern.length + 1))) [] pattern =
      parseAlt (parseConcat parser) [] pattern) ∧
    (∀ extra states cur text, concatLoop parser (length text + extra) states cur text =
      concatLoop parser text.length states cur text) ∧
    ∀ s a extra states text, altLoop (parseConcat parser) s a (length text + extra) states text =
      altLoop (parseConcat parser) s a text.length states text := by
  have htakes : Takes 1 fueledRepeat := takes_walk.parseRepeat _
  refine ⟨fueledRepeat, fun other => ⟨fun h => ?_, ?_⟩, fun pattern => ?_,
    fun extra states cur text => ?_, fun s a extra states text => ?_⟩
  · funext states text
    exact (agree_parseRepeat (fun _ => other) (fun _ => h) _ states text (Nat.lt_succ_self _)).symm
  · rintro rfl
    funext states text
    exact agree_repeatOnce (agree_fueledRepeat text.length) (takes_walk.parseRepeat _) states text
      (Nat.lt_succ_self _)
  · have hrepeat : Takes 1 (parseRepeat (pattern.length + 1)) := takes_walk.parseRepeat _
    exact agree_parseAlt (agree_parseConcat (agree_fueledRepeat _) hrepeat)
      (takes_walk.parseConcat hrepeat) [] pattern (Nat.lt_succ_self _)
  · exact agree_concatLoop (fun _ _ _ => rfl) htakes (Nat.lt_succ_self _) (Nat.le_add_right _ _)
      le_rfl
  · exact agree_altLoop (fun _ _ _ => rfl) (takes_walk.parseConcat htakes) le_rfl
      (Nat.le_add_right _ _) le_rfl

end Quench.RegexNfa
