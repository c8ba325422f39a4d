import Quench.Compute.EsPattern
import Quench.Compute.RegexWalk

/-!
# What the compiler refuses

The compiler refuses a pattern if and only if it is not `Balanced`: its parentheses match and its
classes can be read (`compile_refused`). This is all it looks at, so constructs outside the
documented subset are compiled to something else: `foreign_compiled` has one pattern for each of
them.
-/

namespace Quench.RegexNfa

open Lib Regex Es List

/-- Parentheses match from a depth on, and classes can be read. -/
inductive Balanced : Nat → List UInt8 → Prop where
  | done : Balanced 0 []
  | escape {d : Nat} {e : UInt8} {rest : List UInt8} :
      Balanced d rest → Balanced d ('\\'.toUInt8 :: e :: rest)
  | opens {d : Nat} {rest : List UInt8} : Balanced (d + 1) rest → Balanced d ('('.toUInt8 :: rest)
  | closes {d : Nat} {rest : List UInt8} : Balanced d rest → Balanced (d + 1) (')'.toUInt8 :: rest)
  | charClass {d : Nat} {text rest : List UInt8} {cls : CharClass} :
      readClass text = some (cls, rest) → Balanced d rest → Balanced d ('['.toUInt8 :: text)
  | plain {d : Nat} {c : UInt8} {rest : List UInt8} :
      c ∉ weighed → Balanced d rest → Balanced d (c :: rest)

variable {d n : Nat} {rest text source : List UInt8} {parser : Parser}

/-! ## What is read does not change the balance -/

namespace Balanced

theorem of_plain {c : UInt8} (hc : c ∉ weighed) (h : Balanced d (c :: rest)) : Balanced d rest := by
  cases h with
  | escape | opens | closes | charClass => exact absurd (by decide) hc
  | plain _ h => exact h

theorem of_escape (h : Balanced d ('\\'.toUInt8 :: text)) :
    ∃ e rest, text = e :: rest ∧ Balanced d rest := by
  generalize hc : '\\'.toUInt8 = c at h
  cases h with
  | escape h => exact ⟨_, _, rfl, h⟩
  | opens | closes | charClass => cases hc
  | plain hplain => exact absurd (hc ▸ by decide) hplain

theorem of_open (h : Balanced d ('('.toUInt8 :: rest)) : Balanced (d + 1) rest := by
  generalize hc : '('.toUInt8 = c at h
  cases h with
  | opens h => exact h
  | escape | closes | charClass => cases hc
  | plain hplain => exact absurd (hc ▸ by decide) hplain

theorem of_close (h : Balanced d (')'.toUInt8 :: rest)) : ∃ e, d = e + 1 ∧ Balanced e rest := by
  generalize hc : ')'.toUInt8 = c at h
  cases h with
  | closes h => exact ⟨_, rfl, h⟩
  | escape | opens | charClass => cases hc
  | plain hplain => exact absurd (hc ▸ by decide) hplain

theorem of_class (h : Balanced d ('['.toUInt8 :: text)) :
    ∃ cls rest, readClass text = some (cls, rest) ∧ Balanced d rest := by
  generalize hc : '['.toUInt8 = c at h
  cases h with
  | charClass hread h => exact ⟨_, _, hread, h⟩
  | escape | opens | closes => cases hc
  | plain hplain => exact absurd (hc ▸ by decide) hplain

end Balanced

/-- A text that does not change the balance. -/
def Neutral (source : List UInt8) : Prop := ∀ d more, Balanced d (source ++ more) ↔ Balanced d more

theorem Neutral.balanced (h : Neutral source) : Balanced 0 source := by
  have hdone := (h 0 []).mpr .done
  rwa [append_nil] at hdone

theorem Neutral.append {other : List UInt8} (h : Neutral source) (hother : Neutral other) :
    Neutral (source ++ other) := fun d more => by
  rw [append_assoc, h, hother]

theorem neutral_plain {c : UInt8} (hc : c ∉ weighed) : Neutral [c] :=
  fun _ _ => ⟨.of_plain hc, .plain hc⟩

theorem neutral_group (h : Neutral source) :
    Neutral ('('.toUInt8 :: (source ++ [')'.toUInt8])) := fun d more => by
  rw [cons_append, append_assoc]
  refine ⟨fun hopen => ?_, fun hmore => .opens ((h _ _).mpr (.closes hmore))⟩
  obtain ⟨_, ⟨⟩, hmore⟩ := Balanced.of_close ((h _ _).mp hopen.of_open)
  exact hmore

theorem neutral_marker (text : List UInt8) :
    ∃ marker, Neutral marker ∧ text = marker ++ skipMarker text := by
  obtain ⟨marker, rfl | rfl, heq⟩ := skipMarker_eq text
  · exact ⟨[], fun _ _ => .rfl, heq⟩
  · exact ⟨_, (neutral_plain (by decide)).append (neutral_plain (by decide)), heq⟩

/-- A class that can be read does not change the balance. -/
theorem neutral_class {cls : CharClass} (h : readClass text = some (cls, rest)) :
    ∃ source, text = source ++ rest ∧ Neutral ('['.toUInt8 :: source) := by
  obtain ⟨source, -, heq, hall⟩ := readClass_take h
  refine ⟨source, heq, fun d more => ⟨fun hopen => ?_, .charClass (hall more)⟩⟩
  obtain ⟨cls', rest', hread, hbalanced⟩ := hopen.of_class
  obtain ⟨-, rfl⟩ := Prod.mk.inj (Option.some.inj ((hall more).symm.trans hread))
  exact hbalanced

/-! ## What a parser reads -/

/-- Every part of a parser reads a text that does not change the balance. -/
theorem neutral_walk : Walk fun count p q =>
    ∃ source, count ≤ source.length ∧ p.2 = source ++ q.2 ∧ Neutral source where
  refl := ⟨[], le_rfl, rfl, fun _ _ => .rfl⟩
  trans := by
    rintro m n ⟨_, p⟩ ⟨_, q⟩ r ⟨source, hm, rfl, hsource⟩ ⟨other, hn, rfl, hother⟩
    refine ⟨source ++ other, ?_, (append_assoc _ _ _).symm, hsource.append hother⟩
    rw [length_append]
    exact Nat.add_le_add hm hn
  weaken := fun ⟨source, _, heq, hsource⟩ => ⟨source, Nat.zero_le _, heq, hsource⟩
  newState := ⟨[], le_rfl, rfl, fun _ _ => .rfl⟩
  addEdge := ⟨[], le_rfl, rfl, fun _ _ => .rfl⟩
  copy _ := ⟨[], le_rfl, rfl, fun _ _ => .rfl⟩
  group := by
    rintro _ _ text rest ⟨source, -, heq, hsource⟩
    obtain ⟨marker, hmarker, htext⟩ := neutral_marker text
    refine ⟨_, ?_, ?_, neutral_group (hmarker.append hsource)⟩
    · rw [length_cons]
      omega
    · rw [cons_append, append_assoc, append_assoc]
      exact congrArg _ (htext.trans (congrArg _ heq))
  charClass := by
    intro _ _ _ _ hread
    obtain ⟨source, rfl, hsource⟩ := neutral_class hread
    exact ⟨_, Nat.le_add_left _ _, rfl, hsource⟩
  escape {_ esc _} := by
    refine ⟨['\\'.toUInt8, esc], Nat.le_add_left _ _, rfl, fun d more => ⟨fun h => ?_, .escape⟩⟩
    obtain ⟨_, _, ⟨⟩, hmore⟩ := h.of_escape
    exact hmore
  plain {_ c _} hc := ⟨[c], le_rfl, rfl, neutral_plain hc⟩

/-! ## A balanced text is read -/

section

variable {clone : List NfaState → Option (List NfaState × Frag)} {states states' : List NfaState}
  {f : Frag} {cur a count : Nat}

section

variable (hclone : ∀ states, ∃ out, clone states = some out)
include hclone

theorem mandatoryCopies_some : ∃ out, mandatoryCopies clone count states cur = some out := by
  induction count generalizing states cur with
  | zero => exact ⟨_, rfl⟩
  | succ count ih =>
    obtain ⟨out, hout⟩ := hclone states
    rw [mandatoryCopies, hout]
    exact ih

theorem optionalCopies_some : ∃ out, optionalCopies clone a count states cur = some out := by
  induction count generalizing states cur with
  | zero => exact ⟨_, rfl⟩
  | succ count ih =>
    obtain ⟨out, hout⟩ := hclone states
    rw [optionalCopies, hout]
    exact ih

theorem bounded_some {low high : Int} {atom : Frag} :
    ∃ out, bounded clone low high states atom = some out := by
  have hfinish : ∀ states cur, ∃ out, finishBounded clone low high states cur = some out := by
    intro states cur
    unfold finishBounded
    dsimp only
    split_ifs
    · obtain ⟨out, hout⟩ := hclone (newState states)
      rw [hout]
      exact ⟨_, rfl⟩
    · obtain ⟨out, hout⟩ := optionalCopies_some (a := states.length) hclone
      rw [hout]
      exact ⟨_, rfl⟩
  unfold bounded
  dsimp only
  obtain ⟨copies, hcopies⟩ := mandatoryCopies_some hclone
  obtain ⟨out, hout⟩ := hfinish copies.1 copies.2
  rw [hcopies, Option.bind_some, hout]
  exact ⟨_, rfl⟩

end

/-- A parser reads every short balanced text that starts a piece. -/
def ReadsBalanced (n : Nat) (parser : Parser) : Prop :=
  ∀ d states text, text.length < n → Balanced d text → endsConcat text = false →
    ∃ out, parser states text = some out

theorem neutral_repeat (h : parseRepeat n states text = some (states', f, rest)) :
    ∃ source, 1 ≤ source.length ∧ text = source ++ rest ∧ Neutral source :=
  neutral_walk.parseRepeat n h

theorem neutral_concat (h : parseConcat (parseRepeat n) states text = some (states', f, rest)) :
    ∃ source, 0 ≤ source.length ∧ text = source ++ rest ∧ Neutral source :=
  neutral_walk.parseConcat (neutral_walk.parseRepeat n) h

/-- A text that ends a concatenation and starts no branch. -/
def Stops (text : List UInt8) : Prop := endsConcat text = true ∧ startsBranch text = false

theorem Stops.cases (h : Stops text) : text = [] ∨ ∃ rest, text = ')'.toUInt8 :: rest := by
  obtain ⟨hend, hbranch⟩ := h
  cases text with
  | nil => exact .inl rfl
  | cons c rest =>
    rw [startsBranch] at hbranch
    rw [endsConcat, hbranch, Bool.false_or] at hend
    exact .inr ⟨rest, by rw [eq_of_beq hend]⟩

section

variable (hreads : ReadsBalanced n (parseRepeat n))
include hreads

theorem concatLoop_some {fuel : Nat} (hlength : text.length < n) (hfuel : text.length ≤ fuel)
    (h : Balanced d text) :
    ∃ out, concatLoop (parseRepeat n) fuel states cur text = some out ∧
      endsConcat out.2.2 = true := by
  induction fuel generalizing states cur text with
  | zero =>
    obtain rfl := length_eq_zero_iff.mp (Nat.le_zero.mp hfuel)
    exact ⟨_, rfl, rfl⟩
  | succ fuel ih =>
    rw [concatLoop]
    split_ifs with hend
    · exact ⟨_, rfl, hend⟩
    · obtain ⟨⟨states', f, rest⟩, hout⟩ :=
        hreads d states text hlength h (Bool.eq_false_iff.mpr hend)
      obtain ⟨source, hone, rfl, hsource⟩ := neutral_repeat hout
      rw [length_append] at hlength hfuel
      rw [hout]
      exact ih (by omega) (by omega) ((hsource _ _).mp h)

theorem parseConcat_some (states : List NfaState) (hlength : text.length < n)
    (h : Balanced d text) :
    ∃ out, parseConcat (parseRepeat n) states text = some out ∧ endsConcat out.2.2 = true := by
  unfold parseConcat
  dsimp only
  split_ifs with hend
  · exact ⟨_, rfl, hend⟩
  · obtain ⟨out, hout, hends⟩ := concatLoop_some hreads hlength le_rfl h
    rw [hout]
    exact ⟨_, rfl, hends⟩

theorem altLoop_some {fuel s : Nat} (hlength : text.length < n) (hfuel : text.length ≤ fuel)
    (hend : endsConcat text = true) (h : Balanced d text) :
    ∃ out, altLoop (parseConcat (parseRepeat n)) s a fuel states text = some out ∧
      Stops out.2 := by
  induction fuel generalizing states text with
  | zero =>
    obtain rfl := length_eq_zero_iff.mp (Nat.le_zero.mp hfuel)
    exact ⟨_, rfl, rfl, rfl⟩
  | succ fuel ih =>
    rw [altLoop]
    split_ifs with hbranch
    · cases text with
      | nil => cases hbranch
      | cons c text =>
        rw [startsBranch, beq_iff_eq] at hbranch
        subst hbranch
        have hrest := Balanced.of_plain (by decide) h
        rw [length_cons] at hlength hfuel
        obtain ⟨⟨states', f, rest⟩, hout, hends⟩ :=
          parseConcat_some hreads states (Nat.lt_of_succ_lt hlength) hrest
        obtain ⟨source, -, rfl, hsource⟩ := neutral_concat hout
        rw [length_append] at hlength hfuel
        rw [tail_cons, hout]
        exact ih (by omega) (by omega) hends ((hsource _ _).mp hrest)
    · exact ⟨_, rfl, hend, Bool.eq_false_iff.mpr hbranch⟩

theorem parseAlt_some (states : List NfaState) (hlength : text.length < n) (h : Balanced d text) :
    ∃ out, parseAlt (parseConcat (parseRepeat n)) states text = some out ∧ Stops out.2.2 := by
  obtain ⟨⟨states', f, rest⟩, hout, hends⟩ := parseConcat_some hreads states hlength h
  obtain ⟨source, -, rfl, hsource⟩ := neutral_concat hout
  rw [parseAlt, hout, Option.bind_some]
  dsimp only at hends ⊢
  split_ifs with hbranch
  · rw [length_append] at hlength
    obtain ⟨done, hdone, hstops⟩ :=
      altLoop_some hreads (by omega) le_rfl hends ((hsource _ _).mp h)
    rw [hdone]
    exact ⟨_, rfl, hstops⟩
  · exact ⟨_, rfl, hends, Bool.eq_false_iff.mpr hbranch⟩

/-- The first byte of a balanced text that starts a piece starts an atom. -/
theorem parseAtom_some (states : List NfaState) (hlength : text.length ≤ n) (h : Balanced d text)
    (hends : endsConcat text = false) :
    ∃ out, parseAtom (parseAlt (parseConcat (parseRepeat n))) states text = some out := by
  cases text with
  | nil => cases hends
  | cons c text =>
    rw [length_cons] at hlength
    rw [endsConcat, Bool.or_eq_false_iff] at hends
    rw [parseAtom.eq_def]
    dsimp only
    split_ifs with hgroup hclass hstop hany hescape hanchor
    · subst hgroup
      obtain ⟨marker, hmarker, htext⟩ := neutral_marker text
      have hinner : Balanced (d + 1) (skipMarker text) := (hmarker _ _).mp (htext ▸ h.of_open)
      have hshort : text.length = marker.length + (skipMarker text).length := by
        rw [← length_append, ← htext]
      obtain ⟨⟨states', f, rest⟩, hout, hstops⟩ := parseAlt_some hreads states (by omega) hinner
      obtain ⟨source, -, heq, hsource⟩ : ∃ source, 0 ≤ source.length ∧
          skipMarker text = source ++ rest ∧ Neutral source :=
        neutral_walk.parseAlt (neutral_walk.parseConcat (neutral_walk.parseRepeat n)) hout
      have hrest : Balanced (d + 1) rest := (hsource _ _).mp (heq ▸ hinner)
      rcases hstops.cases with rfl | ⟨more, rfl⟩
      · cases hrest
      · rw [hout]
        exact ⟨_, if_pos rfl⟩
    · obtain rfl := hclass
      obtain ⟨cls, rest, hread, -⟩ := h.of_class
      rw [hread]
      exact ⟨_, rfl⟩
    · rcases hstop with rfl | rfl
      · exact absurd hends.2 (by decide)
      · exact absurd hends.1 (by decide)
    · exact ⟨_, rfl⟩
    · obtain rfl := hescape
      obtain ⟨e, rest, rfl, -⟩ := h.of_escape
      exact ⟨_, rfl⟩
    · exact ⟨_, rfl⟩
    · exact ⟨_, rfl⟩

/-- The text of an atom is balanced by itself, so its copies can be read. -/
theorem repeatOnce_some (states : List NfaState) (hlength : text.length ≤ n) (h : Balanced d text)
    (hends : endsConcat text = false) :
    ∃ out, repeatOnce (parseRepeat n) states text = some out := by
  obtain ⟨⟨states', f, rest⟩, hout⟩ := parseAtom_some hreads states hlength h hends
  obtain ⟨source, hone, heq, hsource⟩ : ∃ source, 1 ≤ source.length ∧ text = source ++ rest ∧
      Neutral source :=
    neutral_walk.parseAtom
      (neutral_walk.parseAlt (neutral_walk.parseConcat (neutral_walk.parseRepeat n))) hout
  have htake : text.take (text.length - rest.length) = source := by
    rw [heq, length_append, Nat.add_sub_cancel, take_left]
  rw [repeatOnce, hout, Option.bind_some]
  dsimp only
  rw [htake]
  cases rest with
  | nil => exact ⟨_, rfl⟩
  | cons q rest =>
    rw [afterAtom]
    split_ifs
    · exact ⟨_, rfl⟩
    · split
      · exact ⟨_, rfl⟩
      · have hshort : source.length < n := by
          rw [heq, length_append, length_cons] at hlength
          omega
        have hsame : endsConcat source = false := by
          rw [heq] at hends
          cases source with
          | nil => cases hone
          | cons c source => exact hends
        have hclone : ∀ states, ∃ out, cloneAtom (parseRepeat n) source states = some out := by
          intro states
          obtain ⟨out, hcopy⟩ := hreads 0 states source hshort hsource.balanced hsame
          rw [cloneAtom, hcopy]
          exact ⟨_, rfl⟩
        obtain ⟨built, hbuilt⟩ := bounded_some hclone
        rw [hbuilt]
        exact ⟨_, rfl⟩
    · exact ⟨_, rfl⟩

end

theorem reads_parseRepeat (n : Nat) : ReadsBalanced n (parseRepeat n) := by
  induction n with
  | zero => exact fun _ _ _ hlength => absurd hlength (Nat.not_lt_zero _)
  | succ n ih =>
    exact fun d states text hlength h hends =>
      repeatOnce_some ih states (Nat.le_of_lt_succ hlength) h hends

end

/-- A pattern is refused if and only if its parentheses do not match or a class of it cannot be
read. -/
theorem compile_refused (text : List UInt8) : compile text = none ↔ ¬ Balanced 0 text := by
  have hwalk {out} (hout : parseAlt (parseConcat (parseRepeat (text.length + 1))) [] text =
      some out) : ∃ source, 0 ≤ source.length ∧ text = source ++ out.2.2 ∧ Neutral source :=
    neutral_walk.parseAlt (neutral_walk.parseConcat (neutral_walk.parseRepeat _)) hout
  constructor
  · intro hnone h
    obtain ⟨⟨states, root, rest⟩, hout, hstops⟩ :=
      parseAlt_some (reads_parseRepeat _) [] (Nat.lt_succ_self _) h
    obtain ⟨source, -, heq, hsource⟩ := hwalk hout
    have hrest : Balanced 0 rest := (hsource _ _).mp (heq ▸ h)
    rcases hstops.cases with rfl | ⟨more, rfl⟩
    · rw [compile, hout] at hnone
      cases hnone
    · obtain ⟨_, ⟨⟩, -⟩ := hrest.of_close
  · intro hnot
    unfold compile
    split
    · rename_i states root hout
      obtain ⟨source, -, heq, hsource⟩ := hwalk hout
      rw [append_nil] at heq
      exact absurd (heq ▸ hsource.balanced) hnot
    · rfl

/-- A literal byte that is no metacharacter. -/
def letterTerm (c : Char) (h : c.toUInt8 ∉ metacharacters := by decide) : Term := .byte c.toUInt8 h

/-- One pattern for each kind of construct outside the documented subset. -/
def foreignPatterns : List (String × Disjunction) :=
  let a : Term := letterTerm 'a'
  let inner : Disjunction := .last (.term a .nil)
  let name : Spelled isName := ⟨ascii "n", by decide, all_eq_true.mp rfl⟩
  [("(?=a)", .last (.term (.group (.look false false) inner) .nil)),
    ("(?<!a)", .last (.term (.group (.look true true) inner) .nil)),
    ("(?<n>a)", .last (.term (.group (.named name) inner) .nil)),
    ("a*?", .last (.quantified a .star true .nil)),
    ("(a)\\1", .last (.term (.group .capturing inner) (.term (.backreference 1 (by decide)) .nil))),
    ("\\ba", .last (.assertion (.boundary false) (.term a .nil))),
    ("\\p\x7bL\x7d",
      .last (.term (.set (.property false ⟨ascii "L", by decide, all_eq_true.mp rfl⟩)) .nil)),
    ("a^$a", .last (.term a (.assertion .start (.assertion .finish (.term a .nil)))))]

/-- Every kind of construct outside the documented subset compiles. -/
theorem foreign_compiled :
    Forall (fun entry => entry.2.text = ascii entry.1 ∧ entry.2.Outside ∧
      (compile entry.2.text).isSome = true) foreignPatterns := by
  decide +kernel

end Quench.RegexNfa
