import Quench.Compute.RegexNfa
import Quench.Compute.RegexSyntax

/-!
# The parser, one byte and one edge at a time

`Walk` is a relation between where a parser starts and where it stops that every byte it takes and
every state and edge it adds respect. Such a relation holds of the whole recursive descent:
`Walk.parseAlt`, `Walk.parseConcat` and `Walk.parseRepeat`. `RegexFuel` walks with the length of the
text that is left, `RegexRefusal` with its parentheses, and `RegexExact` with the states.
-/

namespace Quench.RegexNfa

open Lib Regex Option RegexNfa List

/-- The bytes that matter for the balance of a pattern. -/
def weighed : List UInt8 := ascii "\\()["

/-- The states so far and the text left. -/
abbrev Point := List NfaState × List UInt8

/-- What the moves of a parser respect. The number is how many bytes are taken at least. -/
structure Walk (R : Nat → Point → Point → Prop) : Prop where
  refl {p : Point} : R 0 p p
  trans {m n : Nat} {p q r : Point} : R m p q → R n q r → R (m + n) p r
  weaken {n : Nat} {p q : Point} : R n p q → R 0 p q
  newState {states : List NfaState} {text : List UInt8} :
    R 0 (states, text) (newState states, text)
  addEdge {states : List NfaState} {text : List UInt8} {source target : Nat}
    {cls : Option CharClass} : R 0 (states, text) (addEdge states source target cls, text)
  /-- A copy of an atom is read from the text of the atom. -/
  copy {n : Nat} {states states' : List NfaState} {source rest text : List UInt8} :
    R n (states, source) (states', rest) → R 0 (states, text) (states', text)
  group {states states' : List NfaState} {text rest : List UInt8} :
    R 0 (states, skipMarker text) (states', ')'.toUInt8 :: rest) →
      R 1 (states, '('.toUInt8 :: text) (states', rest)
  charClass {states : List NfaState} {text rest : List UInt8} {cls : CharClass} :
    readClass text = some (cls, rest) → R 1 (states, '['.toUInt8 :: text) (states, rest)
  escape {states : List NfaState} {esc : UInt8} {rest : List UInt8} :
    R 1 (states, '\\'.toUInt8 :: esc :: rest) (states, rest)
  plain {states : List NfaState} {c : UInt8} {rest : List UInt8} :
    c ∉ weighed → R 1 (states, c :: rest) (states, rest)

/-- A parser that takes at least so many bytes stays in the relation. -/
def Follows (R : Nat → Point → Point → Prop) (count : Nat) (parser : Parser) : Prop :=
  ∀ {states text out}, parser states text = some out → R count (states, text) (out.1, out.2.2)

variable {c : UInt8}

/-- A byte of a kind that no special byte has is not special. -/
theorem notMem_of_kind {special : List UInt8} {kind : UInt8 → Bool}
    (hkind : special.all (fun b => !kind b) = true) (hc : kind c = true) : c ∉ special := by
  intro hmem
  have hnot := List.all_eq_true.mp hkind c hmem
  rw [hc] at hnot
  cases hnot

/-! ## Classes and markers -/

/-- No range ends here. -/
def NoRange (text : List UInt8) : Prop :=
  ∀ hi more, text = '-'.toUInt8 :: hi :: more → hi = ']'.toUInt8

section

variable {cls cls' : CharClass} {any : Bool} {text rest source more : List UInt8}

/-- A member that is neither an escape nor the start of a range. -/
theorem classMembers_single (hclose : c ≠ ']'.toUInt8) (hescape : c ≠ '\\'.toUInt8)
    (hrange : NoRange text) :
    classMembers cls any (c :: text) = classMembers (fun b => cls b || b == c) true text := by
  rw [classMembers.eq_def]
  dsimp only
  rw [if_neg hclose, if_neg hescape]
  rcases text with _ | ⟨dash, _ | ⟨hi, text⟩⟩
  · rw [classMembers]
  · rfl
  · refine if_neg fun hdash => hdash.2 (hrange hi text ?_)
    rw [hdash.1]

/-- The members of a class that is closed do not depend on what follows. -/
def Closes (cls : CharClass) (any : Bool) (source : List UInt8) (cls' : CharClass) : Prop :=
  ∀ more, classMembers cls any (source ++ more) = some (cls', more)

/-- The closing bracket is part of the text. -/
theorem Closes.ne_nil (h : Closes cls any source cls') : source ≠ [] := by
  rintro rfl
  have hnone := h []
  rw [append_nil, classMembers] at hnone
  cases hnone

/-- Whether a range ends is decided inside the class. -/
theorem Closes.noRange (h : Closes cls any source cls') (hrange : NoRange (source ++ rest)) :
    NoRange (source ++ more) := by
  intro hi tail heq
  rcases source with _ | ⟨x, _ | ⟨y, source⟩⟩
  · exact absurd rfl h.ne_nil
  · obtain ⟨rfl, -⟩ := cons.inj heq
    have hempty : NoRange [] := by rintro _ _ ⟨⟩
    have hnone := h []
    rw [append_nil, classMembers_single (by decide) (by decide) hempty, classMembers] at hnone
    cases hnone
  · obtain ⟨rfl, htail⟩ := cons.inj heq
    obtain ⟨rfl, -⟩ := cons.inj htail
    exact hrange y _ rfl

/-- The members are read up to the bracket. -/
theorem classMembers_take (h : classMembers cls any text = some (cls', rest)) :
    ∃ source, text = source ++ rest ∧ Closes cls any source cls' := by
  fun_induction classMembers cls any text with
  | case1 | case3 | case4 | case6 | case10 => cases h
  | case2 cls tail =>
    cases h
    exact ⟨[']'.toUInt8], rfl, fun more => by rw [classMembers.eq_def]; rfl⟩
  | case5 cls any esc tail hne ih =>
    obtain ⟨source, rfl, hall⟩ := ih h
    refine ⟨'\\'.toUInt8 :: esc :: source, rfl, fun more => ?_⟩
    rw [cons_append, cons_append, classMembers, if_neg hne, if_pos rfl]
    exact hall more
  | case7 cls any c hclose hescape dash hi tail hrange hle ih =>
    obtain ⟨source, rfl, hall⟩ := ih h
    refine ⟨c :: dash :: hi :: source, rfl, fun more => ?_⟩
    rw [cons_append, cons_append, cons_append, classMembers.eq_def]
    dsimp only
    rw [if_neg hclose, if_neg hescape, if_pos hrange, if_neg hle]
    exact hall more
  | case8 cls any c hclose hescape dash hi tail hrange ih =>
    obtain ⟨source, heq, hall⟩ := ih h
    refine ⟨c :: source, congrArg (c :: ·) heq, fun more => ?_⟩
    have hnone : NoRange (source ++ rest) := by
      rw [← heq]
      rintro _ _ ⟨⟩
      exact not_not.mp fun hne => hrange ⟨rfl, hne⟩
    rw [cons_append, classMembers_single hclose hescape (hall.noRange hnone)]
    exact hall more
  | case9 cls any c hclose hescape dash ih =>
    obtain ⟨source, heq, hall⟩ := ih h
    refine ⟨c :: source, congrArg (c :: ·) heq, fun more => ?_⟩
    have hnone : NoRange (source ++ rest) := by
      rw [← heq]
      rintro _ _ ⟨⟩
    rw [cons_append, classMembers_single hclose hescape (hall.noRange hnone)]
    exact hall more

/-- A class that can be read is read up to its own bracket, whatever follows. -/
theorem readClass_take (h : readClass text = some (cls, rest)) :
    ∃ source, source ≠ [] ∧ text = source ++ rest ∧
      ∀ more, readClass (source ++ more) = some (cls, more) := by
  cases text with
  | nil => cases h
  | cons c text =>
    rw [readClass] at h
    split_ifs at h with hcaret
    · obtain ⟨⟨members, tail⟩, hmembers, heq⟩ := Option.map_eq_some_iff.mp h
      cases heq
      obtain ⟨source, rfl, hall⟩ := classMembers_take hmembers
      refine ⟨c :: source, cons_ne_nil _ _, rfl, fun more => ?_⟩
      rw [cons_append, readClass, if_pos hcaret, hall more]
      rfl
    · obtain ⟨source, heq, hall⟩ := classMembers_take h
      refine ⟨source, hall.ne_nil, heq, fun more => ?_⟩
      cases source with
      | nil => exact absurd rfl hall.ne_nil
      | cons b source =>
        obtain ⟨rfl, -⟩ := cons.inj heq
        rw [cons_append, readClass, if_neg hcaret]
        exact hall more

end

/-- The marker of a group stands before the rest. -/
theorem skipMarker_eq (text : List UInt8) :
    ∃ marker, (marker = [] ∨ marker = ['?'.toUInt8, ':'.toUInt8]) ∧
      text = marker ++ skipMarker text := by
  fun_cases skipMarker text with
  | case1 q c text hmarker =>
    obtain ⟨rfl, rfl⟩ := hmarker
    exact ⟨_, .inr rfl, rfl⟩
  | case2 | case3 => exact ⟨[], .inl rfl, rfl⟩

/-! ## The descent -/

namespace Walk

variable {R : Nat → Point → Point → Prop} {parser : Parser} {states : List NfaState}
  {text rest : List UInt8} {p q : Point} {source target cur : Nat}
  {clone : List NfaState → Option (List NfaState × Frag)}
variable (h : Walk R)
include h

/-- A plain byte in front. -/
theorem skip (hc : c ∉ weighed) (hrest : R 0 (states, rest) q) : R 0 (states, c :: rest) q :=
  h.trans (h.weaken (h.plain hc)) hrest

/-- One more edge. -/
theorem addEpsilon (hp : R 0 p (states, text)) : R 0 p (addEpsilon states source target, text) :=
  h.trans hp h.addEdge

/-- One more state. -/
theorem grow (hp : R 0 p (states, text)) : R 0 p (RegexNfa.newState states, text) :=
  h.trans hp h.newState

/-- The two states of an atom. -/
theorem joined {n : Nat} {cls : Option CharClass} (hp : R n p (states, text)) :
    R n p ((joined states cls).1, text) :=
  h.trans hp (h.trans (h.grow h.newState) h.addEdge)

/-! ## Atoms and what follows them -/

/-- An atom takes a byte. -/
theorem parseAtom (hparser : Follows R 0 parser) : Follows R 1 (parseAtom parser) := by
  intro states text out heq
  cases text with
  | nil => cases heq
  | cons c rest =>
    rw [parseAtom.eq_def] at heq
    dsimp only at heq
    split_ifs at heq with hgroup hclass hstop hany hescape hanchor
    · subst hgroup
      split at heq
      · rename_i inner f close more hinner
        split_ifs at heq with hclose
        cases heq
        exact h.group (hclose ▸ hparser hinner)
      · cases heq
    · obtain ⟨⟨cls, more⟩, hread, heq⟩ := bind_eq_some_iff.mp heq
      cases heq
      subst hclass
      exact h.joined (h.charClass hread)
    · cases heq
      exact h.joined (h.plain (by rw [hany]; decide))
    · cases rest with
      | nil => cases heq
      | cons esc more =>
        cases heq
        subst hescape
        exact h.joined h.escape
    · cases heq
      refine h.joined (h.plain ?_)
      rcases hanchor with rfl | rfl
      · decide
      · decide
    · cases heq
      refine h.joined (h.plain fun hmem => ?_)
      have hweighed : weighed = ['\\'.toUInt8, '('.toUInt8, ')'.toUInt8, '['.toUInt8] := rfl
      simp only [hweighed, List.mem_cons, List.not_mem_nil, or_false] at hmem
      rcases hmem with heq | heq | heq | heq
      · exact hescape heq
      · exact hgroup heq
      · exact hstop (.inl heq)
      · exact hclass heq

/-- The digits of a bound. -/
theorem scanInt {v : Int} : R 0 (states, text) (states, (scanInt v text).2) := by
  induction text generalizing v with
  | nil => exact h.refl
  | cons c text ih =>
    rw [RegexNfa.scanInt]
    split_ifs with hdigit
    · exact h.skip (notMem_of_kind rfl hdigit) ih
    · exact h.refl

variable {n m : Int} {atom : Frag} {a fuel : Nat}

/-- The upper bound. -/
theorem scanUpper : R 0 (states, text) (states, (scanUpper n text).2) := by
  cases text with
  | nil => exact h.refl
  | cons c text =>
    rw [scanUpper]
    split_ifs with hcomma
    · exact h.skip (by rw [hcomma]; decide) h.scanInt
    · exact h.skip (by rw [hcomma]; decide) h.refl
    · exact h.refl

/-- Both bounds with their braces. -/
theorem scanBounds (hscan : scanBounds text = some (n, m, rest)) :
    R 0 (states, text) (states, rest) := by
  unfold RegexNfa.scanBounds at hscan
  dsimp only at hscan
  split at hscan
  · cases hscan
  · rename_i c more hupper
    split_ifs at hscan with hbrace
    cases hscan
    have hbounds : R 0 (states, text) (states, c :: rest) :=
      hupper ▸ h.trans h.scanInt h.scanUpper
    exact h.trans hbounds (h.skip (by rw [hbrace.2]; decide) h.refl)

/-- What a quantifier of one character adds. -/
theorem quantified {q : UInt8} (hp : R 0 p (states, text)) :
    R 0 p ((quantified q states atom).1, text) := by
  have hnew := h.grow (h.grow hp)
  unfold RegexNfa.quantified
  split_ifs
  · exact h.addEpsilon (h.addEpsilon (h.addEpsilon (h.addEpsilon hnew)))
  · exact h.addEpsilon (h.addEpsilon (h.addEpsilon hnew))
  · exact h.addEpsilon (h.addEpsilon (h.addEpsilon hnew))

section

variable (hclone : ∀ {states out}, clone states = some out → R 0 (states, text) (out.1, text))
include hclone

variable {count : Nat}

variable (hp : R 0 p (states, text))
include hp

/-- The copies that must be taken. -/
theorem mandatoryCopies {out : List NfaState × Nat}
    (heq : mandatoryCopies clone count states cur = some out) : R 0 p (out.1, text) := by
  induction count generalizing states cur with
  | zero =>
    cases heq
    exact hp
  | succ count ih =>
    obtain ⟨built, hbuilt, heq⟩ := bind_eq_some_iff.mp heq
    exact ih (h.addEpsilon (h.trans hp (hclone hbuilt))) heq

/-- The copies that may be left out. -/
theorem optionalCopies {out : List NfaState × Nat}
    (heq : optionalCopies clone a count states cur = some out) : R 0 p (out.1, text) := by
  induction count generalizing states cur with
  | zero =>
    cases heq
    exact hp
  | succ count ih =>
    obtain ⟨built, hbuilt, heq⟩ := bind_eq_some_iff.mp heq
    exact ih (h.addEpsilon (h.addEpsilon (h.trans hp (hclone hbuilt)))) heq

/-- The copies behind the mandatory ones, or a loop. -/
theorem finishBounded {out : List NfaState × Nat}
    (heq : finishBounded clone n m states cur = some out) : R 0 p (out.1, text) := by
  unfold RegexNfa.finishBounded at heq
  split_ifs at heq
  · obtain ⟨built, hbuilt, heq⟩ := bind_eq_some_iff.mp heq
    cases heq
    have hnew := h.grow (h.trans (h.grow hp) (hclone hbuilt))
    exact h.addEpsilon (h.addEpsilon (h.addEpsilon (h.addEpsilon (h.addEpsilon hnew))))
  · obtain ⟨built, hbuilt, rfl⟩ := map_eq_some_iff.mp heq
    exact h.addEpsilon (h.optionalCopies hclone (h.grow hp) hbuilt)

/-- All copies of a bounded repetition. -/
theorem bounded {out : List NfaState × Frag}
    (heq : bounded clone n m states atom = some out) : R 0 p (out.1, text) := by
  unfold RegexNfa.bounded at heq
  split_ifs at heq
  · obtain ⟨copied, hcopied, heq⟩ := bind_eq_some_iff.mp heq
    obtain ⟨done, hdone, rfl⟩ := map_eq_some_iff.mp heq
    exact h.finishBounded hclone (h.mandatoryCopies hclone (h.addEpsilon (h.grow hp)) hcopied) hdone
  · obtain ⟨copied, hcopied, heq⟩ := bind_eq_some_iff.mp heq
    obtain ⟨done, hdone, rfl⟩ := map_eq_some_iff.mp heq
    exact h.finishBounded hclone (h.mandatoryCopies hclone (h.grow hp) hcopied) hdone

end

variable {out : List NfaState × Frag × List UInt8}

/-- What follows an atom. -/
theorem afterAtom {n : Nat} (hparser : Follows R n parser) {source : List UInt8}
    (heq : afterAtom parser source states atom rest = some out) :
    R 0 (states, rest) (out.1, out.2.2) := by
  cases rest with
  | nil =>
    cases heq
    exact h.refl
  | cons q rest =>
    rw [afterAtom] at heq
    split_ifs at heq with hshort hbrace
    · cases heq
      refine h.quantified (h.skip ?_ h.refl)
      rcases hshort with rfl | rfl | rfl
      · decide
      · decide
      · decide
    · split at heq
      · cases heq
        exact h.refl
      · rename_i low high more hscan
        obtain ⟨built, hbuilt, heq⟩ := bind_eq_some_iff.mp heq
        cases heq
        refine h.bounded (fun hclone => ?_) (h.skip (by rw [hbrace]; decide) (h.scanBounds hscan))
          hbuilt
        obtain ⟨copied, hcopied, rfl⟩ := map_eq_some_iff.mp hclone
        exact h.copy (hparser hcopied)
    · cases heq
      exact h.refl

/-! ## Concatenations and branches -/

/-- The pieces of a branch, one at a time. -/
theorem concatLoop (hparser : Follows R 1 parser) {out : List NfaState × Nat × List UInt8}
    (hp : R 0 p (states, text)) (heq : concatLoop parser fuel states cur text = some out) :
    R 0 p (out.1, out.2.2) := by
  induction fuel generalizing states cur text with
  | zero =>
    rw [concatLoop] at heq
    split_ifs at heq
    cases heq
    exact hp
  | succ fuel ih =>
    rw [concatLoop] at heq
    split_ifs at heq
    · cases heq
      exact hp
    · obtain ⟨built, hbuilt, heq⟩ := bind_eq_some_iff.mp heq
      exact ih (h.addEpsilon (h.trans hp (h.weaken (hparser hbuilt)))) heq

/-- A branch may be empty. -/
theorem parseConcat (hparser : Follows R 1 parser) : Follows R 0 (parseConcat parser) := by
  intro states text out heq
  unfold RegexNfa.parseConcat at heq
  split_ifs at heq
  · cases heq
    exact h.joined h.refl
  · obtain ⟨built, hbuilt, rfl⟩ := map_eq_some_iff.mp heq
    exact h.concatLoop hparser h.newState hbuilt

/-- The further branches. -/
theorem altLoop (hparser : Follows R 0 parser) {s : Nat} {out : List NfaState × List UInt8}
    (hp : R 0 p (states, text)) (heq : altLoop parser s a fuel states text = some out) :
    R 0 p out := by
  induction fuel generalizing states text with
  | zero =>
    rw [altLoop] at heq
    split_ifs at heq
    cases heq
    exact hp
  | succ fuel ih =>
    rw [altLoop] at heq
    split_ifs at heq with hstart
    · cases text with
      | nil => cases hstart
      | cons c text =>
        obtain ⟨built, hbuilt, heq⟩ := bind_eq_some_iff.mp heq
        rw [startsBranch, beq_iff_eq] at hstart
        have hplain : c ∉ weighed := by rw [hstart]; decide
        have hbranch := h.trans hp (h.skip hplain (hparser hbuilt))
        exact ih (h.addEpsilon (h.addEpsilon hbranch)) heq
    · cases heq
      exact hp

/-- A pattern may be empty. -/
theorem parseAlt (hparser : Follows R 0 parser) : Follows R 0 (parseAlt parser) := by
  intro states text out heq
  obtain ⟨built, hbuilt, heq⟩ := bind_eq_some_iff.mp heq
  dsimp only at heq
  have hfirst := hparser hbuilt
  split_ifs at heq
  · obtain ⟨done, hdone, rfl⟩ := map_eq_some_iff.mp heq
    exact h.altLoop hparser (h.addEpsilon (h.addEpsilon (h.grow (h.grow hfirst)))) hdone
  · cases heq
    exact hfirst

/-- The whole descent follows, by induction on the fuel. -/
theorem parseRepeat (fuel : Nat) : Follows R 1 (parseRepeat fuel) := by
  induction fuel with
  | zero =>
    intro states text out heq
    cases heq
  | succ fuel ih =>
    intro states text out heq
    obtain ⟨built, hbuilt, heq⟩ := bind_eq_some_iff.mp heq
    exact h.trans (h.parseAtom (h.parseAlt (h.parseConcat ih)) hbuilt) (h.afterAtom ih heq)

end Walk

end Quench.RegexNfa
