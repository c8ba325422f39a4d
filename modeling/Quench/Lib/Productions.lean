import Quench.Lib.Pushdown

/-!
# Context-free languages by leftmost derivation

`Yields` is the language of a list of grammar symbols: letters are read off, and the first rule is
replaced by one of its bodies. Its three equations, `yields_nil`, `yields_letter` and `yields_rule`,
unfold the language of a list one symbol at a time. `yields_append` is the language of a
concatenation. A rule that repeats a letter is a `Star`.
-/

namespace Quench.Lib

open List

/-- The bodies of each rule, and the letters of each class. -/
structure Productions (Class Rule Letter : Type) where
  bodies : Rule → List (List (Item Class Rule))
  admits : Class → Letter → Bool

namespace Productions

variable {Class Rule Letter : Type} (g : Productions Class Rule Letter)

/-- A list of symbols derives a string. -/
inductive Yields : List (Item Class Rule) → List Letter → Prop where
  | nil : Yields [] []
  | letter {c : Class} {a : Letter} {rest : List (Item Class Rule)} {w : List Letter} :
      g.admits c a = true → Yields rest w → Yields (.letter c :: rest) (a :: w)
  | rule {r : Rule} {body rest : List (Item Class Rule)} {w : List Letter} :
      body ∈ g.bodies r → Yields (body ++ rest) w → Yields (.rule r :: rest) w

variable {g}

@[simp]
theorem yields_nil {w : List Letter} : g.Yields [] w ↔ w = [] := by
  constructor
  · intro h
    cases h
    rfl
  · rintro rfl
    exact .nil

theorem yields_letter {c : Class} {rest : List (Item Class Rule)} {w : List Letter} :
    g.Yields (.letter c :: rest) w ↔ ∃ a v, w = a :: v ∧ g.admits c a = true ∧ g.Yields rest v := by
  constructor
  · intro h
    cases h with
    | letter hadmits hrest => exact ⟨_, _, rfl, hadmits, hrest⟩
  · rintro ⟨a, v, rfl, hadmits, hrest⟩
    exact .letter hadmits hrest

@[simp]
theorem yields_letter_cons {c : Class} {rest : List (Item Class Rule)} {a : Letter}
    {w : List Letter} :
    g.Yields (.letter c :: rest) (a :: w) ↔ g.admits c a = true ∧ g.Yields rest w := by
  constructor
  · intro h
    cases h with
    | letter hadmits hrest => exact ⟨hadmits, hrest⟩
  · rintro ⟨hadmits, hrest⟩
    exact .letter hadmits hrest

@[simp]
theorem not_yields_letter_nil {c : Class} {rest : List (Item Class Rule)} :
    ¬ g.Yields (.letter c :: rest) [] := by
  intro h
  cases h

theorem yields_rule {r : Rule} {rest : List (Item Class Rule)} {w : List Letter} :
    g.Yields (.rule r :: rest) w ↔ ∃ body ∈ g.bodies r, g.Yields (body ++ rest) w := by
  constructor
  · intro h
    cases h with
    | rule hbody hrest => exact ⟨_, hbody, hrest⟩
  · rintro ⟨body, hbody, hrest⟩
    exact .rule hbody hrest

theorem Yields.append {a b : List (Item Class Rule)} {u v : List Letter} (ha : g.Yields a u)
    (hb : g.Yields b v) : g.Yields (a ++ b) (u ++ v) := by
  induction ha with
  | nil => exact hb
  | letter hadmits _ ih => exact .letter hadmits ih
  | @rule r body rest w hbody _ ih =>
    refine .rule hbody ?_
    change g.Yields (body ++ (rest ++ b)) (w ++ v)
    rwa [← append_assoc]

/-- The language of a concatenation. -/
theorem yields_append {a b : List (Item Class Rule)} {w : List Letter} :
    g.Yields (a ++ b) w ↔ ∃ u v, w = u ++ v ∧ g.Yields a u ∧ g.Yields b v := by
  constructor
  · intro h
    generalize hab : a ++ b = symbols at h
    induction h generalizing a with
    | nil =>
      obtain ⟨rfl, rfl⟩ := append_eq_nil_iff.mp hab
      exact ⟨[], [], rfl, .nil, .nil⟩
    | @letter c x rest w hadmits hrest ih =>
      cases a with
      | nil =>
        subst hab
        exact ⟨[], x :: w, rfl, .nil, .letter hadmits hrest⟩
      | cons first a =>
        obtain ⟨rfl, rfl⟩ := List.cons.inj hab
        obtain ⟨u, v, rfl, hu, hv⟩ := ih rfl
        exact ⟨x :: u, v, rfl, .letter hadmits hu, hv⟩
    | @rule r body rest w hbody hrest ih =>
      cases a with
      | nil =>
        subst hab
        exact ⟨[], w, rfl, .nil, .rule hbody hrest⟩
      | cons first a =>
        obtain ⟨rfl, rfl⟩ := List.cons.inj hab
        obtain ⟨u, v, rfl, hu, hv⟩ := ih (append_assoc body a b)
        exact ⟨u, v, rfl, .rule hbody hu, hv⟩
  · rintro ⟨u, v, rfl, ha, hb⟩
    exact ha.append hb

/-- A list that derives nothing has no symbol that must derive something. -/
theorem Yields.nil_of_mem {symbols : List (Item Class Rule)} {x : Item Class Rule}
    (h : g.Yields symbols []) (hx : x ∈ symbols) : g.Yields [x] [] := by
  obtain ⟨a, b, rfl⟩ := append_of_mem hx
  obtain ⟨u, v, huv, _, hv⟩ := yields_append.mp h
  obtain ⟨rfl, rfl⟩ := append_eq_nil_iff.mp huv.symm
  obtain ⟨u, v, huv, hu, _⟩ := yields_append.mp (show g.Yields ([x] ++ b) [] from hv)
  obtain ⟨rfl, rfl⟩ := append_eq_nil_iff.mp huv.symm
  exact hu

/-! ## Repetition -/

/-- A rule that repeats a class of letters any number of times. -/
def Star (g : Productions Class Rule Letter) (r : Rule) (c : Class) : Prop :=
  g.bodies r = [[], [.letter c, .rule r]]

namespace Star

variable {r : Rule} {c : Class} {rest : List (Item Class Rule)} {a : Letter} {w : List Letter}
  (h : g.Star r c)
include h

theorem yields_iff :
    g.Yields (.rule r :: rest) w ↔ g.Yields rest w ∨
      ∃ a v, w = a :: v ∧ g.admits c a = true ∧ g.Yields (.rule r :: rest) v := by
  rw [yields_rule, h]
  simp only [mem_cons, not_mem_nil, or_false, exists_eq_or_imp, exists_eq_left,
    nil_append, cons_append, yields_letter]

theorem skip (hrest : g.Yields rest w) : g.Yields (.rule r :: rest) w :=
  h.yields_iff.mpr (.inl hrest)

theorem yields_cons :
    g.Yields (.rule r :: rest) (a :: w) ↔ g.Yields rest (a :: w) ∨
      g.admits c a = true ∧ g.Yields (.rule r :: rest) w := by
  rw [h.yields_iff]
  simp only [cons.injEq, and_assoc, exists_and_left, exists_eq_left']

end Star

end Productions

end Quench.Lib
