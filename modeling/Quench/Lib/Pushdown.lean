import Mathlib.Data.List.Induction
import Mathlib.Logic.Relation

/-!
# Grammars run on a stack of frames

A grammar is given by frames: a frame has a list of symbols still to be read, can be advanced past
the first of them, and a rule opens the frames of its alternatives. `Derives` is derivation from a
list of symbols, with a bound on how deep rules may be nested. The machine that reads a string keeps
a stack of frames, the frame below waiting at the rule it opened: `Move` is what it does without
reading, `Live` the stacks it can be in after a string. `live_nil_iff` says that it can be in the
empty stack exactly after the strings the start rule derives.
-/

namespace Quench.Lib

open List

/-- A symbol of a grammar: a class of letters, or a rule. -/
inductive Item (Class Rule : Type) where
  | letter (class' : Class)
  | rule (rule : Rule)
  deriving DecidableEq

/-- A grammar as a stack machine sees it. -/
structure Grammar (Frame Class Rule Letter : Type) where
  items : Frame → List (Item Class Rule)
  advance : Frame → Frame
  items_advance : ∀ frame, items (advance frame) = (items frame).tail
  enter : Rule → List Frame
  admits : Class → Letter → Bool

namespace Grammar

variable {Frame Class Rule Letter : Type} (g : Grammar Frame Class Rule Letter)

/-- A list of symbols derives a string with rules nested at most `n` deep. -/
inductive Derives : Nat → List (Item Class Rule) → List Letter → Prop where
  | nil (n : Nat) : Derives n [] []
  | letter {n : Nat} {c : Class} {a : Letter} {rest : List (Item Class Rule)}
      {w : List Letter} : g.admits c a = true → Derives n rest w →
      Derives n (.letter c :: rest) (a :: w)
  | rule {n : Nat} {r : Rule} {frame : Frame} {rest : List (Item Class Rule)}
      {u v : List Letter} : frame ∈ g.enter r → Derives n (g.items frame) u →
      Derives (n + 1) rest v → Derives (n + 1) (.rule r :: rest) (u ++ v)

/-- The stack once its top frame has read or returned from what it waits at. -/
def resume : List Frame → List Frame
  | [] => []
  | frame :: rest => g.advance frame :: rest

@[simp]
theorem length_resume (stack : List Frame) : (g.resume stack).length = stack.length := by
  cases stack <;> rfl

variable (limit : Nat)

/-- What a stack of at most `limit` frames can still read. -/
inductive Accepts : List Frame → List Letter → Prop where
  | nil : Accepts [] []
  | cons {frame : Frame} {rest : List Frame} {u v : List Letter} :
      g.Derives (limit - (rest.length + 1)) (g.items frame) u → Accepts (g.resume rest) v →
      Accepts (frame :: rest) (u ++ v)

/-- A move that reads nothing: return from a finished frame, or open a rule. -/
inductive Move : List Frame → List Frame → Prop where
  | ret {frame : Frame} {rest : List Frame} : g.items frame = [] →
      Move (frame :: rest) (g.resume rest)
  | call {frame next : Frame} {rest : List Frame} {r : Rule} {tail : List (Item Class Rule)} :
      g.items frame = .rule r :: tail → (frame :: rest).length < limit → next ∈ g.enter r →
      Move (frame :: rest) (next :: frame :: rest)

/-- Any number of moves. -/
def Reaches : List Frame → List Frame → Prop := Relation.ReflTransGen (g.Move limit)

/-- A stack that makes no move: an empty one, or one that waits for a letter. -/
inductive Waiting : List Frame → Prop where
  | done : Waiting []
  | letter {frame : Frame} {rest : List Frame} {c : Class} {tail : List (Item Class Rule)} :
      g.items frame = .letter c :: tail → Waiting (frame :: rest)

/-- The waiting stacks after a string was read from the start rule. -/
inductive Live (start : Rule) : List Letter → List Frame → Prop where
  | start {frame : Frame} {stack : List Frame} : frame ∈ g.enter start →
      g.Reaches limit [frame] stack → g.Waiting stack → Live start [] stack
  | read {u : List Letter} {a : Letter} {frame : Frame} {rest stack : List Frame} {c : Class}
      {tail : List (Item Class Rule)} : Live start u (frame :: rest) →
      g.items frame = .letter c :: tail → g.admits c a = true →
      g.Reaches limit (g.advance frame :: rest) stack → g.Waiting stack →
      Live start (u ++ [a]) stack

variable {g limit}

/-! ## Inversion -/

variable {n : Nat} {c : Class} {w u : List Letter} {r : Rule} {tail : List (Item Class Rule)}
  {s' : List Frame}

theorem Derives.of_letter {rest : List (Item Class Rule)} (h : g.Derives n (.letter c :: rest) w) :
    ∃ a v, w = a :: v ∧ g.admits c a = true ∧ g.Derives n rest v := by
  cases h with
  | letter hadmits hrest => exact ⟨_, _, rfl, hadmits, hrest⟩

theorem Derives.of_rule {rest : List (Item Class Rule)} (h : g.Derives n (.rule r :: rest) w) :
    ∃ k frame u v, n = k + 1 ∧ w = u ++ v ∧ frame ∈ g.enter r ∧
      g.Derives k (g.items frame) u ∧ g.Derives n rest v := by
  cases h with
  | rule hframe hsub hrest => exact ⟨_, _, _, _, rfl, rfl, hframe, hsub, hrest⟩

theorem Derives.of_nil (h : g.Derives n [] w) : w = [] := by
  cases h
  rfl

theorem Accepts.of_nil (h : g.Accepts limit [] w) : w = [] := by
  cases h
  rfl

theorem Accepts.of_cons {frame : Frame} {rest : List Frame}
    (h : g.Accepts limit (frame :: rest) w) :
    ∃ u v, w = u ++ v ∧ g.Derives (limit - (rest.length + 1)) (g.items frame) u ∧
      g.Accepts limit (g.resume rest) v := by
  cases h with
  | cons hder hrest => exact ⟨_, _, rfl, hder, hrest⟩

/-! ## Moves -/

variable {frame : Frame} {rest s : List Frame}

theorem Move.of_end (hitems : g.items frame = []) (h : g.Move limit (frame :: rest) s) :
    s = g.resume rest := by
  cases h with
  | ret => rfl
  | call hcall =>
    rw [hitems] at hcall
    cases hcall

theorem Move.of_rule
    (hitems : g.items frame = .rule r :: tail) (h : g.Move limit (frame :: rest) s) :
    (frame :: rest).length < limit ∧ ∃ next ∈ g.enter r, s = next :: frame :: rest := by
  cases h with
  | ret hnil =>
    rw [hitems] at hnil
    cases hnil
  | call hcall hlt hnext =>
    rw [hitems] at hcall
    obtain ⟨rfl⟩ := Item.rule.inj (List.cons.inj hcall).1
    exact ⟨hlt, _, hnext, rfl⟩

theorem Move.not_of_letter (hitems : g.items frame = .letter c :: tail) :
    ¬ g.Move limit (frame :: rest) s := by
  intro h
  cases h with
  | ret hnil =>
    rw [hitems] at hnil
    cases hnil
  | call hcall =>
    rw [hitems] at hcall
    cases hcall

/-- What moves do not leave, no number of them leaves. -/
theorem Reaches.mem {C : Set (List Frame)} (h : g.Reaches limit rest s) (hrest : rest ∈ C)
    (hclosed : ∀ t ∈ C, ∀ t', g.Move limit t t' → t' ∈ C) : s ∈ C := by
  induction h with
  | refl => exact hrest
  | tail _ hmove ih => exact hclosed _ ih _ hmove

/-- Reading a letter. -/
theorem accepts_letter (hitems : g.items frame = .letter c :: tail) :
    g.Accepts limit (frame :: rest) w ↔
      ∃ a v, w = a :: v ∧ g.admits c a = true ∧ g.Accepts limit (g.advance frame :: rest) v := by
  have hadvance : g.items (g.advance frame) = tail := by
    rw [g.items_advance, hitems, tail_cons]
  constructor
  · intro h
    obtain ⟨u, v, rfl, hder, hrest⟩ := h.of_cons
    rw [hitems] at hder
    obtain ⟨a, u', rfl, hadmits, htail⟩ := hder.of_letter
    refine ⟨a, u' ++ v, rfl, hadmits, .cons ?_ hrest⟩
    rwa [hadvance]
  · rintro ⟨a, v, rfl, hadmits, h⟩
    obtain ⟨u', v', rfl, hder, hrest⟩ := h.of_cons
    rw [hadvance] at hder
    rw [← cons_append]
    refine .cons ?_ hrest
    rw [hitems]
    exact .letter hadmits hder

/-! ## Moves -/

theorem Move.accepts (h : g.Move limit s s') (hacc : g.Accepts limit s' w) :
    g.Accepts limit s w := by
  cases h with
  | ret hitems =>
    refine .cons (u := []) ?_ hacc
    rw [hitems]
    exact .nil _
  | @call frame next rest r tail hitems hlt hnext =>
    obtain ⟨u, v, rfl, hsub, hrest⟩ := hacc.of_cons
    obtain ⟨u', v', rfl, htail, hbelow⟩ := hrest.of_cons
    rw [← append_assoc]
    refine .cons ?_ hbelow
    rw [g.items_advance, hitems, tail_cons] at htail
    simp only [length_cons] at hlt hsub
    rw [show limit - (rest.length + 1) = limit - (rest.length + 1 + 1) + 1 by omega] at htail ⊢
    rw [hitems]
    exact .rule hnext hsub htail

theorem Reaches.accepts (h : g.Reaches limit s s') (hacc : g.Accepts limit s' w) :
    g.Accepts limit s w := by
  induction h using Relation.ReflTransGen.head_induction_on with
  | refl => exact hacc
  | head hmove _ ih => exact hmove.accepts ih

/-- A frame either reads nothing and returns, or reaches a stack that waits for the next letter. -/
theorem Derives.reaches {items : List (Item Class Rule)} (h : g.Derives n items u)
    (hitems : g.items frame = items) (hlimit : n + (rest.length + 1) = limit) :
    (u = [] ∧ g.Reaches limit (frame :: rest) (g.resume rest)) ∨
    ∃ stack, g.Reaches limit (frame :: rest) stack ∧ g.Waiting stack ∧
      ∀ v, g.Accepts limit (g.resume rest) v → g.Accepts limit stack (u ++ v) := by
  induction h generalizing frame rest with
  | nil n => exact .inl ⟨rfl, .single (.ret hitems)⟩
  | @letter n c a tail w hadmits hder ih =>
    refine .inr ⟨frame :: rest, .refl, .letter hitems, fun v hacc => .cons ?_ hacc⟩
    rw [hitems, show limit - (rest.length + 1) = n by omega]
    exact .letter hadmits hder
  | @rule n r next tail u v hnext hsub htail ihsub ihtail =>
    have hcall : g.Move limit (frame :: rest) (next :: frame :: rest) :=
      .call hitems (by rw [length_cons]; omega) hnext
    have hadvanced : g.items (g.advance frame) = tail := by
      rw [g.items_advance, hitems, tail_cons]
    have hafter : ∀ w, g.Accepts limit (g.resume rest) w →
        g.Accepts limit (g.resume (frame :: rest)) (v ++ w) := by
      intro w hacc
      refine .cons ?_ hacc
      rw [hadvanced, show limit - (rest.length + 1) = n + 1 by omega]
      exact htail
    rcases ihsub rfl (show n + ((frame :: rest).length + 1) = limit by
      rw [length_cons]
      omega) with ⟨rfl, hreturn⟩ | ⟨stack, hreach, hwaiting, hacc⟩
    · -- the rule read nothing, so what follows it decides
      have hback : g.Reaches limit (frame :: rest) (g.advance frame :: rest) :=
        .head hcall hreturn
      rcases ihtail hadvanced hlimit with ⟨rfl, hdone⟩ | ⟨stack, hreach, hwaiting, hacc⟩
      · exact .inl ⟨rfl, hback.trans hdone⟩
      · exact .inr ⟨stack, hback.trans hreach, hwaiting, hacc⟩
    · refine .inr ⟨stack, .head hcall hreach, hwaiting, fun w hrest => ?_⟩
      rw [append_assoc]
      exact hacc _ (hafter w hrest)

/-- A stack that can read a string reaches a waiting one that can. -/
theorem Accepts.reaches (h : g.Accepts limit s w) (hdepth : s.length ≤ limit) :
    ∃ stack, g.Reaches limit s stack ∧ g.Waiting stack ∧ g.Accepts limit stack w := by
  induction h with
  | nil => exact ⟨[], .refl, .done, .nil⟩
  | @cons frame rest u v hder hrest ih =>
    rw [length_cons] at hdepth
    rcases hder.reaches rfl (show _ + (rest.length + 1) = limit by omega) with
      ⟨rfl, hreturn⟩ | ⟨stack, hreach, hwaiting, hacc⟩
    · obtain ⟨stack, hreach, hwaiting, hacc⟩ := ih (by rw [length_resume]; omega)
      exact ⟨stack, hreturn.trans hreach, hwaiting, hacc⟩
    · exact ⟨stack, hreach, hwaiting, hacc v hrest⟩

theorem Move.length_le (h : g.Move limit s s') (hs : s.length ≤ limit) :
    s'.length ≤ limit := by
  cases h with
  | ret =>
    rw [length_resume]
    rw [length_cons] at hs
    omega
  | call _ hlt => exact hlt

theorem Reaches.length_le (h : g.Reaches limit s s') (hs : s.length ≤ limit) :
    s'.length ≤ limit := by
  induction h with
  | refl => exact hs
  | tail _ hmove ih => exact hmove.length_le ih

/-- A stack that waits makes no move. -/
theorem Waiting.eq_of_reaches (hwaiting : g.Waiting s) (h : g.Reaches limit s s') :
    s' = s := by
  cases h using Relation.ReflTransGen.head_induction_on with
  | refl => rfl
  | head hmove =>
    cases hwaiting with
    | done => cases hmove
    | letter hitems => exact absurd hmove (Move.not_of_letter hitems)

/-- A stack with one move makes it. -/
theorem Reaches.of_move {next : List Frame} (h : g.Reaches limit s s') (hwaiting : g.Waiting s')
    (hmove : g.Move limit s next) (honly : ∀ t, g.Move limit s t → t = next) :
    g.Reaches limit next s' := by
  cases h using Relation.ReflTransGen.head_induction_on with
  | refl => exact (hwaiting.eq_of_reaches (.single hmove)).symm ▸ .refl
  | head hfirst hrest => exact honly _ hfirst ▸ hrest

/-- A stack at the end of its last frame empties. -/
theorem eq_nil_of_reaches (hend : g.items frame = [])
    (h : g.Reaches limit [frame] s) (hwaiting : g.Waiting s) : s = [] :=
  Waiting.done.eq_of_reaches (h.of_move hwaiting (.ret hend) fun _ hmove => hmove.of_end hend)

/-! ## Live stacks -/

variable {start : Rule}

theorem Live.waiting (h : g.Live limit start u s) : g.Waiting s := by
  cases h <;> assumption

theorem Live.length_le (hlimit : 0 < limit) (h : g.Live limit start u s) :
    s.length ≤ limit := by
  induction h with
  | start _ hreach _ => exact hreach.length_le hlimit
  | read _ _ _ hreach _ ih => exact hreach.length_le ih

theorem Live.of_nil (h : g.Live limit start [] s) :
    ∃ frame ∈ g.enter start, g.Reaches limit [frame] s ∧ g.Waiting s := by
  generalize hu : ([] : List Letter) = u at h
  cases h with
  | start hframe hreach hwaiting => exact ⟨_, hframe, hreach, hwaiting⟩
  | read => simp at hu

theorem Live.of_concat {a : Letter} (h : g.Live limit start (u ++ [a]) s) :
    ∃ frame rest c tail, g.Live limit start u (frame :: rest) ∧
      g.items frame = .letter c :: tail ∧ g.admits c a = true ∧
      g.Reaches limit (g.advance frame :: rest) s ∧ g.Waiting s := by
  generalize hw : u ++ [a] = w at h
  cases h with
  | start => simp at hw
  | read hbefore hitems hadmits hreach hwaiting =>
    obtain ⟨rfl, hlast⟩ := append_inj' hw rfl
    obtain ⟨rfl, -⟩ := List.cons.inj hlast
    exact ⟨_, _, _, _, hbefore, hitems, hadmits, hreach, hwaiting⟩

/-- What a live stack can still read completes a derivation of the start rule. -/
theorem Live.derives (hlimit : 0 < limit) (h : g.Live limit start u s)
    (hacc : g.Accepts limit s w) : g.Derives limit [.rule start] (u ++ w) := by
  induction h generalizing w with
  | @start frame stack hframe hreach _ =>
    obtain ⟨u, v, rfl, hder, hdone⟩ := (hreach.accepts hacc).of_cons
    obtain rfl := hdone.of_nil
    rw [show limit = limit - 1 + 1 by omega, nil_append]
    exact .rule hframe hder (.nil _)
  | @read u a frame rest stack c tail _ hitems hadmits hreach _ ih =>
    rw [append_assoc]
    exact ih ((accepts_letter hitems).mpr ⟨a, w, rfl, hadmits, hreach.accepts hacc⟩)

/-- Every way to split a derived string goes through a live stack. -/
theorem Derives.live (h : g.Derives limit [.rule start] (u ++ w)) :
    ∃ s, g.Live limit start u s ∧ g.Accepts limit s w := by
  have hlimit : 0 < limit := by
    obtain ⟨k, -, -, -, rfl, -⟩ := h.of_rule
    exact Nat.succ_pos k
  induction u using List.reverseRecOn generalizing w with
  | nil =>
    obtain ⟨n, frame, u, v, rfl, rfl, hframe, hsub, hnil⟩ := h.of_rule
    obtain rfl := hnil.of_nil
    have hacc : g.Accepts (n + 1) [frame] (u ++ []) := .cons hsub .nil
    obtain ⟨s, hreach, hwaiting, haccepts⟩ := hacc.reaches (Nat.succ_le_succ (Nat.zero_le n))
    exact ⟨s, .start hframe hreach hwaiting, haccepts⟩
  | append_singleton u a ih =>
    rw [append_assoc] at h
    obtain ⟨s, hlive, hacc⟩ := ih h
    have hlength := hlive.length_le hlimit
    rcases hlive.waiting with _ | @⟨frame, rest, c, tail, hitems⟩
    · exact absurd hacc.of_nil (by simp)
    · obtain ⟨b, v, heq, hadmits, hafter⟩ := (accepts_letter hitems).mp hacc
      obtain ⟨rfl, rfl⟩ := List.cons.inj heq
      obtain ⟨stack, hreach, hwaiting, haccepts⟩ := hafter.reaches hlength
      exact ⟨stack, .read hlive hitems hadmits hreach hwaiting, haccepts⟩

/-- The machine can stop after exactly the strings derived within the depth of its stack. -/
theorem live_nil_iff (hlimit : 0 < limit) :
    g.Live limit start w [] ↔ g.Derives limit [.rule start] w := by
  constructor
  · intro h
    have hder := h.derives hlimit .nil
    rwa [append_nil] at hder
  · intro h
    rw [← append_nil w] at h
    obtain ⟨s, hlive, hacc⟩ := h.live
    rcases hlive.waiting with _ | hitems
    · exact hlive
    · obtain ⟨a, v, heq, -⟩ := (accepts_letter hitems).mp hacc
      cases heq

end Grammar

end Quench.Lib
