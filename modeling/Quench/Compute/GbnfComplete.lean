import Quench.Compute.GbnfHalf
import Quench.Compute.GbnfSound

/-!
# What of the language the grammar matcher accepts

The stack of the machine is at most `kMaxStackDepth` deep, and a live set has at most `kMaxStacks`
stacks. A string with no more live stacks on the way is accepted if and only if it has a derivation
that is nested no deeper, however it is cut into texts: `fed_complete`. A repetition is a rule that
calls itself behind its item, so each round of it is one level deeper, and `[a-z]*` refuses a word
of 127 letters: `long_word_refused`.
-/

namespace Quench.Gbnf

open Lib GbnfMatcher List

variable {rules : List GbnfRule} {root : Nat} {chunks : List (List UInt8)} {stack : List GbnfPos}
  {src : List UInt8}
variable {v w u : List Nat} {later : List UInt8} {m : GbnfMatcher}

/-! ## Repeated classes -/

/-- The rule table of a repeated class: `root` calls the rule that `make_star` made. -/
def starRules (lo hi : Nat) : List GbnfRule :=
  [{ name := rootName, alts := [[.rule 1]] },
    { name := [], alts := [[], [.letter { ranges := [(lo, hi)] }, .rule 1]] }]

variable {lo hi : Nat}

/-- On the stack each letter is one level. -/
theorem star_derives_iff {n : Nat} (hw : ∀ cp ∈ w, lo ≤ cp ∧ cp ≤ hi) :
    (gbnf (starRules lo hi)).Derives n [.rule 1] w ↔ w.length + 1 ≤ n := by
  induction n generalizing w with
  | zero =>
    refine iff_of_false (fun h => ?_) (by omega)
    obtain ⟨k, -, -, -, hk, -⟩ := h.of_rule
    omega
  | succ n ih =>
    constructor
    · intro h
      obtain ⟨k, p, u, v, hk, rfl, hp, hsub, hrest⟩ := h.of_rule
      obtain rfl : n = k := by omega
      obtain rfl := hrest.of_nil
      rw [append_nil] at hw ⊢
      rcases mem_cons.mp hp with rfl | hp
      · obtain rfl := Grammar.Derives.of_nil hsub
        exact Nat.le_add_left _ _
      · obtain rfl := mem_singleton.mp hp
        obtain ⟨cp, later, rfl, -, hlater⟩ := Grammar.Derives.of_letter hsub
        exact Nat.succ_le_succ ((ih (forall_mem_cons.mp hw).2).mp hlater)
    · intro hlength
      rw [← append_nil w]
      cases w with
      | nil =>
        have hempty : (gbnf (starRules lo hi)).Derives n
            ((gbnf (starRules lo hi)).items ⟨1, 0, 0⟩) [] := .nil n
        exact .rule mem_cons_self hempty (.nil _)
      | cons cp w =>
        obtain ⟨hcp, hrest⟩ := forall_mem_cons.mp hw
        have hmatches : GbnfCharSet.matchesCp { ranges := [(lo, hi)] } cp = true := by
          simp [GbnfCharSet.matchesCp, hcp]
        have hletter : (gbnf (starRules lo hi)).Derives n
            ((gbnf (starRules lo hi)).items ⟨1, 1, 0⟩) (cp :: w) :=
          .letter hmatches ((ih hrest).mpr (Nat.le_of_succ_le_succ hlength))
        exact .rule (mem_cons_of_mem _ mem_cons_self) hletter (.nil _)

/-- The frames that wait at the repetition after some letters. -/
def starFrames (k : Nat) : List GbnfPos := List.replicate k ⟨1, 1, 1⟩ ++ [⟨0, 0, 0⟩]

/-- From there the machine waits for a letter, or returns from all frames. -/
theorem star_waits {k : Nat}
    (h : (gbnf (starRules lo hi)).Reaches kMaxStackDepth (starFrames k) stack)
    (hwaiting : (gbnf (starRules lo hi)).Waiting stack) :
    stack = ⟨1, 1, 0⟩ :: starFrames k ∨ stack = [] := by
  have hmem : stack ∈ { s | s = starFrames k ∨ s = ⟨1, 0, 0⟩ :: starFrames k ∨
      s = ⟨1, 1, 0⟩ :: starFrames k ∨ (∃ j, s = (gbnf (starRules lo hi)).resume (starFrames j)) ∨
      s = [] } := by
    refine h.mem (.inl rfl) ?_
    rintro t (rfl | rfl | rfl | ⟨j, rfl⟩ | rfl) t' hmove
    · have hrule : ∃ next ∈ (gbnf (starRules lo hi)).enter 1, t' = next :: starFrames k := by
        cases k <;> exact (hmove.of_rule rfl).2
      obtain ⟨next, hnext, rfl⟩ := hrule
      rcases mem_cons.mp hnext with rfl | hnext
      · exact .inr (.inl rfl)
      · obtain rfl := mem_singleton.mp hnext
        exact .inr (.inr (.inl rfl))
    · exact .inr (.inr (.inr (.inl ⟨k, hmove.of_end rfl⟩)))
    · exact absurd hmove (Grammar.Move.not_of_letter rfl)
    · cases j with
      | zero => exact .inr (.inr (.inr (.inr (hmove.of_end rfl))))
      | succ j => exact .inr (.inr (.inr (.inl ⟨j, hmove.of_end rfl⟩)))
    · cases hmove
  -- of these only two wait
  rcases hmem with rfl | rfl | hletter | ⟨j, rfl⟩ | hnil
  · cases k <;> (cases hwaiting with | letter hitems => cases hitems)
  · cases hwaiting with | letter hitems => cases hitems
  · exact .inl hletter
  · cases j <;> (cases hwaiting with | letter hitems => cases hitems)
  · exact .inr hnil

theorem star_live (h : stack ∈ liveStacks (starRules lo hi) 0 w) :
    stack = ⟨1, 1, 0⟩ :: starFrames w.length ∨ stack = [] := by
  induction w using List.reverseRecOn generalizing stack with
  | nil =>
    obtain ⟨p, hp, hreach, hwaiting⟩ := Grammar.Live.of_nil h
    obtain rfl := mem_singleton.mp hp
    exact star_waits (k := 0) hreach hwaiting
  | append_singleton w cp ih =>
    obtain ⟨p, rest, chars, tail, hbefore, -, -, hreach, hwaiting⟩ := Grammar.Live.of_concat h
    rcases ih hbefore with hletter | hnone
    · obtain ⟨rfl, rfl⟩ := List.cons.inj hletter
      rw [length_append, length_singleton]
      exact star_waits hreach hwaiting
    · cases hnone

/-- Two stacks are not too many. -/
theorem star_encard (w : List Nat) :
    (liveStacks (starRules lo hi) 0 w).encard ≤ kMaxStacks := by
  calc (liveStacks (starRules lo hi) 0 w).encard
      ≤ ({ [] } : Set (List GbnfPos)).encard + 1 :=
        (Set.encard_le_encard fun _ hstack => star_live hstack).trans (Set.encard_insert_le _ _)
    _ = ((2 : Nat) : ENat) := by rw [Set.encard_singleton]; rfl
    _ ≤ kMaxStacks := Nat.cast_le.mpr (by decide)

/-! ## Accepting a string of the language -/

theorem liveStacks_nonempty (h : (gbnf rules).Derives kMaxStackDepth [.rule root] (v ++ w)) :
    (liveStacks rules root v).Nonempty := by
  obtain ⟨stack, hlive, -⟩ := h.live
  exact ⟨stack, hlive⟩

/-- The codepoints read and still to be read are a string of the language. -/
structure Amid (m : GbnfMatcher) (u : List Nat) (later : List UInt8) (v : List Nat) : Prop where
  reads : Reads m.grammar.rules m.grammar.root m.grammar.arena m.live u
  later : ∃ half, decodeLoop later m.half = some (v, half) ∧ half.remaining = 0
  derives : (gbnf m.grammar.rules).Derives kMaxStackDepth [.rule m.grammar.root] (u ++ v)
  narrow : Narrow m.grammar.rules m.grammar.root (u ++ v)

/-- Where the text ends inside a codepoint, a live stack waits for that codepoint. -/
theorem canComplete_of_derives {a : GbnfArena} {live : GbnfStackSet} {half half' : GbnfPartial}
    (h : Reads rules root a live u) (hdecode : decodeLoop later half = some (v, half'))
    (hend : half'.remaining = 0) (hder : (gbnf rules).Derives kMaxStackDepth [.rule root] (u ++ v))
    (hnarrow : Narrow rules root (u ++ v)) : canComplete rules a live half = true := by
  rcases eq_zero_or_pos half.remaining with hzero | hpos
  · exact canComplete_of_zero hzero
  · rcases decodeLoop_range hpos hdecode with ⟨cp, rest, rfl, hlo, hhi⟩ | ⟨-, hpos', -⟩
    · rw [canComplete_iff hpos]
      have hsplit : u ++ cp :: rest = u ++ [cp] ++ rest := by simp
      rw [hsplit] at hder hnarrow
      obtain ⟨next, hnext⟩ := liveStacks_nonempty hder
      rw [liveStacks_concat] at hnext
      obtain ⟨p, stack, chars, hlive, hitem, hmatches, -⟩ := hnext
      have hexact : Narrow rules root u := hnarrow.of_initial ⟨[cp] ++ rest, by simp⟩
      obtain ⟨s, hs, hdenotes⟩ := h.holds.complete hexact _ hlive
      exact ⟨hlo.trans hhi, s, hs, chars, (topItem_eq hdenotes).trans hitem,
        intersects_of_matches hlo hhi hmatches⟩
    · omega

theorem Amid.updateText {text : List UInt8} (h : Amid m u (text ++ later) v) :
    (m.updateText text).1 = true ∧ ∃ u' v', Amid (m.updateText text).2 u' later v' := by
  obtain ⟨hreads, ⟨last, hdecode, hend⟩, hder, hnarrow⟩ := h
  rw [decodeLoop_append] at hdecode
  obtain ⟨⟨cps, half⟩, htext, hrest⟩ := Option.bind_eq_some_iff.mp hdecode
  obtain ⟨⟨cps', half'⟩, hlater, heq⟩ := Option.map_eq_some_iff.mp hrest
  obtain ⟨rfl, rfl⟩ := Prod.mk.inj heq
  rw [← append_assoc] at hder hnarrow
  obtain ⟨-, -, hsound, hcomplete⟩ := hreads.runLoop text m.half
  have hreadable : Readable m.grammar.rules m.grammar.root u cps := by
    rintro v ⟨tail, rfl⟩ -
    rw [← append_assoc, append_assoc (u ++ v)] at hder
    exact liveStacks_nonempty hder
  obtain ⟨live, hloop⟩ :=
    hcomplete cps half htext (hnarrow.of_initial (prefix_append _ _)) hreadable
  obtain ⟨cps1, hsame, hreads', -⟩ := hsound live half hloop
  obtain ⟨rfl, -⟩ := Prod.mk.inj (Option.some.inj (htext.symm.trans hsame))
  have hcheck := canComplete_of_derives hreads' hlater hend hder hnarrow
  have hupdate := updateText_accepted (m := m) (Prod.ext rfl hloop) hcheck
  rw [hupdate]
  exact ⟨rfl, u ++ cps, cps', hreads', ⟨_, hlater, hend⟩, hder, hnarrow⟩

/-- The matcher after a list of texts. -/
def fed (m : GbnfMatcher) (chunks : List (List UInt8)) : GbnfMatcher :=
  chunks.foldl (fun m text => (m.updateText text).2) m

theorem Amid.fed {before : List (List UInt8)} (h : Amid m u (before.flatten ++ later) v) :
    ∃ u' v', Amid (Gbnf.fed m before) u' later v' := by
  induction before generalizing m u v with
  | nil => exact ⟨u, v, h⟩
  | cons text before ih =>
    rw [flatten_cons, append_assoc] at h
    obtain ⟨-, u1, v1, hamid⟩ := h.updateText
    exact ih hamid

/-- With nothing left to read, the matcher is done. -/
theorem Amid.isDone (h : Amid m u [] v) : m.isDone = true := by
  obtain ⟨hreads, ⟨half, hdecode, hend⟩, hder, hnarrow⟩ := h
  obtain ⟨rfl, rfl⟩ := Prod.mk.inj (Option.some.inj hdecode)
  rw [append_nil, ← Grammar.live_nil_iff kMaxStackDepth_pos] at hder
  rw [append_nil] at hnarrow
  rw [GbnfMatcher.isDone, hend, beq_self_eq_true, Bool.true_and, hreads.holds.accepts_iff]
  exact hreads.holds.mem_neg_one hnarrow hder

/-- After texts that were all accepted, the matcher has read their bytes. -/
theorem Tracks.fed {bytes : List UInt8} (h : Tracks m u bytes)
    (haccepted : ∀ before text after, chunks = before ++ text :: after →
      ((Gbnf.fed m before).updateText text).1 = true) :
    ∃ u' bytes', Tracks (Gbnf.fed m chunks) u' bytes' ∧
      utf8 u' ++ bytes' = utf8 u ++ bytes ++ chunks.flatten ∧
      (Gbnf.fed m chunks).grammar.rules = m.grammar.rules ∧
      (Gbnf.fed m chunks).grammar.root = m.grammar.root := by
  induction chunks generalizing m u bytes with
  | nil => exact ⟨u, bytes, h, by simp, rfl, rfl⟩
  | cons text chunks ih =>
    obtain ⟨cps, bytes', -, htracks, hsame⟩ := (h.updateText text).2 (haccepted [] text chunks rfl)
    obtain ⟨u', bytes'', hfed, hbytes, hrules, hroot⟩ := ih htracks fun before text' after heq =>
      haccepted (text :: before) text' after (by rw [heq, cons_append])
    refine ⟨u', bytes'', hfed, ?_, hrules.trans (updateText_table m text).1,
      hroot.trans (updateText_table m text).2⟩
    rw [hbytes, hsame, flatten_cons, append_assoc _ text]

/-- A matcher that is done has read a string with a derivation within the depth of its stack. -/
theorem derives_of_fed (hcompile : compile src = .ok m) (hscalar : ∀ cp ∈ w, cp ≤ 0x10FFFF)
    (hchunks : chunks.flatten = utf8 w)
    (haccepted : ∀ before text after, chunks = before ++ text :: after →
      ((fed m before).updateText text).1 = true) (hdone : (fed m chunks).isDone = true) :
    (gbnf m.grammar.rules).Derives kMaxStackDepth [.rule m.grammar.root] w := by
  obtain ⟨u, bytes, htracks, hbytes, hrules, hroot⟩ := (compile_tracks hcompile).2.fed haccepted
  obtain ⟨rfl, hder⟩ := htracks.derives hdone
  rw [append_nil, hchunks] at hbytes
  obtain rfl := utf8_injective htracks.scalar hscalar hbytes
  rwa [hrules, hroot] at hder

/-- **Completeness of the grammar matcher** within its two limits: every text of every way to cut
the string is accepted and the matcher is done after the last, if and only if the string has a
derivation within the depth of the stack. -/
theorem fed_complete {src : List UInt8} {m : GbnfMatcher} (hcompile : compile src = .ok m)
    {w : List Nat} (hscalar : ∀ cp ∈ w, cp ≤ 0x10FFFF)
    (hnarrow : Narrow m.grammar.rules m.grammar.root w) {chunks : List (List UInt8)}
    (hchunks : chunks.flatten = utf8 w) :
    ((∀ before text after, chunks = before ++ text :: after →
      ((fed m before).updateText text).1 = true) ∧ (fed m chunks).isDone = true) ↔
    (gbnf m.grammar.rules).Derives kMaxStackDepth [.rule m.grammar.root] w := by
  refine ⟨fun h => derives_of_fed hcompile hscalar hchunks h.1 h.2, fun hder => ?_⟩
  obtain ⟨-, htracks⟩ := compile_tracks hcompile
  obtain ⟨half, hdecode, hend⟩ := decodeLoop_utf8 hscalar htracks.reading.zero_of_nil
  have hamid : Amid m [] (utf8 w) w := ⟨htracks.reads, ⟨half, hdecode, hend⟩, hder, hnarrow⟩
  rw [← hchunks] at hamid
  constructor
  · rintro before text after rfl
    rw [flatten_append, flatten_cons] at hamid
    obtain ⟨u, v, hamid'⟩ := hamid.fed
    exact hamid'.updateText.1
  · rw [← append_nil chunks.flatten] at hamid
    obtain ⟨u, v, hamid'⟩ := hamid.fed
    exact hamid'.isDone

/-- The source of a grammar for any number of one letter of two bytes. -/
def accentSource : List UInt8 := ascii "root ::= [" ++ [0xC3, 0xA9] ++ ascii "]*"

/-- The matcher of a source with a given rule table. -/
theorem exists_compiled (h : compiledTo src (fun m =>
      decide (m.grammar.rules = rules ∧ m.grammar.root = root)) = true) :
    ∃ m, compile src = .ok m ∧ m.grammar.rules = rules ∧ m.grammar.root = root := by
  obtain ⟨m, hcompile, htable⟩ := exists_of_compiledTo h
  exact ⟨m, hcompile, of_decide_eq_true htable⟩

theorem compile_accent : ∃ m, compile accentSource = .ok m ∧
    m.grammar.rules = starRules 0xE9 0xE9 ∧ m.grammar.root = 0 :=
  exists_compiled (by decide +kernel)

/-- Two letters in three texts, each letter cut in two. -/
theorem fed_complete_accent : ∃ m, compile accentSource = .ok m ∧
    (∀ before text after, [[0xC3], [0xA9, 0xC3], [0xA9]] = before ++ text :: after →
      ((fed m before).updateText text).1 = true) ∧
    (fed m [[0xC3], [0xA9, 0xC3], [0xA9]]).isDone = true := by
  obtain ⟨m, hcompile, hrules, hroot⟩ := compile_accent
  have hletters : (gbnf (starRules 0xE9 0xE9)).Derives 127
      ((gbnf (starRules 0xE9 0xE9)).items ⟨0, 0, 0⟩) [0xE9, 0xE9] :=
    (star_derives_iff (by decide)).mpr (by decide)
  refine ⟨m, hcompile, (fed_complete hcompile (w := [0xE9, 0xE9]) (by decide) ?_
    (by decide)).mpr ?_⟩
  · rw [hrules, hroot]
    exact fun v _ => star_encard v
  · rw [hrules, hroot]
    exact .rule mem_cons_self hletters (.nil 128)

/-! ## Repetitions -/

/-- A rule that `make_star` made: nothing, or an item and the rule again. -/
def IsStar (rules : List GbnfRule) (r : Nat) : Prop :=
  ∃ rule item, rules[r]? = some rule ∧ rule.name = [] ∧ rule.alts = [[], [item, .rule r]]

/-- A list of items derives a string with rules nested at most `n` deep, where the rounds of a
repetition do not count. -/
inductive Nested (rules : List GbnfRule) : Nat → List GbnfItem → List Nat → Prop where
  | nil (n : Nat) : Nested rules n [] []
  | letter {n cp : Nat} {chars : GbnfCharSet} {rest : List GbnfItem} {w : List Nat} :
      chars.matchesCp cp = true → Nested rules n rest w →
      Nested rules n (.letter chars :: rest) (cp :: w)
  | rule {n r : Nat} {p : GbnfPos} {rest : List GbnfItem} {u v : List Nat} : ¬ IsStar rules r →
      p ∈ (gbnf rules).enter r → Nested rules n (altItems rules p) u →
      Nested rules (n + 1) rest v → Nested rules (n + 1) (.rule r :: rest) (u ++ v)
  | star {n r : Nat} {p : GbnfPos} {rest : List GbnfItem} {u v : List Nat} : IsStar rules r →
      p ∈ (gbnf rules).enter r → Nested rules n (altItems rules p) u →
      Nested rules n rest v → Nested rules n (.rule r :: rest) (u ++ v)

/-- Every word over the class is derived from `root` alone. -/
theorem star_nested (hw : ∀ cp ∈ w, lo ≤ cp ∧ cp ≤ hi) :
    Nested (starRules lo hi) 1 [.rule 0] w := by
  have hstar : IsStar (starRules lo hi) 1 := ⟨_, _, rfl, rfl, rfl⟩
  have hroot : ¬ IsStar (starRules lo hi) 0 := by
    rintro ⟨rule, item, hrule, hname, -⟩
    obtain rfl := Option.some.inj hrule
    cases hname
  have hword : Nested (starRules lo hi) 0 [.rule 1] w := by
    induction w with
    | nil =>
      refine .star (u := []) (p := ⟨1, 0, 0⟩) hstar ?_ (.nil 0) (.nil 0)
      exact mem_cons_self
    | cons cp w ih =>
      obtain ⟨hcp, hrest⟩ := forall_mem_cons.mp hw
      have hmatches : GbnfCharSet.matchesCp { ranges := [(lo, hi)] } cp = true := by
        simp [GbnfCharSet.matchesCp, hcp]
      rw [← append_nil (cp :: w)]
      refine .star (p := ⟨1, 1, 0⟩) hstar ?_ (.letter hmatches (ih hrest)) (.nil 0)
      exact mem_cons_of_mem _ mem_cons_self
  rw [← append_nil w]
  exact .rule (p := ⟨0, 0, 0⟩) hroot mem_cons_self hword (.nil 1)

/-- A word of 127 letters is derived from `root` with no other rule than the repetition, and is not
accepted. -/
theorem long_word_refused : ∃ m, compile wordSource = .ok m ∧
    Nested m.grammar.rules 1 [.rule m.grammar.root] (List.replicate 127 0x61) ∧
    ¬ ((m.updateText (utf8 (List.replicate 127 0x61))).1 = true ∧
      (m.updateText (utf8 (List.replicate 127 0x61))).2.isDone = true) := by
  obtain ⟨m, hcompile, hrules, hroot⟩ : ∃ m, compile wordSource = .ok m ∧
      m.grammar.rules = starRules 0x61 0x7A ∧ m.grammar.root = 0 :=
    exists_compiled (by decide +kernel)
  have hword : ∀ cp ∈ List.replicate 127 0x61, 0x61 ≤ cp ∧ cp ≤ 0x7A := fun cp hcp => by
    rw [eq_of_mem_replicate hcp]
    decide
  have hscalar : ∀ cp ∈ List.replicate 127 0x61, cp ≤ 0x10FFFF := fun cp hcp =>
    (hword cp hcp).2.trans (by decide)
  refine ⟨m, hcompile, ?_, fun ⟨haccepted, hdone⟩ => ?_⟩
  · rw [hrules, hroot]
    exact star_nested hword
  · have htext : ∀ before text after, [utf8 (List.replicate 127 0x61)] = before ++ text :: after →
        ((fed m before).updateText text).1 = true := by
      intro before text after heq
      cases before with
      | nil => cases heq; exact haccepted
      | cons first before => simp at heq
    have hder := derives_of_fed hcompile hscalar (append_nil _) htext hdone
    rw [hrules, hroot] at hder
    obtain ⟨k, p, u, v, hk, huv, hp, hsub, hrest⟩ := hder.of_rule
    obtain rfl := mem_singleton.mp hp
    obtain rfl := hrest.of_nil
    rw [append_nil] at huv
    obtain rfl := huv
    have hdepth := (star_derives_iff hword).mp hsub
    rw [length_replicate] at hdepth
    have hlimit : kMaxStackDepth = 128 := rfl
    omega

end Quench.Gbnf
