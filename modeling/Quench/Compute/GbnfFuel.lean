import Quench.Compute.GbnfParser

/-!
# The grammar parser has enough fuel

Every round of a loop takes a byte, and a group is parsed behind its parenthesis. So no source runs
`parseGbnf` out of fuel (`parseGbnf_ne_outOfFuel`).
-/

namespace Quench

open List

namespace GbnfParser

variable {α β : Type} {p q : Parse α} {f : α → Parse β} {k b b' n N : Nat} {st : GbnfParser}

/-- From this state the parser ends with at most so many bytes left, or with a message. -/
def Ends (b : Nat) (p : Parse α) (st : GbnfParser) : Prop :=
  match p st with
  | .ok (_, st') => st'.rest.length ≤ b
  | .error e => e ≠ "out of fuel"

/-- Where so many bytes are left and fewer than `N` behind them, the parser ends and takes them. -/
def Takes (N k : Nat) (p : Parse α) : Prop :=
  ∀ ⦃st b⦄, b < N → k ≤ st.rest.length → st.rest.length ≤ b + k → Ends b p st

/-! ## Composition -/

/-- One parser after another. -/
theorem Ends.bind (hp : Ends b p st) (hf : ∀ a ⦃st⦄, st.rest.length ≤ b → Ends b' (f a) st) :
    Ends b' (p >>= f) st := by
  change match Except.bind (p st) fun out => f out.1 out.2 with
    | .ok (_, st') => st'.rest.length ≤ b'
    | .error e => e ≠ "out of fuel"
  unfold Ends at hp
  split at hp
  next out hrun => exact hrun ▸ hf _ hp
  next hrun => exact hrun ▸ hp

theorem Ends.mono (h : Ends b p st) (hb : b ≤ b') : Ends b' p st := by
  unfold Ends at *
  split at h
  · exact h.trans hb
  · exact h

/-- The first of two parsers takes the bytes. -/
theorem Takes.bind (hp : Takes N k p) (hf : ∀ a, Takes N 0 (f a)) : Takes N k (p >>= f) :=
  fun _ _ hb hk h => (hp hb hk h).bind fun a _ h => hf a hb (Nat.zero_le _) h

theorem Takes.ite {c : Prop} [Decidable c] (hp : Takes N k p) (hq : Takes N k q) :
    Takes N k (if c then p else q) := by
  split
  · exact hp
  · exact hq

/-- A parser that only looks leaves the bytes to the next one. -/
theorem Takes.look {g : GbnfParser → α} (hf : ∀ a, Takes N k (f a)) :
    Takes N k ((fun st => .ok (g st, st)) >>= f) :=
  fun _ _ hb hk h => hf _ hb hk h

theorem Takes.drop {f : Unit → Parse β} (hk : k ≤ n) (hf : Takes N 0 (f ())) :
    Takes N k (advance n >>= f) := by
  intro st b hb _ h
  refine hf hb (Nat.zero_le _) ?_
  change (st.rest.drop n).length ≤ b
  rw [length_drop]
  omega

theorem Takes.skip {f : Unit → Parse β} (hf : Takes N 0 (f ())) : Takes N 0 (advance n >>= f) :=
  .drop (Nat.zero_le n) hf

theorem takes_zero : Takes 0 k p := fun _ _ hb => absurd hb (Nat.not_lt_zero _)

theorem takes_pure (a : α) : Takes N 0 (pure a) := fun _ _ _ _ h => h

/-- A loop is done, or takes a byte in this round. -/
theorem ends_round {c : Prop} [Decidable c] {a : α} (hp : ∀ ⦃b⦄, b < N → 1 ≤ st.rest.length →
      st.rest.length ≤ b + 1 → Ends b p st) (hc : st.rest = [] → c) (hb : b < N + 1)
    (h : st.rest.length ≤ b) : Ends b (if c then pure a else p) st := by
  split
  · exact h
  next hmore =>
    have hpos : 0 < st.rest.length := length_pos_iff.mpr fun hnil => hmore (hc hnil)
    obtain ⟨b, rfl⟩ := Nat.exists_eq_succ_of_ne_zero (hpos.trans_le h).ne'
    exact (hp (Nat.lt_of_succ_lt_succ hb) hpos h).mono (Nat.le_succ b)

theorem Takes.round {c : Prop} [Decidable c] {a : α} (hp : Takes N 1 p) (hc : st.rest = [] → c)
    (hb : b < N + 1) (h : st.rest.length ≤ b) : Ends b (if c then pure a else p) st :=
  ends_round (fun _ hb hk h => hp hb hk h) hc hb h

/-- A loop with fuel for its bytes. -/
theorem takes_fueled {loop : GbnfParser → Parse α}
    (h : ∀ st, Takes (st.rest.length + 1) 0 (loop st)) : Takes N 0 fun st => loop st st :=
  fun st _ _ hk hb => (h st (Nat.lt_succ_self _) hk le_rfl).mono hb

/-! ## Steps -/

/-- A message names the place. -/
theorem takes_fail (msg : String) : Takes N k (fail msg : Parse α) := by
  intro st b _ _ _ (h : msg ++ _ ++ _ ++ ")" = _)
  have hlast := congrArg (fun s => s.toList.getLast?) h
  simp [getLast?_cons] at hlast

theorem takes_addSynthetic (alts : List (List GbnfItem)) : Takes N 0 (addSynthetic alts) :=
  fun _ _ _ _ h => h

theorem takes_digits : Takes N 0 digits :=
  fun _ _ _ _ h => (dropWhile_sublist _).length_le.trans h

theorem takes_skipSpace (allowNewline : Bool) : Takes N 0 (skipSpace allowNewline) := by
  refine fun st b _ _ h => le_trans ?_ h
  change (skipSpaceFrom allowNewline false st.rest).length ≤ st.rest.length
  fun_induction skipSpaceFrom allowNewline false st.rest <;> grind

theorem takes_stoi (digits : List UInt8) : Takes N 0 (stoi digits) := by
  refine .ite (takes_pure _) fun _ _ _ _ _ => ?_
  change "stoi" ≠ _
  decide

theorem takes_hex (digits out : Nat) : Takes N 0 (hex digits out) := by
  induction digits generalizing out with
  | zero => exact takes_pure _
  | succ digits ih =>
    refine .look fun c => ?_
    cases hexDigit c with
    | none => exact takes_fail _
    | some v => exact .skip (ih _)

theorem takes_readContinuation (extra cp : Nat) : Takes N 0 (readContinuation extra cp) := by
  induction extra generalizing cp with
  | zero => exact takes_pure _
  | succ extra ih => exact .look fun _ => .look fun _ => .ite (takes_fail _) (.skip (ih _))

theorem takes_readChar (hk : k ≤ 1) : Takes N k readChar := by
  refine .look fun _ => .ite (takes_fail _) (.look fun _ => .drop hk (.ite ?_ ?_))
  · repeat' apply Takes.ite
    all_goals first | exact takes_pure _ | exact takes_readContinuation _ _ | exact takes_fail _
  · refine .look fun _ => .ite (takes_fail _) (.look fun _ => .skip ?_)
    repeat' apply Takes.ite
    all_goals first | exact takes_pure _ | exact takes_hex _ _

/-- Behind a string or a class stands its last character. -/
theorem takes_close (msg : String) (a : α) :
    Takes N 0 (do if ← eof then fail msg else advance 1; pure a) :=
  .look fun _ => .ite (takes_fail _) (.skip (takes_pure _))

/-! ## Elements -/

theorem takes_stringLoop (n : Nat) (items : List GbnfItem) : Takes n 0 (stringLoop n items) := by
  induction n generalizing items with
  | zero => exact takes_zero
  | succ n ih =>
    exact fun st b hb _ h => Takes.round (.bind (takes_readChar le_rfl) fun _ => ih _)
      (fun hnil => by simp [hnil]) hb h

theorem takes_parseString (items : List GbnfItem) : Takes N 1 (parseString items) :=
  .drop le_rfl ((takes_fueled fun st => takes_stringLoop (st.rest.length + 1) items).bind fun _ =>
    takes_close _ _)

theorem takes_classLoop (n : Nat) (ranges : List (Nat × Nat)) :
    Takes n 0 (classLoop n ranges) := by
  induction n generalizing ranges with
  | zero => exact takes_zero
  | succ n ih =>
    refine fun st b hb _ h => Takes.round (.bind (takes_readChar le_rfl) fun _ => .look fun _ =>
      .look fun _ => .ite (.skip (.bind (takes_readChar (Nat.zero_le 1)) fun _ => ?_)) (ih _))
      (fun hnil => by simp [hnil]) hb h
    exact .ite (takes_fail _) (ih _)

theorem takes_parseClass : Takes N 1 parseClass := by
  have hloop := fun negated => (takes_fueled (N := N) fun st =>
    takes_classLoop (st.rest.length + 1) []).bind fun ranges =>
      takes_close "unterminated character class" (Lib.Item.letter { ranges, negated } : GbnfItem)
  exact .drop le_rfl (.look fun _ => .ite (.skip (hloop _)) (hloop _))

theorem takes_parseRepeatBounds : Takes N 1 parseRepeatBounds := by
  refine .drop le_rfl ?_
  dsimp only
  repeat' first
    | exact takes_fail _
    | exact takes_pure _
    | exact takes_digits
    | exact takes_stoi _
    | exact (takes_stoi _).bind fun _ => takes_pure _
    | apply Takes.ite
    | refine .look fun _ => ?_
    | refine .skip ?_
    | refine .bind ?_ fun _ => ?_

theorem takes_nestOpt (x : GbnfItem) (n : Nat) (tail : Option Nat) :
    Takes N 0 (nestOpt x n tail) := by
  induction n generalizing tail with
  | zero => exact takes_pure _
  | succ n ih => exact (takes_addSynthetic _).bind fun _ => ih _

theorem takes_repeatItems (x : GbnfItem) (op : UInt8) : Takes N 1 (repeatItems x op) := by
  have hstar : ∀ items : Nat → List GbnfItem,
      Takes N 0 (makeStar x >>= fun star => pure (items star)) := fun _ _ _ _ _ h => h
  refine .ite (.drop le_rfl (hstar _)) (.ite (.drop le_rfl ?_)
    (.ite (.drop le_rfl (hstar _)) ?_))
  · exact (takes_addSynthetic _).bind fun _ => takes_pure _
  · refine takes_parseRepeatBounds.bind fun (lo, hi) => ?_
    cases hi with
    | none => exact hstar _
    | some hi => exact (takes_nestOpt x _ none).bind fun _ => takes_pure _

theorem takes_applyPostfix (start n : Nat) (items : List GbnfItem) :
    Takes n 0 (applyPostfix start n items) := by
  induction n generalizing items with
  | zero => exact takes_zero
  | succ n ih =>
    have hround := fun x op => (takes_repeatItems (N := n) x op).bind fun repeated =>
      ih (items.take start ++ repeated)
    refine fun st b hb _ h =>
      Takes.round (.ite (takes_fail _) ?_) (fun hnil => by simp [hnil]) hb h
    split
    · exact hround _ _
    · exact fun _ _ hb hk h => hround _ _ hb hk h

/-! ## Rules -/

theorem takes_ruleId (name : List UInt8) : Takes N 0 (ruleId name) := by
  intro st b _ _ h
  unfold Ends ruleId
  cases st.ids.lookup name <;> exact h

/-- A word that is not empty takes a byte. -/
theorem Takes.word {f : List UInt8 → Parse α} (hf : ∀ name, Takes N 0 (f name)) (hb : b < N)
    (h : st.rest.length ≤ b + 1) (hword : st.rest.takeWhile isWordChar ≠ []) :
    Ends b (word >>= f) st := by
  refine hf _ hb (Nat.zero_le _) ?_
  have hlength := congrArg length (takeWhile_append_dropWhile (p := isWordChar) (l := st.rest))
  have hpos := length_pos_iff.mpr hword
  rw [length_append] at hlength
  change (st.rest.dropWhile isWordChar).length ≤ b
  omega

/-- The descent: a group costs two calls for its parenthesis. -/
theorem takes_descent (n : Nat) (nested : Bool) :
    (∀ N, 2 * N ≤ n + 1 → ∀ items, Takes N 0 (parseSequence nested n items)) ∧
    (∀ N, 2 * N ≤ n → Takes N 0 (parseAlternates nested n)) ∧
    ∀ N, 2 * N ≤ n + 1 → ∀ out, Takes N 0 (alternatesLoop nested n out) := by
  induction n generalizing nested with
  | zero =>
    refine ⟨fun N hN _ => ?_, fun N hN => ?_, fun N hN _ => ?_⟩ <;>
      obtain rfl : N = 0 := by omega
    all_goals exact takes_zero
  | succ n ih =>
    obtain ⟨hseq, -, hloop⟩ := ih nested
    refine ⟨fun N hN items => ?_, fun N hN => ?_, fun N hN out => ?_⟩
    · refine (takes_skipSpace nested).bind fun _ st b hb _ h => ?_
      obtain ⟨N, rfl⟩ := Nat.exists_eq_succ_of_ne_zero (Nat.ne_zero_of_lt hb)
      have hnext := fun start items => (takes_fueled (N := N) fun st =>
        takes_applyPostfix start (st.rest.length + 1) items).bind (hseq N (by omega))
      refine ends_round (fun b hb hk h => ?_) (fun hnil => by simp [hnil]) hb h
      split_ifs with _ _ _ _ hword
      · exact ((takes_parseString items).bind fun _ => hnext _ _) hb hk h
      · exact (takes_parseClass.bind fun _ => hnext _ _) hb hk h
      · exact Takes.drop le_rfl (hnext _ _) hb hk h
      · refine Takes.drop le_rfl (((ih true).2.1 N (by omega)).bind fun _ => (takes_skipSpace
          true).bind fun _ => .look fun _ => .ite ?_ (.skip ?_)) hb hk h
        · exact (takes_fail _).bind fun _ => hnext _ _
        · exact (takes_addSynthetic _).bind fun _ => hnext _ _
      · refine Takes.word (fun _ => (takes_ruleId _).bind fun _ => hnext _ _) hb h ?_
        obtain ⟨c, rest, hrest⟩ := exists_cons_of_length_pos hk
        rw [hrest] at hword ⊢
        rw [takeWhile_cons_of_pos (by exact hword)]
        exact cons_ne_nil _ _
      · exact ((takes_fail _).bind fun _ => hnext _ _) hb hk h
    · exact (hseq N (by omega) []).bind fun _ => hloop N (by omega) _
    · refine (takes_skipSpace nested).bind fun _ st b hb _ h => ?_
      obtain ⟨N, rfl⟩ := Nat.exists_eq_succ_of_ne_zero (Nat.ne_zero_of_lt hb)
      exact Takes.round (.drop le_rfl ((takes_skipSpace true).bind fun _ =>
        (hseq N (by omega) []).bind fun _ => hloop N (by omega) _))
        (fun hnil => by rw [hnil]; rfl) hb h

theorem takes_parseRule : Takes N 1 parseRule := by
  intro st b hb _ h
  by_cases hword : st.rest.takeWhile isWordChar = []
  · change Ends b (if (st.rest.takeWhile isWordChar).isEmpty = true then _ else _) _
    rw [hword]
    exact takes_fail _ hb le_rfl (Nat.le_add_left _ _)
  · refine Takes.word (fun name => .ite (takes_fail _) ((takes_skipSpace false).bind fun _ =>
      .look fun _ => .ite (takes_fail _) (.skip ((takes_skipSpace true).bind fun _ =>
      .look fun _ => .ite (takes_fail _) (.bind (fun _ _ _ _ h => h) fun _ =>
      (takes_ruleId name).bind fun _ => .bind ?_ fun _ _ _ _ _ h => h))))) hb h hword
    exact takes_fueled fun st => (takes_descent (descentFuel st) false).2.1 _
      (by unfold descentFuel; omega)

theorem takes_grammarLoop (n : Nat) : Takes n 0 (grammarLoop n) := by
  induction n with
  | zero => exact takes_zero
  | succ n ih =>
    exact fun st b hb _ h => (takes_parseRule.bind fun _ => (takes_skipSpace true).bind fun _ =>
      ih).round (fun hnil => by simp [hnil]) hb h

end GbnfParser

open GbnfParser in
/-- The parser ends on every source: its fuel is enough. -/
theorem parseGbnf_ne_outOfFuel (src : List UInt8) : parseGbnf src ≠ .error "out of fuel" := by
  have hends : Ends src.length parseGrammar { rest := src, size := src.length } :=
    ((takes_skipSpace true).bind fun _ => takes_fueled fun st =>
      takes_grammarLoop (st.rest.length + 1)) (Nat.lt_succ_self _) (Nat.zero_le _) le_rfl
  unfold Ends at hends
  unfold parseGbnf
  cases hrun : parseGrammar { rest := src, size := src.length } with
  | error e =>
    rw [hrun] at hends
    exact fun h => hends (Except.error.inj h)
  | ok out =>
    dsimp only [bind, Except.bind]
    split
    · intro h
      have hfirst := congrArg String.toList (Except.error.inj h)
      simp at hfirst
    · split
      · decide
      · exact fun h => by cases h

end Quench
