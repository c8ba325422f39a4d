import Quench.Compute.JsonMask
import Quench.Compute.JsonSound

/-!
# Closing the document in budget

Near the end of the budget the mask narrows to closers. `closers` counts the characters that close
what is open; one character adds at most one to it, and the narrowed mask takes one off.
`sample_done` is the resulting guarantee: a document is closed in time as long as each step is
`Spare`. `ran_out_after_key` is a run without that.
-/

namespace Quench

open Json Lib List

namespace JsonFsm

variable {c : UInt8} {s s' : JsonFsm}

/-! ## Owed closers -/

/-- The characters that close what is open, if nothing else has to come first. -/
def closers (s : JsonFsm) : Nat :=
  match s.currentState with
  | .start | .done => 0
  | .inNumber | .inLiteral => s.stateStack.length
  | .inStringEscape => s.stateStack.length + 2
  | _ => s.stateStack.length + 1

/-- The states in which a key or a value may open. -/
def opens (s : JsonFsm) : Bool :=
  match s.currentState with
  | .objectStart | .objectNeedKey | .afterColon | .arrayStart | .arrayNeedValue => true
  | _ => false

/-- What one character may add to the closers. -/
def growth (s : JsonFsm) : Nat :=
  if s.opens || s.currentState == .start || s.currentState == .inString then 1 else 0

theorem closers_le_needed (s : JsonFsm) : s.closers ≤ s.needed := by
  rw [closers, needed]
  cases s.currentState <;> simp

theorem closers_pop (hs : ∀ state ∈ s.stateStack, IsFrame state) :
    s.pop.closers = s.stateStack.length := by
  rw [pop]
  cases hstack : s.stateStack with
  | nil => rfl
  | cons top rest =>
    rcases hs top (by simp [hstack]) with rfl | rfl | rfl <;> rfl

variable {k : JsonState}

theorem openValue_closers (h : s.openValue k c = some s') :
    s'.closers ≤ s.stateStack.length + 2 := by
  rw [openValue] at h
  split_ifs at h <;> cases h <;> simp [closers, push, pushLiteral, enterNumber]

theorem accepted_closers (hs : s.WellFormed) (h : Accepted c s s') :
    s'.closers ≤ s.closers + s.growth := by
  have hpop := closers_pop hs.frames
  cases h with
  | root hstate hnext =>
    rcases hnext with ⟨_, rfl⟩ | ⟨_, rfl⟩ <;> simp [closers, growth, hstate, hs.root]
  | key hstate =>
    rcases hstate with hstate | hstate <;> simp [closers, growth, opens, hstate, push]
  | colon hstate => simp [closers, growth, opens, hstate]
  | value hstate hopen =>
    have hclosers := openValue_closers hopen
    have hgrowth : s.closers = s.stateStack.length + 1 ∧ s.growth = 1 := by
      rcases hstate with ⟨hstate, _⟩ | ⟨hstate | hstate, _⟩ <;>
        simp [closers, growth, opens, hstate]
    omega
  | comma hstate =>
    rcases hstate with ⟨hstate, rfl⟩ | ⟨hstate, rfl⟩ <;> simp [closers, hstate]
  | close hstate =>
    rw [hpop]
    rcases hstate with hstate | hstate | hstate | hstate | hstate <;> simp [closers, hstate] <;>
      omega
  | escape hstate => simp [closers, growth, hstate]
  | escaped hstate =>
    simp only [closers, hstate]
    omega
  | char hstate => exact Nat.le_add_right _ _
  | number hstate hnext =>
    obtain ⟨hcurrent, hstack⟩ := continueNumber_frame hnext
    simp [closers, hcurrent, hstack, hstate]
  | letter hstate _ hmore => simp [closers, hstate]
  | lastLetter hstate =>
    rw [closers_pop (s := { s with partialLiteral := s.partialLiteral ++ [c] }) hs.frames]
    simp [closers, hstate]

/-- The root container is open or closed, and at most so many closers are owed. -/
structure Owes (n : Nat) (s : JsonFsm) : Prop where
  wellFormed : s.WellFormed
  opened : s.currentState ≠ .start
  closers_le : s.closers ≤ n

theorem pop_opened (hs : ∀ state ∈ s.stateStack, IsFrame state) : s.pop.currentState ≠ .start := by
  rcases pop_state hs with h | h | h | h <;> simp [h]

theorem openValue_opened (h : s.openValue k c = some s') : s'.currentState ≠ .start := by
  rw [openValue] at h
  split_ifs at h <;> cases h <;> simp [push, pushLiteral, enterNumber]

theorem accepted_opened (hs : s.WellFormed) (hopen : s.currentState ≠ .start)
    (h : Accepted c s s') : s'.currentState ≠ .start := by
  cases h with
  | root hstate hnext => exact absurd hstate hopen
  | key | colon | escape | escaped => simp [push]
  | value hstate hvalue => exact openValue_opened hvalue
  | comma hstate => rcases hstate with ⟨_, rfl⟩ | ⟨_, rfl⟩ <;> simp
  | close hstate => exact pop_opened hs.frames
  | char hstate => exact hopen
  | number hstate hnext =>
    rw [(continueNumber_frame hnext).1]
    exact hopen
  | letter hstate _ hmore => exact hopen
  | lastLetter hstate => exact pop_opened hs.frames

variable {n : Nat}

theorem Owes.mono {m : Nat} (hs : Owes n s) (h : n ≤ m) : Owes m s :=
  ⟨hs.wellFormed, hs.opened, hs.closers_le.trans h⟩

theorem Owes.wsRun (hs : Owes n s) (k : Nat) : Owes n { s with wsRun := k } :=
  ⟨hs.wellFormed.wsRun k, hs.opened, hs.closers_le⟩

theorem Owes.accepted (hs : Owes n s) (h : Accepted c s s') : Owes (n + s.growth) s' := by
  refine ⟨hs.wellFormed.accepted h, accepted_opened hs.wellFormed hs.opened h, ?_⟩
  exact (accepted_closers hs.wellFormed h).trans (Nat.add_le_add_right hs.closers_le _)

/-- Ending a number owes no more than the number did. -/
theorem Owes.pop_number (hs : Owes n s) (hstate : s.currentState = .inNumber) : Owes n s.pop := by
  refine ⟨hs.wellFormed.pop, pop_opened hs.wellFormed.frames, ?_⟩
  have hclosers := hs.closers_le
  rw [closers, hstate] at hclosers
  rwa [closers_pop hs.wellFormed.frames]

theorem growth_pop (hs : s.WellFormed) : s.pop.growth = 0 := by
  rcases pop_state hs.frames with h | h | h | h <;> simp [growth, opens, h]

/-- One character, accepted or not, adds at most what its state allows. -/
theorem Owes.advanceChar (hs : Owes n s) (c : UInt8) : Owes (n + s.growth) (advanceChar c s).2 := by
  refine advanceChar_rule (P := fun t => Owes n t ∧ t.growth ≤ s.growth)
    (fun t k ht => ⟨ht.1.wsRun k, ht.2⟩) ?_ ?_ ?_ ⟨hs, le_rfl⟩
  · exact fun t ht => ht.1.mono (Nat.le_add_right _ _)
  · exact fun t u ht h => (ht.1.accepted h).mono (Nat.add_le_add_left ht.2 n)
  · intro t ht hstate
    refine ⟨ht.1.pop_number hstate, ?_⟩
    rw [growth_pop ht.1.wellFormed]
    exact Nat.zero_le _

theorem growth_le (s : JsonFsm) : s.growth ≤ 1 := by
  rw [growth]
  split
  · exact le_refl 1
  · exact Nat.zero_le 1

/-- A text adds at most one closer for each of its characters. -/
theorem Owes.advanceText (hs : Owes n s) (text : List UInt8) :
    Owes (n + text.length) (s.advanceText text) := by
  induction text generalizing s n with
  | nil => exact hs
  | cons c text ih =>
    have hstep := (hs.advanceChar c).mono (Nat.add_le_add_left s.growth_le n)
    exact (ih hstep).mono (by simp only [length_cons]; omega)

/-- Nothing owed: the document is closed. -/
theorem Owes.done (hs : Owes 0 s) : s.currentState = .done := by
  have hclosers := Nat.le_zero.mp hs.closers_le
  have hnested := hs.wellFormed.nested
  rw [closers] at hclosers
  cases hstate : s.currentState with
  | done => rfl
  | start => exact absurd hstate hs.opened
  | inNumber | inLiteral =>
    rw [hstate] at hclosers
    exact absurd (length_eq_zero_iff.mp hclosers) (hnested (by simp [IsScalar, hstate]))
  | _ =>
    rw [hstate] at hclosers
    exact absurd hclosers (Nat.succ_ne_zero _)

/-- A closed document stays closed. -/
theorem Owes.advanceText_done (hs : Owes 0 s) (text : List UInt8) :
    Owes 0 (s.advanceText text) := by
  induction text generalizing s with
  | nil => exact hs
  | cons c text ih =>
    have hgrowth : s.growth = 0 := by simp [growth, opens, hs.done]
    have hstep := hs.advanceChar c
    rw [hgrowth] at hstep
    exact ih hstep

/-- Outside the states that open something, the count of owed closers covers one character more. -/
theorem closers_growth_le (hopen : s.currentState ≠ .start) (h : s.opens = false) :
    s.closers + s.growth ≤ s.needed := by
  rw [opens] at h
  rw [closers, growth, opens, needed]
  cases hstate : s.currentState <;> simp_all

/-! ## The narrowed mask -/

/-- A closer is legal. -/
def closable (s : JsonFsm) : Bool :=
  s.currentState == .inString || s.currentState == .inStringEscape ||
    s.simTokenValid [byte '}'] || s.simTokenValid [byte ']']

section

variable (hc : c = byte '}' ∨ c = byte ']')
include hc

/-- A closer is only accepted where it closes. -/
theorem accepted_closer (hs : s.WellFormed)
    (hscalar : ¬ IsScalar s.currentState ∨ s.currentState = .inLiteral)
    (h : Accepted c s s') : s' = s.pop ∧ s.closers = s.stateStack.length + 1 := by
  have hlower : isLower c = false := by rcases hc with rfl | rfl <;> decide
  have hnot : s.currentState ≠ .inString ∧ s.currentState ≠ .inStringEscape ∧
      s.currentState ≠ .inNumber := by
    rcases hscalar with hscalar | hscalar
    · simp only [IsScalar, not_or] at hscalar
      exact ⟨hscalar.1, hscalar.2.1, hscalar.2.2.1⟩
    · simp [hscalar]
  have hletter : s.currentState = .inLiteral →
      s.targetLiteral[s.partialLiteral.length]? ≠ some c := by
    intro hstate hget
    rw [(hs.literal hstate).2 c (mem_of_getElem? hget)] at hlower
    cases hlower
  cases h with
  | root hstate hnext => rcases hc with rfl | rfl <;> rcases hnext with ⟨h, _⟩ | ⟨h, _⟩ <;> cases h
  | key hstate hnext => rcases hc with rfl | rfl <;> cases hnext
  | colon hstate hnext => rcases hc with rfl | rfl <;> cases hnext
  | value hstate hopen => rcases hc with rfl | rfl <;> cases hopen
  | comma hstate hnext => rcases hc with rfl | rfl <;> cases hnext
  | close hstate =>
    refine ⟨rfl, ?_⟩
    rcases hstate with hstate | hstate | hstate | hstate | hstate
    case inr.inr.inr.inr => exact absurd hstate hnot.1
    all_goals simp [closers, hstate]
  | escape hstate => exact absurd hstate hnot.1
  | escaped hstate => exact absurd hstate hnot.2.1
  | char hstate =>
    rcases hstate with hstate | hstate
    · exact absurd hstate hnot.1
    · exact absurd hstate hs.notKey
  | number hstate hnext => exact absurd hstate hnot.2.2
  | letter hstate hnext => exact absurd hnext (hletter hstate)
  | lastLetter hstate hnext => exact absurd hnext (hletter hstate)

theorem not_isSpace_closer : isSpace c = false := by
  rcases hc with rfl | rfl <;> rfl

theorem Owes.step_closer (hs : Owes n s)
    (hscalar : ¬ IsScalar s.currentState ∨ s.currentState = .inLiteral)
    (h : reader.step c s = some s') : 0 < n ∧ Owes (n - 1) s' := by
  have hend : Owes n s.endSpace := hs.wsRun 0
  have hnumber : s.currentState ≠ .inNumber := by
    rcases hscalar with hscalar | hscalar
    · exact fun hstate => hscalar (.inr (.inr (.inl hstate)))
    · simp [hscalar]
  rw [step_dispatch hnumber (.inl (not_isSpace_closer hc))] at h
  cases hd : dispatch c s.endSpace with
  | reject t => simp [hd, Step.next] at h
  | again t => simp [hd, Step.next] at h
  | accept t =>
    simp only [hd, Step.next, Option.some.injEq] at h
    subst h
    obtain ⟨rfl, hclosers⟩ := accepted_closer hc hend.wellFormed hscalar (dispatch_accept hd)
    have hle := hend.closers_le
    refine ⟨by omega, hend.wellFormed.pop, pop_opened hend.wellFormed.frames, ?_⟩
    rw [closers_pop hend.wellFormed.frames]
    omega

/-- A legal closer takes one off. -/
theorem Owes.closer (hs : Owes n s)
    (hstring : s.currentState ≠ .inString) (hescape : s.currentState ≠ .inStringEscape)
    (h : s.simTokenValid [c] = true) :
    0 < n ∧ Owes (n - 1) (JsonFsm.advanceChar c s).2 := by
  obtain ⟨s', hs'⟩ := Option.isSome_iff_exists.mp h
  obtain ⟨t, hstep, ht⟩ := Option.bind_eq_some_iff.mp hs'
  rw [step_some hstep]
  by_cases hnumber : s.currentState = .inNumber
  · have hend : Owes n s.endSpace := hs.wsRun 0
    rw [step_number hnumber (not_isSpace_closer hc)] at hstep
    have hnone : continueNumber c s.endSpace = none := by
      rcases hc with rfl | rfl <;> rfl
    rw [hnone] at hstep
    dsimp only at hstep
    split at hstep
    · cases hstep
    · exact (hend.pop_number hnumber).step_closer hc (.inl (pop_not_scalar hend.wellFormed.frames))
        hstep
  · refine hs.step_closer hc ?_ hstep
    by_cases hliteral : s.currentState = .inLiteral
    · exact .inr hliteral
    · exact .inl (by simp [IsScalar, hstring, hescape, hnumber, hliteral])

end

theorem step_quote (hstate : s.currentState = .inString) :
    reader.step (byte '"') s = some s.endSpace.pop := by
  rw [step_dispatch (by simp [hstate]) (.inr (.inl hstate)), dispatch, endSpace_currentState,
    hstate]
  rfl

/-- The quote closes a string, and a character ends an escape. -/
theorem Owes.quote (hs : Owes n s) (hstate : s.currentState = .inString) :
    0 < n ∧ Owes (n - 1) (JsonFsm.advanceChar (byte '"') s).2 := by
  have hend : Owes n s.endSpace := hs.wsRun 0
  have hle := hs.closers_le
  rw [closers, hstate] at hle
  rw [step_some (step_quote hstate)]
  refine ⟨by dsimp only at hle; omega, hend.wellFormed.pop, pop_opened hend.wellFormed.frames, ?_⟩
  rw [closers_pop hend.wellFormed.frames, endSpace_stateStack]
  dsimp only at hle
  omega

theorem Owes.escaped (hs : Owes n s) (hstate : s.currentState = .inStringEscape)
    (hc : ¬ c < 0x20) : 0 < n ∧ Owes (n - 1) (JsonFsm.advanceChar c s).2 := by
  have hend : Owes n s.endSpace := hs.wsRun 0
  have hstep : reader.step c s = some { s.endSpace with currentState := .inString } := by
    rw [step_dispatch (by simp [hstate]) (.inr (.inr hstate)), dispatch, endSpace_currentState,
      hstate]
    simp [hc, Step.next]
  have hle := hs.closers_le
  rw [closers, hstate] at hle
  rw [step_some hstep]
  refine ⟨by dsimp only at hle; omega, hend.wellFormed.accepted (.escaped (c := c) hstate),
    JsonState.noConfusion, ?_⟩
  change s.stateStack.length + 1 ≤ n - 1
  dsimp only at hle
  omega

end JsonFsm

/-! ## Categories of single bytes -/

theorem classifyChar_meets (b : UInt8) :
    ((classifyChar b).meets [.stringChar] = true → ¬ b < 0x20) ∧
    ((classifyChar b).meets [.quote] = true → b = byte '"') ∧
    ((classifyChar b).meets [.closeBrace, .closeBracket] = true →
      b = byte '}' ∨ b = byte ']') ∧ classifyChar b ≠ [.eos] := by
  revert b
  exact Gbnf.forall_byte (by decide +kernel)

namespace JsonConstrainer

variable {c : JsonConstrainer} {width token : Nat}

/-- The vocabulary has every single byte as a token. -/
def HasBytes (c : JsonConstrainer) (width : Nat) : Prop :=
  ∀ b : UInt8, ∃ token ∈ c.classified width, c.tokenText token = [b] ∧ (token : Int) ∉ c.eosIds

variable {b : UInt8} {mask : CatMask}

theorem tokenCategory_byte (htext : c.tokenText token = [b]) (heos : (token : Int) ∉ c.eosIds) :
    c.tokenCategory token = classifyChar b := by
  rw [tokenCategory, if_neg heos, htext]
  rfl

/-- A legal byte of a category in the mask is allowed. -/
theorem allowed_ne_nil (hbytes : c.HasBytes width) (hcat : (classifyChar b).meets mask = true)
    (hvalid : (c.fsm.currentState = .inStringEscape ∧ stringTokenNeedsSimulation [b] = false) ∨
      c.fsm.simTokenValid [b] = true) : c.allowed width mask ≠ [] := by
  obtain ⟨token, hmem, htext, heos⟩ := hbytes b
  refine ne_nil_of_mem (a := token) (mem_filter.mpr ⟨hmem, ?_⟩)
  rw [tokenAllow, tokenCategory_byte htext heos, hcat, htext]
  rcases hvalid with ⟨hstate, hplain⟩ | hvalid
  · simp [hstate, hplain]
  · simp [hvalid]

theorem quote_valid {s : JsonFsm} (hstate : s.currentState = .inString) :
    s.simTokenValid [byte '"'] = true := by
  rw [JsonFsm.simTokenValid, Reader.read, JsonFsm.step_quote hstate]
  rfl

/-- Where a closer is legal, force-close leaves one. -/
theorem applyMask_narrowed (hkey : c.fsm.currentState ≠ .objectKey) (hbytes : c.HasBytes width)
    (hclosable : c.fsm.closable = true) (hforce : c.fsm.forceClose c.remainingBudget = true) :
    c.applyMask width = c.allowed width (c.fsm.computeAllowedMask c.remainingBudget) := by
  suffices hne : c.allowed width (c.fsm.computeAllowedMask c.remainingBudget) ≠ [] by
    simp [applyMask, hne]
  rw [JsonFsm.computeAllowedMask, if_pos hforce]
  by_cases hescape : c.fsm.currentState = .inStringEscape
  · rw [if_pos hescape]
    exact allowed_ne_nil (b := byte 'n') hbytes (by decide) (.inl ⟨hescape, by decide⟩)
  by_cases hstring : c.fsm.currentState = .inString
  · rw [if_neg hescape, if_pos (.inl hstring)]
    exact allowed_ne_nil (b := byte '"') hbytes (by decide) (.inr (quote_valid hstring))
  rw [if_neg hescape, if_neg (by simp [hstring, hkey])]
  simp only [JsonFsm.closable, hstring, hescape, beq_iff_eq, Bool.or_eq_true, false_or] at hclosable
  rcases hclosable with hvalid | hvalid
  · exact allowed_ne_nil (b := byte '}') hbytes (by decide) (.inr hvalid)
  · exact allowed_ne_nil (b := byte ']') hbytes (by decide) (.inr hvalid)

/-- A token of at most one byte that meets a mask without whitespace and end of text is a byte. -/
theorem byte_of_meets (hspace : .whitespace ∉ mask) (heos : .eos ∉ mask)
    (hcat : (c.tokenCategory token).meets mask = true) (hlength : (c.tokenText token).length ≤ 1) :
    ∃ b, c.tokenText token = [b] ∧ c.tokenCategory token = classifyChar b := by
  rw [tokenCategory] at hcat ⊢
  split at hcat
  · simp [CatMask.meets, heos] at hcat
  · rename_i hnot
    rw [if_neg hnot]
    cases htext : c.tokenText token with
    | nil =>
      rw [htext] at hcat
      simp [classifyToken, CatMask.meets, hspace] at hcat
    | cons b rest =>
      rw [htext, length_cons] at hlength
      obtain rfl := length_eq_zero_iff.mp (Nat.le_zero.mp (Nat.le_of_succ_le_succ hlength))
      exact ⟨b, rfl, rfl⟩

/-- Under force-close a token of at most one byte takes one closer off. -/
theorem forced_sample {n : Nat} (hs : c.fsm.Owes n) (hbytes : c.HasBytes width)
    (hclosable : c.fsm.closable = true) (hforce : c.fsm.forceClose c.remainingBudget = true)
    (htoken : token ∈ c.applyMask width) (hlength : (c.tokenText token).length ≤ 1) :
    0 < n ∧ JsonFsm.Owes (n - 1) (c.fsm.advanceText (c.tokenText token)) := by
  have hkey := hs.wellFormed.notKey
  rw [applyMask_narrowed hkey hbytes hclosable hforce] at htoken
  obtain ⟨_, hallow⟩ := mem_filter.mp htoken
  rw [tokenAllow, Bool.and_eq_true, JsonFsm.computeAllowedMask, if_pos hforce] at hallow
  obtain ⟨hcat, hvalid⟩ := hallow
  by_cases hescape : c.fsm.currentState = .inStringEscape
  · rw [if_pos hescape] at hcat
    obtain ⟨b, htext, hb⟩ := byte_of_meets (by decide) (by decide) hcat hlength
    rw [hb] at hcat
    rw [htext]
    exact hs.escaped hescape ((classifyChar_meets b).1 hcat)
  by_cases hstring : c.fsm.currentState = .inString
  · rw [if_neg hescape, if_pos (.inl hstring)] at hcat
    obtain ⟨b, htext, hb⟩ := byte_of_meets (by decide) (by decide) hcat hlength
    rw [hb] at hcat
    rw [htext, (classifyChar_meets b).2.1 hcat]
    exact hs.quote hstring
  · rw [if_neg hescape, if_neg (by simp [hstring, hkey])] at hcat
    obtain ⟨b, htext, hb⟩ := byte_of_meets (by decide) (by decide) hcat hlength
    rw [hb] at hcat hvalid
    obtain ⟨-, -, hcloser, heos⟩ := classifyChar_meets b
    simp only [hstring, hescape, beq_iff_eq, heos, Bool.or_eq_true, Bool.and_eq_true, false_or,
      false_and, or_self, htext] at hvalid
    rw [htext]
    exact hs.closer (hcloser hcat) hstring hescape hvalid

/-! ## Runs -/

/-- What a step needs, besides an allowed token: room for all that its token may open; or a token of
at most one byte that opens nothing when only one token more than the closers is left, in a state
where a closer is legal when not even that is left. -/
def Spare (c : JsonConstrainer) (token : Nat) : Prop :=
  c.fsm.currentState = .done ∨
  (c.fsm.needed + (c.tokenText token).length : Int) < c.remainingBudget ∨
  (c.tokenText token).length ≤ 1 ∧
    (c.remainingBudget = c.fsm.needed + 1 → c.fsm.opens = false) ∧
    (c.remainingBudget ≤ c.fsm.needed → c.fsm.closable = true)

instance : Decidable (c.Spare token) := inferInstanceAs (Decidable (_ ∨ _ ∨ _))

/-- The closers owed fit in the budget. -/
structure Fits (c : JsonConstrainer) : Prop where
  budget : 0 ≤ c.remainingBudget
  owes : c.fsm.Owes c.remainingBudget.toNat

theorem applyMask_lt (h : token ∈ c.applyMask width) : token < c.tokenTexts.length := by
  have hclassified : ∀ p : Nat → Bool, token ∈ (c.classified width).filter p →
      token < c.tokenTexts.length := by
    intro p hp
    have hrange := mem_range.mp (mem_filter.mp hp).1
    exact lt_of_lt_of_le hrange (min_le_right _ _)
  rw [applyMask] at h
  split_ifs at h
  all_goals exact hclassified _ h

theorem mem_applyMask (hclassified : token ∈ c.classified width)
    (hallow : c.tokenAllow (c.fsm.computeAllowedMask c.remainingBudget) token = true) :
    token ∈ c.applyMask width := by
  have hmem : token ∈ c.allowed width (c.fsm.computeAllowedMask c.remainingBudget) :=
    mem_filter.mpr ⟨hclassified, hallow⟩
  simpa [applyMask, ne_nil_of_mem hmem] using hmem

/-- Where force-close leaves nothing, the ordinary mask counts. -/
theorem mem_applyMask_retried (hforce : c.fsm.forceClose c.remainingBudget = true)
    (hnone : c.allowed width (c.fsm.computeAllowedMask c.remainingBudget) = [])
    (hclassified : token ∈ c.classified width)
    (hallow : c.tokenAllow (c.fsm.computeAllowedMask (-1)) token = true) :
    token ∈ c.applyMask width := by
  have hmem : token ∈ c.allowed width (c.fsm.computeAllowedMask (-1)) :=
    mem_filter.mpr ⟨hclassified, hallow⟩
  simpa [applyMask, hnone, hforce, ne_nil_of_mem hmem] using hmem

theorem Fits.after (hfits : c.Fits) (hbytes : c.HasBytes width) (hpositive : 0 < c.remainingBudget)
    (htoken : token ∈ c.applyMask width) (hspare : c.Spare token) : (c.sample token).Fits := by
  have hfsm : (c.sample token).fsm = c.fsm.advanceText (c.tokenText token) := by
    rw [sample, update, if_pos (applyMask_lt htoken)]
  have hbudget : (c.sample token).remainingBudget = c.remainingBudget - 1 := rfl
  have hneeded : c.fsm.Owes c.fsm.needed :=
    ⟨hfits.owes.wellFormed, hfits.owes.opened, c.fsm.closers_le_needed⟩
  refine ⟨by rw [hbudget]; omega, ?_⟩
  rw [hfsm, hbudget]
  by_cases hdone : c.fsm.currentState = .done
  · have hzero : c.fsm.Owes 0 :=
      ⟨hfits.owes.wellFormed, hfits.owes.opened, by simp [JsonFsm.closers, hdone]⟩
    exact (hzero.advanceText_done _).mono (Nat.zero_le _)
  rcases hspare with hspare | hroom | ⟨hlength, hopens, hclosable⟩
  · exact absurd hspare hdone
  · exact (hneeded.advanceText _).mono (by omega)
  · rcases lt_trichotomy c.remainingBudget (c.fsm.needed + 1) with hlt | heq | hgt
    · -- the mask is narrow
      have hforce : c.fsm.forceClose c.remainingBudget = true := by
        simp only [JsonFsm.forceClose, decide_eq_true_eq]
        exact ⟨hfits.budget, hdone, by omega⟩
      obtain ⟨_, howes⟩ :=
        forced_sample hfits.owes hbytes (hclosable (by omega)) hforce htoken hlength
      exact howes.mono (by omega)
    · -- one token more than the closers, and nothing opens
      have hgrowth := JsonFsm.closers_growth_le hfits.owes.opened (hopens heq)
      have hexact : c.fsm.Owes c.fsm.closers :=
        ⟨hfits.owes.wellFormed, hfits.owes.opened, le_rfl⟩
      cases htext : c.tokenText token with
      | nil => exact hneeded.mono (by omega)
      | cons b rest =>
        rw [htext, length_cons] at hlength
        obtain rfl := length_eq_zero_iff.mp (Nat.le_zero.mp (Nat.le_of_succ_le_succ hlength))
        exact (hexact.advanceChar b).mono (by omega)
    · exact (hneeded.advanceText _).mono (by omega)

theorem advanceText_wellFormed (text : List UInt8) (s : JsonFsm) (hs : s.WellFormed) :
    (s.advanceText text).WellFormed := by
  induction text generalizing s with
  | nil => exact hs
  | cons b text ih => exact ih _ (hs.advanceChar b)

/-- A state that the constrainer can be in after some text. -/
def Reachable (s : JsonFsm) : Prop := ∃ text, s = JsonFsm.reset.advanceText text

theorem sample_vocabulary (c : JsonConstrainer) (token : Nat) :
    (c.sample token).tokenTexts = c.tokenTexts ∧ (c.sample token).eosIds = c.eosIds := by
  rw [sample, update]
  split <;> exact ⟨rfl, rfl⟩

theorem sample_hasBytes (hbytes : c.HasBytes width) (token : Nat) :
    (c.sample token).HasBytes width := by
  have hsame := c.sample_vocabulary token
  intro b
  obtain ⟨token', hmem, htext, heos⟩ := hbytes b
  refine ⟨token', ?_, ?_, ?_⟩
  · rwa [classified, hsame.1]
  · rwa [tokenText, hsame.1]
  · rwa [hsame.2]

/-- A run within the budget, token by token. -/
theorem Fits.run {tokens : List Nat} (hfits : c.Fits) (hbytes : c.HasBytes width)
    (hlength : tokens.length ≤ c.remainingBudget)
    (hrun : Meets sample (fun c token => token ∈ c.applyMask width ∧ c.Spare token) c tokens) :
    (runFrom sample c tokens).Fits := by
  induction tokens generalizing c with
  | nil => exact hfits
  | cons token tokens ih =>
    obtain ⟨⟨htoken, hspare⟩, hrest⟩ := hrun
    rw [length_cons] at hlength
    have hnext := hfits.after hbytes (by omega) htoken hspare
    refine ih hnext (sample_hasBytes hbytes token) ?_ hrest
    change (tokens.length : Int) ≤ c.remainingBudget - 1
    omega

theorem runFrom_remainingBudget (c : JsonConstrainer) (tokens : List Nat) :
    (runFrom sample c tokens).remainingBudget = c.remainingBudget - tokens.length := by
  induction tokens generalizing c with
  | nil => simp [runFrom]
  | cons token tokens ih =>
    change (runFrom sample (c.sample token) tokens).remainingBudget = _
    rw [ih, length_cons]
    change c.remainingBudget - 1 - _ = _
    omega

/-- The document is closed by the time the budget is used up. -/
theorem sample_done (c : JsonConstrainer) (width : Nat) (tokens : List Nat)
    (hbytes : c.HasBytes width) (hreach : Reachable c.fsm) (hopen : c.fsm.currentState ≠ .start)
    (hbudget : c.fsm.needed < c.remainingBudget) (hlength : tokens.length = c.remainingBudget)
    (hrun : Meets sample (fun c token => token ∈ c.applyMask width ∧ c.Spare token) c tokens) :
    (runFrom sample c tokens).fsm.currentState = .done := by
  obtain ⟨text, htext⟩ := hreach
  have hwell : c.fsm.WellFormed := by
    rw [htext]
    exact advanceText_wellFormed text _ JsonFsm.wellFormed_reset
  have hclosers := c.fsm.closers_le_needed
  have hfits : c.Fits := ⟨by omega, hwell, hopen, by omega⟩
  have hend := (hfits.run hbytes (by omega) hrun).owes
  rw [runFrom_remainingBudget, hlength, Int.sub_self] at hend
  exact hend.done

/-- The vocabulary of the single bytes. -/
def byteTexts : List (List UInt8) := (List.range 256).map fun n => [.ofNat n]

theorem byteTexts_hasBytes {special : List (List UInt8)}
    (htexts : c.tokenTexts = byteTexts ++ special) (hwidth : 256 ≤ width)
    (heos : ∀ id ∈ c.eosIds, 256 ≤ id) : c.HasBytes width := by
  intro b
  have hlt : b.toNat < 256 := b.toNat_lt
  have hbytes : b.toNat < byteTexts.length := by simpa [byteTexts] using hlt
  refine ⟨b.toNat, ?_, ?_, ?_⟩
  · simp only [classified, htexts, length_append, mem_range]
    omega
  · rw [tokenText, htexts, getD_eq_getElem?_getD, getElem?_append_left hbytes]
    simp [byteTexts, hlt]
  · intro hmem
    have hlarge := heos _ hmem
    omega

/-- Where no closer is legal, none of the single bytes passes the narrowed mask. -/
theorem byteTexts_allowed_nil (htexts : c.tokenTexts = byteTexts) (heos : c.eosIds = [])
    (hclosable : c.fsm.closable = false)
    (hmask : c.fsm.computeAllowedMask c.remainingBudget = [.closeBrace, .closeBracket]) :
    c.allowed 256 (c.fsm.computeAllowedMask c.remainingBudget) = [] := by
  rw [hmask]
  simp only [JsonFsm.closable, Bool.or_eq_false_iff, beq_eq_false_iff_ne] at hclosable
  obtain ⟨⟨⟨hstring, hescape⟩, hbrace⟩, hbracket⟩ := hclosable
  refine filter_eq_nil_iff.mpr fun token hmem hallow => ?_
  have hlt : token < 256 := by simpa [classified, htexts, byteTexts] using hmem
  have htext : c.tokenText token = [.ofNat token] := by
    simp [tokenText, htexts, byteTexts, hlt]
  rw [tokenAllow, tokenCategory_byte htext (by simp [heos]), htext] at hallow
  obtain ⟨-, -, hcloser, hnot⟩ := classifyChar_meets (.ofNat token)
  simp only [hstring, hescape, hnot, beq_iff_eq, Bool.and_eq_true, Bool.or_eq_true, false_or,
    or_self, false_and] at hallow
  rcases hcloser hallow.1 with hb | hb
  · rw [hb, hbrace] at hallow
    cases hallow.2
  · rw [hb, hbracket] at hallow
    cases hallow.2

/-- Inside the string of `["a`, with four tokens left: a character, the closers and a space. -/
theorem sample_done_string :
    (runFrom sample
      { tokenTexts := byteTexts, eosIds := []
        fsm := JsonFsm.reset.advanceText (['[', '"', 'a'].map byte), remainingBudget := 4 }
      (['b', '"', ']', ' '].map Char.toNat)).fsm.currentState = .done := by
  refine sample_done _ 256 _ (byteTexts_hasBytes (append_nil _).symm (by decide) (by simp))
    ⟨_, rfl⟩ ?_ ?_ ?_ ?_
  · decide +kernel
  · decide +kernel
  · decide +kernel
  · exact ⟨⟨mem_applyMask (by decide +kernel) (by decide +kernel), by decide +kernel⟩,
      ⟨mem_applyMask (by decide +kernel) (by decide +kernel), by decide +kernel⟩,
      ⟨mem_applyMask (by decide +kernel) (by decide +kernel), by decide +kernel⟩,
      ⟨mem_applyMask (by decide +kernel) (by decide +kernel), by decide +kernel⟩, trivial⟩

/-- After `{"a"`, with two tokens left and one closer counted, every token taken is allowed: the
colon, which the narrowed mask would have to be lifted for, and a digit. The budget is used up
inside the number. -/
theorem ran_out_after_key :
    let c : JsonConstrainer :=
      { tokenTexts := byteTexts, eosIds := []
        fsm := JsonFsm.reset.advanceText (['{', '"', 'a', '"'].map byte), remainingBudget := 2 }
    let tokens := [':', '1'].map Char.toNat
    c.HasBytes 256 ∧ Reachable c.fsm ∧ c.fsm.currentState ≠ .start ∧
      c.fsm.needed < c.remainingBudget ∧ tokens.length = c.remainingBudget ∧
      Meets sample (fun c token => token ∈ c.applyMask 256) c tokens ∧
      (runFrom sample c tokens).fsm.currentState ≠ .done := by
  refine ⟨byteTexts_hasBytes (append_nil _).symm (by decide) (by simp), ⟨_, rfl⟩,
    by decide +kernel, by decide +kernel, rfl, ⟨?_, ?_, trivial⟩, by decide +kernel⟩
  · exact mem_applyMask (by decide +kernel) (by decide +kernel)
  · exact mem_applyMask_retried (by decide +kernel)
      (byteTexts_allowed_nil (sample_vocabulary _ _).1 (sample_vocabulary _ _).2
        (by decide +kernel) (by decide +kernel))
      (by decide +kernel) (by decide +kernel)

end JsonConstrainer

end Quench
