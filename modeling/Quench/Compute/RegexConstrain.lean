import Quench.Compute.RegexExact

/-!
# Decoding against a pattern

`RegexConstrainer` of `compute/regex_constrain.cu` keeps the set of automaton states that the reply
has led to. `allow_for_current_state` walks the vocabulary and marks the tokens whose text some
state can take, and remembers the marks for the state set. An end-of-sequence token is marked from
an accepting set, or if nothing else is.

Such a token is also marked when its own text continues the pattern (`eos_text_marked`). As long as
none does, a reply that ends has matched the pattern (`eos_marked_at_match`).

The preamble gate is closed, and the device copy of the marks is left out.
-/

namespace Quench

open Lib Regex List

/-! ## The language of a pattern is searched -/

namespace RegexNfa

/-- The state of the search in `language_non_empty`. -/
structure Search where
  found : Bool
  seen : List (List Nat)
  next : List (List Nat)

/-- `kMaxSets`. -/
def maxSets : Nat := 4096

/-- `kMaxDepth`. -/
def maxDepth : Nat := 64

variable (nfa : RegexNfa)

/-- One byte behind one state set. -/
def searchByte (cur : List Nat) (search : Search) (b : UInt8) : Search :=
  let ns := nfa.step cur b
  if search.found then search
  else if ns = [] then search
  else if nfa.accepts ns then { search with found := true }
  else if search.seen.length < maxSets ∧ ns ∉ search.seen then
    { search with seen := ns :: search.seen, next := search.next ++ [ns] }
  else search

def searchSet (search : Search) (cur : List Nat) : Search :=
  ((List.range 256).map UInt8.ofNat).foldl (nfa.searchByte cur) search

def searchRounds : Nat → List (List Nat) → List (List Nat) → Bool
  | 0, _, _ => false
  | depth + 1, seen, frontier =>
    if frontier = [] then false
    else
      let search := frontier.foldl nfa.searchSet ⟨false, seen, []⟩
      search.found || searchRounds depth search.seen search.next

/-- `language_non_empty`. -/
def languageNonEmpty : Bool :=
  nfa.accepts nfa.startSet || nfa.searchRounds maxDepth [nfa.startSet] [nfa.startSet]

/-- The states behind a text, or `none` as soon as no state is left. -/
def walk (states : List Nat) : List UInt8 → Option (List Nat)
  | [] => some states
  | c :: text => if nfa.step states c = [] then none else walk (nfa.step states c) text

end RegexNfa

/-! ## The constrainer -/

/-- `RegexConstrainer`, with the texts of the vocabulary and the marks by state set. -/
structure RegexConstrainer where
  nfa : RegexNfa
  tokenTexts : List (List UInt8)
  eosIds : List Int
  states : List Nat
  maskCache : Table (List Nat) (List Bool)

namespace RegexConstrainer

/-- `init`, on the pattern that `strip_redundant_anchors` leaves and `unsupported_construct` lets
pass: one that is malformed, or that nothing matches, is not enforced. -/
def init (pattern : List UInt8) (tokenTexts : List (List UInt8)) (eosIds : List Int) :
    Option RegexConstrainer :=
  match RegexNfa.compile pattern with
  | none => none
  | some nfa =>
    if nfa.languageNonEmpty then some ⟨nfa, tokenTexts, eosIds, nfa.startSet, ∅⟩ else none

variable (c : RegexConstrainer)

def reset : RegexConstrainer := { c with states := c.nfa.startSet }

def isDone : Bool := c.nfa.accepts c.states

def wouldAccept (text : List UInt8) : Bool := (c.nfa.walk c.states text).isSome

/-- `update_text`: a text that cannot be taken leaves the states alone. -/
def updateText (text : List UInt8) : RegexConstrainer :=
  match c.nfa.walk c.states text with
  | none => c
  | some states => { c with states }

def isEos (token : Nat) : Bool := c.eosIds.contains (token : Int)

/-- `update`. A token outside of the vocabulary and the end of the reply leave the states alone. -/
def update (token : Nat) : RegexConstrainer :=
  match c.tokenTexts[token]? with
  | none => c
  | some text => if c.isEos token then c else c.updateText text

/-- The mark that the walk over the vocabulary leaves. -/
def continues (token : Nat) : Bool :=
  match c.tokenTexts[token]? with
  | none => false
  | some text => !text.isEmpty && c.wouldAccept text

/-- Every end-of-sequence id that has a logit is marked. -/
def markEos : List Int → List Bool → List Bool
  | [], allow => allow
  | eid :: ids, allow =>
    markEos ids (if 0 ≤ eid ∧ eid < allow.length then allow.set eid.toNat true else allow)

/-- The marks of `allow_for_current_state` for a state set that is new to it. -/
def freshMarks (vocabSize : Nat) : List Bool :=
  let walked := (List.range vocabSize).map c.continues
  let allow := if c.isDone then markEos c.eosIds walked else walked
  let allowed := walked.count true +
    if c.isDone then (c.eosIds.filter fun eid : Int => decide (0 ≤ eid ∧ eid < vocabSize)).length
    else 0
  if allowed = 0 then markEos c.eosIds allow else allow

/-- `allow_for_current_state`. -/
def allowForCurrentState (vocabSize : Nat) : List Bool × RegexConstrainer :=
  match c.maskCache.lookup c.states with
  | some allow => (allow, c)
  | none =>
    (c.freshMarks vocabSize,
      { c with maskCache := c.maskCache.insert c.states (c.freshMarks vocabSize) })

/-- The token is marked. -/
def Allows (vocabSize token : Nat) : Prop :=
  (c.allowForCurrentState vocabSize).1.getD token false = true

/-- The text that a token adds to the reply. -/
def emitted (token : Nat) : List UInt8 :=
  if c.isEos token then [] else c.tokenTexts.getD token []

/-- What is reached from a constrainer through tokens that are marked, with the reply so far. The
marks outlive the reply. -/
inductive Reached (initial : RegexConstrainer) : RegexConstrainer → List UInt8 → Prop where
  | start : Reached initial initial []
  | mask {c reply} (vocabSize : Nat) :
      Reached initial c reply → Reached initial (c.allowForCurrentState vocabSize).2 reply
  | sample {c reply} (vocabSize token : Nat) :
      Reached initial c reply → c.Allows vocabSize token →
      Reached initial (c.update token) (reply ++ c.emitted token)
  | reset {c reply} : Reached initial c reply → Reached initial c.reset []

/-- No end-of-sequence token continues the pattern by its own text, short of a match. -/
def EosQuiet : Prop :=
  c.isDone = true ∨ ∀ token < c.tokenTexts.length, c.isEos token = true → c.continues token = false

end RegexConstrainer

/-! ## The search finds a match -/

namespace RegexNfa

variable {nfa : RegexNfa}

/-- The state set is behind some text. -/
def Behind (nfa : RegexNfa) (states : List Nat) : Prop := ∃ w, states = nfa.run w

/-- What the search holds is behind texts, and one of them is a match if it has found one. -/
def SearchSound (nfa : RegexNfa) (search : Search) : Prop :=
  (∀ states ∈ search.next, nfa.Behind states) ∧
    (search.found = true → ∃ w, nfa.accepts (nfa.run w) = true)

variable {states cur : List Nat} {search : Search} {frontier : List (List Nat)}

theorem Behind.step (h : nfa.Behind states) (b : UInt8) : nfa.Behind (nfa.step states b) := by
  obtain ⟨w, rfl⟩ := h
  refine ⟨w ++ [b], ?_⟩
  rw [run, run, foldl_append]
  rfl

theorem searchSound_byte (hcur : nfa.Behind cur) (h : nfa.SearchSound search) (b : UInt8) :
    nfa.SearchSound (nfa.searchByte cur search b) := by
  have hns := hcur.step b
  unfold searchByte
  dsimp only
  split_ifs with hfound hempty haccepts hnew
  · exact h
  · exact h
  · obtain ⟨w, hw⟩ := hns
    exact ⟨h.1, fun _ => ⟨w, hw ▸ haccepts⟩⟩
  · refine ⟨fun states hstates => ?_, h.2⟩
    rcases mem_append.mp hstates with hstates | hstates
    · exact h.1 states hstates
    · exact mem_singleton.mp hstates ▸ hns
  · exact h

theorem exists_match_of_searchRounds {depth : Nat} {seen : List (List Nat)}
    (hfrontier : ∀ cur ∈ frontier, nfa.Behind cur)
    (h : nfa.searchRounds depth seen frontier = true) : ∃ w, nfa.accepts (nfa.run w) = true := by
  induction depth generalizing seen frontier with
  | zero => cases h
  | succ depth ih =>
    rw [searchRounds] at h
    split_ifs at h
    have hsound : nfa.SearchSound (frontier.foldl nfa.searchSet ⟨false, seen, []⟩) :=
      frontier.foldlRecOn nfa.searchSet
        ⟨fun _ hmem => absurd hmem not_mem_nil, fun hfound => absurd hfound Bool.false_ne_true⟩
        fun _ hset cur hcur => List.foldlRecOn _ _ hset fun _ hbyte b _ =>
          searchSound_byte (hfrontier cur hcur) hbyte b
    rcases (Bool.or_eq_true _ _).mp h with hfound | hrounds
    · exact hsound.2 hfound
    · exact ih hsound.1 hrounds

/-- A pattern that `language_non_empty` lets through has a match. -/
theorem exists_match_of_languageNonEmpty (h : nfa.languageNonEmpty = true) :
    ∃ w, nfa.accepts (nfa.run w) = true := by
  rcases (Bool.or_eq_true _ _).mp h with hstart | hrounds
  · exact ⟨[], hstart⟩
  · refine exists_match_of_searchRounds (fun cur hcur => ?_) hrounds
    exact ⟨[], mem_singleton.mp hcur⟩

/-- The search finds the match of `a` behind one letter. -/
theorem exists_match_letter : ∃ nfa, compile (ascii "a") = some nfa ∧
    nfa.languageNonEmpty = true ∧ ∃ w, nfa.accepts (nfa.run w) = true := by
  have hsearch : (compile (ascii "a")).any languageNonEmpty = true := by decide +kernel
  obtain ⟨nfa, hnfa, hfound⟩ := (Option.any_eq_true _ _).mp hsearch
  exact ⟨nfa, hnfa, hfound, exists_match_of_languageNonEmpty hfound⟩

theorem eq_foldl_of_walk {states' : List Nat} {text : List UInt8}
    (h : nfa.walk states text = some states') : states' = text.foldl nfa.step states := by
  induction text generalizing states with
  | nil => exact (Option.some.inj h).symm
  | cons c text ih =>
    rw [walk] at h
    split_ifs at h
    exact ih h

end RegexNfa

/-! ## The marks -/

namespace RegexConstrainer

variable {initial c : RegexConstrainer} {reply : List UInt8} {vocabSize token : Nat}
  {ids eosIds : List Int} {allow : List Bool} {pattern : List UInt8} {texts : List (List UInt8)}

theorem length_markEos : (markEos ids allow).length = allow.length := by
  induction ids generalizing allow with
  | nil => rfl
  | cons eid ids ih =>
    rw [markEos, ih]
    split_ifs
    · exact length_set
    · rfl

theorem getD_markEos (htoken : token < allow.length) :
    (markEos ids allow).getD token false = true ↔
      allow.getD token false = true ∨ (token : Int) ∈ ids := by
  induction ids generalizing allow with
  | nil => simp [markEos]
  | cons eid ids ih =>
    rw [markEos]
    split_ifs with hrange
    · rw [ih (by rw [length_set]; exact htoken), mem_cons]
      by_cases heq : eid.toNat = token
      · have : (token : Int) = eid := by omega
        simp [this, heq, getD_eq_getElem?_getD, htoken]
      · have : (token : Int) ≠ eid := by omega
        simp [this, getD_eq_getElem?_getD, getElem?_set_ne heq]
    · have : (token : Int) ≠ eid := by omega
      rw [ih htoken, mem_cons]
      simp [this]

/-- A marked token has a logit. -/
theorem lt_of_getD (h : allow.getD token false = true) : token < allow.length := by
  by_contra hge
  rw [getD_eq_getElem?_getD, getElem?_eq_none (Nat.le_of_not_lt hge)] at h
  cases h

theorem getD_walked (c : RegexConstrainer) (htoken : token < vocabSize) :
    ((List.range vocabSize).map c.continues).getD token false = c.continues token := by
  rw [getD_eq_getElem?_getD, getElem?_map, getElem?_range htoken]
  rfl

theorem length_freshMarks : (c.freshMarks vocabSize).length = vocabSize := by
  unfold freshMarks
  dsimp only
  split_ifs <;> simp only [length_markEos, length_map, length_range]

theorem lt_width (h : (c.freshMarks vocabSize).getD token false = true) : token < vocabSize :=
  (lt_of_getD h).trans_eq length_freshMarks

/-- What is marked continues the pattern or is an end-of-sequence token, and the latter only at a
match, by its own text, or if no token continues the pattern. -/
theorem getD_freshMarks (htoken : token < vocabSize) :
    (c.freshMarks vocabSize).getD token false = true ↔
      c.continues token = true ∨ (c.isEos token = true ∧
        (c.isDone = true ∨ ∀ other < vocabSize, c.continues other = false)) := by
  have hwalked : token < ((List.range vocabSize).map c.continues).length := by
    rwa [length_map, length_range]
  have heos : c.isEos token = true ↔ (token : Int) ∈ c.eosIds := contains_iff_mem
  have hcount : ((List.range vocabSize).map c.continues).count true = 0 ↔
      ∀ other < vocabSize, c.continues other = false := by
    simp [count_eq_zero]
  unfold freshMarks
  dsimp only
  cases hdone : c.isDone with
  | true =>
    rw [if_pos rfl, if_pos rfl]
    split_ifs
    · rw [getD_markEos (by rwa [length_markEos]), getD_markEos hwalked, getD_walked c htoken, heos]
      tauto
    · rw [getD_markEos hwalked, getD_walked c htoken, heos]
      tauto
  | false =>
    rw [if_neg Bool.false_ne_true, if_neg Bool.false_ne_true, add_zero, ← hcount]
    split_ifs with hnone
    · rw [getD_markEos hwalked, getD_walked c htoken, heos]
      tauto
    · rw [getD_walked c htoken]
      tauto

theorem lt_of_continues (h : c.continues token = true) : token < c.tokenTexts.length := by
  unfold continues at h
  split at h
  · cases h
  · rename_i htext
    exact (List.getElem?_eq_some_iff.mp htext).1

/-! ## Reached constrainers -/

/-- The constrainer behind a reply, with what is remembered. -/
def behind (initial : RegexConstrainer) (reply : List UInt8)
    (cache : Table (List Nat) (List Bool)) : RegexConstrainer :=
  { initial with states := initial.nfa.run reply, maskCache := cache }

/-- What is remembered was computed for the state set it is filed under. -/
def Computed (initial : RegexConstrainer) (cache : Table (List Nat) (List Bool)) : Prop :=
  ∀ states allow, cache.lookup states = some allow →
    ∃ vocabSize, allow = { initial with states }.freshMarks vocabSize

variable {cache : Table (List Nat) (List Bool)}

theorem marks_behind (hcache : Computed initial cache) (vocabSize : Nat) :
    ∃ width, ((behind initial reply cache).allowForCurrentState vocabSize).1 =
      (behind initial reply cache).freshMarks width := by
  unfold allowForCurrentState
  split
  · rename_i allow hlookup
    exact hcache _ _ hlookup
  · exact ⟨vocabSize, rfl⟩

theorem mask_behind (hcache : Computed initial cache) (vocabSize : Nat) :
    ∃ cache', ((behind initial reply cache).allowForCurrentState vocabSize).2 =
      behind initial reply cache' ∧ Computed initial cache' := by
  unfold allowForCurrentState
  split
  · exact ⟨cache, rfl, hcache⟩
  · refine ⟨_, rfl, fun states allow hlookup => ?_⟩
    rw [Table.lookup_insert_ite] at hlookup
    split_ifs at hlookup with heq
    · subst heq
      exact ⟨vocabSize, (Option.some.inj hlookup).symm⟩
    · exact hcache states allow hlookup

/-- A marked token that does not end the reply continues the pattern. -/
theorem continues_of_allows (hcache : Computed initial cache)
    (hallows : (behind initial reply cache).Allows vocabSize token)
    (heos : (behind initial reply cache).isEos token = false) :
    (behind initial reply cache).continues token = true := by
  obtain ⟨width, hmarks⟩ := marks_behind hcache vocabSize
  rw [Allows, hmarks] at hallows
  rcases (getD_freshMarks (lt_width hallows)).mp hallows with hcontinues | ⟨hend, _⟩
  · exact hcontinues
  · rw [heos] at hend
    cases hend

theorem update_of_eos (heos : c.isEos token = true) : c.update token = c := by
  unfold update
  split
  · rfl
  · rw [if_pos heos]

/-- A token that continues the pattern moves the states over its text. -/
theorem update_of_continues (heos : c.isEos token = false) (h : c.continues token = true) :
    c.update token = { c with states := (c.emitted token).foldl c.nfa.step c.states } := by
  unfold continues at h
  unfold update emitted
  rw [heos, getD_eq_getElem?_getD]
  split at h
  · cases h
  · rename_i text htext
    obtain ⟨states, hwalk⟩ := Option.isSome_iff_exists.mp (Bool.and_eq_true_iff.mp h).2
    rw [htext]
    change c.updateText text = { c with states := text.foldl c.nfa.step c.states }
    rw [updateText, hwalk, RegexNfa.eq_foldl_of_walk hwalk]

theorem sample_behind (hcache : Computed initial cache)
    (hallows : (behind initial reply cache).Allows vocabSize token) :
    (behind initial reply cache).update token =
      behind initial (reply ++ (behind initial reply cache).emitted token) cache := by
  cases heos : (behind initial reply cache).isEos token with
  | true => rw [update_of_eos heos, emitted, if_pos heos, append_nil]
  | false =>
    rw [update_of_continues heos (continues_of_allows hcache hallows heos)]
    unfold behind RegexNfa.run
    rw [foldl_append]

/-- The states of a reached constrainer are those behind the reply. -/
theorem Reached.behind (hstart : initial = behind initial [] initial.maskCache)
    (hcache : Computed initial initial.maskCache) (h : Reached initial c reply) :
    ∃ cache, c = initial.behind reply cache ∧ Computed initial cache := by
  induction h with
  | start => exact ⟨_, hstart, hcache⟩
  | mask vocabSize _ ih =>
    obtain ⟨cache, rfl, hcomputed⟩ := ih
    exact mask_behind hcomputed vocabSize
  | sample vocabSize token _ hallows ih =>
    obtain ⟨cache, rfl, hcomputed⟩ := ih
    exact ⟨cache, sample_behind hcomputed hallows, hcomputed⟩
  | reset _ ih =>
    obtain ⟨cache, rfl, hcomputed⟩ := ih
    exact ⟨cache, rfl, hcomputed⟩

theorem init_behind (h : init pattern texts eosIds = some initial) :
    RegexNfa.compile pattern = some initial.nfa ∧
      initial = behind initial [] initial.maskCache ∧ Computed initial initial.maskCache := by
  unfold init at h
  split at h
  · cases h
  · rename_i nfa hcompile
    split_ifs at h
    cases h
    refine ⟨hcompile, rfl, fun states allow hlookup => ?_⟩
    cases hlookup

/-- As long as no end-of-sequence token continues the pattern by its own text, one is marked only
at a match or if no other token is. So a reply that ends while it could go on is a match. -/
theorem eos_marked_at_match {pattern : List UInt8} {texts : List (List UInt8)} {eosIds : List Int}
    (hinit : init pattern texts eosIds = some initial) (hreached : Reached initial c reply)
    (hquiet : c.EosQuiet) (vocabSize : Nat) {eos : Nat} (heos : c.isEos eos = true)
    (hallows : c.Allows vocabSize eos) :
    (c.isDone = true ∨ ∀ token, c.isEos token = false → ¬ c.Allows vocabSize token) ∧
      ((∃ token, c.isEos token = false ∧ c.Allows vocabSize token) →
        initial.nfa.accepts (initial.nfa.run reply) = true ∧
          ∀ t : Pattern, t.Plain → t.text = pattern → reply ∈ t.language) := by
  obtain ⟨hcompile, hstart, hempty⟩ := init_behind hinit
  obtain ⟨cache, rfl, hcache⟩ := hreached.behind hstart hempty
  have hends : (behind initial reply cache).isDone = true ∨
      ∀ token, (behind initial reply cache).isEos token = false →
        ¬ (behind initial reply cache).Allows vocabSize token := by
    obtain ⟨width, hmarks⟩ := marks_behind hcache vocabSize
    rw [Allows, hmarks] at hallows
    rcases (getD_freshMarks (lt_width hallows)).mp hallows with hcontinues | ⟨_, hdone | hnone⟩
    · refine hquiet.imp_right fun hsilent => ?_
      rw [hsilent eos (lt_of_continues hcontinues) heos] at hcontinues
      cases hcontinues
    · exact .inl hdone
    · refine .inr fun token htoken hother => ?_
      have hcontinues := continues_of_allows hcache hother htoken
      rw [Allows, hmarks] at hother
      rw [hnone token (lt_width hother)] at hcontinues
      cases hcontinues
  refine ⟨hends, fun ⟨token, htoken, hother⟩ => ?_⟩
  have hdone : initial.nfa.accepts (initial.nfa.run reply) = true :=
    hends.resolve_right fun hnone => hnone token htoken hother
  refine ⟨hdone, fun t hplain htext => ?_⟩
  obtain ⟨nfa, hnfa, hlanguage⟩ := RegexNfa.compile_language t hplain
  rw [htext, hcompile] at hnfa
  obtain rfl := Option.some.inj hnfa
  exact (hlanguage reply).mp hdone

/-- A vocabulary with the letter `a` and an end-of-sequence token that has a text. -/
def chatTexts : List (List UInt8) := [ascii "a", ascii "<|im_end|>"]

/-- With `a+`, one letter is a match, and both tokens are marked behind it. -/
theorem eos_marked_at_match_plus :
    ∃ initial c, init (ascii "a+") chatTexts [1] = some initial ∧ Reached initial c (ascii "a") ∧
      c.EosQuiet ∧ c.isEos 1 = true ∧ c.Allows 2 1 ∧ c.isEos 0 = false ∧ c.Allows 2 0 ∧
      initial.nfa.accepts (initial.nfa.run (ascii "a")) = true := by
  have hsome : (init (ascii "a+") chatTexts [1]).isSome = true := by decide +kernel
  obtain ⟨initial, hinit⟩ := Option.isSome_iff_exists.mp hsome
  have hfacts : (init (ascii "a+") chatTexts [1]).all (fun initial =>
      (initial.allowForCurrentState 2).1.getD 0 false && initial.emitted 0 == ascii "a" &&
        (initial.update 0).isDone && (initial.update 0).isEos 1 && !(initial.update 0).isEos 0 &&
        ((initial.update 0).allowForCurrentState 2).1.getD 1 false &&
        ((initial.update 0).allowForCurrentState 2).1.getD 0 false) = true := by decide +kernel
  rw [hinit, Option.all_some] at hfacts
  simp only [Bool.and_eq_true, Bool.not_eq_true', beq_iff_eq] at hfacts
  obtain ⟨⟨⟨⟨⟨⟨hfirst, hemitted⟩, hdone⟩, heos⟩, hletter⟩, hmarked⟩, hother⟩ := hfacts
  have hreached : Reached initial (initial.update 0) (ascii "a") := by
    rw [← nil_append (ascii "a"), ← hemitted]
    exact .sample 2 0 .start hfirst
  refine ⟨initial, initial.update 0, hinit, hreached, .inl hdone, heos, hmarked, hletter, hother,
    ?_⟩
  exact ((eos_marked_at_match hinit hreached (.inl hdone) 2 heos hmarked).2 ⟨0, hletter, hother⟩).1

/-- With `.*x` the text of the end-of-sequence token continues the pattern: the empty reply may end,
though it is no match and the letter `a` would continue it. -/
theorem eos_text_marked :
    ∃ initial, init (ascii ".*x") chatTexts [1] = some initial ∧ Reached initial initial [] ∧
      initial.isEos 1 = true ∧ initial.Allows 2 1 ∧ initial.isDone = false ∧
      initial.isEos 0 = false ∧ initial.Allows 2 0 := by
  have hsome : (init (ascii ".*x") chatTexts [1]).isSome = true := by decide +kernel
  obtain ⟨initial, hinit⟩ := Option.isSome_iff_exists.mp hsome
  have hfacts : (init (ascii ".*x") chatTexts [1]).all (fun initial =>
      initial.isEos 1 && (initial.allowForCurrentState 2).1.getD 1 false && !initial.isDone &&
        !initial.isEos 0 && (initial.allowForCurrentState 2).1.getD 0 false) = true := by
    decide +kernel
  rw [hinit, Option.all_some] at hfacts
  simp only [Bool.and_eq_true, Bool.not_eq_true'] at hfacts
  obtain ⟨⟨⟨⟨heos, hmarked⟩, hdone⟩, hletter⟩, hother⟩ := hfacts
  exact ⟨initial, hinit, .start, heos, hmarked, hdone, hletter, hother⟩

end RegexConstrainer

end Quench
