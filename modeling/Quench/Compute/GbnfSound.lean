import Quench.Compute.GbnfLive
import Quench.Compute.GbnfUtf8
import Quench.Lib.Runs

/-!
# What the grammar matcher accepts is in the language

A matcher that has read a text holds the stacks the pushdown machine can be in after the codepoints
of that text (`Tracks`). Every call keeps this, whatever it answers and whatever the two guard rails
drop. So when it is done, the text encodes a string that the rule table derives from `root`:
`runs_sound`.
-/

namespace Quench.Gbnf

open Lib GbnfMatcher List

variable {rules : List GbnfRule} {root : Nat}
variable {u : List Nat} {a : GbnfArena} {live : GbnfStackSet} (text : List UInt8)

/-! ## Reading codepoints -/

/-- No string on the way has more live stacks than the simulator keeps. -/
def Narrow (rules : List GbnfRule) (root : Nat) (u : List Nat) : Prop :=
  ∀ v, v <+: u → (liveStacks rules root v).encard ≤ kMaxStacks

theorem Narrow.of_initial {v : List Nat} (h : Narrow rules root u) (hgrown : v <+: u) :
    Narrow rules root v := fun w hw => h w (hw.trans hgrown)

/-- A stack set after a string. -/
structure Reads (rules : List GbnfRule) (root : Nat) (a : GbnfArena) (live : GbnfStackSet)
    (u : List Nat) : Prop where
  ok : GrammarOk rules a
  holds : Holds a.nodes (liveStacks rules root u) (Narrow rules root u) live

theorem Reads.mono {a' : GbnfArena} (h : Reads rules root a live u) (hok : GrammarOk rules a')
    (hgrown : a.nodes <+: a'.nodes) : Reads rules root a' live u := ⟨hok, h.holds.mono hgrown⟩

theorem Reads.runCp (h : Reads rules root a live u) (cp : Nat) :
    let after := GbnfMatcher.runCp rules a live cp
    GrammarOk rules after.1 ∧ a.nodes <+: after.1.nodes ∧
      (∀ live', after.2 = some live' → Reads rules root after.1 live' (u ++ [cp]) ∧
        (liveStacks rules root (u ++ [cp])).Nonempty) ∧
      (Narrow rules root (u ++ [cp]) → (liveStacks rules root (u ++ [cp])).Nonempty →
        ∃ live', after.2 = some live') := by
  obtain ⟨hok, hgrown, hholds⟩ := stepInto_spec h.ok h.holds cp
  rw [← liveStacks_concat] at hholds
  unfold GbnfMatcher.runCp
  generalize a.stepInto rules live cp = after at hok hgrown hholds ⊢
  have hexact : Narrow rules root (u ++ [cp]) →
      Narrow rules root u ∧ (liveStacks rules root (u ++ [cp])).encard ≤ kMaxStacks :=
    fun hnarrow => ⟨hnarrow.of_initial (prefix_append _ _), hnarrow _ prefix_rfl⟩
  refine ⟨hok, hgrown, fun live' hlive => ?_, fun hnarrow ⟨stack, hstack⟩ => ?_⟩
  · dsimp only at hlive
    split at hlive
    · cases hlive
    next hnonempty =>
      obtain rfl := Option.some.inj hlive
      refine ⟨⟨hok, hholds.sound, hholds.sorted,
        fun hnarrow => hholds.complete (hexact hnarrow)⟩, ?_⟩
      obtain ⟨s, hs⟩ := exists_mem_of_ne_nil _ (mt List.isEmpty_iff.mpr hnonempty)
      obtain ⟨stack, hstack, -⟩ := hholds.sound s hs
      exact ⟨stack, hstack⟩
  · obtain ⟨s, hs, -⟩ := hholds.complete (hexact hnarrow) stack hstack
    refine ⟨after.2, if_neg fun hempty => ?_⟩
    rw [List.isEmpty_iff.mp hempty] at hs
    exact absurd hs not_mem_nil

/-- Each of the codepoints leaves live stacks. -/
def Readable (rules : List GbnfRule) (root : Nat) (u cps : List Nat) : Prop :=
  ∀ v, v <+: cps → v ≠ [] → (liveStacks rules root (u ++ v)).Nonempty

variable {later : List Nat} {cp : Nat} {src : List UInt8} {state : GbnfMatcher × List UInt8}

theorem readable_cons (hfirst : (liveStacks rules root (u ++ [cp])).Nonempty)
    (hlater : Readable rules root (u ++ [cp]) later) : Readable rules root u (cp :: later) := by
  intro v hv hne
  rcases prefix_cons_iff.mp hv with rfl | ⟨t, rfl, ht⟩
  · exact absurd rfl hne
  · cases t with
    | nil => exact hfirst
    | cons c t =>
      have hrest := hlater (c :: t) ht (cons_ne_nil c t)
      rwa [append_assoc] at hrest

theorem Readable.of_cons (h : Readable rules root u (cp :: later)) :
    (liveStacks rules root (u ++ [cp])).Nonempty ∧ Readable rules root (u ++ [cp]) later := by
  refine ⟨h [cp] ⟨later, rfl⟩ (cons_ne_nil _ _), fun v hv hne => ?_⟩
  rw [append_assoc]
  exact h (cp :: v) (prefix_cons_inj cp |>.mpr hv) (cons_ne_nil _ _)

/-- The loop of `run`: where it goes on, its stack set is the one after the codepoints read, and it
does go on where these leave live stacks and none are dropped. -/
theorem Reads.runLoop (h : Reads rules root a live u) (text : List UInt8) (half : GbnfPartial) :
    let after := GbnfMatcher.runLoop rules text a live half
    GrammarOk rules after.1 ∧ a.nodes <+: after.1.nodes ∧
      (∀ live' half', after.2 = some (live', half') →
        ∃ cps, decodeLoop text half = some (cps, half') ∧
          Reads rules root after.1 live' (u ++ cps) ∧ Readable rules root u cps) ∧
      (∀ cps half', decodeLoop text half = some (cps, half') → Narrow rules root (u ++ cps) →
        Readable rules root u cps → ∃ live', after.2 = some (live', half')) := by
  induction text generalizing a live half u with
  | nil =>
    refine ⟨h.ok, prefix_rfl, fun live' half' hresult => ?_, fun cps half' hdecode _ _ => ?_⟩
    · obtain ⟨rfl, rfl⟩ := Prod.mk.inj (Option.some.inj hresult)
      rw [← append_nil u] at h
      exact ⟨[], rfl, h, fun v hv hne => absurd (prefix_nil.mp hv) hne⟩
    · obtain ⟨rfl, rfl⟩ := Prod.mk.inj (Option.some.inj hdecode)
      exact ⟨live, rfl⟩
  | cons b text ih =>
    cases hbyte : decodeByte half b with
    | none =>
      rw [runLoop_bad hbyte]
      refine ⟨h.ok, prefix_rfl, fun _ _ hresult => (by cases hresult),
        fun cps half' hdecode => ?_⟩
      rw [decodeLoop, hbyte] at hdecode
      cases hdecode
    | some decoded =>
      obtain ⟨cp, half1⟩ := decoded
      -- what the rest of the text decodes to, behind this byte
      have hcons : ∀ cps half', decodeLoop (b :: text) half = some (cps, half') ↔
          ∃ later, decodeLoop text half1 = some (later, half') ∧ cps = cp.toList ++ later := by
        intro cps half'
        rw [decodeLoop_cons hbyte, Option.map_eq_some_iff]
        constructor
        · rintro ⟨⟨later, _⟩, hlater, heq⟩
          obtain ⟨rfl, rfl⟩ := Prod.mk.inj heq
          exact ⟨later, hlater, rfl⟩
        · rintro ⟨later, hlater, rfl⟩
          exact ⟨_, hlater, rfl⟩
      cases cp with
      | none =>
        rw [runLoop_half hbyte]
        obtain ⟨hok, hgrown, hsound, hcomplete⟩ := ih h half1
        refine ⟨hok, hgrown, fun live' half' hresult => ?_,
          fun cps half' hdecode hnarrow hreadable => ?_⟩
        · obtain ⟨later, hlater, hreads⟩ := hsound live' half' hresult
          exact ⟨later, (hcons _ _).mpr ⟨later, hlater, rfl⟩, hreads⟩
        · obtain ⟨later, hlater, rfl⟩ := (hcons _ _).mp hdecode
          exact hcomplete _ half' hlater hnarrow hreadable
      | some cp =>
        rw [runLoop_cp hbyte]
        obtain ⟨hok, hgrown, hsound, hcomplete⟩ := h.runCp cp
        generalize GbnfMatcher.runCp rules a live cp = result at hok hgrown hsound hcomplete ⊢
        obtain ⟨a1, _ | live1⟩ := result
        · refine ⟨hok, hgrown, fun _ _ hresult => (by cases hresult),
            fun cps half' hdecode hnarrow hreadable => ?_⟩
          obtain ⟨later, hlater, rfl⟩ := (hcons _ _).mp hdecode
          obtain ⟨live', hlive'⟩ := hcomplete
            (hnarrow.of_initial ⟨later, by simp⟩) hreadable.of_cons.1
          cases hlive'
        · obtain ⟨hreads, hfirst⟩ := hsound live1 rfl
          obtain ⟨hok2, hgrown2, hsound2, hcomplete2⟩ := ih hreads half1
          refine ⟨hok2, hgrown.trans hgrown2, fun live' half' hresult => ?_,
            fun cps half' hdecode hnarrow hreadable => ?_⟩
          · obtain ⟨later, hlater, hreads2, hrest⟩ := hsound2 live' half' hresult
            rw [append_assoc] at hreads2
            exact ⟨_, (hcons _ _).mpr ⟨later, hlater, rfl⟩, hreads2, readable_cons hfirst hrest⟩
          · obtain ⟨later, hlater, rfl⟩ := (hcons _ _).mp hdecode
            exact hcomplete2 later half' hlater (by rwa [append_assoc]) hreadable.of_cons.2

/-! ## The calls of a matcher -/

section Update

variable {m : GbnfMatcher} {text : List UInt8} {half : GbnfPartial}

theorem updateText_refused
    (h : runLoop m.grammar.rules text m.grammar.arena m.live m.half = (a, none)) :
    m.updateText text = (false, m.withArena a) := by
  rw [updateText, run, h]

variable (h : runLoop m.grammar.rules text m.grammar.arena m.live m.half = (a, some (live, half)))
include h

theorem updateText_stuck (hcheck : ¬ canComplete m.grammar.rules a live half = true) :
    m.updateText text = (false, m.withArena a) := by
  rw [updateText, run, h]
  dsimp only
  rw [if_neg hcheck]

theorem updateText_accepted (hcheck : canComplete m.grammar.rules a live half = true) :
    m.updateText text = (true, { m.withArena a with live, half }) := by
  rw [updateText, run, h]
  dsimp only
  rw [if_pos hcheck]

end Update

/-- The codepoints a matcher has read, and the bytes of the next one it has seen. -/
structure Tracks (m : GbnfMatcher) (u : List Nat) (bytes : List UInt8) : Prop where
  reads : Reads m.grammar.rules m.grammar.root m.grammar.arena m.live u
  reading : Reading m.half bytes
  scalar : ∀ cp ∈ u, cp ≤ 0x10FFFF

namespace Tracks

variable {m : GbnfMatcher} {bytes : List UInt8} (h : Tracks m u bytes)
include h

theorem withArena (hok : GrammarOk m.grammar.rules a) (hgrown : m.grammar.arena.nodes <+: a.nodes) :
    Tracks (m.withArena a) u bytes :=
  ⟨h.reads.mono hok hgrown, h.reading, h.scalar⟩

/-- What `run` leaves: an arena that still knows the stacks, and the codepoints it has read. -/
theorem run :
    GrammarOk m.grammar.rules (m.run text).1 ∧ m.grammar.arena.nodes <+: (m.run text).1.nodes ∧
      ∀ live half, (m.run text).2 = some (live, half) →
        ∃ cps, decodeLoop text m.half = some (cps, half) ∧
          Reads m.grammar.rules m.grammar.root (m.run text).1 live (u ++ cps) := by
  obtain ⟨hok, hgrown, hsound, -⟩ := h.reads.runLoop text m.half
  unfold GbnfMatcher.run
  generalize GbnfMatcher.runLoop m.grammar.rules text m.grammar.arena m.live m.half = result
    at hok hgrown hsound ⊢
  obtain ⟨a, _ | ⟨live1, half1⟩⟩ := result
  · exact ⟨hok, hgrown, fun _ _ hresult => by cases hresult⟩
  · refine ⟨hok, hgrown, fun live half hresult => ?_⟩
    dsimp only at hresult
    split at hresult
    · obtain ⟨cps, hdecode, hreads, -⟩ := hsound live half hresult
      exact ⟨cps, hdecode, hreads⟩
    · cases hresult

theorem wouldAccept : Tracks (m.wouldAccept text).2 u bytes := by
  obtain ⟨hok, hgrown, -⟩ := h.run text
  exact h.withArena hok hgrown

theorem updateText : ((m.updateText text).1 = false →
      Tracks (m.updateText text).2 u bytes ∧ (m.updateText text).2.half = m.half) ∧
      ((m.updateText text).1 = true → ∃ cps bytes',
        decodeLoop text m.half = some (cps, (m.updateText text).2.half) ∧
        Tracks (m.updateText text).2 (u ++ cps) bytes' ∧
        utf8 (u ++ cps) ++ bytes' = utf8 u ++ bytes ++ text) := by
  obtain ⟨hok, hgrown, hsound⟩ := h.run text
  unfold GbnfMatcher.updateText
  generalize m.run text = result at hok hgrown hsound ⊢
  obtain ⟨a, _ | ⟨live, half⟩⟩ := result
  · exact ⟨fun _ => ⟨h.withArena hok hgrown, rfl⟩, fun htrue => by cases htrue⟩
  · refine ⟨fun hfalse => (by cases hfalse), fun _ => ?_⟩
    obtain ⟨cps, hdecode, hreads⟩ := hsound live half rfl
    obtain ⟨bytes', hreading, hsame, hscalar⟩ := h.reading.text hdecode
    refine ⟨cps, bytes', hdecode, ⟨hreads, hreading, fun cp hcp => ?_⟩, ?_⟩
    · exact (mem_append.mp hcp).elim (h.scalar cp) (hscalar cp)
    · rw [utf8, flatMap_append, append_assoc]
      change utf8 u ++ (utf8 cps ++ bytes') = _
      rw [hsame, append_assoc]

omit h in
theorem startSet (h : GrammarOk rules a) :
    Tracks { grammar := { rules, root, arena := (a.startSet rules root).1 }
             live := (a.startSet rules root).2 } [] [] := by
  obtain ⟨hok, -, hholds⟩ := startSet_spec h root
  exact ⟨⟨hok, hholds.sound, hholds.sorted, fun _ => hholds.complete trivial⟩, .between rfl,
    fun cp hcp => absurd hcp not_mem_nil⟩

theorem reset : Tracks m.reset [] [] := startSet h.reads.ok

/-- A matcher that is done has read a string of the language. -/
theorem derives (hdone : m.isDone = true) :
    bytes = [] ∧ (gbnf m.grammar.rules).Derives kMaxStackDepth [.rule m.grammar.root] u := by
  obtain ⟨hremaining, haccepts⟩ := (Bool.and_eq_true _ _).mp hdone
  refine ⟨h.reading.nil_of_zero (beq_iff_eq.mp hremaining), ?_⟩
  rw [← Grammar.live_nil_iff kMaxStackDepth_pos]
  exact h.reads.holds.neg_one_mem (h.reads.holds.accepts_iff.mp haccepts)

end Tracks

/-- A grammar that compiles is the table of the parser, with nothing read yet. -/
theorem compile_tracks {m : GbnfMatcher} (h : compile src = .ok m) :
    parseGbnf src = .ok (m.grammar.rules, m.grammar.root) ∧ Tracks m [] [] := by
  unfold compile GbnfGrammar.compile at h
  cases hparse : parseGbnf src with
  | error message =>
    rw [hparse] at h
    cases h
  | ok table =>
    obtain ⟨rules, root⟩ := table
    rw [hparse] at h
    cases hrec : checkLeftRecursion rules (computeNullable rules) with
    | some r =>
      dsimp only [bind, Except.bind] at h
      rw [hrec] at h
      cases h
    | none =>
      dsimp only [bind, Except.bind] at h
      rw [hrec] at h
      dsimp only [pure, Except.pure] at h
      split at h
      · cases h
      · cases h
        exact ⟨rfl, .startSet (grammarOk_empty rules)⟩

/-- A test of the matcher that a source compiles to. -/
def compiledTo (src : List UInt8) (test : GbnfMatcher → Bool) : Bool :=
  match compile src with
  | .ok m => test m
  | .error _ => false

theorem exists_of_compiledTo {test : GbnfMatcher → Bool} (h : compiledTo src test = true) :
    ∃ m, compile src = .ok m ∧ test m = true := by
  unfold compiledTo at h
  split at h
  next m hcompile => exact ⟨m, hcompile, h⟩
  · cases h

/-- The source of a grammar for lower-case words. -/
def wordSource : List UInt8 := ascii "root ::= [a-z]*"

/-! ## Runs -/

/-- A call of the matcher's interface. -/
inductive GbnfCall where
  | update (text : List UInt8)
  | would (text : List UInt8)
  | done
  | lead (b : UInt8)
  | reset

/-- What a call answers, and the matcher it leaves. -/
def ask (m : GbnfMatcher) : GbnfCall → Bool × GbnfMatcher
  | .update text => m.updateText text
  | .would text => m.wouldAccept text
  | .done => (m.isDone, m)
  | .lead b => (m.leadBytes b, m)
  | .reset => (true, m.reset)

/-- The bytes accepted since the last reset, after one more call. -/
def consumed (read : List UInt8) (answer : Bool) : GbnfCall → List UInt8
  | .update text => if answer then read ++ text else read
  | .reset => []
  | _ => read

/-- A call, with the bytes accepted since the last reset. -/
def call (state : GbnfMatcher × List UInt8) (c : GbnfCall) : GbnfMatcher × List UInt8 :=
  ((ask state.1 c).2, consumed state.2 (ask state.1 c).1 c)

theorem updateText_table (m : GbnfMatcher) (text : List UInt8) :
    (m.updateText text).2.grammar.rules = m.grammar.rules ∧
      (m.updateText text).2.grammar.root = m.grammar.root := by
  unfold GbnfMatcher.updateText
  split <;> exact ⟨rfl, rfl⟩

/-- The bytes accepted are those of the codepoints read, for one table of rules. -/
def Follows (rules : List GbnfRule) (root : Nat) (state : GbnfMatcher × List UInt8) : Prop :=
  state.1.grammar.rules = rules ∧ state.1.grammar.root = root ∧
    ∃ u bytes, Tracks state.1 u bytes ∧ utf8 u ++ bytes = state.2

theorem Follows.call (h : Follows rules root state) (c : GbnfCall) :
    Follows rules root (Gbnf.call state c) := by
  obtain ⟨rfl, rfl, u, bytes, htracks, hsame⟩ := h
  cases c with
  | update text =>
    obtain ⟨hfalse, htrue⟩ := htracks.updateText text
    refine ⟨(updateText_table _ text).1, (updateText_table _ text).2, ?_⟩
    change ∃ u' bytes', Tracks (state.1.updateText text).2 u' bytes' ∧
      utf8 u' ++ bytes' = if (state.1.updateText text).1 then state.2 ++ text else state.2
    cases haccepted : (state.1.updateText text).1 with
    | false => exact ⟨u, bytes, (hfalse haccepted).1, hsame⟩
    | true =>
      obtain ⟨cps, bytes', -, htracks', hsame'⟩ := htrue haccepted
      exact ⟨u ++ cps, bytes', htracks', by rw [hsame', hsame]; rfl⟩
  | would text => exact ⟨rfl, rfl, u, bytes, htracks.wouldAccept text, hsame⟩
  | done => exact ⟨rfl, rfl, u, bytes, htracks, hsame⟩
  | lead b => exact ⟨rfl, rfl, u, bytes, htracks, hsame⟩
  | reset => exact ⟨rfl, rfl, [], [], htracks.reset, rfl⟩

theorem Follows.run (h : Follows rules root state) (calls : List GbnfCall) :
    Follows rules root (runFrom Gbnf.call state calls) := by
  induction calls generalizing state with
  | nil => exact h
  | cons c calls ih => exact ih (h.call c)

/-- What holds of a matcher after any calls. -/
theorem compile_follows {m : GbnfMatcher} (hcompile : compile src = .ok m) (calls : List GbnfCall) :
    Follows m.grammar.rules m.grammar.root (runFrom call (m, []) calls) := by
  have hstart : Follows m.grammar.rules m.grammar.root (m, []) :=
    ⟨rfl, rfl, [], [], (compile_tracks hcompile).2, rfl⟩
  exact hstart.run calls

/-- **Soundness of the grammar matcher.** Whatever was called since the grammar was compiled, a
matcher that is done has accepted bytes that encode a string of the rule table's language. -/
theorem runs_sound {m : GbnfMatcher} (hcompile : compile src = .ok m) (calls : List GbnfCall)
    (hdone : (runFrom call (m, []) calls).1.isDone = true) :
    ∃ rules root, parseGbnf src = .ok (rules, root) ∧
      ∃ w, utf8 w = (runFrom call (m, []) calls).2 ∧ (∀ cp ∈ w, cp ≤ 0x10FFFF) ∧
        ∃ n, (gbnf rules).Derives n [.rule root] w := by
  obtain ⟨hrules, hroot, u, bytes, htracks, hsame⟩ := compile_follows hcompile calls
  obtain ⟨rfl, hder⟩ := htracks.derives hdone
  rw [hrules, hroot] at hder
  rw [append_nil] at hsame
  exact ⟨_, _, (compile_tracks hcompile).1, u, hsame, htracks.scalar, _, hder⟩

/-- Calls that read a word, with a refused text and a trial in between. -/
def wordCalls : List GbnfCall :=
  [.would (ascii "x1"), .update (ascii "ab"), .update (ascii "1"), .update (ascii "c")]

theorem runs_sound_word : ∃ m, compile wordSource = .ok m ∧
    (runFrom call (m, []) wordCalls).1.isDone = true ∧
    ∃ rules root, parseGbnf wordSource = .ok (rules, root) ∧
      ∃ w, utf8 w = (runFrom call (m, []) wordCalls).2 ∧ (∀ cp ∈ w, cp ≤ 0x10FFFF) ∧
        ∃ n, (gbnf rules).Derives n [.rule root] w := by
  have hword : compiledTo wordSource
      (fun m => (runFrom call (m, []) wordCalls).1.isDone) = true := by decide +kernel
  obtain ⟨m, hcompile, hdone⟩ := exists_of_compiledTo hword
  exact ⟨m, hcompile, hdone, runs_sound hcompile wordCalls hdone⟩

end Quench.Gbnf
