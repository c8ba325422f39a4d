import Mathlib.Data.Nat.Digits.Lemmas
import Quench.Compute.GbnfUtf8
import Quench.Compute.RegexBuild

/-!
# Patterns are read as they are written

The parser reads the text of a syntax tree back and builds a fragment with the language of the tree:
`Pattern.reads`, with one theorem for each kind of tree. Ranges have to be written without
backslashes, since `parse_class` takes the byte behind a dash as it stands, and the bounds of
repetitions counted without overflow.
-/

namespace Quench.RegexNfa

open Lib Regex Computability List Option ClassItem

variable {states states' : List NfaState} {f : Frag} {l l' : Language UInt8}
  {rest text : List UInt8} {parser : Parser}
variable {q : Quantifier} {n fuel loopFuel : Nat} {source : List UInt8} {b : Branch}
  {cls : CharClass} {any : Bool} {atom : Atom}

/-- A parser reads a text up to what follows it. -/
def Reads (parser : Parser) (text rest : List UInt8) (l : Language UInt8) : Prop :=
  ∀ states, ∃ states' f, parser states (text ++ rest) = some (states', f, rest) ∧
    Built states states' f l

/-! ## Languages of repetitions -/

theorem mem_sum_range {g : Nat → Language UInt8} {count : Nat} {w : List UInt8} :
    w ∈ ∑ i ∈ Finset.range count, g i ↔ ∃ i < count, w ∈ g i := by
  induction count with
  | zero => simp
  | succ count ih =>
    rw [Finset.sum_range_succ, Language.mem_add, ih]
    exact Nat.exists_lt_succ_right.symm

theorem language_open (hmost : q.most = none) : q.language l = l ^ q.least * l∗ := by
  ext w
  rw [Language.kstar_eq_iSup_pow, Language.mul_iSup, Language.mem_iSup]
  constructor
  · rintro ⟨k, ⟨hle, _⟩, hw⟩
    refine ⟨k - q.least, ?_⟩
    rwa [← pow_add, Nat.add_sub_cancel' hle]
  · rintro ⟨i, hw⟩
    rw [← pow_add] at hw
    exact ⟨q.least + i, ⟨Nat.le_add_right _ _, by simp [hmost]⟩, hw⟩

variable {m s a : Nat} {c : UInt8} {first : ClassItem} {more : List ClassItem}

theorem language_closed (hmost : q.most = some m) (hle : q.least ≤ m) :
    q.language l = l ^ q.least * ∑ i ∈ Finset.range (m - q.least + 1), l ^ i := by
  ext w
  rw [Finset.mul_sum, mem_sum_range]
  constructor
  · rintro ⟨k, ⟨hk, hk'⟩, hw⟩
    have := hk' m (by rw [hmost]; rfl)
    refine ⟨k - q.least, by omega, ?_⟩
    rwa [← pow_add, Nat.add_sub_cancel' hk]
  · rintro ⟨i, hi, hw⟩
    rw [← pow_add] at hw
    refine ⟨q.least + i, ⟨Nat.le_add_right _ _, ?_⟩, hw⟩
    intro m' hm'
    rw [hmost, mem_some_iff] at hm'
    omega

/-! ## Numbers -/

theorem isDigit_ofNat {d : Nat} (hd : d < 10) :
    isDigit (.ofNat ('0'.toUInt8.toNat + d)) = true ∧
      (UInt8.ofNat ('0'.toUInt8.toNat + d)).toNat = '0'.toUInt8.toNat + d := by
  revert d
  decide

theorem toLong_of_lt {v : Int} (hlo : 0 ≤ v) (hhi : v < 2 ^ 63) : toLong v = v := by
  rw [toLong, Int.bmod_eq_emod_of_lt]
  · exact Int.emod_eq_of_lt hlo (by omega)
  · omega

/-- Digits are read as the number they write, when it can be counted. -/
theorem scanInt_digits (ds : List Nat) (v : Nat) (hds : ∀ d ∈ ds, d < 10)
    (hrest : startsDigit rest = false) (hfit : ds.foldl (fun v d => v * 10 + d) v < 2 ^ 63) :
    scanInt v (ds.map (fun d => .ofNat ('0'.toUInt8.toNat + d)) ++ rest) =
      (((ds.foldl (fun v d => v * 10 + d) v : Nat) : Int), rest) := by
  induction ds generalizing v with
  | nil =>
    cases rest with
    | nil => rfl
    | cons c rest =>
      rw [map_nil, nil_append, scanInt, if_neg (by simpa [startsDigit] using hrest)]
      rfl
  | cons d ds ih =>
    have hgrow : ∀ (ds : List Nat) (v : Nat), v ≤ ds.foldl (fun v d => v * 10 + d) v := by
      intro ds
      induction ds with
      | nil => exact fun v => le_refl v
      | cons d ds ih => exact fun v => le_trans (by omega) (ih (v * 10 + d))
    obtain ⟨hdigit, hvalue⟩ := isDigit_ofNat (hds d mem_cons_self)
    have hlt := lt_of_le_of_lt (hgrow ds (v * 10 + d)) hfit
    rw [map_cons, cons_append, scanInt, if_pos hdigit, hvalue, foldl_cons,
      show ((v : Int) * 10 + (('0'.toUInt8.toNat + d : Nat) - ('0'.toUInt8.toNat : Nat) : Int)) =
        ((v * 10 + d : Nat) : Int) by push_cast; omega,
      toLong_of_lt (by omega) (by exact_mod_cast hlt)]
    exact ih _ (fun e he => hds e (mem_cons_of_mem _ he)) hfit

theorem scanInt_decimal (hn : n < 2 ^ 63) (hrest : startsDigit rest = false) :
    scanInt 0 (decimal n ++ rest) = ((n : Int), rest) := by
  unfold decimal
  split_ifs with hzero
  · subst hzero
    exact scanInt_digits [0] 0 (by simp) hrest (by decide)
  · have hvalue : (Nat.digits 10 n).reverse.foldl (fun v d => v * 10 + d) 0 = n := by
      rw [foldl_reverse]
      have hofDigits := Nat.ofDigits_eq_foldr 10 (Nat.digits 10 n)
      rw [Nat.ofDigits_digits] at hofDigits
      conv_rhs => rw [hofDigits]
      congr 1
      funext d v
      change v * 10 + d = d + 10 * v
      omega
    have hscan := scanInt_digits (Nat.digits 10 n).reverse 0
      (fun d hd => Nat.digits_lt_base (by decide) (mem_reverse.mp hd)) hrest
      (by rw [hvalue]; exact hn)
    rw [hvalue] at hscan
    exact hscan

theorem startsDigit_decimal (n : Nat) : startsDigit (decimal n ++ rest) = true := by
  unfold decimal
  split_ifs with hn
  · rfl
  · have hne : (Nat.digits 10 n).reverse ≠ [] := by
      simpa [Nat.digits_eq_nil_iff_eq_zero] using hn
    obtain ⟨d, ds, hds⟩ := exists_cons_of_ne_nil hne
    have hd : d ∈ Nat.digits 10 n := by
      rw [← mem_reverse, hds]
      exact mem_cons_self
    rw [hds, map_cons, cons_append, startsDigit]
    exact (isDigit_ofNat (Nat.digits_lt_base (by decide) hd)).1

/-! ## Quantifiers -/

/-- The bytes that start a quantifier. -/
def quantifierBytes : List UInt8 := ascii "*+?\x7b"

/-- What follows is no quantifier. -/
def NoQuantifier (rest : List UInt8) : Prop :=
  ∀ c ∈ rest.head?, c ∉ quantifierBytes

theorem afterAtom_none (h : NoQuantifier rest) :
    afterAtom parser source states f rest = some (states, f, rest) := by
  cases rest with
  | nil => rfl
  | cons c rest =>
    have hc : c ∉ quantifierBytes := h c rfl
    have hne : ∀ b ∈ quantifierBytes, c ≠ b := fun b hb heq => hc (heq ▸ hb)
    rw [afterAtom, if_neg, if_neg (hne _ (by decide))]
    rintro (rfl | rfl | rfl)
    · exact hc (by decide)
    · exact hc (by decide)
    · exact hc (by decide)

theorem scanBounds_exactly (hn : n < 2 ^ 63) :
    scanBounds (decimal n ++ '\x7d'.toUInt8 :: rest) = some ((n : Int), (n : Int), rest) := by
  have hbrace : startsDigit ('\x7d'.toUInt8 :: rest) = false := rfl
  simp only [scanBounds, scanInt_decimal hn hbrace, startsDigit_decimal]
  rfl

theorem scanBounds_atLeast (hn : n < 2 ^ 63) :
    scanBounds (decimal n ++ ','.toUInt8 :: '\x7d'.toUInt8 :: rest) =
      some ((n : Int), -1, rest) := by
  have hcomma : startsDigit (','.toUInt8 :: '\x7d'.toUInt8 :: rest) = false := rfl
  simp only [scanBounds, scanInt_decimal hn hcomma, startsDigit_decimal]
  rfl

theorem scanBounds_between (hn : n < 2 ^ 63) (hm : m < 2 ^ 63) :
    scanBounds (decimal n ++ ','.toUInt8 :: (decimal m ++ '\x7d'.toUInt8 :: rest)) =
      some ((n : Int), (m : Int), rest) := by
  have hcomma : startsDigit (','.toUInt8 :: (decimal m ++ '\x7d'.toUInt8 :: rest)) = false := rfl
  have hbrace : startsDigit ('\x7d'.toUInt8 :: rest) = false := rfl
  have hupper : scanUpper n (','.toUInt8 :: (decimal m ++ '\x7d'.toUInt8 :: rest)) =
      ((m : Int), '\x7d'.toUInt8 :: rest) := by
    rw [scanUpper, if_pos rfl, if_pos (startsDigit_decimal m), scanInt_decimal hm hbrace]
  simp only [scanBounds, scanInt_decimal hn hcomma, hupper, startsDigit_decimal]
  rfl

/-- A quantifier of one character behind an atom. -/
theorem afterAtom_short {q : UInt8} (hq : q = '*'.toUInt8 ∨ q = '+'.toUInt8 ∨ q = '?'.toUInt8)
    (h : Built states states' f l) :
    ∃ states'' g, afterAtom parser source states' f (q :: rest) = some (states'', g, rest) ∧
      Built states states'' g (shortLanguage q l) := by
  refine ⟨_, _, ?_, built_quantified q h⟩
  rw [afterAtom, if_pos hq]
  rfl

/-- A repetition in braces behind an atom. -/
theorem afterAtom_braces {bounds : List UInt8} {n m : Int} (hn : 0 ≤ n)
    (hscan : scanBounds (bounds ++ '\x7d'.toUInt8 :: rest) = some (n, m, rest))
    (hclone : Clones (cloneAtom parser source) l) (h : Built states states' f l) :
    ∃ states'' g, afterAtom parser source states' f (Quantifier.braces bounds ++ rest) =
        some (states'', g, rest) ∧
      Built states states'' g (l ^ n.toNat * tailLanguage n m l) := by
  obtain ⟨states'', g, heq, hbuilt⟩ := built_bounded (m := m) hclone hn h
  refine ⟨states'', g, ?_, hbuilt⟩
  rw [Quantifier.braces, cons_append, append_assoc, afterAtom,
    if_neg (by decide), if_pos rfl, cons_append, nil_append, hscan]
  change (bounded (cloneAtom parser source) n m states' f).bind _ = _
  rw [heq]
  rfl

/-- A quantifier behind an atom repeats it as often as it allows. -/
theorem afterAtom_quantifier (hfits : q.Fits) (hclone : Clones (cloneAtom parser source) l)
    (h : Built states states' f l) :
    ∃ states'' g, afterAtom parser source states' f (q.text ++ rest) = some (states'', g, rest) ∧
      Built states states'' g (q.language l) := by
  obtain ⟨hleast, hmost⟩ := hfits
  cases q with
  | star =>
    rw [language_open (q := .star) rfl]
    change ∃ states'' g, _ ∧ Built states states'' g (l ^ 0 * l∗)
    rw [pow_zero, one_mul]
    exact afterAtom_short (.inl rfl) h
  | plus =>
    rw [language_open (q := .plus) rfl]
    change ∃ states'' g, _ ∧ Built states states'' g (l ^ 1 * l∗)
    rw [pow_one]
    exact afterAtom_short (.inr (.inl rfl)) h
  | optional =>
    have hlanguage : Quantifier.language .optional l = l + 1 := by
      rw [language_closed (q := .optional) (m := 1) rfl (Nat.zero_le _)]
      change l ^ 0 * ∑ i ∈ Finset.range 2, l ^ i = _
      rw [Finset.sum_range_succ, Finset.sum_range_one, pow_zero, pow_one, one_mul, add_comm]
    rw [hlanguage]
    exact afterAtom_short (.inr (.inr rfl)) h
  | exactly n =>
    rw [language_closed (q := .exactly n) (m := n) rfl (le_rfl)]
    have hscan : scanBounds (decimal n ++ '\x7d'.toUInt8 :: rest) =
        some ((n : Int), (n : Int), rest) :=
      scanBounds_exactly hleast
    have hread := afterAtom_braces (Int.natCast_nonneg n) hscan hclone h
    rwa [tailLanguage, if_neg (by omega), show ((n : Int) - n).toNat = n - n by omega] at hread
  | atLeast n =>
    rw [language_open (q := .atLeast n) rfl]
    have hscan : scanBounds (decimal n ++ [','.toUInt8] ++ '\x7d'.toUInt8 :: rest) =
        some ((n : Int), -1, rest) := by
      rw [append_assoc]
      exact scanBounds_atLeast hleast
    have hread := afterAtom_braces (Int.natCast_nonneg n) hscan hclone h
    rwa [tailLanguage, if_pos (by decide)] at hread
  | between n m hle =>
    rw [language_closed (q := .between n m hle) (m := m) rfl hle]
    have hscan : scanBounds (decimal n ++ ','.toUInt8 :: decimal m ++ '\x7d'.toUInt8 :: rest) =
        some ((n : Int), (m : Int), rest) := by
      rw [append_assoc, cons_append]
      exact scanBounds_between hleast (hmost m rfl)
    have hread := afterAtom_braces (Int.natCast_nonneg n) hscan hclone h
    rwa [tailLanguage, if_neg (by omega), show ((m : Int) - n).toNat = m - n by omega] at hread

/-! ## Classes -/

theorem kinds_eq (b : UInt8) :
    isDigit b = Shorthand.among Shorthand.digits b ∧ isWord b = Shorthand.among Shorthand.words b ∧
      isSpace b = Shorthand.among Shorthand.spaces b := by
  revert b
  exact Gbnf.forall_byte (by decide +kernel)

theorem makeShorthand_letter (s : Shorthand) :
    ∃ cls, makeShorthand s.letter = some cls ∧ ∀ b, cls b = s.admits b := by
  cases s with
  | digit => exact ⟨_, rfl, fun b => (kinds_eq b).1⟩
  | notDigit => exact ⟨_, rfl, fun b => congrArg not (kinds_eq b).1⟩
  | word => exact ⟨_, rfl, fun b => (kinds_eq b).2.1⟩
  | notWord => exact ⟨_, rfl, fun b => congrArg not (kinds_eq b).2.1⟩
  | space => exact ⟨_, rfl, fun b => (kinds_eq b).2.2⟩
  | notSpace => exact ⟨_, rfl, fun b => congrArg not (kinds_eq b).2.2⟩

theorem escape_letter (s : Shorthand) (b : UInt8) :
    classEscape s.letter b = s.admits b ∧ atomEscape s.letter b = s.admits b := by
  obtain ⟨cls, hcls, hadmits⟩ := makeShorthand_letter s
  rw [classEscape, atomEscape, hcls]
  exact ⟨hadmits b, hadmits b⟩

theorem classEscape_special {b : UInt8} (hb : b ∈ classMetacharacters) (c : UInt8) :
    classEscape b c = (c == b) := by
  have hspecial : classMetacharacters.all (fun b =>
      (makeShorthand b).isNone && classLiteral b == b) = true := rfl
  obtain ⟨hnone, hliteral⟩ := Bool.and_eq_true_iff.mp (all_eq_true.mp hspecial b hb)
  rw [classEscape, isNone_iff_eq_none.mp hnone, eq_of_beq hliteral]
  rfl

theorem atomEscape_special {b : UInt8} (hb : b ∈ metacharacters) (c : UInt8) :
    atomEscape b c = (c == b) := by
  have hspecial : metacharacters.all (fun b =>
      (makeShorthand b).isNone && atomLiteral b == b) = true := rfl
  obtain ⟨hnone, hliteral⟩ := Bool.and_eq_true_iff.mp (all_eq_true.mp hspecial b hb)
  rw [atomEscape, isNone_iff_eq_none.mp hnone, eq_of_beq hliteral]
  rfl

theorem ne_of_plain {special : List UInt8} {b : UInt8} (hc : c ∉ special) (hb : b ∈ special) :
    c ≠ b := by
  rintro rfl
  exact hc hb

/-- The first byte of a member of a class or of what closes it. -/
def StartsItem (text : List UInt8) : Prop :=
  ∃ c more, text = c :: more ∧ c ≠ '-'.toUInt8 ∧ c ≠ '^'.toUInt8

theorem startsItem_escaped {b : UInt8} (more : List UInt8) :
    StartsItem (escaped classMetacharacters b ++ more) := by
  by_cases hb : b ∈ classMetacharacters
  · rw [escaped, if_pos (by simpa using hb)]
    exact ⟨_, _, rfl, by decide, by decide⟩
  · rw [escaped, if_neg (by simpa using hb)]
    exact ⟨_, _, rfl, ne_of_plain hb (by decide), ne_of_plain hb (by decide)⟩

theorem startsItem_item (item : ClassItem) (more : List UInt8) :
    StartsItem (item.text ++ more) := by
  cases item with
  | byte b => exact startsItem_escaped more
  | range lo hi hle =>
    rw [text, append_assoc]
    exact startsItem_escaped _
  | shorthand s => exact ⟨_, _, rfl, by decide, by decide⟩

theorem startsItem_items (items : List ClassItem) :
    StartsItem (items.flatMap ClassItem.text ++ ']'.toUInt8 :: rest) := by
  cases items with
  | nil => exact ⟨_, _, rfl, by decide, by decide⟩
  | cons item items =>
    rw [flatMap_cons, append_assoc]
    exact startsItem_item item _

theorem classMembers_close :
    classMembers cls true (']'.toUInt8 :: rest) = some (cls, rest) := by
  rw [classMembers.eq_def]
  exact (if_pos rfl).trans (if_pos rfl)

theorem classMembers_escape {esc : UInt8} :
    classMembers cls any ('\\'.toUInt8 :: esc :: rest) =
      classMembers (fun b => cls b || classEscape esc b) true rest := by
  rw [classMembers, if_neg (by decide), if_pos rfl]

theorem classMembers_plain (hc : c ∉ classMetacharacters) (hrest : StartsItem rest) :
    classMembers cls any (c :: rest) = classMembers (fun b => cls b || b == c) true rest := by
  obtain ⟨d, more, rfl, hdash, _⟩ := hrest
  rw [classMembers, if_neg (ne_of_plain hc (by decide)), if_neg (ne_of_plain hc (by decide))]
  cases more with
  | nil => rfl
  | cons hi more => exact if_neg fun h => hdash h.1

theorem classMembers_range {lo hi : UInt8} (hlo : lo ∉ classMetacharacters)
    (hhi : hi ∉ classMetacharacters) (hle : lo ≤ hi) :
    classMembers cls any (lo :: '-'.toUInt8 :: hi :: rest) =
      classMembers (fun b => cls b || (lo ≤ b && b ≤ hi)) true rest := by
  rw [classMembers, if_neg (ne_of_plain hlo (by decide)), if_neg (ne_of_plain hlo (by decide))]
  change (if _ then _ else _) = _
  rw [if_pos ⟨rfl, ne_of_plain hhi (by decide)⟩, if_neg (UInt8.not_lt.mpr hle)]

/-- The members of a class are read one after the other. -/
theorem classMembers_item {item : ClassItem} (hitem : item.PlainEnds) (hrest : StartsItem rest) :
    classMembers cls any (item.text ++ rest) =
      classMembers (fun b => cls b || item.admits b) true rest := by
  cases item with
  | byte b =>
    by_cases hb : b ∈ classMetacharacters
    · rw [text, escaped, if_pos (by simpa using hb)]
      refine classMembers_escape.trans ?_
      congr 1
      funext c
      rw [classEscape_special hb]
      rfl
    · rw [text, escaped, if_neg (by simpa using hb)]
      exact classMembers_plain hb hrest
  | range lo hi hle =>
    obtain ⟨hlo, hhi⟩ := hitem
    rw [text, escaped, escaped, if_neg (by simpa using hlo), if_neg (by simpa using hhi)]
    exact classMembers_range hlo hhi hle
  | shorthand s =>
    refine classMembers_escape.trans ?_
    congr 1
    funext c
    rw [(escape_letter s c).1]
    rfl

theorem classMembers_items {items : List ClassItem} (hitems : ∀ item ∈ items, item.PlainEnds) :
    classMembers cls true (items.flatMap ClassItem.text ++ ']'.toUInt8 :: rest) =
      some (fun b => cls b || anyAdmits items b, rest) := by
  induction items generalizing cls with
  | nil =>
    rw [flatMap_nil, nil_append, classMembers_close]
    simp [anyAdmits]
  | cons item items ih =>
    rw [flatMap_cons, append_assoc,
      classMembers_item (hitems item mem_cons_self) (startsItem_items items),
      ih fun other hother => hitems other (mem_cons_of_mem _ hother)]
    simp [anyAdmits, Bool.or_assoc]

/-- A class is read as its members. -/
theorem readClass_text (negated : Bool) (rest : List UInt8)
    (hitems : ∀ item ∈ first :: more, item.PlainEnds) :
    ∃ cls, readClass ((if negated then ['^'.toUInt8] else []) ++
        ((first :: more).flatMap ClassItem.text ++ [']'.toUInt8]) ++ rest) = some (cls, rest) ∧
      ∀ b, cls b = true ↔ anyAdmits (first :: more) b = !negated := by
  have hmembers : classMembers (fun _ => false) false
      ((first :: more).flatMap text ++ ']'.toUInt8 :: rest) =
        some (fun b => anyAdmits (first :: more) b, rest) := by
    rw [flatMap_cons, append_assoc,
      classMembers_item (hitems first mem_cons_self) (startsItem_items more),
      classMembers_items fun item hitem => hitems item (mem_cons_of_mem _ hitem)]
    simp [anyAdmits]
  cases negated with
  | true =>
    refine ⟨fun b => !anyAdmits (first :: more) b, ?_, by simp⟩
    rw [if_pos rfl, append_assoc, append_assoc]
    change readClass ('^'.toUInt8 :: _) = _
    change (classMembers _ _ ((first :: more).flatMap text ++ ']'.toUInt8 :: rest)).map
      _ = _
    rw [hmembers]
    rfl
  | false =>
    refine ⟨fun b => anyAdmits (first :: more) b, ?_, by simp⟩
    rw [if_neg (by decide), nil_append, append_assoc]
    change readClass ((first :: more).flatMap text ++ ']'.toUInt8 :: rest) = _
    have hstarts : StartsItem ((first :: more).flatMap text ++ ']'.toUInt8 :: rest) :=
      startsItem_items (first :: more)
    obtain ⟨c, tail, heq, _, hcaret⟩ := hstarts
    rw [heq, readClass, if_neg hcaret, ← heq, hmembers]

/-! ## Atoms -/

/-- The bytes no atom starts with. -/
def stopBytes : List UInt8 := ascii "*+?\x7b|)"

/-- The first byte of an atom. -/
theorem atom_head (atom : Atom) : ∃ c more, atom.text = c :: more ∧ c ∉ stopBytes := by
  cases atom with
  | byte b =>
    by_cases hb : b ∈ metacharacters
    · refine ⟨'\\'.toUInt8, [b], ?_, by decide⟩
      rw [Atom.text, escaped, if_pos (by simpa using hb)]
    · refine ⟨b, [], ?_, ?_⟩
      · rw [Atom.text, escaped, if_neg (by simpa using hb)]
      · exact fun hstop => hb (mem_of_all_contains rfl hstop)
  | any => exact ⟨_, _, rfl, by decide⟩
  | shorthand s => exact ⟨_, _, rfl, by decide⟩
  | charClass negated first more => exact ⟨_, _, rfl, by decide⟩
  | group capturing body => exact ⟨_, _, rfl, by decide⟩

/-- One byte out of a class is read. -/
theorem reads_class (cls : CharClass) {admits : UInt8 → Prop}
    (hadmits : ∀ b, cls b = true ↔ admits b)
    (hparse : ∀ states, parser states (text ++ rest) = withText (joined states (some cls)) rest) :
    Reads parser text rest (oneByte admits) := by
  intro states
  refine ⟨_, _, hparse states, ?_⟩
  have hlanguage : oneByte admits = oneByte fun b => cls b = true := by
    congr 1
    funext b
    rw [hadmits]
  rw [hlanguage]
  exact built_joined_class states cls

section

variable (parser : Parser)

theorem reads_byte (b : UInt8) (rest : List UInt8) :
    Reads (parseAtom parser) (Atom.byte b).text rest (Atom.byte b).language := by
  by_cases hb : b ∈ metacharacters
  · refine reads_class (atomEscape b) (fun c => ?_) fun states => ?_
    · rw [atomEscape_special hb, beq_iff_eq]
    · rw [Atom.text, escaped, if_pos (by simpa using hb)]
      rfl
  · refine reads_class (fun c => c == b) (fun c => beq_iff_eq) fun states => ?_
    have hne : ∀ c ∈ metacharacters, b ≠ c := fun c hc => ne_of_plain hb hc
    rw [Atom.text, escaped, if_neg (by simpa using hb), singleton_append, parseAtom.eq_def]
    dsimp only
    rw [if_neg (hne _ (by decide)), if_neg (hne _ (by decide)),
      if_neg (not_or.mpr ⟨hne _ (by decide), hne _ (by decide)⟩), if_neg (hne _ (by decide)),
      if_neg (hne _ (by decide)), if_neg (not_or.mpr ⟨hne _ (by decide), hne _ (by decide)⟩)]

theorem reads_any (rest : List UInt8) :
    Reads (parseAtom parser) Atom.any.text rest Atom.any.language :=
  reads_class (fun b => b != '\n'.toUInt8) (fun b => by simp) fun _ => rfl

theorem reads_shorthand (s : Shorthand) (rest : List UInt8) :
    Reads (parseAtom parser) (Atom.shorthand s).text rest (Atom.shorthand s).language :=
  reads_class (atomEscape s.letter) (fun b => by rw [(escape_letter s b).2]) fun _ => rfl

theorem reads_charClass {negated : Bool} (hitems : ∀ item ∈ first :: more, item.PlainEnds) :
    Reads (parseAtom parser) (Atom.charClass negated first more).text rest
      (Atom.charClass negated first more).language := by
  obtain ⟨cls, hread, hcls⟩ := readClass_text negated rest hitems
  refine reads_class cls hcls fun states => ?_
  rw [Atom.text, cons_append, parseAtom.eq_def]
  dsimp only
  rw [if_neg (by decide), if_pos rfl, hread]
  rfl

end

/-- A group is read as its body. -/
theorem reads_group {capturing : Bool} {body : List UInt8}
    (hbody : Reads parser body (')'.toUInt8 :: rest) l)
    (hhead : ∀ c ∈ (body ++ ')'.toUInt8 :: rest).head?, c ≠ '?'.toUInt8) :
    Reads (parseAtom parser)
      ('('.toUInt8 :: ((if capturing then [] else ascii "?:") ++ (body ++ [')'.toUInt8]))) rest
      l := by
  intro states
  obtain ⟨states', f, hparse, hbuilt⟩ := hbody states
  refine ⟨states', f, ?_, hbuilt⟩
  have hskip : skipMarker ((if capturing then [] else ascii "?:") ++ (body ++ [')'.toUInt8]) ++
      rest) = body ++ ')'.toUInt8 :: rest := by
    rw [append_assoc, append_assoc, singleton_append]
    cases capturing with
    | false => rfl
    | true =>
      revert hhead
      generalize body ++ ')'.toUInt8 :: rest = inner
      intro hhead
      rcases inner with _ | ⟨q, _ | ⟨c, inner⟩⟩
      · rfl
      · rfl
      · exact if_neg fun h => hhead q rfl h.1
  rw [cons_append, parseAtom.eq_def]
  dsimp only
  rw [if_pos rfl, hskip, hparse]
  exact if_pos rfl

/-! ## Pieces -/

/-- The parser of atoms with a given fuel. -/
def atomParser (fuel : Nat) : Parser := parseAtom (parseAlt (parseConcat (parseRepeat fuel)))

/-- An atom is read whatever follows it, when there is fuel for both. -/
def AtomReads (atom : Atom) : Prop :=
  ∀ fuel rest, (atom.text ++ rest).length ≤ fuel →
    Reads (atomParser fuel) atom.text rest atom.language

theorem repeatOnce_atom
    (hparse : atomParser fuel states (source ++ rest) = some (states', f, rest)) :
    repeatOnce (parseRepeat fuel) states (source ++ rest) =
      afterAtom (parseRepeat fuel) source states' f rest := by
  have htake : (source ++ rest).take ((source ++ rest).length - rest.length) = source := by
    rw [length_append, Nat.add_sub_cancel, take_left]
  unfold atomParser at hparse
  rw [repeatOnce, hparse]
  change afterAtom (parseRepeat fuel) ((source ++ rest).take _) states' f rest = _
  rw [htake]

/-- An atom that was read can be read again, in isolation. -/
theorem AtomReads.clones (h : AtomReads atom) (hfuel : atom.text.length < fuel) :
    Clones (cloneAtom (parseRepeat fuel) atom.text) atom.language := by
  intro states
  obtain ⟨fuel, rfl⟩ := Nat.exists_eq_succ_of_ne_zero (Nat.ne_of_gt (Nat.zero_lt_of_lt hfuel))
  obtain ⟨states', f, hparse, hbuilt⟩ := h fuel [] (by rw [append_nil]; omega) states
  refine ⟨states', f, ?_, hbuilt⟩
  have hrepeat := repeatOnce_atom hparse
  rw [append_nil] at hrepeat
  rw [cloneAtom, parseRepeat, hrepeat]
  rfl

/-- An atom with its quantifier is read. -/
theorem reads_piece (h : AtomReads atom) {q : Option Quantifier} (hfits : ∀ r ∈ q, r.Fits)
    (hrest : NoQuantifier rest) (hfuel : (atom.text ++ (quantifierText q ++ rest)).length < fuel) :
    Reads (parseRepeat fuel) (atom.text ++ quantifierText q) rest
      (quantifierLanguage q atom.language) := by
  intro states
  obtain ⟨fuel, rfl⟩ := Nat.exists_eq_succ_of_ne_zero (Nat.ne_of_gt (Nat.zero_lt_of_lt hfuel))
  obtain ⟨states', f, hparse, hbuilt⟩ := h fuel (quantifierText q ++ rest) (by omega) states
  rw [append_assoc, parseRepeat, repeatOnce_atom hparse]
  cases q with
  | none => exact ⟨states', f, afterAtom_none hrest, hbuilt⟩
  | some r =>
    have hpos : 0 < r.text.length := by
      cases r <;> simp [Quantifier.text, Quantifier.braces]
    have hlt : atom.text.length < fuel := by
      change (atom.text ++ (r.text ++ rest)).length < fuel + 1 at hfuel
      rw [length_append, length_append] at hfuel
      omega
    exact afterAtom_quantifier (hfits r rfl) (h.clones hlt) hbuilt

/-! ## Branches and patterns -/

theorem noQuantifier_of_endsConcat (h : endsConcat rest = true) : NoQuantifier rest := by
  intro c hc
  cases rest with
  | nil => cases hc
  | cons d rest =>
    obtain rfl : d = c := some.inj hc
    rw [endsConcat, Bool.or_eq_true, beq_iff_eq, beq_iff_eq] at h
    rcases h with rfl | rfl
    · decide
    · decide

theorem noQuantifier_branch (b : Branch) (hend : endsConcat rest = true) :
    NoQuantifier (b.text ++ rest) := by
  cases b with
  | nil => exact noQuantifier_of_endsConcat hend
  | cons atom q more =>
    obtain ⟨c, tail, heq, hc⟩ := atom_head atom
    intro d hd
    rw [Branch.text, heq] at hd
    obtain rfl : c = d := some.inj hd
    exact fun hmem => hc (mem_of_all_contains rfl hmem)

theorem endsConcat_atom (atom : Atom) (more : List UInt8) :
    endsConcat (atom.text ++ more) = false := by
  obtain ⟨c, tail, heq, hc⟩ := atom_head atom
  rw [heq, cons_append, endsConcat, Bool.or_eq_false_iff, beq_eq_false_iff_ne,
    beq_eq_false_iff_ne]
  exact ⟨ne_of_plain hc (by decide), ne_of_plain hc (by decide)⟩

/-- A branch is read piece by piece. -/
def BranchReads (b : Branch) : Prop :=
  ∀ fuel rest, endsConcat rest = true → (b.text ++ rest).length < fuel →
    ∀ loopFuel, b.text.length ≤ loopFuel → ∀ states cur, cur < states.length →
      edgesOf states cur = [] →
        ∃ states' cur', concatLoop (parseRepeat fuel) loopFuel states cur (b.text ++ rest) =
            some (states', cur', rest) ∧
          Grown states states' cur cur' b.language

theorem concatLoop_end {cur : Nat} (hend : endsConcat rest = true) :
    concatLoop parser loopFuel states cur rest = some (states, cur, rest) := by
  cases loopFuel with
  | zero => rw [concatLoop, if_pos hend]
  | succ loopFuel => rw [concatLoop, if_pos hend]

theorem branchReads_cons {q : Option Quantifier} {more : Branch} (hatom : AtomReads atom)
    (hfits : ∀ r ∈ q, r.Fits) (hmore : BranchReads more) : BranchReads (.cons atom q more) := by
  intro fuel rest hend hfuel loopFuel hloop states cur hcur hdead
  rw [Branch.text] at hfuel hloop ⊢
  rw [append_assoc, append_assoc] at hfuel ⊢
  obtain ⟨c, tail, hhead, _⟩ := atom_head atom
  have hpos : 0 < atom.text.length := by
    rw [hhead]
    exact Nat.succ_pos _
  rw [length_append, length_append] at hloop
  obtain ⟨loopFuel, rfl⟩ : ∃ k, loopFuel = k + 1 := ⟨loopFuel - 1, by omega⟩
  obtain ⟨built, f, hparse, hbuilt⟩ :=
    reads_piece hatom hfits (noQuantifier_branch more hend) hfuel states
  rw [append_assoc] at hparse
  have hattach := hbuilt.attach hcur hdead
  obtain ⟨states', cur', hrest, hgrown⟩ := hmore fuel rest hend
    (by simp only [length_append] at hfuel ⊢; omega) loopFuel (by omega) _ f.accept
    (hattach.last_lt hcur) hattach.dead
  refine ⟨states', cur', ?_, ?_⟩
  · rw [concatLoop, if_neg (by rw [endsConcat_atom]; decide), hparse]
    exact hrest
  · exact hattach.trans hgrown hcur

/-- A branch is read as a whole. -/
theorem BranchReads.reads (h : BranchReads b) (hend : endsConcat rest = true)
    (hfuel : (b.text ++ rest).length < fuel) :
    Reads (parseConcat (parseRepeat fuel)) b.text rest b.language := by
  intro states
  cases b with
  | nil =>
    refine ⟨_, _, ?_, built_joined_epsilon states⟩
    change parseConcat (parseRepeat fuel) states rest = _
    rw [parseConcat, if_pos hend]
    rfl
  | cons atom q more =>
    have hstart : endsConcat ((Branch.cons atom q more).text ++ rest) = false := by
      rw [Branch.text, append_assoc]
      exact endsConcat_atom atom _
    obtain ⟨states', cur', hloop, hgrown⟩ := h fuel rest hend hfuel
      ((Branch.cons atom q more).text ++ rest).length (by rw [length_append]; omega)
      (newState states) states.length (by rw [length_newState]; omega)
      (by rw [edgesOf_newState, edgesOf_of_le (le_rfl)])
    refine ⟨states', ⟨states.length, cur'⟩, ?_, hgrown.built⟩
    rw [parseConcat, hstart, if_neg (by decide), hloop]
    rfl

/-- A pattern is read up to the end or a closing parenthesis. -/
def PatternReads (p : Pattern) : Prop :=
  ∀ fuel rest, endsConcat rest = true → startsBranch rest = false →
    (p.text ++ rest).length < fuel →
      Reads (parseAlt (parseConcat (parseRepeat fuel))) p.text rest p.language

/-- The branches behind the first one are read one after the other. -/
def MoreReads (p : Pattern) : Prop :=
  ∀ fuel rest, endsConcat rest = true → startsBranch rest = false →
    (p.text ++ rest).length < fuel → ∀ loopFuel, p.text.length < loopFuel → ∀ states s a,
      s < states.length → a < states.length →
        ∃ states', altLoop (parseConcat (parseRepeat fuel)) s a loopFuel states
            ('|'.toUInt8 :: (p.text ++ rest)) = some (states', rest) ∧
          Branches states states' s a p.language

theorem altLoop_end (hend : startsBranch rest = false) :
    altLoop parser s a loopFuel states rest = some (states, rest) := by
  cases loopFuel with
  | zero => rw [altLoop, hend, if_neg (by decide)]
  | succ loopFuel => rw [altLoop, hend, if_neg (by decide)]

theorem altLoop_branch :
    altLoop parser s a (loopFuel + 1) states ('|'.toUInt8 :: text) =
      (parser states text).bind fun built =>
        altLoop parser s a loopFuel
          (addEpsilon (addEpsilon built.1 s built.2.1.start) built.2.1.accept a) built.2.2 := by
  exact if_pos (show startsBranch ('|'.toUInt8 :: text) = true from rfl)

theorem moreReads_last (hb : BranchReads b) : MoreReads (.last b) := by
  intro fuel rest hend hstop hfuel loopFuel hloop states s a hs ha
  obtain ⟨loopFuel, rfl⟩ := Nat.exists_eq_succ_of_ne_zero (Nat.ne_of_gt (Nat.zero_lt_of_lt hloop))
  rw [Pattern.text] at hfuel ⊢
  obtain ⟨built, f, hparse, hbuilt⟩ := hb.reads hend hfuel states
  refine ⟨addEpsilon (addEpsilon built s f.start) f.accept a, ?_, ?_⟩
  · rw [altLoop_branch, hparse, bind_some, altLoop_end hstop]
  · rw [Pattern.language, ← add_zero b.language]
    exact .cons hbuilt hs ha .refl

theorem moreReads_or {more : Pattern} (hb : BranchReads b) (hmore : MoreReads more) :
    MoreReads (.or b more) := by
  intro fuel rest hend hstop hfuel loopFuel hloop states s a hs ha
  obtain ⟨loopFuel, rfl⟩ := Nat.exists_eq_succ_of_ne_zero (Nat.ne_of_gt (Nat.zero_lt_of_lt hloop))
  rw [Pattern.text] at hfuel hloop ⊢
  rw [append_assoc, cons_append] at hfuel ⊢
  obtain ⟨built, f, hparse, hbuilt⟩ := hb.reads rfl hfuel states
  simp only [length_append, length_cons] at hfuel hloop
  obtain ⟨haccept, haccept'⟩ := hbuilt.accept_bounds
  obtain ⟨states', hrest, hbranches⟩ := hmore fuel rest hend hstop
    (by rw [length_append]; omega) loopFuel (by omega)
    (addEpsilon (addEpsilon built s f.start) f.accept a) s a (by simp; omega) (by simp; omega)
  refine ⟨states', ?_, ?_⟩
  · rw [altLoop_branch, hparse, bind_some, hrest]
  · exact .cons hbuilt hs ha hbranches

theorem patternReads_last (hb : BranchReads b) : PatternReads (.last b) := by
  intro fuel rest hend hstop hfuel states
  rw [Pattern.text] at hfuel ⊢
  obtain ⟨built, f, hparse, hbuilt⟩ := hb.reads hend hfuel states
  refine ⟨built, f, ?_, hbuilt⟩
  rw [parseAlt, hparse, bind_some]
  exact if_neg (by rw [hstop]; decide)

theorem patternReads_or {more : Pattern} (hb : BranchReads b) (hmore : MoreReads more) :
    PatternReads (.or b more) := by
  intro fuel rest hend hstop hfuel states
  rw [Pattern.text] at hfuel ⊢
  rw [append_assoc, cons_append] at hfuel ⊢
  obtain ⟨built, f, hparse, hbuilt⟩ := hb.reads rfl hfuel states
  simp only [length_append, length_cons] at hfuel
  obtain ⟨haccept, haccept'⟩ := hbuilt.accept_bounds
  obtain ⟨states', hrest, hbranches⟩ := hmore fuel rest hend hstop
    (by rw [length_append]; omega) ('|'.toUInt8 :: (more.text ++ rest)).length
    (by simp only [length_append, length_cons]; omega)
    (altHead built f) built.length (built.length + 1)
    (by simp [altHead]) (by simp [altHead])
  refine ⟨states', _, ?_, built_alt hbuilt hbranches⟩
  rw [parseAlt, hparse, bind_some]
  change Option.map _ (altLoop (parseConcat (parseRepeat fuel)) built.length (built.length + 1)
    ('|'.toUInt8 :: (more.text ++ rest)).length (altHead built f)
    ('|'.toUInt8 :: (more.text ++ rest))) = _
  rw [hrest]
  rfl

theorem pattern_head (p : Pattern) (hend : endsConcat rest = true) :
    ∀ c ∈ (p.text ++ rest).head?, c ≠ '?'.toUInt8 := by
  have hbranch : ∀ (b : Branch) (rest : List UInt8), endsConcat rest = true →
      ∀ c ∈ (b.text ++ rest).head?, c ≠ '?'.toUInt8 := by
    intro b rest hend c hc
    exact ne_of_plain (noQuantifier_branch b hend c hc) (by decide)
  cases p with
  | last b => exact hbranch b rest hend
  | or b more =>
    rw [Pattern.text, append_assoc]
    exact hbranch b _ rfl

mutual

theorem atomReads : (atom : Atom) → atom.Plain → AtomReads atom
  | .byte b, _ => fun _ _ _ => reads_byte _ b _
  | .any, _ => fun _ _ _ => reads_any _ _
  | .shorthand s, _ => fun _ _ _ => reads_shorthand _ s _
  | .charClass _ _ _, hplain => fun _ _ _ => reads_charClass _ hplain
  | .group capturing body, hplain => by
    intro fuel rest hfuel
    rw [Atom.text] at hfuel ⊢
    refine reads_group ((patternReads body hplain).1 fuel _ rfl rfl ?_) (pattern_head body rfl)
    cases capturing <;>
      simp only [length_append, length_cons, length_nil] at hfuel ⊢ <;> omega

theorem branchReads : (b : Branch) → b.Plain → BranchReads b
  | .nil, _ => fun _ _ hend _ _ _ states cur _ hdead =>
    ⟨states, cur, concatLoop_end hend, .refl hdead⟩
  | .cons atom _ more, hplain =>
    branchReads_cons (atomReads atom hplain.1) hplain.2.1 (branchReads more hplain.2.2)

theorem patternReads : (p : Pattern) → p.Plain → PatternReads p ∧ MoreReads p
  | .last b, hplain =>
    ⟨patternReads_last (branchReads b hplain), moreReads_last (branchReads b hplain)⟩
  | .or b more, hplain =>
    ⟨patternReads_or (branchReads b hplain.1) (patternReads more hplain.2).2,
      moreReads_or (branchReads b hplain.1) (patternReads more hplain.2).2⟩

end

end Quench.RegexNfa
