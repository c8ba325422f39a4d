import Mathlib.Data.List.Infix

/-!
# Decoding tokens

`decode` and `decode_token` of `model/tokenizer.cpp`. The SentencePiece decoder replaces the space
marker in each piece, and once more in the joined text. `decode_eq_flatMap` says that the second
pass finds nothing if and only if no marker goes across the border of two pieces; `byte_tokens_join`
is a text on which one does.

The GPT-2 table and `sscanf` with the format `<0x%02X>` are fields of the tokenizer.
-/

namespace Quench

open List

/-- `type_`. -/
inductive TokenizerType where
  | gpt2
  | gemma4
  | bert
  | spm
  deriving DecidableEq

/-- `Tokenizer`, as far as decoding reads it. -/
structure Tokenizer where
  type : TokenizerType
  vocab : List (List UInt8)
  codepointToByte : List UInt8
  scanByte : List UInt8 → Option UInt8

/-- `SPIECE_SPACE`. -/
def spieceSpace : List UInt8 := [0xe2, 0x96, 0x81]

/-- The `find` and `replace` loop, behind so many bytes of a marker. -/
def replaceLoop : Nat → List UInt8 → List UInt8
  | _, [] => []
  | skip + 1, _ :: rest => replaceLoop skip rest
  | 0, b :: rest =>
    if spieceSpace <+: b :: rest then 0x20 :: replaceLoop 2 rest else b :: replaceLoop 0 rest

/-- `utf8_char_len`. -/
def utf8CharLen (c : UInt8) : Nat :=
  if c &&& 0x80 = 0 then 1
  else if c &&& 0xe0 = 0xc0 then 2
  else if c &&& 0xf0 = 0xe0 then 3
  else if c &&& 0xf8 = 0xf0 then 4
  else 1

namespace Tokenizer

variable (t : Tokenizer)

/-- The byte that a piece of the form `<0xHH>` stands for. -/
def byteOf (piece : List UInt8) : Option UInt8 :=
  if piece.length = 6 ∧ piece.take 3 = ['<', '0', 'x'].map (·.toUInt8) ∧
      piece.getLast? = some '>'.toUInt8 then t.scanByte piece
  else none

/-- The piece of a token, if it has one. -/
def piece (token : Int) : List UInt8 := if token < 0 then [] else t.vocab.getD token.toNat []

/-- `decode_spm_token`. -/
def decodeSpmToken (token : Int) : List UInt8 :=
  let piece := replaceLoop 0 (t.piece token)
  match t.byteOf piece with
  | some b => [b]
  | none => piece

/-- `decode_spm`. -/
def decodeSpm (tokens : List Int) : List UInt8 := replaceLoop 0 (tokens.flatMap t.decodeSpmToken)

/-- `gpt2_to_byte`. -/
def gpt2ToByte (chars : List UInt8) : Option UInt8 :=
  let cp := match chars.map UInt8.toNat with
    | [a] => some a
    | [a, b] => some (a % 32 * 64 + b % 64)
    | [a, b, c] => some (a % 16 * 4096 + b % 64 * 64 + c % 64)
    | _ => none
  cp.bind fun cp => if cp < 324 then some (t.codepointToByte.getD cp 0) else none

/-- The loop of `decode_gpt2_token`, for at most `fuel` characters. -/
def gpt2Loop : Nat → List UInt8 → List UInt8
  | 0, _ => []
  | _, [] => []
  | fuel + 1, c :: rest =>
    let len := if utf8CharLen c ≤ rest.length + 1 then utf8CharLen c else 1
    let chars := (c :: rest).take len
    (match t.gpt2ToByte chars with
      | some b => [b]
      | none => chars) ++ gpt2Loop fuel ((c :: rest).drop len)

/-- `decode_gpt2_token`. -/
def decodeGpt2Token (token : Int) : List UInt8 :=
  t.gpt2Loop (t.piece token).length (t.piece token)

/-- `decode_gpt2`. -/
def decodeGpt2 (tokens : List Int) : List UInt8 := tokens.flatMap t.decodeGpt2Token

/-- `decode`. -/
def decode (tokens : List Int) : List UInt8 :=
  if t.type = .gpt2 then t.decodeGpt2 tokens else t.decodeSpm tokens

/-- `decode_token`. -/
def decodeToken (token : Int) : List UInt8 :=
  if t.type = .gpt2 then t.decodeGpt2Token token else t.decodeSpmToken token

/-- A marker starts in the text of some tokens and goes on in the text of the next ones. -/
def Joins (tokens : List Int) : Prop :=
  ∃ before after start rest, tokens = before ++ after ∧ start ++ rest = spieceSpace ∧ start ≠ [] ∧
    rest ≠ [] ∧ start <:+ before.flatMap t.decodeSpmToken ∧ rest <+: after.flatMap t.decodeSpmToken

end Tokenizer

/-! ## Replacing the marker -/

variable {text s : List UInt8}

theorem prefix_of_replace (hs : 0x20 ∉ s) (h : s <+: replaceLoop 0 text) : s <+: text := by
  induction text generalizing s with
  | nil => exact h
  | cons b rest ih =>
    cases s with
    | nil => exact nil_prefix
    | cons a s =>
      rw [mem_cons, not_or] at hs
      rw [replaceLoop] at h
      split at h
      · exact absurd (cons_prefix_cons.mp h).1.symm hs.1
      · obtain ⟨rfl, hrest⟩ := cons_prefix_cons.mp h
        exact cons_prefix_cons.mpr ⟨rfl, ih hs.2 hrest⟩

/-- No marker is left. -/
theorem replaceLoop_clean (text : List UInt8) (skip : Nat) :
    ¬ spieceSpace <:+: replaceLoop skip text := by
  induction text generalizing skip with
  | nil => cases skip <;> simp [replaceLoop, spieceSpace]
  | cons b rest ih =>
    cases skip with
    | succ skip => exact ih skip
    | zero =>
      intro h
      rw [replaceLoop] at h
      split at h
      next =>
        rcases infix_cons_iff.mp h with h | h
        · exact absurd (cons_prefix_cons.mp h).1 (by decide)
        · exact ih 2 h
      next hnot =>
        rcases infix_cons_iff.mp h with h | h
        · obtain ⟨rfl, hrest⟩ := cons_prefix_cons.mp h
          exact hnot (cons_prefix_cons.mpr ⟨rfl, prefix_of_replace (by decide) hrest⟩)
        · exact ih 0 h

theorem replaceLoop_of_clean (h : ¬ spieceSpace <:+: text) : replaceLoop 0 text = text := by
  induction text with
  | nil => rfl
  | cons b rest ih =>
    rw [infix_cons_iff, not_or] at h
    rw [replaceLoop, if_neg h.1, ih h.2]

theorem replaceLoop_eq_iff : replaceLoop 0 text = text ↔ ¬ spieceSpace <:+: text :=
  ⟨fun h => h ▸ replaceLoop_clean text 0, replaceLoop_of_clean⟩

namespace Tokenizer

variable {t : Tokenizer} {tokens : List Int}

theorem decodeSpmToken_clean (token : Int) : ¬ spieceSpace <:+: t.decodeSpmToken token := by
  rw [decodeSpmToken]
  cases t.byteOf (replaceLoop 0 (t.piece token)) with
  | some b => simp [spieceSpace, infix_cons_iff]
  | none => exact replaceLoop_clean _ 0

theorem Joins.cons (token : Int) (h : t.Joins tokens) : t.Joins (token :: tokens) := by
  obtain ⟨before, after, start, rest, rfl, heq, hne, hne', hstart, hrest⟩ := h
  refine ⟨token :: before, after, start, rest, rfl, heq, hne, hne', ?_, hrest⟩
  exact hstart.trans (suffix_append _ _)

/-- No single token has a marker, so one in the joined text goes across a border. -/
theorem joins_iff : t.Joins tokens ↔ spieceSpace <:+: tokens.flatMap t.decodeSpmToken := by
  constructor
  · rintro ⟨before, after, start, rest, rfl, heq, -, -, ⟨x, hx⟩, ⟨y, hy⟩⟩
    refine ⟨x, y, ?_⟩
    rw [flatMap_append, ← hx, ← hy, ← heq]
    simp only [append_assoc]
  · induction tokens with
    | nil => exact fun h => absurd (infix_nil.mp h) (by decide)
    | cons token tokens ih =>
      intro h
      rcases infix_append_iff.mp h with h | h | ⟨start, rest, heq, hstart, hrest⟩
      · exact absurd h (decodeSpmToken_clean token)
      · exact (ih h).cons token
      · by_cases hnil : start = []
        · rw [hnil, nil_append] at heq
          exact (ih (heq ▸ hrest.isInfix)).cons token
        by_cases hnil' : rest = []
        · rw [hnil', append_nil] at heq
          exact absurd (heq ▸ hstart.isInfix) (decodeSpmToken_clean token)
        refine ⟨[token], tokens, start, rest, rfl, heq.symm, hnil, hnil', ?_, hrest⟩
        rwa [flatMap_singleton]

/-- Decoding a list of tokens is decoding each, if and only if no marker goes across a border. -/
theorem decode_eq_flatMap (t : Tokenizer) (tokens : List Int) :
    t.decode tokens = tokens.flatMap t.decodeToken ↔ t.type = .gpt2 ∨ ¬ t.Joins tokens := by
  have htoken : t.decodeToken = if t.type = .gpt2 then t.decodeGpt2Token else t.decodeSpmToken := by
    funext token
    rw [decodeToken]
    split <;> rfl
  rw [decode, htoken, joins_iff]
  split_ifs with htype
  · exact iff_of_true rfl (.inl htype)
  · rw [or_iff_right htype]
    exact replaceLoop_eq_iff

/-- The byte tokens `<0xE2>`, `<0x96>` and `<0x81>`, with a reader of two hexadecimal digits. -/
def byteTokens : Tokenizer where
  type := .spm
  vocab := ["<0xE2>", "<0x96>", "<0x81>"].map fun piece => piece.toList.map (·.toUInt8)
  codepointToByte := []
  scanByte piece :=
    let digit (c : UInt8) := if c ≤ '9'.toUInt8 then c - '0'.toUInt8 else c - 'A'.toUInt8 + 10
    some (16 * digit (piece.getD 3 0) + digit (piece.getD 4 0))

/-- Together the three bytes are a marker, which only the decoder of the list replaces. -/
theorem byte_tokens_join :
    byteTokens.decode [0, 1, 2] = [0x20] ∧
      [0, 1, 2].flatMap byteTokens.decodeToken = spieceSpace := by
  decide

end Tokenizer

end Quench
