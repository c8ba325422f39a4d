import Quench.Lib.Search
import Quench.Lib.Utf8

/-!
# Tool calls in a stream

`scan_tool_tag` of `tools/quench-server/tool_call.cpp` and `StreamToolCallFilter` of
`tool_stream_filter.h`. The filter holds what may be the open marker of a tool call, and behind the
marker the body; a body that cannot be parsed goes back into the text. `parse_stream_tool_body` is a
parameter.

`restored` says what comes back of a whole text without a call: all but the white space behind each
close marker of a body. `Verbatim` is the invariant: what was sent and what is to come of the rest
make up the restored text, however the text is cut. So the text comes back as it was if and only if
no body is followed by white space (`feedAll_verbatim`, `restored_body_loses_space`).
-/

namespace Quench

open Lib List

variable {closeTag front marker : List UInt8} {bodyStart n pos : Nat}

inductive ChatTemplateFamily where
  | raw | chatml | llama2 | mistralV3 | llama3 | nemotron | gemma | deepseekR1 | phi | harmony
  deriving DecidableEq

structure ParsedToolCall where
  name : List UInt8 := []
  arguments : List UInt8 := []
  valid : Bool := true
  deriving DecidableEq

namespace ToolStream

/-! ## The markers -/

/-- `ToolTagScan`. -/
inductive ToolTagScan where
  | none
  | held
  | opened (contentLen bodyStart : Nat) (closeTag : List UInt8) (gemmaBody : Bool)
      (fnName : List UInt8)

def suffixIsMarkerPrefix (buf marker : List UInt8) : Bool :=
  (List.range (min buf.length (marker.length - 1))).any fun k =>
    buf.drop (buf.length - (k + 1)) == marker.take (k + 1)

def scanToolTag (buf : List UInt8) (family : ChatTemplateFamily) : ToolTagScan :=
  if family = .llama3 then
    match find (ascii "<function=") buf with
    | some fnPos =>
      match (buf.drop (fnPos + 10)).findIdx? (· == '>'.toUInt8) with
      | some len =>
        .opened fnPos (fnPos + 10 + len + 1) (ascii "</function>") false
          ((buf.drop (fnPos + 10)).take len)
      | Option.none => .held
    | Option.none => if suffixIsMarkerPrefix buf (ascii "<function=") then .held else .none
  else
    let gemma := family = .gemma
    let chatml := find (ascii "<tool_call>") buf
    let native := if gemma then find (ascii "<|tool_call>") buf else Option.none
    match native, chatml with
    | some pos, Option.none => .opened pos (pos + 12) (ascii "<tool_call|>") true []
    | some pos, some chatmlPos =>
      if pos < chatmlPos then .opened pos (pos + 12) (ascii "<tool_call|>") true []
      else .opened chatmlPos (chatmlPos + 11) (ascii "</tool_call>") false []
    | Option.none, some pos => .opened pos (pos + 11) (ascii "</tool_call>") false []
    | Option.none, Option.none =>
      if suffixIsMarkerPrefix buf (ascii "<tool_call>") ||
        gemma && suffixIsMarkerPrefix buf (ascii "<|tool_call>") then .held
      else .none

/-- Where the body behind an open marker starts, and its close marker. -/
def ToolTagScan.opens : ToolTagScan → Option (Nat × List UInt8)
  | .opened _ bodyStart closeTag _ _ => some (bodyStart, closeTag)
  | _ => Option.none

/-- The open markers of a family. -/
def openTags (family : ChatTemplateFamily) : List (List UInt8) :=
  if family = .llama3 then [ascii "<function="]
  else if family = .gemma then [ascii "<tool_call>", ascii "<|tool_call>"]
  else [ascii "<tool_call>"]

/-- The close markers of a family. -/
def closeTags (family : ChatTemplateFamily) : List (List UInt8) :=
  if family = .llama3 then [ascii "</function>"]
  else if family = .gemma then [ascii "</tool_call>", ascii "<tool_call|>"]
  else [ascii "</tool_call>"]

/-! ## The filter -/

/-- `Segment`. -/
inductive Segment where
  | text (text : List UInt8)
  | call (call : ParsedToolCall)
  | callBegin (call : ParsedToolCall)
  | callArgsDelta (text : List UInt8)
  | callEnd (call : ParsedToolCall)
  deriving DecidableEq

inductive Phase where
  | content | tag | body
  deriving DecidableEq

inductive StreamState where
  | probe | args | tail | rejected
  deriving DecidableEq

/-- The place in the arguments. -/
structure Tracker where
  depth : Int := 0
  inString : Bool := false
  escaped : Bool := false
  deriving DecidableEq

/-- What `reset_streaming_` clears. -/
structure Streaming where
  state : StreamState := .probe
  argsEmitted : Nat := 0
  tracker : Tracker := {}
  streamedName : List UInt8 := []
  streamedArgs : List UInt8 := []
  deriving DecidableEq

/-- Some arguments were sent. -/
def Streaming.started (streaming : Streaming) : Bool :=
  streaming.state = .args || streaming.state = .tail

structure StreamToolCallFilter where
  family : ChatTemplateFamily
  phase : Phase := .content
  tagBuf : List UInt8 := []
  openText : List UInt8 := []
  bodyBuf : List UInt8 := []
  closeTag : List UInt8 := []
  fnName : List UInt8 := []
  gemmaBody : Bool := false
  trimWs : Bool := false
  streaming : Streaming := {}
  deriving DecidableEq

def isSpace (c : UInt8) : Bool := (ascii "\n\r\t ").contains c

def isSpaceOrColon (c : UInt8) : Bool := (ascii "\n\r\t :").contains c

def appendText (out : List Segment) (text : List UInt8) : List Segment :=
  if text = [] then out
  else
    match out.getLast? with
    | some (.text last) => out.dropLast ++ [.text (last ++ text)]
    | _ => out ++ [.text text]

/-! ## Arguments on the way -/

/-- What a look at a body that is not complete says: more bytes are needed, the body cannot be
streamed, or a result. -/
inductive Probe (α : Type) where
  | more
  | rejected
  | found (value : α)

/-- The string value behind its quote, and what follows it. -/
def scanString (value : List UInt8) (esc : Bool) : List UInt8 → Probe (List UInt8 × List UInt8)
  | [] => .more
  | c :: rest =>
    if esc then scanString (value ++ [c]) false rest
    else if c = '\\'.toUInt8 then scanString value true rest
    else if c = '"'.toUInt8 then .found (value, rest)
    else scanString (value ++ [c]) false rest

/-- `scan_json_key_string_`, on the body from `pos` on. -/
def scanJsonKeyString (key rest : List UInt8) : Probe (List UInt8 × List UInt8) :=
  let rest := rest.dropWhile isSpace
  let want := ascii "\"" ++ key ++ ascii "\""
  if rest = [] then .more
  else if want.take rest.length ≠ rest.take want.length then .rejected
  else if rest.length < want.length then .more
  else
    match (rest.drop want.length).dropWhile isSpaceOrColon with
    | [] => .more
    | c :: rest => if c = '"'.toUInt8 then scanString [] false rest else .rejected

def startsValue (c : UInt8) : Bool := c = '\x7b'.toUInt8 || c = '['.toUInt8

variable (s : StreamToolCallFilter)

/-- `try_open_streaming_`: the name of the function and the arguments so far. -/
def tryOpenStreaming : Probe (List UInt8 × List UInt8) :=
  match s.bodyBuf.dropWhile isSpace with
  | [] => .more
  | c :: rest =>
    if s.fnName ≠ [] then if startsValue c then .found (s.fnName, c :: rest) else .rejected
    else if c ≠ '\x7b'.toUInt8 then .rejected
    else
      match scanJsonKeyString (ascii "name") rest with
      | .more => .more
      | .rejected => .rejected
      | .found (name, rest) =>
        match find (ascii "\"arguments\"") rest with
        | none => if 256 < rest.length then .rejected else .more
        | some pos =>
          match (rest.drop (pos + 11)).dropWhile isSpaceOrColon with
          | [] => .more
          | v :: value => if startsValue v then .found (name, v :: value) else .rejected

/-- One byte of the arguments, and whether it ends them. -/
def Tracker.next (t : Tracker) (c : UInt8) : Tracker × Bool :=
  if t.inString then
    if t.escaped then ({ t with escaped := false }, false)
    else if c = '\\'.toUInt8 then ({ t with escaped := true }, false)
    else if c = '"'.toUInt8 then ({ t with inString := false }, false)
    else (t, false)
  else if c = '"'.toUInt8 then ({ t with inString := true }, false)
  else if startsValue c then ({ t with depth := t.depth + 1 }, false)
  else if c = '\x7d'.toUInt8 || c = ']'.toUInt8 then
    ({ t with depth := t.depth - 1 }, decide (t.depth - 1 = 0))
  else (t, false)

/-- The bytes of the arguments in a text, and whether they end there. -/
def Tracker.scan (t : Tracker) : List UInt8 → Nat × Tracker × Bool
  | [] => (0, t, false)
  | c :: text =>
    match t.next c with
    | (t, true) => (1, t, true)
    | (t, false) =>
      let (n, t, ended) := Tracker.scan t text
      (n + 1, t, ended)

/-- The part of `pump_streaming_` in the arguments. -/
def pumpArgs (out : List Segment) : StreamToolCallFilter × List Segment :=
  let rest := s.bodyBuf.drop s.streaming.argsEmitted
  let limit :=
    match find s.closeTag rest with
    | some pos => pos
    | none => if s.closeTag = [] then rest.length else rest.length - (s.closeTag.length - 1)
  let (n, tracker, ended) := s.streaming.tracker.scan (rest.take limit)
  ({ s with streaming :=
      { s.streaming with
        state := if ended then .tail else .args
        argsEmitted := s.streaming.argsEmitted + n
        tracker
        streamedArgs := s.streaming.streamedArgs ++ rest.take n } },
    out ++ if n = 0 then [] else [.callArgsDelta (rest.take n)])

def pumpStreaming (out : List Segment) : StreamToolCallFilter × List Segment :=
  match s.streaming.state with
  | .probe =>
    match tryOpenStreaming s with
    | .more => (s, out)
    | .rejected => ({ s with streaming := { s.streaming with state := .rejected } }, out)
    | .found (name, args) =>
      pumpArgs
        { s with streaming :=
          { s.streaming with
            state := .args, streamedName := name
            argsEmitted := s.bodyBuf.length - args.length } }
        (out ++ [.callBegin { name }])
  | .args => pumpArgs s out
  | .tail | .rejected => (s, out)

/-- Only JSON is streamed. -/
def pumpBody (out : List Segment) : StreamToolCallFilter × List Segment :=
  if s.gemmaBody ∨ s.streaming.state = .rejected then (s, out) else pumpStreaming s out

/-! ## The loop of `feed` -/

/-- The filter, what is left of the piece, the segments, and whether `feed` returns. -/
structure Turn where
  filter : StreamToolCallFilter
  piece : List UInt8
  out : List Segment
  returns : Bool := false

def contentTurn (piece : List UInt8) (out : List Segment) : Turn :=
  if s.trimWs ∧ piece.dropWhile isSpace = [] then ⟨s, [], out, true⟩
  else
    let piece := if s.trimWs then piece.dropWhile isSpace else piece
    let s := { s with trimWs := false }
    match piece.findIdx? (· == '<'.toUInt8) with
    | none => ⟨s, [], appendText out piece, true⟩
    | some lt =>
      { filter := { s with tagBuf := piece.drop lt, phase := .tag }
        piece := []
        out := appendText out (piece.take lt) }

def tagTurn (piece : List UInt8) (out : List Segment) : Turn :=
  let s := { s with tagBuf := s.tagBuf ++ piece }
  match scanToolTag s.tagBuf s.family with
  | .held => ⟨s, [], out, true⟩
  | .none => ⟨{ s with tagBuf := [], phase := .content }, [], appendText out s.tagBuf, true⟩
  | .opened contentLen bodyStart closeTag gemmaBody fnName =>
    { filter :=
        { s with
          openText := (s.tagBuf.drop contentLen).take (bodyStart - contentLen)
          bodyBuf := s.tagBuf.drop bodyStart
          closeTag, fnName, gemmaBody, tagBuf := [], streaming := {}, phase := .body }
      piece := []
      out := appendText out (s.tagBuf.take contentLen) }

def trim (body : List UInt8) : List UInt8 :=
  ((body.dropWhile isSpace).reverse.dropWhile isSpace).reverse

-- `parse_stream_tool_body`
variable (parse : List UInt8 → Bool → List UInt8 → Option ParsedToolCall)

/-- The end of a body at its close marker. -/
def closeBody (s : StreamToolCallFilter) (closePos : Nat) (out : List Segment) : List Segment :=
  if s.streaming.started then
    out ++ [.callEnd
      { name := s.streaming.streamedName
        arguments := if s.streaming.streamedArgs = [] then ascii "\x7b\x7d"
          else s.streaming.streamedArgs }]
  else
    match parse (trim (s.bodyBuf.take closePos)) s.gemmaBody s.fnName with
    | some call => out ++ [.call call]
    | none => appendText out (s.openText ++ s.bodyBuf.take (closePos + s.closeTag.length))

def bodyTurn (s : StreamToolCallFilter) (piece : List UInt8) (out : List Segment) : Turn :=
  let s := { s with bodyBuf := s.bodyBuf ++ piece }
  let (s, out) := pumpBody s out
  match find s.closeTag s.bodyBuf with
  | none => ⟨s, [], out, true⟩
  | some closePos =>
    let piece := s.bodyBuf.drop (closePos + s.closeTag.length)
    { filter :=
        { s with
          bodyBuf := [], openText := [], fnName := [], gemmaBody := false, streaming := {}
          phase := .content, trimWs := true }
      piece
      out := closeBody parse s closePos out
      returns := piece = [] }

def turn (t : Turn) : Turn :=
  match t.filter.phase with
  | .content => contentTurn t.filter t.piece t.out
  | .tag => tagTurn t.filter t.piece t.out
  | .body => bodyTurn parse t.filter t.piece t.out

/-- The loop of `feed`; `none` when the fuel runs out. -/
def turns : Nat → Turn → Option Turn
  | 0, _ => none
  | fuel + 1, t => if (turn parse t).returns then some (turn parse t) else turns fuel (turn parse t)

/-- What there is still to do. -/
def Turn.measure (t : Turn) : Nat :=
  3 * (t.piece.length + t.filter.tagBuf.length + t.filter.bodyBuf.length) +
    match t.filter.phase with
    | .content => 2
    | .tag => 1
    | .body => 0

def feed (s : StreamToolCallFilter) (piece : List UInt8) :
    Option (StreamToolCallFilter × List Segment) :=
  let start : Turn := { filter := s, piece, out := [] }
  (turns parse (start.measure + 1) start).map fun t => (t.filter, t.out)

def callOpen (s : StreamToolCallFilter) : Bool := s.phase = .body && s.streaming.started

def finish (s : StreamToolCallFilter) : List UInt8 :=
  if callOpen s then [] else s.tagBuf ++ s.openText ++ s.bodyBuf

/-- Pieces one after the other. -/
def feedAll (s : StreamToolCallFilter) :
    List (List UInt8) → Option (StreamToolCallFilter × List Segment)
  | [] => some (s, [])
  | piece :: pieces => do
    let (s, out) ← feed parse s piece
    let (s, more) ← feedAll s pieces
    pure (s, out ++ more)

/-! ## What was sent and what is held -/

variable {parse} {family : ChatTemplateFamily} {s : StreamToolCallFilter} {t : Turn}
variable {input future piece text : List UInt8} {sent out more : List Segment}

/-- The text of some segments. -/
def texts (out : List Segment) : List UInt8 :=
  out.flatMap fun
    | .text text => text
    | _ => []

/-- A call was emitted. -/
def hasCall (out : List Segment) : Prop :=
  ∃ call, .call call ∈ out ∨ .callBegin call ∈ out

theorem texts_append (out more : List Segment) : texts (out ++ more) = texts out ++ texts more :=
  flatMap_append

theorem hasCall_append : hasCall (out ++ more) ↔ hasCall out ∨ hasCall more := by
  simp only [hasCall, mem_append]
  grind

theorem appendText_cases (out : List Segment) (text : List UInt8) :
    (text = [] ∧ appendText out text = out) ∨ appendText out text = out ++ [.text text] ∨
    ∃ front last, out = front ++ [.text last] ∧
      appendText out text = front ++ [.text (last ++ text)] := by
  rw [appendText]
  split_ifs with htext
  · exact .inl ⟨htext, rfl⟩
  split
  next last hlast =>
    obtain ⟨front, rfl⟩ := getLast?_eq_some_iff.mp hlast
    exact .inr (.inr ⟨front, last, rfl, by rw [dropLast_concat]⟩)
  next => exact .inr (.inl rfl)

theorem texts_appendText : texts (sent ++ appendText out text) = texts (sent ++ out) ++ text := by
  obtain ⟨rfl, heq⟩ | heq | ⟨front, last, rfl, heq⟩ := appendText_cases out text <;>
    simp [heq, texts]

theorem hasCall_appendText : hasCall (sent ++ appendText out text) ↔ hasCall (sent ++ out) := by
  obtain ⟨rfl, heq⟩ | heq | ⟨front, last, rfl, heq⟩ := appendText_cases out text <;>
    simp [heq, hasCall]

theorem find_end (hlength : marker.length = n + 1)
    (h : find marker text = some pos) : pos + (n + 1) ≤ text.length :=
  hlength ▸ (find_eq_some h).1.le_length (length_pos_iff.mp (by omega))

theorem markers_end (text : List UInt8) :
    (∀ pos, find (ascii "<tool_call>") text = some pos → pos + 11 ≤ text.length) ∧
      ∀ pos, find (ascii "<|tool_call>") text = some pos → pos + 12 ≤ text.length :=
  ⟨fun _ => find_end (by decide), fun _ => find_end (by decide)⟩

theorem scanToolTag_opened {contentLen : Nat} {fnName : List UInt8} {gemmaBody : Bool}
    (h : scanToolTag text family = .opened contentLen bodyStart closeTag gemmaBody fnName) :
    contentLen < bodyStart ∧ bodyStart ≤ text.length ∧ closeTag ∈ closeTags family := by
  have hgt : ∀ start len, (text.drop start).findIdx? (· == '>'.toUInt8) = some len →
      start + len < text.length := by
    intro start len hlen
    have hlt := (findIdx?_eq_some_iff_getElem.mp hlen).1
    rw [length_drop] at hlt
    omega
  obtain ⟨hchatml, hnative⟩ := markers_end text
  unfold scanToolTag at h
  grind [closeTags]

theorem opens_bounds (h : (scanToolTag text family).opens = some (bodyStart, closeTag)) :
    0 < bodyStart ∧ bodyStart ≤ text.length := by
  cases hscan : scanToolTag text family with
  | opened contentLen start close gemmaBody fnName =>
    obtain ⟨hlt, hle, -⟩ := scanToolTag_opened hscan
    rw [hscan] at h
    cases h
    exact ⟨Nat.zero_lt_of_lt hlt, hle⟩
  | none | held => simp [hscan, ToolTagScan.opens] at h

/-- An open marker is found whatever follows it. -/
theorem opens_append_left {place : Nat × List UInt8}
    (h : (scanToolTag text family).opens = some place) (more : List UInt8) :
    (scanToolTag (text ++ more) family).opens = some place := by
  have hstays : ∀ marker pos, marker ≠ [] → find marker text = some pos →
      find marker (text ++ more) = some pos := fun marker pos hne hpos =>
    find_append_left hne hpos more
  unfold scanToolTag at h ⊢
  by_cases hfamily : family = .llama3
  · rw [if_pos hfamily] at h ⊢
    cases hfn : find (ascii "<function=") text with
    | none => grind [ToolTagScan.opens]
    | some pos =>
      have hend : pos + 10 ≤ text.length := find_end (by decide) hfn
      rw [hfn] at h
      rw [hstays _ _ (by decide) hfn]
      dsimp only at h ⊢
      rw [drop_append_of_le_length hend, findIdx?_append]
      grind [ToolTagScan.opens]
  -- a marker that ends behind the text starts behind one that ends in it
  have hlate : ∀ marker pos, find marker text = none → find marker (text ++ more) = some pos →
      text.length < pos + marker.length := fun marker pos => find_append_late
  have hlateChatml := hlate (ascii "<tool_call>")
  have hlateNative := hlate (ascii "<|tool_call>")
  obtain ⟨hchatml, hnative⟩ := markers_end text
  rw [show (ascii "<tool_call>").length = 11 by decide] at hlateChatml
  rw [show (ascii "<|tool_call>").length = 12 by decide] at hlateNative
  have hc := fun pos => hstays (ascii "<tool_call>") pos (by decide)
  have hn := fun pos => hstays (ascii "<|tool_call>") pos (by decide)
  rw [if_neg hfamily] at h ⊢
  grind [ToolTagScan.opens]

/-- A text in which no open marker starts only moves the place. -/
theorem opens_append_right (h : ∀ marker ∈ openTags family,
      ∀ p < front.length, ¬ OccursAt marker (front ++ text) p) :
    (scanToolTag (front ++ text) family).opens =
      (scanToolTag text family).opens.map fun (bodyStart, closeTag) =>
        (front.length + bodyStart, closeTag) := by
  have hfind : ∀ marker ∈ openTags family,
      find marker (front ++ text) = (find marker text).map (front.length + ·) :=
    fun marker hmem => find_append_right (h marker hmem)
  unfold scanToolTag
  by_cases hfamily : family = .llama3
  · rw [if_pos hfamily, if_pos hfamily, hfind _ (by simp [openTags, hfamily])]
    cases hfn : find (ascii "<function=") text with
    | none => grind [ToolTagScan.opens]
    | some pos =>
      simp only [Option.map_some, Nat.add_assoc, drop_length_add_append]
      cases (text.drop (pos + 10)).findIdx? (· == '>'.toUInt8) <;>
        simp only [ToolTagScan.opens, Option.map_none, Option.map_some]
  rw [if_neg hfamily, if_neg hfamily, hfind (ascii "<tool_call>") (by grind [openTags])]
  by_cases hgemma : family = .gemma
  · simp only [hgemma, if_true]
    rw [hfind (ascii "<|tool_call>") (by grind [openTags])]
    grind [ToolTagScan.opens]
  · simp only [hgemma, if_false]
    grind [ToolTagScan.opens]

/-! ## What comes back of a whole text -/

/-- Where the first body of a text ends with its close marker. -/
def bodyEnd (family : ChatTemplateFamily) (text : List UInt8) : Option Nat := do
  let (bodyStart, closeTag) ← (scanToolTag text family).opens
  let pos ← find closeTag (text.drop bodyStart)
  pure (bodyStart + (pos + closeTag.length))

theorem bodyEnd_bounds (h : bodyEnd family text = some n) : 0 < n ∧ 0 < text.length := by
  simp only [bodyEnd, Option.bind_eq_bind, Option.bind_eq_some_iff, Option.pure_def] at h
  obtain ⟨_, hopens, _, _, hn⟩ := h
  have hbounds := opens_bounds hopens
  cases hn
  omega

/-- The text without the white space behind its bodies. -/
def restored (family : ChatTemplateFamily) (text : List UInt8) : List UInt8 :=
  match _ : bodyEnd family text with
  | none => text
  | some n => text.take n ++ restored family ((text.drop n).dropWhile isSpace)
termination_by text.length
decreasing_by
  rename_i h
  have hbounds := bodyEnd_bounds h
  have hle := (dropWhile_sublist isSpace (l := text.drop n)).length_le
  rw [length_drop] at hle
  omega

/-- No body is followed by white space. -/
def Clean (family : ChatTemplateFamily) (text : List UInt8) : Prop :=
  match _ : bodyEnd family text with
  | none => True
  | some n => (text.drop n).dropWhile isSpace = text.drop n ∧ Clean family (text.drop n)
termination_by text.length
decreasing_by
  rename_i h
  have hbounds := bodyEnd_bounds h
  rw [length_drop]
  omega

theorem restored_of_none (h : bodyEnd family text = none) : restored family text = text := by
  rw [restored]
  split <;> simp_all

theorem restored_of_some (h : bodyEnd family text = some n) : restored family text =
    text.take n ++ restored family ((text.drop n).dropWhile isSpace) := by
  rw [restored]
  split <;> simp_all

theorem length_restored (family : ChatTemplateFamily) (text : List UInt8) :
    (restored family text).length ≤ text.length := by
  induction text using restored.induct family with
  | case1 text h => rw [restored_of_none h]
  | case2 text n h ih =>
    have hle := (dropWhile_sublist isSpace (l := text.drop n)).length_le
    rw [restored_of_some h, length_append, length_take]
    rw [length_drop] at hle
    omega

theorem restored_eq_iff (family : ChatTemplateFamily) (text : List UInt8) :
    restored family text = text ↔ Clean family text := by
  induction text using Clean.induct family with
  | case1 text h =>
    rw [restored_of_none h, Clean]
    split <;> simp_all
  | case2 text n h ih =>
    have hclean : Clean family text ↔
        (text.drop n).dropWhile isSpace = text.drop n ∧ Clean family (text.drop n) := by
      rw [Clean]
      split <;> simp_all
    have htext : restored family text = text ↔
        restored family ((text.drop n).dropWhile isSpace) = text.drop n := by
      rw [restored_of_some h]
      conv_lhs => rhs; rw [← take_append_drop n text]
      exact append_right_inj _
    rw [htext, hclean, ← ih]
    constructor
    · intro heq
      -- what is restored is never longer, so nothing was trimmed
      have hlength := length_restored family ((text.drop n).dropWhile isSpace)
      rw [heq] at hlength
      have hall := (dropWhile_sublist isSpace).eq_of_length_le hlength
      rw [hall] at heq
      exact ⟨hall, heq⟩
    · rintro ⟨hall, heq⟩
      rw [hall, heq]

/-- What comes back of the text behind an open marker. -/
def restoredBody (family : ChatTemplateFamily) (closeTag body : List UInt8) : List UInt8 :=
  match find closeTag body with
  | none => body
  | some pos =>
    body.take (pos + closeTag.length) ++
      restored family ((body.drop (pos + closeTag.length)).dropWhile isSpace)

theorem restored_of_opens (h : (scanToolTag text family).opens = some (bodyStart, closeTag)) :
    restored family text =
      text.take bodyStart ++ restoredBody family closeTag (text.drop bodyStart) := by
  rw [restoredBody]
  cases hfind : find closeTag (text.drop bodyStart) with
  | none => rw [restored_of_none (by simp [bodyEnd, h, hfind]), take_append_drop]
  | some pos =>
    rw [restored_of_some (by simp [bodyEnd, h, hfind]; rfl), ← append_assoc, ← take_add, drop_drop]

/-- A text in which no open marker starts comes back. -/
theorem restored_append (h : ∀ marker ∈ openTags family,
      ∀ p < front.length, ¬ OccursAt marker (front ++ text) p) :
    restored family (front ++ text) = front ++ restored family text := by
  have hopens := opens_append_right h
  cases hscan : (scanToolTag text family).opens with
  | none =>
    rw [hscan] at hopens
    rw [restored_of_none (by simp [bodyEnd, hopens]), restored_of_none (by simp [bodyEnd, hscan])]
  | some place =>
    rw [hscan] at hopens
    rw [restored_of_opens hopens, restored_of_opens hscan, take_length_add_append,
      drop_length_add_append, append_assoc]

theorem restored_append_of_notMem (h : '<'.toUInt8 ∉ front) :
    restored family (front ++ text) = front ++ restored family text := by
  have hhead : ∀ marker ∈ openTags family, ∃ rest, marker = '<'.toUInt8 :: rest := by
    cases family <;> simp [openTags, ascii]
  refine restored_append fun marker hmem p hp => ?_
  obtain ⟨rest, rfl⟩ := hhead marker hmem
  exact not_occursAt_of_notMem h hp text

/-- Neither a marker nor a part of one at the end. -/
theorem not_occursAt_of_not_held {p : Nat} (hfind : find marker text = none)
    (hsuffix : suffixIsMarkerPrefix text marker = false) (hp : p < text.length)
    (more : List UInt8) : ¬ OccursAt marker (text ++ more) p := by
  intro hoccurs
  by_cases hend : p + marker.length ≤ text.length
  · exact find_eq_none hfind p (hoccurs.of_append hend)
  · rw [OccursAt, drop_append_of_le_length hp.le] at hoccurs
    have hpart : text.drop p = marker.take (text.drop p).length := by
      refine prefix_iff_eq_take.mp (prefix_of_prefix_length_le (prefix_append _ more) hoccurs ?_)
      rw [length_drop]
      omega
    rw [length_drop] at hpart
    refine Bool.eq_false_iff.mp hsuffix (any_eq_true.mpr ⟨text.length - p - 1, ?_, ?_⟩)
    · rw [mem_range]
      omega
    · rw [Nat.sub_add_cancel (by omega), Nat.sub_sub_self hp.le, beq_iff_eq]
      exact hpart

theorem restored_append_of_not_held (h : scanToolTag text family = .none) (more : List UInt8) :
    restored family (text ++ more) = text ++ restored family more := by
  refine restored_append fun marker hmem p hp => ?_
  have hnone : find marker text = none ∧ suffixIsMarkerPrefix text marker = false := by
    unfold scanToolTag at h
    grind [openTags]
  exact not_occursAt_of_not_held hnone.1 hnone.2 hp more

/-! ## The invariant of the turns -/

/-- Streaming only adds to the segments, and it starts with a call. -/
theorem pumpBody_frame (s : StreamToolCallFilter) (out : List Segment) :
    ∃ streaming more, pumpBody s out = ({ s with streaming }, out ++ more) ∧
      texts more = [] ∧ (streaming.started = true → s.streaming.started = true ∨ hasCall more) := by
  have hargs : ∀ s out, ∃ streaming more, pumpArgs s out = ({ s with streaming }, out ++ more) ∧
      texts more = [] := by
    intro s out
    exact ⟨_, _, rfl, by split_ifs <;> rfl⟩
  rw [pumpBody]
  split_ifs
  · exact ⟨s.streaming, [], by rw [append_nil], rfl, .inl⟩
  unfold pumpStreaming
  split
  next hstate =>
    split
    · exact ⟨s.streaming, [], by rw [append_nil], rfl, .inl⟩
    · exact ⟨_, [], by rw [append_nil], rfl, by simp [Streaming.started]⟩
    next name args _ =>
      obtain ⟨streaming, more, heq, htexts⟩ := hargs { s with streaming := { s.streaming with
        state := .args, streamedName := name, argsEmitted := s.bodyBuf.length - args.length } }
        (out ++ [.callBegin { name }])
      exact ⟨streaming, .callBegin { name } :: more, by rw [heq, append_assoc]; rfl, htexts,
        fun _ => .inr ⟨_, .inr mem_cons_self⟩⟩
  next hstate =>
    obtain ⟨streaming, more, heq, htexts⟩ := hargs s out
    exact ⟨streaming, more, heq, htexts, fun _ => .inl (by simp [Streaming.started, hstate])⟩
  all_goals exact ⟨s.streaming, [], by rw [append_nil], rfl, .inl⟩

/-- What is still to come back, of what the filter holds and of the text behind it. -/
def toCome (s : StreamToolCallFilter) (text : List UInt8) : List UInt8 :=
  match s.phase with
  | .content => restored s.family (if s.trimWs then text.dropWhile isSpace else text)
  | .tag => restored s.family (s.tagBuf ++ text)
  | .body => s.openText ++ restoredBody s.family s.closeTag (s.bodyBuf ++ text)

/-- As long as there was no call, what was sent and what is to come make up the restored text. -/
structure Verbatim (family : ChatTemplateFamily) (input future : List UInt8)
    (s : StreamToolCallFilter) (piece : List UInt8) (out : List Segment) : Prop where
  same : s.family = family
  closes : s.phase = .body → s.closeTag ∈ closeTags family
  tagBuf : s.phase ≠ .tag → s.tagBuf = []
  body : s.phase ≠ .body → s.openText = [] ∧ s.bodyBuf = []
  armed : s.trimWs = true → s.phase = .content
  started : ¬ hasCall out → s.streaming.started = false
  whole : ¬ hasCall out → texts out ++ toCome s (piece ++ future) = restored family input

theorem Verbatim.closeTag_ne_nil (h : Verbatim family input future s piece out)
    (hphase : s.phase = .body) : s.closeTag ≠ [] := by
  have hclose : ∀ close ∈ closeTags family, close ≠ [] := by cases family <;> decide
  exact hclose _ (h.closes hphase)

theorem contentTurn_verbatim (hphase : s.phase = .content)
    (h : Verbatim family input future s piece (sent ++ out)) :
    Verbatim family input future (contentTurn s piece out).filter (contentTurn s piece out).piece
      (sent ++ (contentTurn s piece out).out) := by
  have htag := h.tagBuf (by rw [hphase]; decide)
  obtain ⟨hopen, hbody⟩ := h.body (by rw [hphase]; decide)
  have hwhole := h.whole
  simp only [toCome, hphase] at hwhole
  by_cases hspace : s.trimWs = true ∧ piece.dropWhile isSpace = []
  · rw [contentTurn, if_pos hspace]
    refine { h with whole := ?_ }
    simpa [toCome, hphase, hspace, dropWhile_append] using hwhole
  rw [contentTurn, if_neg hspace]
  have hrest : (if s.trimWs then (piece ++ future).dropWhile isSpace else piece ++ future) =
      (if s.trimWs then piece.dropWhile isSpace else piece) ++ future := by
    split_ifs with htrim
    · rw [dropWhile_append, if_neg fun hnil => hspace ⟨htrim, isEmpty_iff.mp hnil⟩]
    · rfl
  rw [hrest] at hwhole
  generalize (if s.trimWs then piece.dropWhile isSpace else piece) = rest at hwhole ⊢
  dsimp only
  split
  next hlt =>
    have hnone : '<'.toUInt8 ∉ rest := fun hmem => by
      simpa using findIdx?_eq_none_iff.mp hlt _ hmem
    rw [restored_append_of_notMem hnone] at hwhole
    refine { h with armed := nofun, started := ?_, whole := ?_ }
    all_goals rw [hasCall_appendText]
    · exact h.started
    · simpa [toCome, hphase, texts_appendText] using hwhole
  next lt hlt =>
    have hnone : '<'.toUInt8 ∉ rest.take lt := by
      obtain ⟨_, _, hfirst⟩ := findIdx?_eq_some_iff_getElem.mp hlt
      intro hmem
      obtain ⟨i, hi, heq⟩ := mem_take_iff_getElem.mp hmem
      exact hfirst i (by omega) (beq_iff_eq.mpr heq)
    rw [← take_append_drop lt rest, append_assoc, restored_append_of_notMem hnone] at hwhole
    refine { h with
      closes := nofun, tagBuf := nofun, armed := nofun
      body := fun _ => ⟨hopen, hbody⟩, started := ?_, whole := ?_ }
    all_goals rw [hasCall_appendText]
    · exact h.started
    · simpa [toCome, texts_appendText] using hwhole

theorem tagTurn_verbatim (hphase : s.phase = .tag)
    (h : Verbatim family input future s piece (sent ++ out)) :
    Verbatim family input future (tagTurn s piece out).filter (tagTurn s piece out).piece
      (sent ++ (tagTurn s piece out).out) := by
  obtain ⟨hopen, hbody⟩ := h.body (by rw [hphase]; decide)
  have htrim : s.trimWs ≠ true := fun htrim => by simpa [hphase] using h.armed htrim
  have hwhole := h.whole
  simp only [toCome, hphase, ← append_assoc] at hwhole
  rw [tagTurn]
  dsimp only
  split
  · refine { h with tagBuf := fun hne => absurd hphase hne, whole := ?_ }
    simpa [toCome, hphase] using hwhole
  next hscan =>
    rw [restored_append_of_not_held hscan] at hwhole
    refine { h with
      closes := nofun, tagBuf := fun _ => rfl, body := fun _ => ⟨hopen, hbody⟩
      armed := fun _ => rfl, started := ?_, whole := ?_ }
    all_goals rw [hasCall_appendText]
    · exact h.started
    · simpa [toCome, htrim, texts_appendText] using hwhole
  next contentLen bodyStart closeTag _ _ hscan =>
    obtain ⟨hlt, hle, hclose⟩ := scanToolTag_opened hscan
    have hopens : (scanToolTag (s.tagBuf ++ piece ++ future) s.family).opens =
        some (bodyStart, closeTag) := opens_append_left (by rw [hscan]; rfl) future
    rw [restored_of_opens hopens, take_append_of_le_length hle, drop_append_of_le_length hle]
      at hwhole
    have hsplit : (s.tagBuf ++ piece).take bodyStart = (s.tagBuf ++ piece).take contentLen ++
        ((s.tagBuf ++ piece).drop contentLen).take (bodyStart - contentLen) := by
      rw [← take_add, Nat.add_sub_cancel' hlt.le]
    refine { h with
      closes := fun _ => h.same ▸ hclose, tagBuf := fun _ => rfl, body := nofun
      armed := fun hset => absurd hset htrim, started := fun _ => rfl, whole := ?_ }
    rw [hasCall_appendText, texts_appendText]
    simpa only [toCome, nil_append, append_assoc, hsplit] using hwhole

/-- Without a call the body goes back into the text. -/
theorem closeBody_restores (hcall : ¬ hasCall (sent ++ closeBody parse s pos out))
    (hstarted : ¬ hasCall (sent ++ out) → s.streaming.started = false) :
    ¬ hasCall (sent ++ out) ∧ texts (sent ++ closeBody parse s pos out) =
      texts (sent ++ out) ++ (s.openText ++ s.bodyBuf.take (pos + s.closeTag.length)) := by
  unfold closeBody at hcall ⊢
  by_cases hstart : s.streaming.started = true
  · rw [if_pos hstart, ← append_assoc, hasCall_append, not_or] at hcall
    simp [hstarted hcall.1] at hstart
  rw [if_neg hstart] at hcall ⊢
  split at hcall
  next call _ => exact absurd ⟨call, .inl (by simp)⟩ hcall
  next => exact ⟨hasCall_appendText.not.mp hcall, texts_appendText⟩

theorem bodyTurn_verbatim (hphase : s.phase = .body)
    (h : Verbatim family input future s piece (sent ++ out)) :
    Verbatim family input future (bodyTurn parse s piece out).filter
      (bodyTurn parse s piece out).piece (sent ++ (bodyTurn parse s piece out).out) := by
  have htag := h.tagBuf (by rw [hphase]; decide)
  obtain ⟨streaming, more, hpump, htexts, hstarted⟩ :=
    pumpBody_frame { s with bodyBuf := s.bodyBuf ++ piece } out
  have hmid : Verbatim family input future { s with bodyBuf := s.bodyBuf ++ piece, streaming } []
      (sent ++ (out ++ more)) := by
    rw [← append_assoc]
    refine { h with body := fun hne => absurd hphase hne, started := ?_, whole := ?_ }
    all_goals
      rw [hasCall_append, not_or]
      rintro ⟨hcall, hmore⟩
    · by_contra hne
      obtain hold | hnew := hstarted (Bool.not_eq_false _ ▸ hne)
      · simp [h.started hcall] at hold
      · exact hmore hnew
    · rw [texts_append _ more, htexts]
      simpa [toCome, hphase] using h.whole hcall
  rw [bodyTurn]
  simp only [hpump]
  split
  · exact hmid
  next pos hpos =>
    have hend := (find_eq_some hpos).1.le_length (h.closeTag_ne_nil hphase)
    have hfind := find_append_left (h.closeTag_ne_nil hphase) hpos future
    refine
      { hmid with
        closes := nofun, tagBuf := fun _ => htag, body := fun _ => ⟨rfl, rfl⟩
        armed := fun _ => rfl, started := fun _ => rfl, whole := fun hcall => ?_ }
    obtain ⟨hout, heq⟩ := closeBody_restores hcall hmid.started
    have hwhole := hmid.whole hout
    simp only [toCome, hphase, nil_append, restoredBody, hfind, take_append_of_le_length hend,
      drop_append_of_le_length hend] at hwhole
    rw [heq]
    simpa [toCome] using hwhole

variable (parse) in
theorem turn_verbatim (h : Verbatim family input future t.filter t.piece (sent ++ t.out)) :
    Verbatim family input future (turn parse t).filter (turn parse t).piece
      (sent ++ (turn parse t).out) := by
  rw [turn]
  split
  next hphase => exact contentTurn_verbatim hphase h
  next hphase => exact tagTurn_verbatim hphase h
  next hphase => exact bodyTurn_verbatim hphase h

/-- Nothing is complete in what the filter holds. -/
def Settled (s : StreamToolCallFilter) : Prop :=
  (s.phase = .tag → (scanToolTag s.tagBuf s.family).opens = none) ∧
    (s.phase = .body → find s.closeTag s.bodyBuf = none)

theorem turn_returns (h : (turn parse t).returns = true) :
    (turn parse t).piece = [] ∧ Settled (turn parse t).filter := by
  unfold turn at h ⊢
  split at h
  next hphase => grind [contentTurn, Settled]
  next hphase => grind [tagTurn, Settled, ToolTagScan.opens]
  next hphase =>
    obtain ⟨streaming, more, hpump, -⟩ :=
      pumpBody_frame { t.filter with bodyBuf := t.filter.bodyBuf ++ t.piece } t.out
    grind [bodyTurn, Settled]

/-- A turn that goes on leaves less to do. -/
theorem turn_measure (hclose : t.filter.phase = .body → t.filter.closeTag ≠ [])
    (h : (turn parse t).returns = false) : (turn parse t).measure < t.measure := by
  unfold turn at h ⊢
  split at h
  next hphase =>
    have hrest : (if t.filter.trimWs then t.piece.dropWhile isSpace else t.piece).length ≤
        t.piece.length := by
      split_ifs
      · exact (dropWhile_sublist _).length_le
      · exact le_rfl
    grind [contentTurn, Turn.measure]
  next hphase =>
    grind [tagTurn, Turn.measure, scanToolTag_opened]
  next hphase =>
    obtain ⟨streaming, more, hpump, -⟩ :=
      pumpBody_frame { t.filter with bodyBuf := t.filter.bodyBuf ++ t.piece } t.out
    simp only [bodyTurn, hpump] at h ⊢
    split at h
    · cases h
    next pos hpos =>
      have hlength := (find_eq_some hpos).1.length_le
      have hpos := length_pos_iff.mpr (hclose hphase)
      simp only [hphase, Turn.measure, length_append, length_drop, length_nil]
        at hlength ⊢
      omega

variable (parse) in
/-- Enough fuel: the turns end, with nothing left of the piece. -/
theorem turns_verbatim {fuel : Nat} (hfuel : t.measure < fuel)
    (h : Verbatim family input future t.filter t.piece (sent ++ t.out)) :
    ∃ t', turns parse fuel t = some t' ∧ Settled t'.filter ∧
      Verbatim family input future t'.filter [] (sent ++ t'.out) := by
  induction fuel generalizing t with
  | zero => exact absurd hfuel (Nat.not_lt_zero _)
  | succ fuel ih =>
    have hnext := turn_verbatim parse h
    rw [turns]
    split_ifs with hreturns
    · obtain ⟨hpiece, hsettled⟩ := turn_returns hreturns
      exact ⟨_, rfl, hsettled, hpiece ▸ hnext⟩
    · have hless := turn_measure h.closeTag_ne_nil (Bool.not_eq_true _ ▸ hreturns)
      exact ih (by omega) hnext

variable {pieces : List (List UInt8)}

variable (parse) in
theorem feedAll_verbatim_from (hsettled : Settled s)
    (h : Verbatim family input pieces.flatten s [] sent) :
    ∃ s' out, feedAll parse s pieces = some (s', out) ∧ Settled s' ∧
      Verbatim family input [] s' [] (sent ++ out) := by
  induction pieces generalizing s sent with
  | nil => exact ⟨s, [], rfl, hsettled, by rwa [append_nil]⟩
  | cons piece pieces ih =>
    have hstart : Verbatim family input pieces.flatten s piece (sent ++ []) := by
      rw [append_nil]
      exact { h with whole := h.whole }
    obtain ⟨t, hturns, ht, hnext⟩ := turns_verbatim parse
      (t := { filter := s, piece, out := [] }) (Nat.lt_succ_self _) hstart
    obtain ⟨s', out, hfeed, hs'⟩ := ih ht hnext
    refine ⟨s', t.out ++ out, ?_, by rwa [← append_assoc]⟩
    simp [feedAll, feed, hturns, hfeed]

/-- At the end all that is to come is held. -/
theorem Verbatim.finish_eq (h : Verbatim family input [] s [] out) (hsettled : Settled s)
    (hcall : ¬ hasCall out) : texts out ++ finish s = restored family input := by
  have hheld : toCome s [] = s.tagBuf ++ s.openText ++ s.bodyBuf := by
    rw [toCome]
    split
    next hphase =>
      have hnil : restored s.family [] = [] := restored_of_none (by cases s.family <;> rfl)
      simp [h.tagBuf (by simp [hphase]), h.body (by simp [hphase]), hnil]
    next hphase =>
      rw [append_nil, restored_of_none (by simp [bodyEnd, hsettled.1 hphase])]
      simp [h.body (by simp [hphase])]
    next hphase =>
      rw [append_nil, restoredBody, hsettled.2 hphase]
      simp [h.tagBuf (by simp [hphase])]
  rw [finish, callOpen, h.started hcall, Bool.and_false, if_neg Bool.false_ne_true, ← hheld]
  exact h.whole hcall

variable (parse family pieces) in
/-- However a text without a call is cut, it comes back without the white space behind its bodies,
and so as it was if and only if there is none. -/
theorem feedAll_verbatim :
    ∃ s out, feedAll parse { family } pieces = some (s, out) ∧ (¬ hasCall out →
      texts out ++ finish s = restored family pieces.flatten ∧
      (texts out ++ finish s = pieces.flatten ↔ Clean family pieces.flatten)) := by
  have hstart : Verbatim family pieces.flatten pieces.flatten { family } [] [] :=
    { same := rfl, closes := nofun, tagBuf := fun _ => rfl, body := fun _ => ⟨rfl, rfl⟩
      armed := nofun, started := fun _ => rfl, whole := fun _ => rfl }
  obtain ⟨s, out, hfeed, hsettled, h⟩ := feedAll_verbatim_from parse
    (s := { family }) ⟨nofun, nofun⟩ hstart
  refine ⟨s, out, hfeed, fun hcall => ?_⟩
  have hback := h.finish_eq hsettled hcall
  exact ⟨hback, hback ▸ restored_eq_iff family pieces.flatten⟩

/-- A close marker without an open one is text. -/
theorem feedAll_verbatim_unopened :
    Clean .chatml (ascii "end it with </tool_call> please") ∧ ∃ s out,
      feedAll (fun _ _ _ => none) { family := .chatml }
        [ascii "end it with </tool_", ascii "call> please"] = some (s, out) ∧
      (¬ hasCall out → texts out ++ finish s = ascii "end it with </tool_call> please") := by
  have hclean : Clean .chatml (ascii "end it with </tool_call> please") := by
    have hnone : bodyEnd .chatml (ascii "end it with </tool_call> please") = none := by
      decide +kernel
    rw [Clean]
    split <;> simp_all
  obtain ⟨s, out, hfeed, h⟩ := feedAll_verbatim (fun _ _ _ => none) .chatml
    [ascii "end it with </tool_", ascii "call> please"]
  exact ⟨hclean, s, out, hfeed, fun hcall => (h hcall).2.mpr hclean⟩

/-- The white space behind a body that was restored is lost. -/
theorem restored_body_loses_space :
    (feedAll (fun _ _ _ => none) { family := .chatml }
      [ascii "<tool_call>x</tool_call> hello"]).map (fun (s, out) => (out, finish s)) =
    some ([.text (ascii "<tool_call>x</tool_call>hello")], []) := by
  decide +kernel

end ToolStream

end Quench
