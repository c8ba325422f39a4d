import Quench.Server.StopHoldback
import Quench.Server.ToolStreamFilter

/-!
# Harmony channels

`split_harmony_channels` of `tools/quench-server/utils.cpp`, which takes a whole reply apart, and
the Harmony filter of `run_stream_loop_`, which routes the pieces of a reply as they come. The
splitter knows the name of a channel at its marker; the filter collects it until the message marker,
and keeps it behind the end of the block.

A message behind no channel that both know is sent by the filter as content, or to the channel
before (`unannounced_message`). `channels_routed_alike` says that the two agree on the reply exactly
if no such text is left when the white space around what is sent to each sink is taken away
(`Announced`).
-/

namespace Quench.Harmony

open Lib List ToolStream

def channelMark : List UInt8 := ascii "<|channel|>"

def messageMark : List UInt8 := ascii "<|message|>"

def endMark : List UInt8 := ascii "<|end|>"

def startMark : List UInt8 := ascii "<|start|>"

def returnMark : List UInt8 := ascii "<|return|>"

def marks : List (List UInt8) := [channelMark, messageMark, endMark, returnMark, startMark]

/-- The character that each marker starts with, and no other piece has. -/
def angle : UInt8 := '<'.toUInt8

def isReasoning (channel : List UInt8) : Bool :=
  channel == ascii "analysis" || channel == ascii "commentary"

/-! ## The whole reply -/

/-- `ChannelSegments`, with the channel and whether a message is read. -/
structure Split where
  reasoning : List UInt8 := []
  content : List UInt8 := []
  other : List UInt8 := []
  cur : List UInt8 := []
  inMsg : Bool := false

/-- `emit` for a text, if a message is read. -/
def Split.emit (st : Split) (text : List UInt8) : Split :=
  if !st.inMsg then st
  else if isReasoning st.cur then { st with reasoning := st.reasoning ++ text }
  else if st.cur = ascii "final" then { st with content := st.content ++ text }
  else { st with other := st.other ++ text }

/-- A name, up to a marker or the character that markers start with. -/
def upTo (stops : List (List UInt8)) : List UInt8 → List UInt8 × List UInt8
  | [] => ([], [])
  | c :: rest =>
    if stops.any (·.isPrefixOf (c :: rest)) || c == angle then ([], c :: rest)
    else (c :: (upTo stops rest).1, (upTo stops rest).2)

theorem upTo_length (stops : List (List UInt8)) (text : List UInt8) :
    (upTo stops text).2.length ≤ text.length := by
  fun_induction upTo stops text with
  | case1 => exact le_rfl
  | case2 => exact le_rfl
  | case3 c rest _ ih => exact le_trans ih (Nat.le_succ _)

/-- The loop of `split_harmony_channels` over the text from an index on. -/
def split (text : List UInt8) (st : Split) : Split :=
  match text with
  | [] => st
  | c :: rest =>
    if channelMark.isPrefixOf (c :: rest) then
      let name := upTo [messageMark, endMark, startMark, channelMark] (rest.drop 10)
      split name.2 { st with cur := trim name.1, inMsg := false }
    else if messageMark.isPrefixOf (c :: rest) then split (rest.drop 10) { st with inMsg := true }
    else if endMark.isPrefixOf (c :: rest) then
      split (rest.drop 6) { st with inMsg := false, cur := [] }
    else if returnMark.isPrefixOf (c :: rest) then
      split (rest.drop 9) { st with inMsg := false, cur := [] }
    else if startMark.isPrefixOf (c :: rest) then
      split (upTo [channelMark, messageMark] (rest.drop 8)).2 { st with inMsg := false, cur := [] }
    else split rest (st.emit [c])
termination_by text.length
decreasing_by all_goals grind [upTo_length]

def splitHarmonyChannels (text : List UInt8) : Split :=
  let out := split text {}
  { out with reasoning := trim out.reasoning, content := trim out.content, other := trim out.other }

/-! ## The pieces -/

/-- `hm_channel`, `hm_name`, `hm_buf`, `hm_in_msg` and `hm_reading_name`, and what was emitted. -/
structure Filter where
  channel : List UInt8 := []
  name : List UInt8 := []
  buf : List UInt8 := []
  inMsg : Bool := false
  readingName : Bool := false
  reasoning : List UInt8 := []
  content : List UInt8 := []

-- `harmony_reasoning_on`
variable (reasoningOn : Bool)

/-- `hm_flush`. -/
def Filter.flush (h : Filter) (force : Bool) : Filter :=
  let complete := if force then h.buf.length else Stream.utf8CompleteLen h.buf
  if complete = 0 then h
  else
    let chunk := h.buf.take complete
    let h := { h with buf := h.buf.drop complete }
    if isReasoning h.channel then
      if reasoningOn then { h with reasoning := h.reasoning ++ chunk } else h
    else { h with content := h.content ++ chunk }

/-- One piece in `run_stream_loop_`. -/
def Filter.next (h : Filter) (piece : List UInt8) : Filter :=
  if marks.contains piece then
    let h := if h.inMsg then h.flush reasoningOn true else h
    if piece = channelMark then { h with readingName := true, inMsg := false, name := [] }
    else if piece = messageMark then
      { h with channel := trim h.name, readingName := false, inMsg := true }
    else { h with inMsg := false, readingName := false, channel := [] }
  else if h.readingName then { h with name := h.name ++ piece }
  else if !h.inMsg then h
  else Filter.flush reasoningOn { h with buf := h.buf ++ piece } false

/-- The filter over all pieces, with the flush at the end. -/
def filterHarmony (pieces : List (List UInt8)) : Filter :=
  let h := pieces.foldl (Filter.next reasoningOn) {}
  if h.buf ≠ [] then h.flush reasoningOn true else h

/-! ## When they agree -/

/-- The plain text in front of the next marker. -/
def plainText (pieces : List (List UInt8)) : List UInt8 :=
  (pieces.takeWhile (!marks.contains ·)).flatten

/-- The channels that both paths know. -/
def known : List (List UInt8) := [ascii "analysis", ascii "commentary", ascii "final"]

/-- A byte of a message, the kind of the channel that was named last in front of it, and whether
that is a channel that both paths know and no block has ended since. -/
structure Carried where
  reasoning : Bool
  announced : Bool
  byte : UInt8
  deriving DecidableEq, Repr

/-- The bytes of a piece, if a message is read. -/
def carriedBytes (name : List UInt8) (announced inMsg : Bool) (piece : List UInt8) : List Carried :=
  if inMsg then piece.map fun c => ⟨isReasoning name, announced && known.contains name, c⟩ else []

/-- The bytes that the messages of a reply carry, behind the name of a channel. -/
def carried (name : List UInt8) (announced inMsg : Bool) : List (List UInt8) → List Carried
  | [] => []
  | piece :: pieces =>
    if piece = channelMark then carried (trim (plainText pieces)) true false pieces
    else if piece = messageMark then carried name announced true pieces
    else if marks.contains piece then carried name false false pieces
    else carriedBytes name announced inMsg piece ++ carried name announced inMsg pieces

/-- Between the white space around what goes to each sink, all text is announced. -/
def Announced (pieces : List (List UInt8)) : Prop :=
  ∀ sink : Bool, ∀ x ∈ Lib.trimBy (isSpace ∘ Carried.byte)
    ((carried [] false false pieces).filter (·.reasoning == sink)), x.announced = true

instance (pieces : List (List UInt8)) : Decidable (Announced pieces) :=
  inferInstanceAs (Decidable (∀ _ : Bool, ∀ x ∈ Lib.trimBy _ _, _ = _))

/-! ## The splitter over pieces -/

variable {c : UInt8} {text rest piece : List UInt8} {st : Split} {pieces : List (List UInt8)}
variable {stops : List (List UInt8)} {h : Filter}

theorem head_mark : ∀ mark ∈ marks, mark.head? = some angle := by
  decide

theorem not_isPrefixOf {mark : List UInt8} (hmark : mark.head? = some angle) (hc : c ≠ angle) :
    ¬ mark.isPrefixOf (c :: rest) := by
  obtain ⟨tail, rfl⟩ := head?_eq_some_iff.mp hmark
  simp [Ne.symm hc]

/-- The markers start with the character, so that it alone ends the name. -/
theorem upTo_eq (hstops : ∀ stop ∈ stops, stop.head? = some angle) (text : List UInt8) :
    upTo stops text = (text.takeWhile (· != angle), text.dropWhile (· != angle)) := by
  induction text with
  | nil => rfl
  | cons c rest ih =>
    by_cases hc : c = angle
    · simp [upTo, hc]
    · have hany : stops.any (·.isPrefixOf (c :: rest)) = false :=
        any_eq_false.mpr fun stop hstop => not_isPrefixOf (hstops stop hstop) hc
      simp [upTo, hany, hc, ih]

theorem Split.emit_closed (hmsg : st.inMsg = false) : st.emit text = st := by
  rw [Split.emit, hmsg, Bool.not_false, if_pos rfl]

theorem Split.emit_append (st : Split) (first second : List UInt8) :
    (st.emit first).emit second = st.emit (first ++ second) := by
  unfold Split.emit
  split_ifs <;> simp_all

theorem split_plain (hpiece : angle ∉ piece) (text : List UInt8) (st : Split) :
    split (piece ++ text) st = split text (st.emit piece) := by
  induction piece generalizing st with
  | nil => simp [Split.emit]
  | cons c piece ih =>
    obtain ⟨hc, hpiece⟩ := not_or.mp (mem_cons.not.mp hpiece)
    have hmark : ∀ mark ∈ marks, ¬ mark.isPrefixOf (c :: (piece ++ text)) := fun mark hmark =>
      not_isPrefixOf (head_mark mark hmark) (Ne.symm hc)
    simp only [marks, forall_mem_cons] at hmark
    obtain ⟨hchannel, hmessage, hend, hreturn, hstart, _⟩ := hmark
    rw [cons_append, split, if_neg hchannel, if_neg hmessage, if_neg hend, if_neg hreturn,
      if_neg hstart, ih hpiece, Split.emit_append, singleton_append]

/-- The name of a channel may be read as text outside a message. -/
theorem split_name (st : Split) (hst : st.inMsg = false) (text : List UInt8) :
    split (text.dropWhile (· != angle)) st = split text st := by
  conv_rhs => rw [← takeWhile_append_dropWhile (p := (· != angle)) (l := text)]
  rw [split_plain (fun hmem => by simpa using mem_takeWhile_imp hmem), Split.emit_closed hst]

theorem split_channel : split (channelMark ++ text) st =
    split text { st with cur := trim (text.takeWhile (· != angle)), inMsg := false } := by
  rw [split.eq_def]
  change split (upTo _ text).2 { st with cur := trim (upTo _ text).1, inMsg := false } = _
  rw [upTo_eq (by decide), split_name _ rfl]

theorem split_message : split (messageMark ++ text) st = split text { st with inMsg := true } := by
  rw [split.eq_def]
  rfl

/-- The ends of a block, and the role behind a start. -/
theorem split_closed (hmark : piece ∈ [endMark, returnMark, startMark]) :
    split (piece ++ text) st = split text { st with inMsg := false, cur := [] } := by
  rw [split.eq_def]
  simp only [mem_cons, not_mem_nil, or_false] at hmark
  obtain rfl | rfl | rfl := hmark
  · rfl
  · rfl
  · change split (upTo _ text).2 _ = _
    rw [upTo_eq (by decide), split_name _ rfl]

/-- What stands before the next character of a marker is the text before the next marker. -/
theorem takeWhile_flatten (hpieces : ∀ piece ∈ pieces, piece ∉ marks → angle ∉ piece) :
    pieces.flatten.takeWhile (· != angle) = plainText pieces := by
  induction pieces with
  | nil => rfl
  | cons piece pieces ih =>
    obtain ⟨hpiece, hpieces⟩ := forall_mem_cons.mp hpieces
    by_cases hmark : piece ∈ marks
    · obtain ⟨rest, rfl⟩ := head?_eq_some_iff.mp (head_mark piece hmark)
      simp [plainText, hmark]
    · have hall : ∀ c ∈ piece, (c != angle) = true := fun c hc =>
        bne_iff_ne.mpr fun hangle => hpiece hmark (hangle ▸ hc)
      rw [flatten_cons, takeWhile_append_of_pos hall, ih hpieces]
      simp [plainText, hmark]

/-! ## The filter beside the splitter -/

/-- A flush moves the text to the sink of the channel. -/
theorem Filter.flush_eq (h : Filter) (force : Bool) : h.flush true force =
    let complete := if force then h.buf.length else Stream.utf8CompleteLen h.buf
    { h with
      buf := h.buf.drop complete
      reasoning := h.reasoning ++ if isReasoning h.channel then h.buf.take complete else []
      content := h.content ++ if isReasoning h.channel then [] else h.buf.take complete } := by
  unfold Filter.flush
  generalize (if force then h.buf.length else Stream.utf8CompleteLen h.buf) = complete
  by_cases hzero : complete = 0
  · simp [hzero]
  · cases hchannel : isReasoning h.channel <;> simp [hzero, hchannel]

/-- What the filter has sent to a sink, with what it holds back for it. -/
def Filter.sent (h : Filter) (sink : Bool) : List UInt8 :=
  (if sink then h.reasoning else h.content) ++ if isReasoning h.channel = sink then h.buf else []

/-- What the splitter has for a sink. -/
def Split.sent (st : Split) (sink : Bool) : List UInt8 :=
  if sink then st.reasoning else st.content

theorem Filter.sent_flush (h : Filter) (force sink : Bool) :
    (h.flush true force).sent sink = h.sent sink := by
  rw [Filter.flush_eq, Filter.sent, Filter.sent]
  cases isReasoning h.channel <;> cases sink <;> simp

/-- The filter and the splitter in front of the same pieces, behind the name of a channel. -/
structure Beside (pieces : List (List UInt8)) (name : List UInt8) (announced : Bool) (h : Filter)
    (st : Split) : Prop where
  inMsg : st.inMsg = h.inMsg
  held : h.inMsg = false → h.buf = []
  channel : h.inMsg = true → h.channel = name
  cur : st.cur = if announced then name else []
  reading : h.readingName = true → h.inMsg = false
  name : trim (h.name ++ if h.readingName then plainText pieces else []) = name

/-- All bytes of a piece go to one sink. -/
theorem carried_all (name : List UInt8) (announced sink : Bool) (piece : List UInt8) :
    ((carriedBytes name announced true piece).filter (·.reasoning == sink)).map Carried.byte =
      if isReasoning name = sink then piece else [] := by
  simp only [carriedBytes, if_true, filter_map, map_map]
  split_ifs with hsink
  · simp [Function.comp_def, hsink]
  · simp [Function.comp_def, hsink]

theorem carried_announced (name : List UInt8) (announced sink : Bool) (piece : List UInt8) :
    (((carriedBytes name announced true piece).filter (·.reasoning == sink)).filter
        Carried.announced).map Carried.byte =
      if isReasoning name = sink ∧ announced ∧ name ∈ known then piece else [] := by
  simp only [carriedBytes, if_true, filter_map, map_map, filter_filter]
  split_ifs with hsink
  · simp [Function.comp_def, hsink]
  · simp only [not_and] at hsink
    by_cases hname : isReasoning name = sink
    · simpa [Function.comp_def, hname] using fun _ _ => hsink hname
    · simp [Function.comp_def, hname]

namespace Beside

variable {name : List UInt8} {announced : Bool}

section Step

variable (hbeside : Beside (piece :: pieces) name announced h st)
include hbeside

/-- A marker sends what is held back. -/
theorem closed : ∃ h' : Filter, (if h.inMsg then h.flush true true else h) = h' ∧ h'.buf = [] ∧
    h'.name = h.name ∧ h'.readingName = h.readingName ∧ ∀ sink, h'.sent sink = h.sent sink := by
  refine ⟨_, rfl, ?_⟩
  split_ifs with hmsg
  · exact ⟨by simp [Filter.flush_eq], by simp [Filter.flush_eq], by simp [Filter.flush_eq],
      h.sent_flush true⟩
  · exact ⟨hbeside.held (Bool.eq_false_of_not_eq_true hmsg), rfl, rfl, fun _ => rfl⟩

theorem channelMark (hpiece : piece = channelMark) :
    Beside pieces (trim (plainText pieces)) true (h.next true piece)
        { st with cur := trim (plainText pieces), inMsg := false } ∧
      (h.next true piece).inMsg = false ∧ ∀ sink, (h.next true piece).sent sink = h.sent sink := by
  obtain ⟨h', hclosed, hbuf, -, -, hsent⟩ := hbeside.closed
  rw [Filter.next, hclosed, hpiece, if_pos (by decide), if_pos rfl]
  refine ⟨?_, rfl, hsent⟩
  constructor <;> simp [hbuf]

theorem messageMark (hpiece : piece = messageMark) :
    Beside pieces name announced (h.next true piece) { st with inMsg := true } ∧
      (h.next true piece).inMsg = true ∧ ∀ sink, (h.next true piece).sent sink = h.sent sink := by
  have hplain : plainText (piece :: pieces) = [] := by
    simp [plainText, hpiece, show Harmony.messageMark ∈ marks by decide]
  have hname := hbeside.name
  rw [hplain, ite_self, append_nil] at hname
  obtain ⟨h', hclosed, hbuf, hsame, -, hsent⟩ := hbeside.closed
  rw [Filter.next, hclosed, hpiece, if_pos (by decide), if_neg (by decide), if_pos rfl]
  refine ⟨?_, rfl, fun sink => .trans ?_ (hsent sink)⟩
  · constructor <;> simp [hbuf, hsame, hname, hbeside.cur]
  · simp [Filter.sent, hbuf]

theorem closers (hmark : piece ∈ marks) (hchannel : piece ≠ Harmony.channelMark)
    (hmessage : piece ≠ Harmony.messageMark) :
    Beside pieces name false (h.next true piece) { st with inMsg := false, cur := [] } ∧
      (h.next true piece).inMsg = false ∧ ∀ sink, (h.next true piece).sent sink = h.sent sink := by
  have hplain : plainText (piece :: pieces) = [] := by simp [plainText, hmark]
  have hname := hbeside.name
  rw [hplain, ite_self, append_nil] at hname
  obtain ⟨h', hclosed, hbuf, hsame, -, hsent⟩ := hbeside.closed
  rw [Filter.next, hclosed, if_pos (contains_iff_mem.mpr hmark), if_neg hchannel, if_neg hmessage]
  refine ⟨?_, rfl, fun sink => .trans ?_ (hsent sink)⟩
  · constructor <;> simp [hbuf, hsame, hname]
  · simp [Filter.sent, hbuf]

theorem plain (hpiece : piece ∉ marks) :
    Beside pieces name announced (h.next true piece) (st.emit piece) ∧
      (h.next true piece).inMsg = h.inMsg ∧ ∀ sink,
        let text := (carriedBytes name announced h.inMsg piece).filter (·.reasoning == sink)
        (h.next true piece).sent sink = h.sent sink ++ text.map Carried.byte ∧
          (st.emit piece).sent sink =
            st.sent sink ++ (text.filter Carried.announced).map Carried.byte := by
  have hplain : plainText (piece :: pieces) = piece ++ plainText pieces := by
    simp [plainText, hpiece]
  have hname := hbeside.name
  rw [Filter.next, if_neg (contains_iff_mem.not.mpr hpiece)]
  by_cases hmsg : h.inMsg = true
  · have hchannel := hbeside.channel hmsg
    have hreading : ¬ h.readingName = true := fun hreading => by
      simp [hbeside.reading hreading] at hmsg
    rw [if_neg hreading, append_nil] at hname
    rw [if_neg hreading, if_neg (by simp [hmsg])]
    have hcur : (st.emit piece).cur = st.cur ∧ (st.emit piece).inMsg = st.inMsg := by
      unfold Split.emit
      split_ifs <;> exact ⟨rfl, rfl⟩
    refine ⟨?_, by simp [Filter.flush_eq], fun sink => ?_⟩
    · refine ⟨?_, ?_, ?_, hcur.1.trans hbeside.cur, ?_, ?_⟩
      · simp [hcur.2, hbeside.inMsg, Filter.flush_eq]
      · simp [Filter.flush_eq, hmsg]
      · simpa [Filter.flush_eq, hmsg] using hchannel
      · simp [Filter.flush_eq, hreading]
      · simpa [Filter.flush_eq, hreading] using hname
    · have hin : st.inMsg = true := hbeside.inMsg.trans hmsg
      rw [hmsg]
      refine ⟨?_, ?_⟩
      · rw [carried_all, Filter.sent_flush, Filter.sent, Filter.sent, hchannel]
        cases isReasoning name <;> cases sink <;> simp
      · rw [carried_announced]
        cases announced with
        | false => cases sink <;> simp +decide [Split.emit, Split.sent, hin, hbeside.cur]
        | true =>
          have hcur : st.cur = name := hbeside.cur
          by_cases hknown : name ∈ known
          · have hcases := hknown
            simp only [known, mem_cons, not_mem_nil, or_false] at hcases
            obtain heq | heq | heq := hcases <;> cases sink <;>
              simp +decide [Split.emit, Split.sent, hin, hcur, heq]
          · have hfinal : isReasoning name = false ∧ name ≠ ascii "final" := by
              simp only [known, mem_cons, not_mem_nil, or_false, not_or] at hknown
              simpa [isReasoning, and_assoc] using hknown
            cases sink <;> simp [Split.emit, Split.sent, hin, hcur, hfinal, hknown]
  · have hclosed : h.inMsg = false := Bool.eq_false_of_not_eq_true hmsg
    rw [Split.emit_closed (hbeside.inMsg.trans hclosed)]
    by_cases hreading : h.readingName = true
    · rw [if_pos hreading, hplain, ← append_assoc] at hname
      rw [if_pos hreading]
      refine ⟨{ hbeside with name := by rwa [if_pos hreading] }, rfl, fun sink => ?_⟩
      simp [hclosed, carriedBytes, Filter.sent]
    · rw [if_neg hreading] at hname
      rw [if_neg hreading, if_pos (by simp [hclosed])]
      refine ⟨{ hbeside with name := by rwa [if_neg hreading] }, rfl, fun sink => ?_⟩
      simp [hclosed, carriedBytes]

end Step

/-- The filter sends all the text that the messages carry, and the splitter what is announced of
it. -/
theorem run (hbeside : Beside pieces name announced h st)
    (hpieces : ∀ piece ∈ pieces, piece ∉ marks → angle ∉ piece) (sink : Bool) :
    let text := (carried name announced h.inMsg pieces).filter (·.reasoning == sink)
    (pieces.foldl (Filter.next true) h).sent sink = h.sent sink ++ text.map Carried.byte ∧
      (split pieces.flatten st).sent sink =
        st.sent sink ++ (text.filter Carried.announced).map Carried.byte := by
  induction pieces generalizing h st name announced with
  | nil => simp [carried, split]
  | cons piece pieces ih =>
    obtain ⟨hpiece, hpieces⟩ := forall_mem_cons.mp hpieces
    rw [flatten_cons, foldl_cons]
    unfold carried
    split_ifs with hchannel hmessage hmark
    · obtain ⟨hnext, hmsg, hsent⟩ := hbeside.channelMark hchannel
      have hrest := ih hnext hpieces
      rw [hmsg, hsent] at hrest
      rw [hchannel, split_channel, takeWhile_flatten hpieces, ← hchannel]
      exact hrest
    · obtain ⟨hnext, hmsg, hsent⟩ := hbeside.messageMark hmessage
      have hrest := ih hnext hpieces
      rw [hmsg, hsent] at hrest
      rw [hmessage, split_message, ← hmessage]
      exact hrest
    · have hmark := contains_iff_mem.mp hmark
      obtain ⟨hnext, hmsg, hsent⟩ := hbeside.closers hmark hchannel hmessage
      have hrest := ih hnext hpieces
      rw [hmsg, hsent] at hrest
      rw [split_closed (by simpa [marks, hchannel, hmessage] using hmark)]
      exact hrest
    · have hmark := contains_iff_mem.not.mp hmark
      obtain ⟨hnext, hmsg, hsent⟩ := hbeside.plain hmark
      have hrest := ih hnext hpieces
      rw [hmsg, (hsent sink).1, (hsent sink).2] at hrest
      rw [split_plain (hpiece hmark)]
      simpa using hrest

end Beside

/-- Both paths route a reply alike if and only if its text is announced. -/
theorem channels_routed_alike (pieces : List (List UInt8))
    (hpieces : ∀ piece ∈ pieces, piece ∉ marks → angle ∉ piece) :
    (trim (filterHarmony true pieces).content = (splitHarmonyChannels pieces.flatten).content ∧
      trim (filterHarmony true pieces).reasoning =
        (splitHarmonyChannels pieces.flatten).reasoning) ↔ Announced pieces := by
  have hstart : Beside pieces [] false {} {} := by constructor <;> simp [trim]
  have hout : ∀ sink, Filter.sent (filterHarmony true pieces) sink =
      Filter.sent (pieces.foldl (Filter.next true) {}) sink ∧
        (filterHarmony true pieces).buf = [] := by
    intro sink
    simp only [filterHarmony]
    split_ifs with hbuf
    · exact ⟨Filter.sent_flush _ true sink, by simp [Filter.flush_eq]⟩
    · exact ⟨rfl, not_not.mp hbuf⟩
  have hsink : ∀ sink, trim ((filterHarmony true pieces).sent sink) =
      trim ((split pieces.flatten {}).sent sink) ↔ ∀ x ∈ Lib.trimBy (isSpace ∘ Carried.byte)
        ((carried [] false false pieces).filter (·.reasoning == sink)), x.announced = true := by
    intro sink
    obtain ⟨hfilter, hsplit⟩ := hstart.run hpieces sink
    rw [(hout sink).1, hfilter, hsplit]
    refine Iff.trans ?_ (Lib.trimBy_filter_iff Carried.byte isSpace Carried.announced _)
    cases sink <;> exact Iff.rfl
  have hbuf := (hout true).2
  have hcontent : (filterHarmony true pieces).sent false = (filterHarmony true pieces).content := by
    simp [Filter.sent, hbuf]
  have hreasoning : (filterHarmony true pieces).sent true =
      (filterHarmony true pieces).reasoning := by
    simp [Filter.sent, hbuf]
  rw [Announced, Bool.forall_bool, ← hsink false, ← hsink true, hcontent, hreasoning]
  exact Iff.rfl

theorem channels_routed_alike_final :
    let pieces := [channelMark, ascii "final", messageMark, ascii "B", endMark, messageMark,
      ascii " ", endMark]
    trim (filterHarmony true pieces).content = (splitHarmonyChannels pieces.flatten).content :=
  ((channels_routed_alike _ (by decide)).mpr (by decide)).1

/-- The filter sends a message without a channel as content, and the splitter does not. -/
theorem unannounced_message : trim (filterHarmony true [messageMark, ascii "B"]).content ≠
    (splitHarmonyChannels [messageMark, ascii "B"].flatten).content := by
  decide +kernel

end Quench.Harmony
