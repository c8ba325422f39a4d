import Quench.Lib.Table
import Quench.Memory.BlockPool

/-!
# Sliding-window block tables

The second, positional block table `KVCacheManager` keeps per sequence when SWA-aware sizing is on
(`memory/kv_cache_manager.cpp`, `swa_prepare` and below). Windowed layers take their blocks from a
group with its own id space; a slot outside the trailing window holds `-1`. The tables own raw ids,
not handles.
-/

namespace Quench

open Lib

/-- The SWA block group with the table and the trim cursor of each sequence.
A window of `0` means the feature is off. -/
structure SwaTables where
  window : Int
  slack : Int
  pool : BlockPool
  seqSwaBlocks : Table Int (List Int)
  trimCursor : Table Int Int

namespace SwaTables

/-- The state before `enable_swa_sizing`, over a group of this many blocks. -/
def fresh (numBlocks : Nat) : SwaTables where
  window := 0
  slack := 0
  pool := BlockPool.openSlots numBlocks
  seqSwaBlocks := ∅
  trimCursor := ∅

variable (swa : SwaTables)

/-- `enable_swa_sizing`: ignored without a block group or a window. The slack covers at least the
partially filled boundary block. -/
def enableSwaSizing (blockSize : Nat) (windowTokens slackTokens : Int) : SwaTables :=
  if swa.pool.numBlocks = 0 ∨ windowTokens ≤ 0 then swa
  else { swa with window := windowTokens, slack := max slackTokens blockSize }

/-- `allocate_swa_block`: a block of the group, or `-1` when it is exhausted. -/
def allocateSwaBlock : Int × SwaTables :=
  let (ref, pool) := swa.pool.acquire
  (BlockRef.id ref, { swa with pool })

/-- `free_swa_block`: release a block by id. -/
def freeSwaBlock (block : Int) : SwaTables :=
  { swa with pool := swa.pool.decRef block }

/-- Release every live id of a list of slots. -/
def freeSlots (slots : List Int) : SwaTables :=
  slots.foldl (fun swa block => if 0 ≤ block then swa.freeSwaBlock block else swa) swa

/-- The slot loop of `swa_prepare`: fill the holes of `[block, block + count)`, and stop at the
first one the group cannot serve. -/
def fillSlots : Nat → Nat → List Int → SwaTables → Bool × List Int × SwaTables
  | 0, _, slots, swa => (true, slots, swa)
  | count + 1, block, slots, swa =>
    if 0 ≤ slots.getD block (-1) then fillSlots count (block + 1) slots swa
    else
      let (id, swa) := swa.allocateSwaBlock
      if id < 0 then (false, slots, swa)
      else fillSlots count (block + 1) (slots.set block id) swa

/-- `swa_prepare` for a sequence whose global table has `tableLength` slots: pad the SWA table to
that length and make every slot live that a forward over `[fromTokens, uptoTokens)` writes or
reads. -/
def swaPrepare (blockSize : Nat) (seq : Int) (tableLength : Option Nat)
    (fromTokens uptoTokens : Int) : Bool × SwaTables :=
  if swa.window ≤ 0 ∨ uptoTokens ≤ 0 then (true, swa)
  else
    match tableLength with
    | none => (true, swa)
    | some tableLength =>
      let old := (swa.seqSwaBlocks.lookup seq).getD []
      let slots := old ++ List.replicate (tableLength - old.length) (-1)
      let liveStart := min fromTokens uptoTokens - swa.window - swa.slack
      let firstLive := if 0 < liveStart then (liveStart / blockSize).toNat else 0
      let endBlock := min ((uptoTokens + blockSize - 1) / blockSize).toNat slots.length
      let (ok, slots, swa) := fillSlots (endBlock - firstLive) firstLive slots swa
      (ok, { swa with seqSwaBlocks := swa.seqSwaBlocks.insert seq slots })

/-- `swa_trim`: release the slots that end at or below the window of `committedTokens`, starting
at the sequence's cursor. -/
def swaTrim (blockSize : Nat) (seq committedTokens : Int) : SwaTables :=
  if swa.window ≤ 0 then swa
  else
    match swa.seqSwaBlocks.lookup seq with
    | none => swa
    | some slots =>
      let deadEnd := committedTokens - swa.window - swa.slack
      if deadEnd ≤ 0 then swa
      else
        let deadBlocks := min (deadEnd / blockSize) slots.length
        let cursor := (swa.trimCursor.lookup seq).getD 0
        let count := (deadBlocks - cursor).toNat
        let dead := (slots.drop cursor.toNat).take count
        let swa := swa.freeSlots dead
        { swa with
          seqSwaBlocks := swa.seqSwaBlocks.insert seq
            (slots.take cursor.toNat ++ List.replicate dead.length (-1) ++
              slots.drop (cursor.toNat + dead.length))
          trimCursor := swa.trimCursor.insert seq (max cursor deadBlocks) }

variable (seq : Int)

/-- The SWA part of `free_sequence`: release every live slot and forget the sequence. -/
def freeSequence : SwaTables :=
  match swa.seqSwaBlocks.lookup seq with
  | none => swa
  | some slots =>
    let swa := swa.freeSlots slots
    { swa with
      seqSwaBlocks := swa.seqSwaBlocks.erase seq
      trimCursor := swa.trimCursor.erase seq }

/-- The SWA part of `rollback`: drop the tail in lockstep with the global table. -/
def rollback (blocksNeeded : Nat) : SwaTables :=
  match swa.seqSwaBlocks.lookup seq with
  | none => swa
  | some slots =>
    let swa := swa.freeSlots (slots.drop blocksNeeded).reverse
    { swa with
      seqSwaBlocks := swa.seqSwaBlocks.insert seq (slots.take blocksNeeded)
      trimCursor :=
        match swa.trimCursor.lookup seq with
        | none => swa.trimCursor
        | some cursor => swa.trimCursor.insert seq (min cursor blocksNeeded) }

end SwaTables

end Quench
