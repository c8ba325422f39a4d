import Quench.Memory.HashRecords

/-!
# What the blocks hold

The manager hands out blocks and never looks into them. `World` adds what its callers do with them:
for every block and offset, the content salt and the tokens that the KV there was computed from, and
for every sequence the request that writes it.

`Legal` is what callers promise: a sequence does not write other tokens into blocks it reused or
published, it forwards its prompt, and it publishes only tokens it has forwarded. `Safe` is what
they do not promise and reuse needs: a sequence whose first block has no recorded hash is published
under the salt it was written under, and prefix caching is not switched off again.
-/

namespace Quench

open Lib

/-- The chained hash of the first blocks of a token sequence under a content salt. -/
def chainHash (blockSize : Nat) (salt : Hash) (tokens : List Token) : Nat → Hash
  | 0 => salt
  | n + 1 => computeBlockHash (blockTokens blockSize tokens n) (chainHash blockSize salt tokens n)

/-- The chained hash of all full blocks of a token sequence. -/
def fullHash (blockSize : Nat) (salt : Hash) (tokens : List Token) : Hash :=
  chainHash blockSize salt tokens (tokens.length / blockSize)

/-- What the KV at one position was computed from: the content salt, and the tokens up to and
including that position. -/
abbrev Written := Hash × List Token

/-- What has been written to each offset of each block. -/
abbrev Contents := Int → Nat → Option Written

/-- Write to one offset of one block. -/
def Contents.write (kv : Contents) (block : Int) (offset : Nat) (written : Written) : Contents :=
  fun other position =>
    if other = block ∧ position = offset then some written else kv other position

/-- The request behind a sequence: its content salt, the prompt it allocated for, the tokens whose
KV it has, and the number of leading blocks that others may share because they were reused or
published. -/
structure Session where
  salt : Hash
  prompt : List Token
  context : List Token
  frozen : Nat

/-- The manager, the contents of its blocks and the requests behind its sequences. -/
structure World where
  manager : KVCacheManager
  kv : Contents
  sessions : Int → Option Session

/-- One act on the world. A sequence that gets its first blocks by plain allocation is written under
the salt the call comes with. -/
inductive Act where
  | call (op : KVCacheManager.Op) (salt : Hash)
  | forward (seq : Int) (pos : Nat) (token : Token)
  | load (records : List (Hash × Bool)) (file : Hash → Written)

/-- A block holds the KV of one block of a token sequence: at every offset, the KV of that position
after exactly the tokens before it. -/
def Holds (kv : Contents) (blockSize : Nat) (block : Int) (salt : Hash) (tokens : List Token)
    (i : Nat) : Prop :=
  ∀ offset < blockSize, kv block offset = some (salt, tokens.take (i * blockSize + offset + 1))

/-- The hashes of the prefixes in play tell them and their salts apart. -/
def CollisionFree (blockSize : Nat) (InPlay : Hash → List Token → Prop) : Prop :=
  ∀ salt tokens salt' tokens', InPlay salt tokens → InPlay salt' tokens' →
    fullHash blockSize salt tokens = fullHash blockSize salt' tokens' →
      salt = salt' ∧ tokens = tokens'

namespace Session

/-- The session after a token was forwarded: writing another token at a position gives up the
context from there on. -/
def forward (σ : Session) (pos : Nat) (token : Token) : Session :=
  if σ.context[pos]? = some token then σ else { σ with context := σ.context.take pos ++ [token] }

/-- The session after its first tokens were published. -/
def publish (σ : Session) (blocks : Nat) : Session := { σ with frozen := max σ.frozen blocks }

/-- The session cut back to a length, which takes this many blocks. -/
def rewind (σ : Session) (length blocks : Nat) : Session :=
  { σ with context := σ.context.take length, frozen := min σ.frozen blocks }

end Session

namespace World

open KVCacheManager

/-- A new manager whose blocks hold nothing. -/
def fresh (blockSize totalBlocks swaBlocks : Nat) : World where
  manager := KVCacheManager.fresh blockSize totalBlocks swaBlocks
  kv _ _ := none
  sessions _ := none

variable (w : World)

/-- The session of a sequence. One that has none starts under this salt. -/
def session (seq : Int) (salt : Hash) : Session :=
  (w.sessions seq).getD ⟨salt, [], [], 0⟩

/-- What a call makes of the session of a sequence. -/
def renew (seq : Int) (σ : Session) : Op → Session
  | .allocateBlocksWithPrefix target tokens maxReuseBlocks contentSalt =>
    if seq = target ∧ tokens ≠ [] ∧ w.manager.blockTable target = [] then
      let reused := (w.manager.allocateBlocksWithPrefix target tokens maxReuseBlocks
        contentSalt).1.toNat
      { salt := contentSalt
        prompt := tokens
        context := tokens.take (reused * w.manager.blockSize)
        frozen := reused }
    else σ
  | .registerBlockHashes target tokens _ =>
    if seq = target then σ.publish (tokens.length / w.manager.blockSize) else σ
  | .rollback target newSeqLen =>
    if seq = target ∧ 0 ≤ newSeqLen then
      σ.rewind newSeqLen.toNat ((newSeqLen.toNat + w.manager.blockSize - 1) / w.manager.blockSize)
    else σ
  | _ => σ

/-- The world after a call. Only sequences with a table have a session. -/
def call (op : Op) (salt : Hash) : World :=
  { w with
    manager := w.manager.step op
    sessions := fun seq =>
      if ((w.manager.step op).seqBlocks.lookup seq).isSome then
        some (w.renew seq (w.session seq salt) op)
      else none }

/-- The world after the forward pass of one token: its KV goes to the slot of the position. -/
def forward (seq : Int) (pos : Nat) (token : Token) : World :=
  match w.sessions seq, (w.manager.blockTable seq)[pos / w.manager.blockSize]? with
  | some σ, some (some block) =>
    { w with
      kv := Contents.write w.kv block (pos % w.manager.blockSize)
        (σ.salt, σ.context.take pos ++ [token])
      sessions := fun other =>
        if other = seq then some (σ.forward pos token) else w.sessions other }
  | _, _ => w

/-- What an uploaded block holds: the last block of the tokens the file has under its hash. A failed
upload leaves nothing to rely on. -/
def uploaded (blockSize : Nat) (file : Hash → Written) (entry : Hash × Bool × Int) (offset : Nat) :
    Option Written :=
  if entry.2.1 then
    some ((file entry.1).1,
      (file entry.1).2.take ((file entry.1).2.length - blockSize + offset + 1))
  else none

/-- The contents after the entries of a load were uploaded to their blocks. -/
def upload (kv : Contents) (blockSize : Nat) (file : Hash → Written)
    (entries : List (Hash × Bool × Int)) : Contents := fun block offset =>
  match entries.find? fun entry => decide (entry.2.2 = block) with
  | some entry => uploaded blockSize file entry offset
  | none => kv block offset

/-- The world after a load of a persisted cache. -/
def load (records : List (Hash × Bool)) (file : Hash → Written) : World :=
  { w with
    manager := (w.manager.loadPrefixCache records).2
    kv :=
      if w.manager.prefixCachingEnabled then
        upload w.kv w.manager.blockSize file (loadRecords records w.manager).1
      else w.kv }

/-- The world after one act. -/
def step : Act → World
  | .call op salt => w.call op salt
  | .forward seq pos token => w.forward seq pos token
  | .load records file => w.load records file

/-- The world after a sequence of acts. -/
def run (acts : List Act) : World := acts.foldl step w

variable (InPlay : Hash → List Token → Prop)

/-- Every full prefix of these tokens is in play under a salt. -/
def AllInPlay (blockSize : Nat) (salt : Hash) (tokens : List Token) : Prop :=
  ∀ k < tokens.length / blockSize, InPlay salt (tokens.take ((k + 1) * blockSize))

/-- What a file promises: under every hash, whole blocks of tokens that hash to it. -/
def FileOk (blockSize : Nat) (records : List (Hash × Bool)) (file : Hash → Written) : Prop :=
  ∀ record ∈ records, InPlay (file record.1).1 (file record.1).2 ∧
    0 < (file record.1).2.length ∧ blockSize ∣ (file record.1).2.length ∧
    record.1 = fullHash blockSize (file record.1).1 (file record.1).2

/-- What callers promise, given the prefixes in play. -/
def Legal (w : World) : Act → Prop
  | .forward seq pos token =>
    ∃ σ ∈ w.sessions seq, pos ≤ σ.context.length ∧
      (σ.frozen * w.manager.blockSize ≤ pos ∨ σ.context[pos]? = some token) ∧
      (pos < σ.prompt.length → σ.prompt[pos]? = some token)
  | .call (.allocateBlocksWithPrefix _ tokens _ contentSalt) _ =>
    AllInPlay InPlay w.manager.blockSize contentSalt tokens
  | .call (.registerBlockHashes seq tokens _) _ =>
    ∀ σ ∈ w.sessions seq, tokens <+: σ.context ∧ AllInPlay InPlay w.manager.blockSize σ.salt tokens
  | .call (.loadPrefixCache _) _ => False
  | .load records file => FileOk InPlay w.manager.blockSize records file
  | _ => True

/-- When reuse stays sound: prefix caching is not switched off, and what is published without a
recorded hash to start from is published under the salt it was written under. -/
def Safe : Act → Prop
  | .call (.setPrefixCachingEnabled enabled) _ =>
    enabled = true ∨ w.manager.prefixCachingEnabled = false
  | .call (.registerBlockHashes seq tokens contentSalt) _ =>
    ∀ σ ∈ w.sessions seq, σ.salt = contentSalt ∨ recordedHash w.manager seq 0 ≠ 0 ∨
      tokens.length < w.manager.blockSize
  | _ => True

/-- Every act of a run meets a condition in the world it is done in. -/
def Meets (Condition : World → Act → Prop) : World → List Act → Prop
  | _, [] => True
  | w, act :: acts => Condition w act ∧ Meets Condition (w.step act) acts

variable {Condition : World → Act → Prop} {acts : List Act}

/-- What survives every act that meets the condition holds after every run of such acts. -/
theorem meets_invariant {Inv : World → Prop}
    (hstep : ∀ w act, Inv w → Condition w act → Inv (w.step act)) {w : World} (hw : Inv w)
    (hmeets : Meets Condition w acts) : Inv (w.run acts) := by
  induction acts generalizing w with
  | nil => exact hw
  | cons act acts ih => exact ih (hstep w act hw hmeets.1) hmeets.2

/-- Two conditions met separately are met together. -/
theorem Meets.and {Condition' : World → Act → Prop} {w : World} (h : Meets Condition w acts)
    (h' : Meets Condition' w acts) :
    Meets (fun w act => Condition w act ∧ Condition' w act) w acts := by
  induction acts generalizing w with
  | nil => trivial
  | cons act acts ih => exact ⟨⟨h.1, h'.1⟩, ih h.2 h'.2⟩

instance Meets.decidable (Condition : World → Act → Prop) [∀ w act, Decidable (Condition w act)] :
    (w : World) → (acts : List Act) → Decidable (Meets Condition w acts)
  | _, [] => inferInstanceAs (Decidable True)
  | w, act :: acts =>
    have := Meets.decidable Condition (w.step act) acts
    inferInstanceAs (Decidable (Condition w act ∧ Meets Condition (w.step act) acts))

instance AllInPlay.decidable (InPlay : Hash → List Token → Prop)
    [∀ salt tokens, Decidable (InPlay salt tokens)] (blockSize : Nat) (salt : Hash)
    (tokens : List Token) : Decidable (AllInPlay InPlay blockSize salt tokens) :=
  inferInstanceAs (Decidable (∀ k < tokens.length / blockSize, _))

instance Legal.decidable (InPlay : Hash → List Token → Prop)
    [∀ salt tokens, Decidable (InPlay salt tokens)] (w : World) :
    (act : Act) → Decidable (w.Legal InPlay act)
  | .forward _ _ _ => inferInstanceAs (Decidable (∃ σ ∈ w.sessions _, _ ∧ _ ∧ _))
  | .load records _ => inferInstanceAs (Decidable (∀ record ∈ records, _ ∧ _ ∧ _ ∧ _))
  | .call (.allocateBlocksWithPrefix _ tokens _ contentSalt) _ =>
    inferInstanceAs (Decidable (AllInPlay InPlay _ contentSalt tokens))
  | .call (.registerBlockHashes _ _ _) _ =>
    inferInstanceAs (Decidable (∀ σ ∈ w.sessions _, _ ∧ _))
  | .call (.loadPrefixCache _) _ => inferInstanceAs (Decidable False)
  | .call (.allocateBlocks _ _) _ | .call (.appendBlock _) _ | .call (.freeSequence _) _
  | .call (.pinPrefix _ _) _ | .call (.unpinPrefix _) _ | .call (.rollback _ _) _
  | .call (.evictMiddleBlocks _ _ _) _ | .call .evictCachedBlock _ | .call .evictLru _
  | .call (.touch _) _ | .call (.setPrefixCachingEnabled _) _ | .call (.setPinBudgetBlocks _) _
  | .call (.enableSwaSizing _ _) _ | .call (.swaPrepare _ _ _) _ | .call (.swaTrim _ _) _ =>
    inferInstanceAs (Decidable True)

instance Safe.decidable (w : World) : (act : Act) → Decidable (w.Safe act)
  | .call (.setPrefixCachingEnabled _) _ => inferInstanceAs (Decidable (_ ∨ _))
  | .call (.registerBlockHashes _ _ _) _ =>
    inferInstanceAs (Decidable (∀ σ ∈ w.sessions _, _ ∨ _ ∨ _))
  | .forward _ _ _ | .load _ _ | .call (.allocateBlocksWithPrefix _ _ _ _) _
  | .call (.loadPrefixCache _) _ | .call (.allocateBlocks _ _) _ | .call (.appendBlock _) _
  | .call (.freeSequence _) _ | .call (.pinPrefix _ _) _ | .call (.unpinPrefix _) _
  | .call (.rollback _ _) _ | .call (.evictMiddleBlocks _ _ _) _ | .call .evictCachedBlock _
  | .call .evictLru _ | .call (.touch _) _ | .call (.setPinBudgetBlocks _) _
  | .call (.enableSwaSizing _ _) _ | .call (.swaPrepare _ _ _) _ | .call (.swaTrim _ _) _ =>
    inferInstanceAs (Decidable True)

end World

/-! ## Hash chains -/

variable {blockSize n : Nat} {tokens tokens' : List Token}

/-- The chained hash of the first blocks depends on nothing after them. -/
theorem chainHash_congr (salt : Hash)
    (h : tokens.take (n * blockSize) = tokens'.take (n * blockSize)) :
    chainHash blockSize salt tokens n = chainHash blockSize salt tokens' n := by
  induction n with
  | zero => rfl
  | succ n ih =>
    have hblock : ∀ list : List Token, blockTokens blockSize list n =
        (list.take ((n + 1) * blockSize)).drop (n * blockSize) := fun list => by
      rw [List.drop_take, blockTokens, Nat.add_one_mul, Nat.add_sub_cancel_left]
    rw [chainHash, chainHash, hblock tokens, hblock tokens', h,
      ih (take_eq_of_le h (Nat.mul_le_mul_right _ (Nat.le_succ n)))]

/-- The hash of a full prefix is the chained hash of its blocks. -/
theorem fullHash_take (hpos : 0 < blockSize) (salt : Hash) (hfull : n * blockSize ≤ tokens.length) :
    fullHash blockSize salt (tokens.take (n * blockSize)) = chainHash blockSize salt tokens n := by
  rw [fullHash, List.length_take, min_eq_left hfull, Nat.mul_div_cancel n hpos]
  exact chainHash_congr salt (by rw [List.take_take, min_self])

theorem Holds.congr {kv : Contents} {block : Int} {salt : Hash} {i : Nat}
    (h : Holds kv blockSize block salt tokens i)
    (heq : tokens.take ((i + 1) * blockSize) = tokens'.take ((i + 1) * blockSize)) :
    Holds kv blockSize block salt tokens' i := by
  intro offset hoffset
  have hle : i * blockSize + offset + 1 ≤ (i + 1) * blockSize := by
    rw [Nat.add_one_mul]
    omega
  rw [h offset hoffset, take_eq_of_le heq hle]

end Quench
