import Quench.Memory.LoadedBlocks

/-!
# Prefix reuse is sound

`Sound` collects what every legal and safe act keeps: references are accounted for, every block in
the index holds what its hash stands for, and every session fits its table. From it follows
`run_reuse_sound`: a prefix allocation hands out, as reused, only blocks that hold the KV of the
prompt's own prefix under the prompt's own salt. `published_under_other_salt` is a legal run that is
not safe.
-/

namespace Quench

open Lib KVCacheManager

/-- The worlds that legal and safe runs reach. -/
structure Sound (InPlay : Hash → List Token → Prop) (total blockSize : Nat) (w : World) :
    Prop where
  blockSize : w.manager.blockSize = blockSize
  owned : Owned total w.manager []
  fit : HashesFit w.manager
  faithful : Faithful InPlay w.manager w.kv
  active : w.manager.prefixCachingEnabled = true ∨ ∀ hash block, ¬ Files w.manager hash block
  orphan : ∀ seq, w.sessions seq = none → w.manager.seqBlocks.lookup seq = none
  session : ∀ seq salt, SessionOk w.manager w.kv seq (w.session seq salt)

namespace Sound

variable {InPlay : Hash → List Token → Prop} {total blockSize : Nat} {w : World}
variable {seq : Int} {op : Op} {salt : Hash}

section

variable (h : Sound InPlay total blockSize w)
include h

theorem session_of_some {σ : Session} (hsome : w.sessions seq = some σ) :
    SessionOk w.manager w.kv seq σ := by
  have := h.session seq 0
  rwa [World.session, hsome] at this

/-! ## Calls -/

/-- A call, from what it does to the index and to each session that survives it. -/
theorem call (op : Op) (salt : Hash) (hsize : (w.manager.step op).blockSize = w.manager.blockSize)
    (hfaithful : Faithful InPlay (w.manager.step op) w.kv) (hactive : (w.manager.step
      op).prefixCachingEnabled = true ∨ ∀ hash block, ¬ Files (w.manager.step op) hash block)
      (hsessions : ∀ seq, ((w.manager.step op).seqBlocks.lookup seq).isSome → SessionOk
      (w.manager.step op) w.kv seq (w.renew seq (w.session seq salt) op)) :
    Sound InPlay total blockSize (w.call op salt) := by
  have hfit := h.fit.step op
  have hgone : ∀ seq, ¬ ((w.manager.step op).seqBlocks.lookup seq).isSome = true →
      (w.manager.step op).blockTable seq = [] := fun seq hnone => by
    rw [Option.not_isSome_iff_eq_none] at hnone
    rw [blockTable, hnone]
    rfl
  refine ⟨hsize.trans h.blockSize, step_owned w.manager op h.owned, hfit, hfaithful, hactive,
    fun seq hnone => ?_, fun seq other => ?_⟩
  · refine Option.not_isSome_iff_eq_none.mp
      fun hsome : ((w.manager.step op).seqBlocks.lookup seq).isSome = true => ?_
    change (if _ then _ else _) = _ at hnone
    rw [if_pos hsome] at hnone
    cases hnone
  · change SessionOk (w.manager.step op) w.kv seq (Option.getD (if _ then _ else _) _)
    split
    next hsome => exact hsessions seq hsome
    next hnone => exact .empty (hgone seq hnone) (hfit.start (hgone seq hnone)) rfl rfl

/-- A call that only takes entries from the index. -/
theorem call_shrinks (hshrinks : Shrinks w.manager (w.manager.step op)) (hsessions : ∀ seq,
      ((w.manager.step op).seqBlocks.lookup seq).isSome → SessionOk (w.manager.step op) w.kv seq
      (w.renew seq (w.session seq salt) op)) : Sound InPlay total blockSize (w.call op salt) := by
  refine h.call op salt hshrinks.blockSize (h.faithful.shrink hshrinks) ?_ hsessions
  rcases h.active with henabled | hnone
  · exact .inl (hshrinks.enabled.trans henabled)
  · exact .inr fun hash block hfiles => hnone hash block (hshrinks.sub hash block hfiles)

/-- A call that at most takes slots, hashes and entries away. -/
theorem call_loses (hshrinks : Shrinks w.manager (w.manager.step op))
    (hloses : Loses w.manager (w.manager.step op)) (hrenew : ∀ seq σ, w.renew seq σ op = σ) :
    Sound InPlay total blockSize (w.call op salt) :=
  h.call_shrinks hshrinks fun seq _ => by
    rw [hrenew]
    exact (h.session seq salt).lose hshrinks hloses

/-- A call that changes pins, counters and orders. -/
theorem call_sameBlocks (hsame : SameBlocks w.manager (w.manager.step op))
    (hrenew : ∀ seq σ, w.renew seq σ op = σ) : Sound InPlay total blockSize (w.call op salt) :=
  h.call_loses (.of_sameBlocks h.faithful.filed hsame) (.of_sameTables (.of_sameBlocks hsame))
    hrenew

/-- A call that adds blocks of its own to one sequence. -/
theorem call_extends (seq : Int)
    (hext : Extends seq (w.manager.blockTable seq).length w.manager (w.manager.step op))
    (hrenew : ∀ other σ, w.renew other σ op = σ) : Sound InPlay total blockSize (w.call op salt) :=
  h.call_shrinks hext.shrinks fun other _ => by
    rw [hrenew]
    by_cases heq : other = seq
    · rw [heq]
      exact (h.session seq salt).grow hext
    · exact (h.session other salt).congr hext.shrinks (hext.others other heq) (hext.hashes other)

section

variable (hpos : 0 < blockSize)
include hpos

/-- A call that frees one sequence. -/
theorem call_frees (hop : w.manager.step op = w.manager.freeSequence seq)
    (hrenew : ∀ other σ, w.renew other σ op = σ) :
    Sound InPlay total blockSize (w.call op salt) := by
  have hpos : 0 < w.manager.blockSize := h.blockSize ▸ hpos
  have hshrinks := Shrinks.freeSequence h.faithful.filed seq h.owned h.active
    ((h.session seq salt).nodup h.owned hpos)
  have hnone := (freeSequence_empty w.manager seq).1
  have hserves := Serves.freeSequence w.manager seq
  rw [← hop] at hshrinks hnone hserves
  refine h.call_shrinks hshrinks fun other hsome => ?_
  have hne : other ≠ seq := fun heq => by
    rw [heq, hnone] at hsome
    cases hsome
  rw [hrenew]
  exact (h.session other salt).congr hshrinks (hserves.blockTable hne) (hserves.blockHashes hne)

theorem call_rollback (target newSeqLen : Int) (salt : Hash) :
    Sound InPlay total blockSize (w.call (.rollback target newSeqLen) salt) := by
  have hpos : 0 < w.manager.blockSize := h.blockSize ▸ hpos
  have hshrinks : Shrinks w.manager (w.manager.step (.rollback target newSeqLen)) :=
    .rollback h.faithful.filed target newSeqLen
  rcases Int.lt_or_le newSeqLen 0 with hneg | hnonneg
  · have hidle : w.manager.rollback target newSeqLen = w.manager := by
      unfold KVCacheManager.rollback
      split
      · rfl
      · exact if_pos (.inr hneg)
    refine h.call_loses hshrinks ?_ fun seq σ => if_neg fun hboth => by omega
    change Loses _ (w.manager.rollback target newSeqLen)
    rw [hidle]
    exact .of_sameTables (.rfl' _)
  · have hserves := Serves.rollback w.manager target newSeqLen
    refine h.call_shrinks hshrinks fun seq _ => ?_
    rw [World.renew]
    split
    next heq =>
      obtain ⟨rfl, -⟩ := heq
      exact (h.session seq salt).rewind h.faithful.filed h.fit hpos hnonneg
    next hne =>
      have hother : seq ≠ target := fun heq => hne ⟨heq, hnonneg⟩
      exact (h.session seq salt).congr hshrinks (hserves.blockTable hother)
        (hserves.blockHashes hother)

theorem call_registerBlockHashes (target : Int) (tokens : List Token) (contentSalt salt : Hash)
    (hlegal : w.Legal InPlay (.call (.registerBlockHashes target tokens contentSalt) salt))
    (hsafe : w.Safe (.call (.registerBlockHashes target tokens contentSalt) salt)) :
    Sound InPlay total blockSize
      (w.call (.registerBlockHashes target tokens contentSalt) salt) := by
  have hpos : 0 < w.manager.blockSize := h.blockSize ▸ hpos
  cases hsession : w.sessions target with
  | none =>
    -- a sequence without a session has no table, and nothing is published
    have hlookup := h.orphan target hsession
    have hidle : w.manager.step (.registerBlockHashes target tokens contentSalt) = w.manager := by
      change w.manager.registerBlockHashes target tokens contentSalt = w.manager
      unfold KVCacheManager.registerBlockHashes
      rw [hlookup]
      split <;> rfl
    refine h.call_shrinks (by rw [hidle]; exact .rfl' h.faithful.filed) fun seq hsome => ?_
    rw [hidle] at hsome ⊢
    have hother : seq ≠ target := fun heq => by
      rw [heq, hlookup] at hsome
      cases hsome
    rw [World.renew, if_neg hother]
    exact h.session seq salt
  | some σ =>
    obtain ⟨hforwarded, hplay⟩ := hlegal σ hsession
    have hok := h.session_of_some hsession
    have hagree : ∀ n ≤ tokens.length, tokens.take n = σ.context.take n := fun n hn => by
      rw [List.prefix_iff_eq_take.mp hforwarded, List.take_take, min_eq_left hn]
    have hpublishes : Publishes InPlay w.kv target σ.salt tokens w.manager
        (w.manager.step (.registerBlockHashes target tokens contentSalt)) :=
      .registerBlockHashes h.faithful h.owned hpos hplay
        (fun i block hslot hfull =>
          (hok.holds hslot (hfull.trans hforwarded.length_le)).congr (hagree _ hfull).symm)
        (fun i hfull hne => by
          rw [hok.hash_eq hne (hfull.trans hforwarded.length_le)]
          exact chainHash_congr σ.salt (hagree _ hfull).symm)
        contentSalt (hsafe σ hsession)
    refine h.call _ salt hpublishes.blockSize hpublishes.faithful ?_ fun seq _ => ?_
    · by_cases henabled : w.manager.prefixCachingEnabled = true
      · exact .inl (hpublishes.enabled.trans henabled)
      · have hidle : w.manager.step (.registerBlockHashes target tokens contentSalt) =
            w.manager := if_neg henabled
        rw [hidle]
        exact h.active
    · rw [World.renew]
      split
      next heq =>
        subst heq
        rw [World.session, hsession]
        exact hok.publish h.owned hpos hpublishes hforwarded
      next hother => exact (h.session seq salt).publish_other h.owned hother hpublishes

theorem call_allocateBlocksWithPrefix (hfree : CollisionFree blockSize InPlay) (target : Int)
    (tokens : List Token) (maxReuseBlocks : Int) (contentSalt salt : Hash)
    (hplay : World.AllInPlay InPlay blockSize contentSalt tokens) :
    Sound InPlay total blockSize
      (w.call (.allocateBlocksWithPrefix target tokens maxReuseBlocks contentSalt) salt) := by
  have hsize := h.blockSize
  have hcall := allocateBlocksWithPrefix_outcome target maxReuseBlocks h.owned h.faithful.filed
    h.fit (ChainInjective.reusesDiffer (hsize ▸ hfree.injective hpos hplay) _)
  have hstate : w.manager.step
    (.allocateBlocksWithPrefix target tokens maxReuseBlocks contentSalt) =
    (w.manager.allocateBlocksWithPrefix target tokens maxReuseBlocks contentSalt).2 := rfl
  have hrenew := fun seq σ => show w.renew seq σ
    (.allocateBlocksWithPrefix target tokens maxReuseBlocks contentSalt) =
    if seq = target ∧ tokens ≠ [] ∧ w.manager.blockTable target = [] then
      ⟨contentSalt, tokens, tokens.take ((w.manager.allocateBlocksWithPrefix target tokens
        maxReuseBlocks contentSalt).1.toNat * w.manager.blockSize),
        (w.manager.allocateBlocksWithPrefix target tokens maxReuseBlocks contentSalt).1.toNat⟩
    else σ from rfl
  generalize w.manager.allocateBlocksWithPrefix target tokens maxReuseBlocks contentSalt = result
    at hcall hstate hrenew
  cases hcall with
  | nothing hnil =>
    refine h.call_loses (hstate ▸ .rfl' h.faithful.filed)
      (hstate ▸ .of_sameTables (.rfl' w.manager)) fun seq σ => ?_
    rw [hrenew, if_neg fun hboth => hboth.2.1 hnil]
  | grown result after hne _ hext =>
    refine h.call_extends target (hstate ▸ hext) fun seq σ => ?_
    rw [hrenew, if_neg fun hboth => hne hboth.2.2]
  | loop result hne hempty houtcome =>
    cases houtcome with
    | filled reused after hreusing =>
      refine h.call_shrinks (hstate ▸ hreusing.shrinks) fun seq _ => ?_
      rw [hstate, hrenew]
      split
      next heq =>
        obtain ⟨rfl, -⟩ := heq
        exact hreusing.sessionOk h.faithful (hsize ▸ hpos) (hsize ▸ hfree) (hsize ▸ hplay)
      next hother =>
        have hotherSeq : seq ≠ target := fun heq => hother ⟨heq, hne, hempty⟩
        obtain ⟨htable, hhashes⟩ := hreusing.others seq hotherSeq
        exact (h.session seq salt).congr hreusing.shrinks htable hhashes
    | gaveUp after hshrinks htable hhashes hothers =>
      refine h.call_shrinks (hstate ▸ hshrinks) fun seq _ => ?_
      rw [hstate, hrenew]
      split
      next heq =>
        obtain ⟨rfl, -⟩ := heq
        exact .empty htable hhashes (by simp) rfl
      next hother =>
        have hotherSeq : seq ≠ target := fun heq => hother ⟨heq, hne, hempty⟩
        exact (h.session seq salt).congr hshrinks (hothers seq hotherSeq).1
          (hothers seq hotherSeq).2

/-! ## Every act -/

/-- Forwarding a token changes a block of the sequence's own, or nothing. -/
theorem forward {pos : Nat} {token : Token} (hlegal : w.Legal InPlay (.forward seq pos token)) :
    Sound InPlay total blockSize (w.forward seq pos token) := by
  have hpos : 0 < w.manager.blockSize := h.blockSize ▸ hpos
  obtain ⟨σ, hsession, hnext, hwhere, hprompt⟩ := hlegal
  unfold World.forward
  rw [hsession]
  split
  next _ block heq hslot =>
    obtain rfl := Option.some.inj heq
    have hok := h.session_of_some hsession
    by_cases hsame : σ.context[pos]? = some token
    · -- the token is there already
      have hkv := hok.write_same hslot hpos hsame
      have hsessions : (fun other => if other = seq then some (σ.forward pos token) else
          w.sessions other) = w.sessions := funext fun other => by
        split
        next heq => rw [heq, hsession, Session.forward, if_pos hsame]
        next => rfl
      rw [hkv, hsessions]
      exact h
    · have hpast := hwhere.resolve_right hsame
      have hown := hok.own_slot hslot hpos hpast
      have hkv : ∀ other, other ≠ block → Contents.write w.kv block (pos % w.manager.blockSize)
          (σ.salt, σ.context.take pos ++ [token]) other = w.kv other := fun other hne =>
        funext fun offset => if_neg fun hboth => hne hboth.1
      refine ⟨h.blockSize, h.owned, h.fit, ⟨h.faithful.filed, fun hash other hfiles => ?_⟩,
        h.active, fun other hnone => ?_, fun other salt => ?_⟩
      · have hne : other ≠ block := fun heq => hown.2 hash (heq ▸ hfiles)
        exact (h.faithful.named hash other hfiles).of_kv (hkv other hne)
      · change (if _ then _ else _) = _ at hnone
        split at hnone
        next => cases hnone
        next => exact h.orphan other hnone
      · change SessionOk w.manager _ other (Option.getD (if _ then _ else _) _)
        split
        next heq =>
          subst heq
          rw [Option.getD_some, Session.forward, if_neg hsame]
          exact hok.write_new hslot h.owned hpos hnext hpast hprompt
        next hother =>
          refine (h.session other salt).of_kv fun i held hheld => hkv held fun heq => ?_
          exact hother (hown.unique h.owned hslot (heq ▸ hheld)).1
  next => exact h

end

theorem load {records : List (Hash × Bool)} {file : Hash → Written}
    (hlegal : w.Legal InPlay (.load records file)) :
    Sound InPlay total blockSize (w.load records file) := by
  have hloaded := Loaded.load h.faithful h.owned hlegal
  refine ⟨hloaded.tables.blockSize.trans h.blockSize, h.owned.loadPrefixCache records,
    hloaded.tables.hashesFit h.fit, hloaded.faithful, ?_, fun seq hnone => ?_,
    fun seq salt => (h.session seq salt).load h.owned hloaded⟩
  · by_cases henabled : w.manager.prefixCachingEnabled = true
    · exact .inl (hloaded.tables.prefixCachingEnabled.trans henabled)
    · refine .inr fun hash block => ?_
      change ¬ Files (w.manager.loadPrefixCache records).2 hash block
      rw [KVCacheManager.loadPrefixCache, if_neg henabled]
      exact h.active.resolve_left henabled hash block
  · change (w.manager.loadPrefixCache records).2.seqBlocks.lookup seq = none
    rw [(StoreOnly.loadPrefixCache records w.manager).keeps (·.seqBlocks) fun _ _ => rfl]
    exact h.orphan seq hnone

end

theorem fresh (totalBlocks swaBlocks : Nat) :
    Sound InPlay totalBlocks blockSize (World.fresh blockSize totalBlocks swaBlocks) := by
  have hnone : ∀ hash block, ¬ Files (KVCacheManager.fresh blockSize totalBlocks swaBlocks) hash
      block := fun hash block hfiles => by
    simp [Files, KVCacheManager.fresh] at hfiles
  refine ⟨rfl, fresh_owned blockSize totalBlocks swaBlocks, fun seq => ?_,
    ⟨⟨fun hash block hfiles => absurd hfiles (hnone hash block),
      fun hash block hfiles => absurd hfiles (hnone hash block)⟩,
      fun hash block hfiles => absurd hfiles (hnone hash block)⟩, .inr hnone, fun seq _ => rfl,
    fun seq salt => .empty ?_ ?_ rfl rfl⟩
  all_goals simp [World.fresh, KVCacheManager.fresh, blockTable, blockHashes]

/-- Every legal and safe act leads from a sound world to a sound world. -/
theorem step (hpos : 0 < blockSize) (hfree : CollisionFree blockSize InPlay) (w : World) (act : Act)
    (h : Sound InPlay total blockSize w) (hlegal : w.Legal InPlay act) (hsafe : w.Safe act) :
    Sound InPlay total blockSize (w.step act) := by
  have hfiled := h.faithful.filed
  cases act with
  | forward seq pos token => exact h.forward hpos hlegal
  | load records file => exact h.load hlegal
  | call op salt =>
    cases op with
    | allocateBlocks => exact h.call_extends _ (.allocateBlocks hfiled ..) fun _ _ => rfl
    | allocateBlocksWithPrefix =>
      exact h.call_allocateBlocksWithPrefix hpos hfree _ _ _ _ salt (h.blockSize ▸ hlegal)
    | appendBlock => exact h.call_extends _ (.appendBlock hfiled _) fun _ _ => rfl
    | freeSequence => exact h.call_frees hpos rfl fun _ _ => rfl
    | registerBlockHashes => exact h.call_registerBlockHashes hpos _ _ _ salt hlegal hsafe
    | pinPrefix => exact h.call_sameBlocks (SameBlocks.pinPrefix ..) fun _ _ => rfl
    | unpinPrefix => exact h.call_sameBlocks (SameBlocks.of_pins (.unpinPrefix ..)) fun _ _ => rfl
    | rollback => exact h.call_rollback hpos _ _ salt
    | evictMiddleBlocks =>
      exact h.call_loses (.evictMiddleBlocks hfiled ..) (.evictMiddleBlocks ..) fun _ _ => rfl
    | evictCachedBlock =>
      exact h.call_loses (.reclaimCachedBlock hfiled)
        (.of_sameTables (.of_store (.reclaimCachedBlock w.manager))) fun _ _ => rfl
    | evictLru =>
      cases hfind : w.manager.lruOrder.find?
          fun candidate => decide (candidate ∉ w.manager.pinnedSeqBlocks) with
      | none =>
        have hidle : w.manager.step .evictLru = w.manager := by
          simp only [KVCacheManager.step, KVCacheManager.evictLru, hfind]
        exact h.call_sameBlocks (by rw [hidle]; exact .rfl' w.manager) fun _ _ => rfl
      | some candidate =>
        have hop : w.manager.step .evictLru = w.manager.freeSequence candidate := by
          simp only [KVCacheManager.step, KVCacheManager.evictLru, hfind]
        exact h.call_frees hpos hop fun _ _ => rfl
    | setPrefixCachingEnabled enabled =>
      -- once on, caching stays on; while it is off, the index is empty
      have hactive : enabled = true ∨ ∀ hash block, ¬ Files w.manager hash block :=
        hsafe.imp_right fun hoff => h.active.resolve_left (by rw [hoff]; decide)
      exact h.call (.setPrefixCachingEnabled enabled) salt rfl
        ⟨⟨hfiled.named, hfiled.live⟩, h.faithful.named⟩ hactive fun seq _ =>
          (h.session seq salt).transfer rfl rfl (fun _ _ hslot => hslot) (fun _ _ => rfl)
            fun _ _ _ hexcl => hexcl
    | loadPrefixCache records => exact absurd hlegal id
    | touch | setPinBudgetBlocks | enableSwaSizing | swaPrepare | swaTrim =>
      exact h.call_sameBlocks ⟨⟨rfl, rfl, rfl, .refl _⟩, rfl, rfl, rfl, rfl, rfl⟩ fun _ _ => rfl

end Sound

/-! ## Runs -/

/-- A finite list of prefixes is collision-free if no two of them share a hash. -/
theorem CollisionFree.of_list {blockSize : Nat} {prefixes : List (Hash × List Token)}
    (h : ∀ p ∈ prefixes, ∀ q ∈ prefixes,
      fullHash blockSize p.1 p.2 = fullHash blockSize q.1 q.2 → p = q) :
    CollisionFree blockSize fun salt tokens => (salt, tokens) ∈ prefixes :=
  fun salt tokens salt' tokens' hmem hmem' heq =>
    Prod.mk.inj (h (salt, tokens) hmem (salt', tokens') hmem' heq)

/-- After every legal and safe run from a new manager, what a prefix allocation reuses is sound:
each reused slot holds a block that was in the index under the chained hash of the prompt and holds
the KV of the prompt's tokens under its salt; the cap is kept; and every slot added after those
holds a block of the sequence's own that is not in the index. -/
theorem run_reuse_sound {InPlay : Hash → List Token → Prop} {blockSize : Nat} (hpos : 0 < blockSize)
    (hfree : CollisionFree blockSize InPlay) (totalBlocks swaBlocks : Nat) (acts : List Act)
    (hlegal : World.Meets (World.Legal InPlay) (World.fresh blockSize totalBlocks swaBlocks) acts)
    (hsafe : World.Meets World.Safe (World.fresh blockSize totalBlocks swaBlocks) acts) (seq : Int)
    (tokens : List Token) (maxReuseBlocks : Int) (contentSalt : Hash)
    (hplay : World.AllInPlay InPlay blockSize contentSalt tokens) :
    let w := (World.fresh blockSize totalBlocks swaBlocks).run acts
    let result := w.manager.allocateBlocksWithPrefix seq tokens maxReuseBlocks contentSalt
    0 ≤ result.1 →
    (∀ i : Nat, i < result.1 → ∃ block, HasSlot result.2 seq i block ∧
      Files w.manager (chainHash blockSize contentSalt tokens (i + 1)) block ∧
      Holds w.kv blockSize block contentSalt tokens i) ∧
    (0 ≤ maxReuseBlocks → result.1 ≤ maxReuseBlocks) ∧
    ∀ (i : Nat) block, result.1 ≤ i → (w.manager.blockTable seq).length ≤ i →
      HasSlot result.2 seq i block →
      result.2.refCount block = 1 ∧ ∀ hash, ¬ Files result.2 hash block := by
  intro w result hresult
  have h : Sound InPlay totalBlocks blockSize w :=
    World.meets_invariant (fun w act hw hboth => hw.step hpos hfree w act hboth.1 hboth.2)
      (.fresh totalBlocks swaBlocks) (hlegal.and hsafe)
  have hsize := h.blockSize
  have hcall : PrefixCall totalBlocks w.manager seq tokens maxReuseBlocks contentSalt result :=
    allocateBlocksWithPrefix_outcome seq maxReuseBlocks h.owned h.faithful.filed h.fit
      (ChainInjective.reusesDiffer (hsize ▸ hfree.injective hpos hplay) _)
  have howned : Owned totalBlocks result.2 [] :=
    h.owned.allocateBlocksWithPrefix seq tokens maxReuseBlocks contentSalt
  have hone : ∀ i block, HasSlot result.2 seq i block → Exclusive result.2 block →
      result.2.refCount block = 1 ∧ ∀ hash, ¬ Files result.2 hash block := by
    intro i block hslot hown
    have hlive := howned.refCount_pos_of_slot hslot
    have hle := hown.1
    exact ⟨by omega, hown.2⟩
  clear_value result
  cases hcall with
  | nothing hnil =>
    refine ⟨fun i hi => absurd hi (by omega), id, fun i block _ hge hslot => ?_⟩
    rw [HasSlot, List.getElem?_eq_none hge] at hslot
    cases hslot
  | grown r after hne hr hext =>
    refine ⟨fun i hi => absurd hi (by omega), fun hcap => by omega,
      fun i block _ hge hslot => hone i block hslot (hext.tail i block hge hslot)⟩
  | loop r hne hempty houtcome =>
    cases houtcome with
    | gaveUp =>
      omega
    | filled reused after hreusing =>
      refine ⟨fun i hi => ?_, hreusing.below_cap, fun i block hge _ hslot =>
        hone i block hslot ((hreusing.slot hslot).2 (by simpa using hge))⟩
      have hi : i < reused := by simpa using hi
      obtain ⟨block, hslot, hfiled, -⟩ :=
        hreusing.slots i (lt_of_lt_of_le hi hreusing.reused_le)
      refine ⟨block, hslot, hsize ▸ hfiled hi, ?_⟩
      exact hsize ▸ hreusing.holds h.faithful (hsize ▸ hpos) (hsize ▸ hfree) (hsize ▸ hplay)
        hslot hi

/-- A prompt is written under salt `0`, published and freed; a second prompt with the same first
block reuses it. -/
theorem run_reuse_sound_shared :
    let acts : List Act := [.call (.setPrefixCachingEnabled true) 0,
      .call (.allocateBlocksWithPrefix 0 [1, 2, 3, 4] (-1) 0) 0, .forward 0 0 1, .forward 0 1 2,
      .forward 0 2 3, .forward 0 3 4, .call (.registerBlockHashes 0 [1, 2, 3, 4] 0) 0,
      .call (.freeSequence 0) 0]
    let w := (World.fresh 2 4 0).run acts
    let result := w.manager.allocateBlocksWithPrefix 1 [1, 2, 5, 6] 3 0
    result.1 = 1 ∧
    (∀ i : Nat, i < result.1 → ∃ block, HasSlot result.2 1 i block ∧
      Files w.manager (chainHash 2 0 [1, 2, 5, 6] (i + 1)) block ∧
      Holds w.kv 2 block 0 [1, 2, 5, 6] i) ∧
    ((0 : Int) ≤ 3 → result.1 ≤ 3) ∧
    ∀ (i : Nat) block, result.1 ≤ i → (w.manager.blockTable 1).length ≤ i →
      HasSlot result.2 1 i block →
      result.2.refCount block = 1 ∧ ∀ hash, ¬ Files result.2 hash block := by
  intro acts w result
  have hone : result.1 = 1 := by decide +kernel
  have hfree : CollisionFree 2 fun salt tokens => (salt, tokens) ∈
      ([(0, [1, 2]), (0, [1, 2, 3, 4]), (0, [1, 2, 5, 6])] : List (Hash × List Token)) :=
    .of_list (by decide +kernel)
  exact ⟨hone, run_reuse_sound (by decide) hfree 4 0 acts (by decide +kernel) (by decide +kernel)
    1 [1, 2, 5, 6] 3 0 (by decide +kernel) (by decide +kernel)⟩

/-- A sequence that got its blocks by plain allocation is written under salt `7` and published
under salt `0`. A prompt under salt `0` then reuses its block. Every act is legal, and the prefixes
in play have different hashes. -/
theorem published_under_other_salt :
    let prefixes : List (Hash × List Token) := [(7, [1, 2]), (0, [1, 2])]
    let InPlay := fun salt tokens => (salt, tokens) ∈ prefixes
    let acts : List Act := [.call (.setPrefixCachingEnabled true) 0,
      .call (.allocateBlocks 0 1) 7, .forward 0 0 1, .forward 0 1 2,
      .call (.registerBlockHashes 0 [1, 2] 0) 0]
    let w := (World.fresh 2 4 0).run acts
    let result := w.manager.allocateBlocksWithPrefix 1 [1, 2, 3] (-1) 0
    CollisionFree 2 InPlay ∧ World.Meets (World.Legal InPlay) (World.fresh 2 4 0) acts ∧
      World.AllInPlay InPlay 2 0 [1, 2, 3] ∧ result.1 = 1 ∧ HasSlot result.2 1 0 0 ∧
      w.kv 0 0 = some (7, [1]) ∧ ¬ Holds w.kv 2 0 0 [1, 2, 3] 0 := by
  intro prefixes InPlay acts w result
  have hkv : w.kv 0 0 = some (7, [1]) := by decide +kernel
  refine ⟨.of_list (by decide +kernel), by decide +kernel, by decide +kernel, by decide +kernel,
    by unfold HasSlot; decide +kernel, hkv, fun hholds => ?_⟩
  have hfirst := hholds 0 (by decide)
  exact absurd hfirst (by decide)

end Quench
