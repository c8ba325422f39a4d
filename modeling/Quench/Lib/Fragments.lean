import Mathlib.Computability.EpsilonNFA

/-!
# Fragments of an automaton

`words M goal x` are the words that lead from a state to a goal, up to the first visit of the goal.
A `Fragment` is a set of states that is left only through its last state, together with the language
that leads through it. Since the edges out of the last state do not count, edges may be added there
later (`Fragment.transfer`). `Fragment.words_through` splits the words that cross a fragment;
`Fragment.chain` and `Fragment.words_loop` compose fragments.
-/

namespace Quench.Lib

open Computability List

variable {α σ : Type}

/-- A word leads from a state to the goal, which it visits only at the end. -/
inductive Leads (M : εNFA α σ) (goal : σ) : σ → List α → Prop where
  | arrive : Leads M goal goal []
  | silent {x y : σ} {w : List α} :
      x ≠ goal → y ∈ M.step x none → Leads M goal y w → Leads M goal x w
  | letter {x y : σ} {c : α} {w : List α} :
      x ≠ goal → y ∈ M.step x (some c) → Leads M goal y w → Leads M goal x (c :: w)

/-- The words that lead from a state to the goal. -/
def words (M : εNFA α σ) (goal x : σ) : Language α :=
  {w | Leads M goal x w}

/-- The only edges of a state are silent ones, to the states of a list. -/
def SilentTo (M : εNFA α σ) (x : σ) (ys : List σ) : Prop :=
  (∀ y, y ∈ M.step x none ↔ y ∈ ys) ∧ ∀ c y, y ∉ M.step x (some c)

/-- A set of states that is left only through its last state, with what leads through it. -/
structure Fragment (M : εNFA α σ) (region : Set σ) (start last : σ) (language : Language α) :
    Prop where
  start_mem : start ∈ region
  last_mem : last ∈ region
  closed : ∀ x ∈ region, x ≠ last → ∀ o y, y ∈ M.step x o → y ∈ region
  words_eq : words M last start = language

variable {M M' : εNFA α σ} {goal x start last : σ} {region region' : Set σ}
  {language language' : Language α}

/-! ## The words of one state -/

variable {w : List α} {ys : List σ}

theorem mem_words : w ∈ words M goal x ↔ Leads M goal x w :=
  Iff.rfl

@[simp]
theorem words_goal : words M goal goal = 1 := by
  ext w
  constructor
  · intro h
    cases h with
    | arrive => rfl
    | silent hne => exact absurd rfl hne
    | letter hne => exact absurd rfl hne
  · rintro rfl
    exact .arrive

theorem SilentTo.mem {o : Option α} {y : σ} (h : SilentTo M x ys) (hy : y ∈ M.step x o) :
    y ∈ ys := by
  cases o with
  | none => exact (h.1 y).mp hy
  | some c => exact absurd hy (h.2 c y)

theorem words_silentTo (h : SilentTo M x ys) (hne : x ≠ goal) :
    words M goal x = (ys.map (words M goal)).sum := by
  have hsum : ∀ w, w ∈ (ys.map (words M goal)).sum ↔ ∃ y ∈ ys, Leads M goal y w := by
    intro w
    clear h
    induction ys with
    | nil => simp
    | cons y ys ih =>
      rw [map_cons, sum_cons, Language.mem_add, ih, mem_words]
      simp only [mem_cons, exists_eq_or_imp]
  ext w
  rw [hsum, mem_words]
  constructor
  · intro hw
    cases hw with
    | arrive => exact absurd rfl hne
    | silent _ hstep hrest => exact ⟨_, (h.1 _).mp hstep, hrest⟩
    | letter _ hstep _ => exact absurd hstep (h.2 _ _)
  · rintro ⟨y, hy, hrest⟩
    exact .silent hne ((h.1 y).mpr hy) hrest

/-- The words of a state that only reads one letter, straight to the goal. -/
theorem words_letters {letters : α → Prop} (hne : x ≠ goal) (hsilent : ∀ y, y ∉ M.step x none)
    (hletter : ∀ c y, y ∈ M.step x (some c) ↔ letters c ∧ y = goal) :
    words M goal x = {w | ∃ c, letters c ∧ w = [c]} := by
  ext w
  constructor
  · intro hw
    cases hw with
    | arrive => exact absurd rfl hne
    | silent _ hstep _ => exact absurd hstep (hsilent _)
    | letter _ hstep hrest =>
      obtain ⟨hc, rfl⟩ := (hletter _ _).mp hstep
      have hnil : _ ∈ words M _ _ := hrest
      rw [words_goal, Language.mem_one] at hnil
      exact ⟨_, hc, by rw [hnil]⟩
  · rintro ⟨c, hc, rfl⟩
    exact .letter hne ((hletter c goal).mpr ⟨hc, rfl⟩) .arrive

/-! ## Fragments -/

/-- Inside a fragment only the edges of its states other than the last one count. -/
theorem Leads.transfer (hclosed : ∀ x ∈ region, x ≠ last → ∀ o y, y ∈ M.step x o → y ∈ region)
    (hstep : ∀ x ∈ region, x ≠ last → M'.step x = M.step x) (hx : x ∈ region)
    (hw : Leads M last x w) : Leads M' last x w := by
  induction hw with
  | arrive => exact .arrive
  | silent hne hy _ ih =>
    have hin := hclosed _ hx hne _ _ hy
    rw [← hstep _ hx hne] at hy
    exact .silent hne hy (ih hin)
  | letter hne hy _ ih =>
    have hin := hclosed _ hx hne _ _ hy
    rw [← hstep _ hx hne] at hy
    exact .letter hne hy (ih hin)

namespace Fragment

theorem single (x : σ) : Fragment M {x} x x 1 where
  start_mem := rfl
  last_mem := rfl
  closed _ hx hne := absurd hx hne
  words_eq := words_goal

variable (h : Fragment M region start last language)
include h

theorem transfer (hstep : ∀ x ∈ region, x ≠ last → M'.step x = M.step x) :
    Fragment M' region start last language := by
  have hclosed : ∀ x ∈ region, x ≠ last → ∀ o y, y ∈ M'.step x o → y ∈ region := by
    intro x hx hne o y hy
    rw [hstep x hx hne] at hy
    exact h.closed x hx hne o y hy
  refine ⟨h.start_mem, h.last_mem, hclosed, ?_⟩
  rw [← h.words_eq]
  ext w
  exact ⟨fun hw => hw.transfer hclosed (fun x hx hne => (hstep x hx hne).symm) h.start_mem,
    fun hw => hw.transfer h.closed hstep h.start_mem⟩

/-- States that the fragment does not reach may be added to its region. -/
theorem enlarge (hsub : region ⊆ region')
    (hclosed : ∀ x ∈ region', x ∉ region → ∀ o y, y ∈ M.step x o → y ∈ region') :
    Fragment M region' start last language where
  start_mem := hsub h.start_mem
  last_mem := hsub h.last_mem
  closed x hx hne o y hy := by
    by_cases hin : x ∈ region
    · exact hsub (h.closed x hin hne o y hy)
    · exact hclosed x hx hin o y hy
  words_eq := h.words_eq

section

variable (hgoal : goal ∈ region → goal = last)
include hgoal

/-- A word that leaves a fragment passes its last state. -/
theorem leads_split (hx : x ∈ region) (hw : Leads M goal x w) :
    w ∈ words M last x * words M goal last := by
  induction hw with
  | arrive =>
    obtain rfl := hgoal hx
    rw [words_goal, one_mul]
    rfl
  | @silent x y w hne hy hrest ih =>
    by_cases hlast : x = last
    · subst hlast
      rw [words_goal, one_mul]
      exact .silent hne hy hrest
    · obtain ⟨u, hu, v, hv, rfl⟩ := ih (h.closed _ hx hlast _ _ hy)
      exact ⟨u, .silent hlast hy hu, v, hv, rfl⟩
  | @letter x y c w hne hy hrest ih =>
    by_cases hlast : x = last
    · subst hlast
      rw [words_goal, one_mul]
      exact .letter hne hy hrest
    · obtain ⟨u, hu, v, hv, rfl⟩ := ih (h.closed _ hx hlast _ _ hy)
      exact ⟨c :: u, .letter hlast hy hu, v, hv, rfl⟩

theorem leads_append {u v : List α} (hx : x ∈ region) (hu : Leads M last x u)
    (hv : Leads M goal last v) : Leads M goal x (u ++ v) := by
  induction hu with
  | arrive => exact hv
  | silent hne hy _ ih =>
    exact .silent (fun heq => hne (heq.trans (hgoal (heq ▸ hx)))) hy (ih (h.closed _ hx hne _ _ hy))
  | letter hne hy _ ih =>
    exact .letter (fun heq => hne (heq.trans (hgoal (heq ▸ hx)))) hy (ih (h.closed _ hx hne _ _ hy))

/-- The words that cross a fragment. -/
theorem words_through : words M goal start = language * words M goal last := by
  rw [← h.words_eq]
  ext w
  constructor
  · intro hw
    exact h.leads_split hgoal h.start_mem hw
  · rintro ⟨u, hu, v, hv, rfl⟩
    exact h.leads_append hgoal h.start_mem hu hv

end

/-- A state in front of a fragment. -/
theorem prepend (hx : x ∉ region) (hjoin : SilentTo M x [start]) :
    Fragment M (insert x region) x last language where
  start_mem := Set.mem_insert x region
  last_mem := Set.mem_insert_of_mem x h.last_mem
  closed y hy hne o z hz := by
    rcases hy with rfl | hy
    · exact Set.mem_insert_of_mem _ (mem_singleton.mp (hjoin.mem hz) ▸ h.start_mem)
    · exact Set.mem_insert_of_mem _ (h.closed y hy hne o z hz)
  words_eq := by
    have hne : x ≠ last := fun heq => hx (heq ▸ h.last_mem)
    rw [words_silentTo hjoin hne, map_singleton, sum_singleton, h.words_eq]

omit h in
/-- One fragment after another that starts where it ends. -/
theorem chain {last' : σ} (h : Fragment M region start last language)
    (h' : Fragment M region' last last' language')
    (hcommon : ∀ y ∈ region, y ∈ region' → y = last) :
    Fragment M (region ∪ region') start last' (language * language') where
  start_mem := .inl h.start_mem
  last_mem := .inr h'.last_mem
  closed y hy hne o z hz := by
    by_cases hin : y ∈ region'
    · exact .inr (h'.closed y hin hne o z hz)
    · have hlast : y ≠ last := fun heq => hin (heq ▸ h'.start_mem)
      exact .inl (h.closed y (hy.resolve_right hin) hlast o z hz)
  words_eq := by
    rw [h.words_through fun hin => hcommon last' hin h'.last_mem, h'.words_eq]

omit h in
/-- A new first and a new last state around a fragment. -/
theorem around {first final : σ} {zs : List σ} (h : Fragment M region start last language)
    (hfirst : SilentTo M first ys) (hlast : SilentTo M last zs)
    (hys : ∀ y ∈ ys, y = start ∨ y = final) (hzs : ∀ z ∈ zs, z = start ∨ z = final) :
    Fragment M (insert first (insert final region)) first final (words M final first) where
  start_mem := .inl rfl
  last_mem := .inr (.inl rfl)
  closed y hy hne o z hz := by
    have hends : z = start ∨ z = final → z ∈ insert first (insert final region) := by
      rintro (rfl | rfl)
      · exact .inr (.inr h.start_mem)
      · exact .inr (.inl rfl)
    rcases hy with rfl | rfl | hy
    · exact hends (hys z (hfirst.mem hz))
    · exact absurd rfl hne
    · by_cases heq : y = last
      · subst heq
        exact hends (hzs z (hlast.mem hz))
      · exact .inr (.inr (h.closed y hy heq o z hz))
  words_eq := rfl

/-- What leads back into a fragment after it was crossed. -/
theorem leads_loop (hgoal : goal ∉ region) (hloop : SilentTo M last [start, goal])
    (hx : x ∈ region) (hw : Leads M goal x w) : w ∈ words M last x * language∗ := by
  induction hw with
  | arrive => exact absurd hx hgoal
  | @silent x y w hne hy hrest ih =>
    by_cases hlast : x = last
    · subst hlast
      rw [words_goal, one_mul]
      rw [hloop.1, mem_pair] at hy
      rcases hy with rfl | rfl
      · have hback := ih h.start_mem
        rw [h.words_eq] at hback
        rw [← Language.one_add_self_mul_kstar_eq_kstar]
        exact .inr hback
      · have hnil : w ∈ words M y y := hrest
        rw [words_goal, Language.mem_one] at hnil
        exact hnil ▸ Language.nil_mem_kstar language
    · obtain ⟨u, hu, v, hv, rfl⟩ := ih (h.closed _ hx hlast _ _ hy)
      exact ⟨u, .silent hlast hy hu, v, hv, rfl⟩
  | @letter x y c w hne hy hrest ih =>
    by_cases hlast : x = last
    · subst hlast
      exact absurd hy (hloop.2 c y)
    · obtain ⟨u, hu, v, hv, rfl⟩ := ih (h.closed _ hx hlast _ _ hy)
      exact ⟨c :: u, .letter hlast hy hu, v, hv, rfl⟩

/-- A fragment whose last state leads back to its start, or out. -/
theorem words_loop (hgoal : goal ∉ region) (hloop : SilentTo M last [start, goal]) :
    words M goal last = language∗ := by
  have hne : last ≠ goal := fun heq => hgoal (heq ▸ h.last_mem)
  apply le_antisymm
  · intro w hw
    have hsplit := h.leads_loop hgoal hloop h.last_mem hw
    rwa [words_goal, one_mul] at hsplit
  · have hround : 1 + language * words M goal last ≤ words M goal last := by
      refine le_of_eq ?_
      conv_rhs => rw [words_silentTo hloop hne]
      rw [map_cons, map_singleton, sum_cons, sum_singleton, words_goal,
        h.words_through fun hin => absurd hin hgoal, add_comm]
    refine kstar_le_of_mul_le_right ?_ ?_
    · exact le_trans le_self_add hround
    · exact le_trans le_add_self hround

end Fragment

/-! ## The language of an automaton -/

/-- A path to a dead end leads there. -/
theorem leads_of_path (hdead : ∀ o y, y ∉ M.step goal o) {labels : List (Option α)}
    (h : M.IsPath x goal labels) : Leads M goal x labels.reduceOption := by
  generalize hend : goal = finish at h
  induction h with
  | nil s =>
    exact .arrive
  | cons t s u o labels hstep _ ih =>
    subst hend
    have hne : s ≠ goal := fun heq => hdead o t (heq ▸ hstep)
    cases o with
    | none => exact .silent hne hstep (ih rfl)
    | some c => exact .letter hne hstep (ih rfl)

theorem Leads.path (h : Leads M goal x w) :
    ∃ labels : List (Option α), labels.reduceOption = w ∧ M.IsPath x goal labels := by
  induction h with
  | arrive => exact ⟨[], rfl, .nil goal⟩
  | silent _ hstep _ ih =>
    obtain ⟨labels, rfl, hpath⟩ := ih
    exact ⟨none :: labels, rfl, .cons _ _ _ _ _ hstep hpath⟩
  | @letter x y c w _ hstep _ ih =>
    obtain ⟨labels, rfl, hpath⟩ := ih
    exact ⟨some c :: labels, rfl, .cons _ _ _ _ _ hstep hpath⟩

/-- The language of an automaton whose accepting state is a dead end. -/
theorem accepts_eq_words (hstart : M.start = {start}) (haccept : M.accept = {goal})
    (hdead : ∀ o y, y ∉ M.step goal o) : M.accepts = words M goal start := by
  ext w
  rw [M.mem_accepts_iff_exists_path, hstart, haccept]
  constructor
  · rintro ⟨_, _, labels, rfl, rfl, rfl, hpath⟩
    exact leads_of_path hdead hpath
  · intro hw
    obtain ⟨labels, hlabels, hpath⟩ := Leads.path hw
    exact ⟨start, goal, labels, rfl, rfl, hlabels, hpath⟩

end Quench.Lib
