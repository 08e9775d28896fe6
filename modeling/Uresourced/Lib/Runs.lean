import Mathlib.Data.List.Basic
import Mathlib.Data.Option.Basic
import Mathlib.Order.WellFounded

/-!
Runs of a machine given by a partial step function.

`step s i = none` says that the event `i` cannot happen in the state `s`; what
the machine leaves open (an order of events, an answer of its environment) is
part of the event. `ReachableBy step C s₀` collects the states of all runs
whose steps meet `C` in the state they are taken in. `AllStates` and `AllSteps`
speak about one run, given by its events, so that a property of every state of
the run can be compared with a condition on every step of it. `Ends` is total
correctness: no run whose steps meet `C` gets stuck or goes on for ever before
it has met its goal.
-/

namespace Runs

variable {σ ι : Type*} (step : σ → ι → Option σ)

/-- The states reached from `s₀` by steps that all meet `C`. -/
inductive ReachableBy (C : σ → ι → Prop) (s₀ : σ) : σ → Prop
  | start : ReachableBy C s₀ s₀
  | step {s s' : σ} {i : ι} :
      ReachableBy C s₀ s → C s i → step s i = some s' → ReachableBy C s₀ s'

abbrev Reachable (s₀ s : σ) : Prop := ReachableBy step (fun _ _ => True) s₀ s

variable {step}

/-- **The invariant rule.** What holds at the start and is preserved by every step that
meets the condition holds in every state reached. -/
theorem ReachableBy.invariant {C : σ → ι → Prop} {s₀ s : σ} {I : σ → Prop}
    (h : ReachableBy step C s₀ s) (hstart : I s₀)
    (hstep : ∀ s i s', I s → C s i → step s i = some s' → I s') : I s := by
  induction h with
  | start => exact hstart
  | step _ hc hs ih => exact hstep _ _ _ ih hc hs

theorem ReachableBy.mono {C D : σ → ι → Prop} {s₀ s : σ}
    (h : ReachableBy step C s₀ s) (hCD : ∀ s i, C s i → D s i) :
    ReachableBy step D s₀ s := by
  induction h with
  | start => exact .start
  | step _ hc hs ih => exact .step ih (hCD _ _ hc) hs

variable (step)

def run : σ → List ι → Option σ
  | s, [] => some s
  | s, i :: is => (step s i).bind fun s' => run s' is

/-- `run`, refusing a step that does not meet the condition. -/
def checkedRun (C : σ → ι → Prop) [∀ s i, Decidable (C s i)] : σ → List ι → Option σ
  | s, [] => some s
  | s, i :: is => if C s i then (step s i).bind fun s' => checkedRun C s' is else none

def AllStates (P : σ → Prop) : σ → List ι → Prop
  | s, [] => P s
  | s, i :: is => P s ∧ ∀ s', step s i = some s' → AllStates P s' is

def AllSteps (C : σ → ι → Prop) : σ → List ι → Prop
  | _, [] => True
  | s, i :: is => ∀ s', step s i = some s' → C s i ∧ AllSteps C s' is

variable {step}

theorem ReachableBy.of_checkedRun {C : σ → ι → Prop} [∀ s i, Decidable (C s i)]
    {s₀ s t : σ} {is : List ι} (h : ReachableBy step C s₀ s)
    (hrun : checkedRun step C s is = some t) : ReachableBy step C s₀ t := by
  induction is generalizing s with
  | nil =>
      simp only [checkedRun, Option.some.injEq] at hrun
      exact hrun ▸ h
  | cons i is ih =>
      simp only [checkedRun] at hrun
      split at hrun
      · next hc =>
        obtain ⟨s', hs, hrest⟩ := Option.bind_eq_some_iff.mp hrun
        exact ih (.step h hc hs) hrest
      · cases hrun

theorem checkedRun_get {C : σ → ι → Prop} [∀ s i, Decidable (C s i)] {s : σ} {is : List ι}
    (h : (checkedRun step C s is).isSome = true) :
    AllSteps step C s is ∧ run step s is = some ((checkedRun step C s is).get h) := by
  rw [Option.some_get]
  obtain ⟨t, ht⟩ := Option.isSome_iff_exists.mp h
  clear h
  rw [ht]
  induction is generalizing s with
  | nil => exact ⟨trivial, ht⟩
  | cons i is ih =>
      simp only [checkedRun] at ht
      split at ht
      · next hc =>
        obtain ⟨s', hs, hrest⟩ := Option.bind_eq_some_iff.mp ht
        refine ⟨fun s'' hs'' => ?_, ?_⟩
        · obtain rfl := Option.some.inj (hs.symm.trans hs'')
          exact ⟨hc, (ih hrest).1⟩
        · rw [run, hs]
          exact (ih hrest).2
      · cases ht

theorem reachableBy_checkedRun {C : σ → ι → Prop} [∀ s i, Decidable (C s i)] {s₀ : σ}
    {is : List ι} (h : (checkedRun step C s₀ is).isSome = true) :
    ReachableBy step C s₀ ((checkedRun step C s₀ is).get h) :=
  ReachableBy.start.of_checkedRun (Option.some_get h).symm

theorem AllStates.head {P : σ → Prop} {s : σ} {is : List ι}
    (h : AllStates step P s is) : P s := by
  cases is with
  | nil => exact h
  | cons i is => exact h.1

theorem AllStates.last {P : σ → Prop} {s t : σ} {is : List ι}
    (h : AllStates step P s is) (hrun : run step s is = some t) : P t := by
  induction is generalizing s with
  | nil =>
      simp only [run, Option.some.injEq] at hrun
      exact hrun ▸ h
  | cons i is ih =>
      obtain ⟨s', hs, hrest⟩ := Option.bind_eq_some_iff.mp hrun
      exact ih (h.2 s' hs) hrest

/-- **The exact run rule.** Where a step taken in a good state leads to a good state
exactly when it meets the condition, all states of a run are good exactly when all its
steps meet the condition. `I` is what the run may rely on besides. -/
theorem allStates_iff_allSteps {I P : σ → Prop} {C : σ → ι → Prop}
    (hinv : ∀ s i s', I s → step s i = some s' → I s')
    (hexact : ∀ s i s', I s → P s → step s i = some s' → (P s' ↔ C s i))
    {s : σ} (hI : I s) (hP : P s) (is : List ι) :
    AllStates step P s is ↔ AllSteps step C s is := by
  induction is generalizing s with
  | nil => exact iff_of_true hP trivial
  | cons i is ih =>
      constructor
      · rintro ⟨_, hall⟩ s' hs
        have hP' : P s' := (hall s' hs).head
        exact ⟨(hexact s i s' hI hP hs).mp hP', (ih (hinv s i s' hI hs) hP').mp (hall s' hs)⟩
      · intro hall
        refine ⟨hP, fun s' hs => ?_⟩
        obtain ⟨hc, hrest⟩ := hall s' hs
        have hP' : P s' := (hexact s i s' hI hP hs).mpr hc
        exact (ih (hinv s i s' hI hs) hP').mpr hrest

/-! ### Two machines side by side -/

/-- The simulation rule. If every step is matched by one step of another machine or by
none, then every state of the one is matched by a state of the other. -/
theorem ReachableBy.simulates {σ' ι' : Type*} {step' : σ' → ι' → Option σ'} {C : σ → ι → Prop}
    {C' : σ' → ι' → Prop} {R : σ → σ' → Prop} {s₀ s : σ} {t₀ : σ'}
    (h : ReachableBy step C s₀ s) (hstart : R s₀ t₀)
    (hstep : ∀ s i s' t, R s t → C s i → step s i = some s' →
      R s' t ∨ ∃ j t', C' t j ∧ step' t j = some t' ∧ R s' t') :
    ∃ t, ReachableBy step' C' t₀ t ∧ R s t := by
  induction h with
  | start => exact ⟨t₀, .start, hstart⟩
  | step _ hc hs ih =>
      obtain ⟨t, ht, hR⟩ := ih
      rcases hstep _ _ _ t hR hc hs with hR' | ⟨j, t', hc', hs', hR'⟩
      · exact ⟨t, ht, hR'⟩
      · exact ⟨t', .step ht hc' hs', hR'⟩

/-- The purge rule. If hidden events change nothing that `R` compares, and the others
keep it from changing, then a run may be taken without its hidden events. -/
theorem run_filter {R : σ → σ → Prop} {keep : ι → Bool}
    (hhidden : ∀ s i s' t, R s t → keep i = false → step s i = some s' → R s' t)
    (hkept : ∀ s i s' t, R s t → keep i = true → step s i = some s' →
      ∃ t', step t i = some t' ∧ R s' t')
    {s s' t : σ} {is : List ι} (h : R s t) (hrun : run step s is = some s') :
    ∃ t', run step t (is.filter keep) = some t' ∧ R s' t' := by
  induction is generalizing s t with
  | nil =>
      obtain rfl := Option.some.inj hrun
      exact ⟨t, rfl, h⟩
  | cons i is ih =>
      obtain ⟨s₁, hs, hrest⟩ := Option.bind_eq_some_iff.mp hrun
      cases hkeep : keep i with
      | false =>
          rw [List.filter_cons_of_neg (by simp [hkeep])]
          exact ih (hhidden s i s₁ t h hkeep hs) hrest
      | true =>
          obtain ⟨t₁, ht, hR⟩ := hkept s i s₁ t h hkeep hs
          obtain ⟨t', hrun', hR'⟩ := ih hR hrest
          rw [List.filter_cons_of_pos hkeep]
          exact ⟨t', by rw [run, ht]; exact hrun', hR'⟩

/-! ### Runs as somebody sees them -/

section Observe

variable {ο α : Type*} (step)

def observe (view : σ → ι → Option ο) : σ → List ι → List ο
  | _, [] => []
  | s, i :: is => (view s i).toList ++ (step s i).elim [] fun s' => observe view s' is

variable {step}

/-- The observation rule. If a machine that only gets to know what is seen stays related
to every step, it is related to the end of the run. -/
theorem run_observe {C : σ → ι → Prop} {R : σ → α → Prop} {view : σ → ι → Option ο}
    {next : α → ο → α}
    (hhidden : ∀ s i s' a, R s a → C s i → step s i = some s' → view s i = none → R s' a)
    (hseen : ∀ s i s' a o, R s a → C s i → step s i = some s' → view s i = some o →
      R s' (next a o))
    {s t : σ} {a : α} {is : List ι} (h : R s a) (hall : AllSteps step C s is)
    (hrun : run step s is = some t) : R t ((observe step view s is).foldl next a) := by
  induction is generalizing s a with
  | nil =>
      obtain rfl := Option.some.inj hrun
      exact h
  | cons i is ih =>
      obtain ⟨s', hs, hrest⟩ := Option.bind_eq_some_iff.mp hrun
      obtain ⟨hc, hall'⟩ := hall s' hs
      rw [observe, hs, Option.elim_some, List.foldl_append]
      cases hview : view s i with
      | none => exact ih (hhidden s i s' a h hc hs hview) hall' hrest
      | some o => exact ih (hseen s i s' a o h hc hs hview) hall' hrest

end Observe

/-! ### Total correctness -/

variable (step)

/-- Every run from the state whose steps meet `C` reaches a state with `Q`, and `J`
holds on the way. -/
inductive Ends (C : σ → ι → Prop) (J Q : σ → Prop) : σ → Prop
  | done {s : σ} : J s → Q s → Ends C J Q s
  | next {s : σ} : J s → (∃ i s', C s i ∧ step s i = some s') →
      (∀ i s', C s i → step s i = some s' → Ends C J Q s') → Ends C J Q s

variable {step}

theorem Ends.next_of_not {C : σ → ι → Prop} {J Q : σ → Prop} {s : σ} (h : Ends step C J Q s)
    (hQ : ¬ Q s) : (∃ i s', C s i ∧ step s i = some s') ∧
      ∀ i s', C s i → step s i = some s' → Ends step C J Q s' := by
  cases h with
  | done _ hs => exact absurd hs hQ
  | next _ hlive hall => exact ⟨hlive, hall⟩

/-- **The potential rule.** While `P` holds, some step can be taken, and every step
either keeps `P` and uses up potential or leads to a state that ends. -/
theorem Ends.of_potential {C : σ → ι → Prop} {J P Q : σ → Prop} (potential : σ → ℕ)
    (hJ : ∀ s, P s → J s) (hlive : ∀ s, P s → ∃ i s', C s i ∧ step s i = some s')
    (hstep : ∀ s i s', P s → C s i → step s i = some s' →
      (P s' ∧ potential s' < potential s) ∨ Ends step C J Q s')
    {s : σ} (hs : P s) : Ends step C J Q s := by
  induction hn : potential s using Nat.strongRecOn generalizing s with
  | ind n ih =>
      refine .next (hJ s hs) (hlive s hs) fun i s' hc hs' => ?_
      rcases hstep s i s' hs hc hs' with ⟨hP, hlt⟩ | hends
      · exact ih _ (hn ▸ hlt) hP rfl
      · exact hends

theorem Ends.of_wellFounded {ρ : Type*} [LT ρ] [WellFoundedLT ρ] {C : σ → ι → Prop}
    {J P Q : σ → Prop} (potential : σ → ρ) (hJ : ∀ s, P s → J s)
    (hlive : ∀ s, P s → ∃ i s', C s i ∧ step s i = some s')
    (hstep : ∀ s i s', P s → C s i → step s i = some s' →
      (P s' ∧ potential s' < potential s) ∨ Ends step C J Q s')
    {s : σ} (hs : P s) : Ends step C J Q s := by
  induction hn : potential s using WellFoundedLT.induction generalizing s with
  | ind n ih =>
      refine .next (hJ s hs) (hlive s hs) fun i s' hc hs' => ?_
      rcases hstep s i s' hs hc hs' with ⟨hP, hlt⟩ | hends
      · exact ih _ (hn ▸ hlt) hP rfl
      · exact hends

end Runs
