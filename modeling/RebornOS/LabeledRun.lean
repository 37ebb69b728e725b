import Mathlib.Tactic

/-!
# Runs of a labelled step function

This module is independent of the kernel.  A system is given by a partial step
function `step : σ → α → Option σ`: a label names everything that is chosen
from outside (which party moves, with which arguments), and `none` means that
the label is not enabled in the state.

`runAll` executes a list of labels.  The rules below are the two inductions
that every safety argument over whole runs needs: an invariant of the single
step holds after every run (`runAll_invariant`), and a run can be cut at any
point (`runAll_append`).  A potential that no step increases and that each step
of one kind uses up bounds how often that kind occurs (`runAll_countP_le`).

`EveryStep` says that every step of a run satisfies a condition; two conditions
that agree as long as they hold are equivalent for whole runs
(`everyStep_iff`).

A history variable records what has happened so far and has no influence on the
steps (`withHistory`).
-/

namespace RebornOS
namespace LabeledRun

universe u v w

variable {σ : Type u} {α : Type v} {step : σ → α → Option σ} {s t : σ} {as : List α}
  {P : σ → Prop}

/-- Execute the labels from left to right. -/
def runAll (step : σ → α → Option σ) : σ → List α → Option σ
  | s, [] => some s
  | s, a :: as => (step s a).bind (fun t => runAll step t as)

@[simp] theorem runAll_nil
    (step : σ → α → Option σ) (s : σ) : runAll step s [] = some s := by
  rfl

/-- Peel the first step from a successful nonempty run. -/
theorem runAll_cons_success
    {a : α} (h : runAll step s (a :: as) = some t) :
    ∃ s' : σ, step s a = some s' ∧ runAll step s' as = some t := by
  simp only [runAll, Option.bind_eq_some_iff] at h
  exact h

/-- A run of a concatenation passes through a middle state. -/
theorem runAll_append
    (step : σ → α → Option σ) (s : σ) (as bs : List α) :
    runAll step s (as ++ bs) =
      (runAll step s as).bind (fun t => runAll step t bs) := by
  induction as generalizing s with
  | nil =>
      rfl
  | cons a as ih =>
      simp only [List.cons_append, runAll]
      cases step s a with
      | none =>
          rfl
      | some t =>
          exact ih t

/-- An invariant of every enabled step holds after every run. -/
theorem runAll_invariant
    (hstep : ∀ s a s', P s → step s a = some s' → P s') (hs : P s)
    (hrun : runAll step s as = some t) : P t := by
  induction as generalizing s with
  | nil =>
      simp only [runAll_nil, Option.some.injEq] at hrun
      rwa [← hrun]
  | cons a as ih =>
      obtain ⟨s', hs', hrest⟩ := runAll_cons_success hrun
      exact ih (hstep s a s' hs hs') hrest

/--
The same rule when the step preserves the invariant only under a condition on
the label, and the run uses only labels that satisfy it.
-/
theorem runAll_invariant_of_forall
    {C : α → Prop} (hstep : ∀ s a s', P s → C a → step s a = some s' → P s') (hs : P s)
    (hC : ∀ a, a ∈ as → C a) (hrun : runAll step s as = some t) : P t := by
  induction as generalizing s with
  | nil =>
      simp only [runAll_nil, Option.some.injEq] at hrun
      rwa [← hrun]
  | cons a as ih =>
      obtain ⟨s', hs', hrest⟩ := runAll_cons_success hrun
      have hnext : P s' := hstep s a s' hs (hC a (by simp)) hs'
      exact ih hnext (fun b hb => hC b (List.mem_cons_of_mem _ hb)) hrest

/--
A potential that no step increases, and that every step with a label in `p`
decreases, bounds the number of such labels in a run.  The step rule may use
what is known of every state of the run.
-/
theorem runAll_countP_le
    {p : α → Bool} {μ : σ → Nat} (hstep : ∀ s a s', P s → P s' → step s a = some s' →
      μ s' + (if p a then 1 else 0) ≤ μ s)
    (hP : ∀ as₁ as₂ u, as = as₁ ++ as₂ → runAll step s as₁ = some u → P u)
    (hrun : runAll step s as = some t) : μ t + as.countP p ≤ μ s := by
  induction as generalizing s with
  | nil =>
      simp only [runAll_nil, Option.some.injEq] at hrun
      simp [hrun]
  | cons a as ih =>
      obtain ⟨s', hs', hrest⟩ := runAll_cons_success hrun
      have hP' : ∀ as₁ as₂ u, as = as₁ ++ as₂ → runAll step s' as₁ = some u →
          P u := by
        intro as₁ as₂ u has hu
        refine hP (a :: as₁) as₂ u (by rw [has, List.cons_append]) ?_
        rw [runAll, hs', Option.bind_some, hu]
      have hone : μ s' + (if p a then 1 else 0) ≤ μ s :=
        hstep s a s' (hP [] (a :: as) s rfl rfl) (hP' [] as s' rfl rfl) hs'
      have hall : μ t + as.countP p ≤ μ s' := ih hP' hrest
      rw [List.countP_cons]
      omega

section EveryStep

variable {I : σ → Prop} {P Q : σ → α → σ → Prop}

/-- Every step of the run satisfies the condition `P`. -/
def EveryStep (step : σ → α → Option σ) (P : σ → α → σ → Prop) : σ → List α → Prop
  | _, [] => True
  | s, a :: as => ∀ t, step s a = some t → P s a t ∧ EveryStep step P t as

instance decidableEveryStep
    [∀ s a t, Decidable (P s a t)] :
    (s : σ) → (as : List α) → Decidable (EveryStep step P s as)
  | _, [] => isTrue trivial
  | s, a :: as =>
      match h : step s a with
      | none => isTrue (fun _ ht => nomatch h.symm.trans ht)
      | some t =>
          have := decidableEveryStep t as
          decidable_of_iff (P s a t ∧ EveryStep step P t as)
            ⟨fun hP _ ht => Option.some.inj (h.symm.trans ht) ▸ hP,
              fun hP => hP t h⟩

/-- A condition that holds of every step from a state with the invariant. -/
theorem everyStep_of_invariant
    (hstep : ∀ s a t, I s → step s a = some t → I t ∧ P s a t) (hs : I s) :
    EveryStep step P s as := by
  induction as generalizing s with
  | nil =>
      trivial
  | cons a as ih =>
      intro t ht
      obtain ⟨hnext, hone⟩ := hstep s a t hs ht
      exact ⟨hone, ih hnext⟩

/-- An invariant that a step keeps when it satisfies the condition. -/
theorem runAll_invariant_of_everyStep
    (hstep : ∀ s a t, I s → step s a = some t → P s a t → I t) (hs : I s)
    (hP : EveryStep step P s as) (hrun : runAll step s as = some t) : I t := by
  induction as generalizing s with
  | nil =>
      simp only [runAll_nil, Option.some.injEq] at hrun
      rwa [← hrun]
  | cons a as ih =>
      obtain ⟨s', hs', hrest⟩ := runAll_cons_success hrun
      obtain ⟨hone, hall⟩ := hP s' hs'
      exact ih (hstep s a s' hs hs' hone) hall hrest

/-- Conditions that agree while an invariant holds, which either of them keeps. -/
theorem everyStep_iff
    (hstep : ∀ s a t, I s → step s a = some t → P s a t → I t)
    (hiff : ∀ s a t, I s → step s a = some t → (P s a t ↔ Q s a t)) (as : List α)
    (hs : I s) : EveryStep step P s as ↔ EveryStep step Q s as := by
  induction as generalizing s with
  | nil =>
      exact Iff.rfl
  | cons a as ih =>
      constructor
      · intro hP t ht
        obtain ⟨hone, hall⟩ := hP t ht
        exact ⟨(hiff s a t hs ht).mp hone, (ih (hstep s a t hs ht hone)).mp hall⟩
      · intro hQ t ht
        obtain ⟨hone, hall⟩ := hQ t ht
        have hone' := (hiff s a t hs ht).mpr hone
        exact ⟨hone', (ih (hstep s a t hs ht hone')).mpr hall⟩

end EveryStep

section History

variable {γ : Type w}

/-- Steps that keep a history variable up to date. -/
def withHistory
    (step : σ → α → Option σ) (record : σ → α → σ → γ → γ) (x : σ × γ) (a : α) :
    Option (σ × γ) :=
  (step x.1 a).map (fun s => (s, record x.1 a s x.2))

theorem withHistory_eq_some
    {record : σ → α → σ → γ → γ} {x y : σ × γ} {a : α} :
    withHistory step record x a = some y ↔
      step x.1 a = some y.1 ∧ y.2 = record x.1 a y.1 x.2 := by
  unfold withHistory
  constructor
  · intro h
    obtain ⟨s, hs, rfl⟩ := Option.map_eq_some_iff.mp h
    exact ⟨hs, rfl⟩
  · rintro ⟨hs, hy⟩
    rw [hs, Option.map_some, ← hy]

/-- Every run has a history. -/
theorem exists_history
    (record : σ → α → σ → γ → γ) (h : γ) (hrun : runAll step s as = some t) :
    ∃ h', runAll (withHistory step record) (s, h) as = some (t, h') := by
  induction as generalizing s h with
  | nil =>
      rw [runAll_nil, Option.some.injEq] at hrun
      exact ⟨h, by rw [runAll_nil, hrun]⟩
  | cons a as ih =>
      obtain ⟨s', hs', hrest⟩ := runAll_cons_success hrun
      obtain ⟨h', hh'⟩ := ih (record s a s' h) hrest
      have hone : withHistory step record (s, h) a = some (s', record s a s' h) :=
        withHistory_eq_some.mpr ⟨hs', rfl⟩
      exact ⟨h', by rw [runAll, hone, Option.bind_some, hh']⟩

end History

end LabeledRun
end RebornOS
