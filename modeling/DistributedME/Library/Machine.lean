import Mathlib.Data.Option.Basic
import Mathlib.Tactic.TypeStar

/-! Machines that move by labelled partial steps, and induction over their runs. -/
namespace DistributedME.Library

/-- First states, and at most one successor for each label. All nondeterminism of a
modelled program is in the choice of the label. -/
structure Machine (σ α : Type*) where
  init : σ → Prop
  step : σ → α → Option σ

namespace Machine
variable {σ α : Type*} {M : Machine σ α} {guard : σ → α → Prop}

/-- States reached by steps that all meet the guard in the state they start from. -/
inductive Guarded (M : Machine σ α) (guard : σ → α → Prop) : σ → Prop
  | init {s : σ} : M.init s → Guarded M guard s
  | step {s t : σ} {a : α} : Guarded M guard s → guard s a → M.step s a = some t →
      Guarded M guard t

/-- States reached by any steps. -/
abbrev Reachable (M : Machine σ α) : σ → Prop := M.Guarded fun _ _ => True

theorem Guarded.mono {weaker : σ → α → Prop} (hw : ∀ s a, guard s a → weaker s a) {s : σ}
    (h : M.Guarded guard s) : M.Guarded weaker s := by
  induction h with
  | init h => exact .init h
  | step _ hg hs ih => exact .step ih (hw _ _ hg) hs

/-- The step lemma of an invariant gives its run lemma. -/
theorem Guarded.invariant {I : σ → Prop} (h₀ : ∀ s, M.init s → I s)
    (hstep : ∀ s a t, I s → guard s a → M.step s a = some t → I t) {s : σ}
    (h : M.Guarded guard s) : I s := by
  induction h with
  | init h => exact h₀ _ h
  | step _ hg hs ih => exact hstep _ _ _ ih hg hs

/-- An invariant may use one that was proved before it. -/
theorem Guarded.invariant_of {J I : σ → Prop} (hJ : ∀ s, M.Guarded guard s → J s)
    (h₀ : ∀ s, M.init s → I s)
    (hstep : ∀ s a t, J s → J t → I s → guard s a → M.step s a = some t → I t) {s : σ}
    (h : M.Guarded guard s) : I s := by
  induction h with
  | init h => exact h₀ _ h
  | step hr hg hs ih => exact hstep _ _ _ (hJ _ hr) (hJ _ (.step hr hg hs)) ih hg hs

/-- Execute a list of labels, failing at the first one that has no step. -/
def run (M : Machine σ α) (s : σ) : List α → Option σ
  | [] => some s
  | a :: as => (M.step s a).bind fun t => M.run t as

theorem run_cons {s t : σ} {a : α} {as : List α} :
    M.run s (a :: as) = some t ↔ ∃ u, M.step s a = some u ∧ M.run u as = some t :=
  Option.bind_eq_some_iff

theorem run_append (s : σ) (as bs : List α) :
    M.run s (as ++ bs) = (M.run s as).bind fun t => M.run t bs := by
  induction as generalizing s with
  | nil => rfl
  | cons a as ih =>
    rw [List.cons_append, run, run, Option.bind_assoc]
    apply congrArg
    funext t
    exact ih t

theorem run_singleton (s : σ) (a : α) : M.run s [a] = M.step s a :=
  Option.bind_fun_some (M.step s a)

/-- Every step that the labels take from s meets the guard. -/
def Along (M : Machine σ α) (guard : σ → α → Prop) (s : σ) : List α → Prop
  | [] => True
  | a :: as => guard s a ∧ ∀ t ∈ M.step s a, M.Along guard t as

instance Along.decidable [∀ s a, Decidable (guard s a)] :
    ∀ (as : List α) (s : σ), Decidable (M.Along guard s as)
  | [], _ => inferInstanceAs (Decidable True)
  | a :: as, s =>
    have (t : σ) : Decidable (M.Along guard t as) := Along.decidable as t
    inferInstanceAs (Decidable (guard s a ∧ ∀ t ∈ M.step s a, M.Along guard t as))

theorem Along.guarded {s t : σ} {as : List α} (hg : M.Along guard s as)
    (h : M.Guarded guard s) (hr : M.run s as = some t) : M.Guarded guard t := by
  induction as generalizing s with
  | nil => cases hr; exact h
  | cons a as ih =>
    obtain ⟨u, hu, hr⟩ := run_cons.mp hr
    exact ih (hg.2 u hu) (.step h hg.1 hu) hr

theorem along_trivial (M : Machine σ α) (s : σ) (as : List α) :
    M.Along (fun _ _ => True) s as := by
  induction as generalizing s with
  | nil => exact trivial
  | cons a as ih => exact ⟨trivial, fun t _ => ih t⟩

/-- A guard may look at the labels alone. -/
theorem Along.and_of_forall {p : α → Prop} {s : σ} {as : List α} (hg : M.Along guard s as)
    (hp : ∀ a ∈ as, p a) : M.Along (fun s a => guard s a ∧ p a) s as := by
  induction as generalizing s with
  | nil => exact trivial
  | cons a as ih =>
    obtain ⟨ha, has⟩ := List.forall_mem_cons.mp hp
    exact ⟨⟨hg.1, ha⟩, fun t ht => ih (hg.2 t ht) has⟩

/-- Where the guard promises a step, labels that meet it can all be executed. -/
theorem Along.exists_run {s : σ} {as : List α} (hg : M.Along guard s as)
    (hlive : ∀ s a, M.Guarded guard s → guard s a → ∃ t, M.step s a = some t)
    (h : M.Guarded guard s) : ∃ t, M.run s as = some t ∧ M.Guarded guard t := by
  induction as generalizing s with
  | nil => exact ⟨s, rfl, h⟩
  | cons a as ih =>
    obtain ⟨u, hu⟩ := hlive s a h hg.1
    obtain ⟨t, hr, ht⟩ := ih (hg.2 u hu) (.step h hg.1 hu)
    exact ⟨t, run_cons.mpr ⟨u, hu, hr⟩, ht⟩

/-- A run either meets the guard all along or contains a first step that does not. -/
theorem guarded_or_unguarded {s t : σ} (as : List α) (h : M.Guarded guard s)
    (hr : M.run s as = some t) :
    M.Guarded guard t ∨ ∃ before a after u, as = before ++ a :: after ∧
      M.run s before = some u ∧ ¬ guard u a := by
  induction as generalizing s with
  | nil => cases hr; exact .inl h
  | cons a as ih =>
    obtain ⟨u, hu, hr⟩ := run_cons.mp hr
    by_cases hg : guard s a
    · rcases ih (.step h hg hu) hr with ht | ⟨before, b, after, v, rfl, hv, hb⟩
      · exact .inl ht
      · exact .inr ⟨a :: before, b, after, v, rfl, run_cons.mpr ⟨u, hu, hv⟩, hb⟩
    · exact .inr ⟨[], a, as, s, rfl, rfl, hg⟩

theorem Reachable.run {s t : σ} {as : List α} (h : M.Reachable s) (hr : M.run s as = some t) :
    M.Reachable t := by
  rcases guarded_or_unguarded as h hr with ht | ⟨_, _, _, _, _, _, hn⟩
  · exact ht
  · exact (hn trivial).elim

/-- What the steps of a run yield, in their order. -/
def trace {β : Type*} (M : Machine σ α) (out : σ → α → List β) (s : σ) : List α → List β
  | [] => []
  | a :: as => out s a ++ (M.step s a).elim [] fun t => M.trace out t as

theorem trace_cons {β : Type*} {out : σ → α → List β} {s t : σ} {a : α} {as : List α}
    (h : M.step s a = some t) : M.trace out s (a :: as) = out s a ++ M.trace out t as := by
  rw [trace, h, Option.elim_some]

/-- An invariant may be about all that the run has yielded so far. -/
theorem invariant_trace {β : Type*} {out : σ → α → List β} {I : σ → List β → Prop}
    (hstep : ∀ s a t past, I s past → M.step s a = some t → I t (past ++ out s a)) {s t : σ}
    {as : List α} {past : List β} (h : I s past) (hr : M.run s as = some t) :
    I t (past ++ M.trace out s as) := by
  induction as generalizing s past with
  | nil =>
    cases hr
    rw [trace, List.append_nil]
    exact h
  | cons a as ih =>
    obtain ⟨u, hu, hr⟩ := run_cons.mp hr
    rw [trace_cons hu, ← List.append_assoc]
    exact ih (hstep s a u past h hu) hr

/-- A machine follows another one that stands still or takes a step at each of its steps. -/
theorem Guarded.simulate {τ β : Type*} {N : Machine τ β} (R : σ → τ → Prop)
    (h₀ : ∀ s, M.init s → ∃ t, N.init t ∧ R s t)
    (hstep : ∀ s t a s', R s t → guard s a → M.step s a = some s' →
      R s' t ∨ ∃ b t', N.step t b = some t' ∧ R s' t') {s : σ} (h : M.Guarded guard s) :
    ∃ t, N.Reachable t ∧ R s t := by
  induction h with
  | init h =>
    obtain ⟨t, ht, hR⟩ := h₀ _ h
    exact ⟨t, .init ht, hR⟩
  | step _ hg hs ih =>
    obtain ⟨t, ht, hR⟩ := ih
    rcases hstep _ _ _ _ hR hg hs with hR' | ⟨b, t', ht', hR'⟩
    · exact ⟨t, ht, hR'⟩
    · exact ⟨t', .step ht trivial ht', hR'⟩

/-- A concrete run that ends in a state with a decidable property. -/
theorem exists_run {s : σ} (as : List α) (p : σ → Bool) (hp : (M.run s as).any p = true) :
    ∃ t, M.run s as = some t ∧ p t = true := by
  cases hr : M.run s as with
  | none => simp [hr] at hp
  | some t => exact ⟨t, rfl, by simpa [hr] using hp⟩

theorem exists_reachable_of_run {s : σ} (h : M.init s) (as : List α) (p : σ → Bool)
    (hp : (M.run s as).any p = true) : ∃ t, M.Reachable t ∧ p t = true := by
  obtain ⟨t, hr, ht⟩ := exists_run as p hp
  exact ⟨t, Reachable.run (.init h) hr, ht⟩

end Machine
end DistributedME.Library
