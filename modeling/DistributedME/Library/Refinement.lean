import DistributedME.Library.Machine

/-! A machine refines another one: seen through a projection, each of its steps is a step of
the other machine or changes nothing. -/
namespace DistributedME.Library
namespace Machine
variable {σ α τ β : Type*} {M : Machine σ α} {N : Machine τ β}

/-- Take the step with the given label, or stand still. -/
def follow (N : Machine τ β) (t : τ) : Option β → Option τ
  | none => some t
  | some b => N.step t b

theorem run_toList (N : Machine τ β) (t : τ) (b : Option β) :
    N.run t b.toList = N.follow t b := by
  cases b with
  | none => rfl
  | some b => exact N.run_singleton t b

/-- The projection may rely on an invariant of the finer machine. -/
structure Refinement (M : Machine σ α) (N : Machine τ β) where
  project : σ → τ
  label : σ → α → Option β
  Invariant : σ → Prop
  init {s : σ} : M.init s → Invariant s ∧ N.init (project s)
  step {s t : σ} {a : α} : Invariant s → M.step s a = some t →
    Invariant t ∧ N.follow (project s) (label s a) = some (project t)

namespace Refinement
variable (R : M.Refinement N)

/-- The steps of the other machine that a list of labels gives rise to. -/
def labels : σ → List α → List β
  | _, [] => []
  | s, a :: as => (R.label s a).toList ++ (M.step s a).elim [] fun t => labels t as

theorem run {s t : σ} {as : List α} (hs : R.Invariant s) (hr : M.run s as = some t) :
    R.Invariant t ∧ N.run (R.project s) (R.labels s as) = some (R.project t) := by
  induction as generalizing s with
  | nil =>
    cases hr
    exact ⟨hs, rfl⟩
  | cons a as ih =>
    obtain ⟨u, hu, hr⟩ := run_cons.mp hr
    obtain ⟨hinv, hstep⟩ := R.step hs hu
    obtain ⟨ht, hrun⟩ := ih hinv hr
    refine ⟨ht, ?_⟩
    rw [labels, hu, Option.elim_some, run_append, run_toList, hstep]
    exact hrun

theorem run_of_init {s t : σ} {as : List α} (hs : M.init s) (hr : M.run s as = some t) :
    N.init (R.project s) ∧ N.run (R.project s) (R.labels s as) = some (R.project t) :=
  ⟨(R.init hs).2, (R.run (R.init hs).1 hr).2⟩

theorem invariant_of_guarded {guard : σ → α → Prop} {s : σ} (h : M.Guarded guard s) :
    R.Invariant s := by
  induction h with
  | init h => exact (R.init h).1
  | step _ _ hs ih => exact (R.step ih hs).1

/-- Guarded runs are seen as guarded runs. -/
theorem guarded {guard : σ → α → Prop} {guard' : τ → β → Prop}
    (hguard : ∀ s a t b, M.Guarded guard s → guard s a → M.step s a = some t →
      R.label s a = some b → guard' (R.project s) b) {s : σ} (h : M.Guarded guard s) :
    N.Guarded guard' (R.project s) := by
  induction h with
  | init h => exact .init (R.init h).2
  | @step s t a hr hg hs ih =>
    have hstep := (R.step (R.invariant_of_guarded hr) hs).2
    cases hb : R.label s a with
    | none =>
      rw [hb] at hstep
      rw [← Option.some.inj hstep]
      exact ih
    | some b =>
      rw [hb] at hstep
      exact .step ih (hguard s a t b hr hg hs hb) hstep

end Refinement
end Machine
end DistributedME.Library
