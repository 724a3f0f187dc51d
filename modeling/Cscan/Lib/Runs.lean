import Mathlib.Tactic.SplitIfs
import Mathlib.Tactic.TypeStar

/-! Runs of a system whose steps are labelled: a label stands for the choice of what happens next, and
a step that cannot happen is `none`. A guard restricts the steps of a run. -/

namespace Cscan.Lib

variable {S L : Type*}

/-- The states that runs from `s₀` reach by steps that meet the guard. -/
inductive Reaches (step : S → L → Option S) (guard : S → L → Prop) (s₀ : S) : S → Prop
  | start : Reaches step guard s₀ s₀
  | step {s s' : S} {l : L} (hs : Reaches step guard s₀ s) (hguard : guard s l)
      (hstep : step s l = some s') : Reaches step guard s₀ s'

/-- What holds at the start and is kept by every step of a run holds in every state reached. -/
theorem Reaches.invariant {step : S → L → Option S} {guard : S → L → Prop} {s₀ s : S}
    (Inv : S → Prop) (hstart : Inv s₀)
    (hkeep : ∀ s l s', Inv s → guard s l → step s l = some s' → Inv s')
    (h : Reaches step guard s₀ s) : Inv s := by
  induction h with
  | start => exact hstart
  | step _ hguard hstep ih => exact hkeep _ _ _ ih hguard hstep

/-- What the steps of a run do, the steps of another system do, in which a run can so go on. -/
theorem Reaches.lift {S' L' : Type*} {step : S → L → Option S} {guard : S → L → Prop}
    {step' : S' → L' → Option S'} {guard' : S' → L' → Prop} {s₀ s : S} {t₀ : S'} (h : Reaches step guard s₀ s)
    (f : S → S') (g : L → L') (hstart : Reaches step' guard' t₀ (f s₀))
    (hstep : ∀ s l s', guard s l → step s l = some s' →
      guard' (f s) (g l) ∧ step' (f s) (g l) = some (f s')) : Reaches step' guard' t₀ (f s) := by
  induction h with
  | start => exact hstart
  | step _ hguard hs ih => exact ih.step (hstep _ _ _ hguard hs).1 (hstep _ _ _ hguard hs).2

/-- The state after a schedule, if every step of it can happen. -/
def runSchedule (step : S → L → Option S) : S → List L → Option S
  | s, [] => some s
  | s, l :: ls => (step s l).bind fun s' => runSchedule step s' ls

/-- A schedule whose steps can all happen and meet the guard reaches its last state. -/
theorem reaches_of_runSchedule {step : S → L → Option S} {guard : S → L → Prop}
    [∀ s l, Decidable (guard s l)] {s₀ s s' : S} {ls : List L} (h : Reaches step guard s₀ s)
    (hrun : runSchedule (fun s l => if guard s l then step s l else none) s ls = some s') :
    Reaches step guard s₀ s' := by
  induction ls generalizing s with
  | nil =>
    cases hrun
    exact h
  | cons l ls ih =>
    obtain ⟨t, hstep, hrest⟩ := Option.bind_eq_some_iff.mp hrun
    dsimp only at hstep
    split_ifs at hstep with hguard
    exact ih (h.step hguard hstep) hrest

end Cscan.Lib
