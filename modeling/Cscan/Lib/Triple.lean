import Mathlib.Tactic.TypeStar

/-! Pre- and postconditions of programs in a state monad with exceptions: one postcondition for the
programs that return, and one for those that raise. -/

namespace Cscan.Lib

universe u

variable {ε σ α β : Type u}

/-- From every state in `P` the program returns with `Q`, or raises an exception with `E`. -/
def Triple (P : σ → Prop) (x : EStateM ε σ α) (Q : α → σ → Prop) (E : ε → σ → Prop) : Prop :=
  ∀ s, P s → match x s with
    | .ok a s' => Q a s'
    | .error e s' => E e s'

theorem bind_ok {x : EStateM ε σ α} {f : α → EStateM ε σ β} {a : α} {s s' : σ} (h : x s = .ok a s') :
    (x >>= f) s = f a s' := by
  show EStateM.bind x f s = _
  rw [EStateM.bind, h]

theorem bind_error {x : EStateM ε σ α} {f : α → EStateM ε σ β} {e : ε} {s s' : σ} (h : x s = .error e s') :
    (x >>= f) s = .error e s' := by
  show EStateM.bind x f s = _
  rw [EStateM.bind, h]

namespace Triple

variable {P : σ → Prop} {Q : α → σ → Prop} {R : β → σ → Prop} {E : ε → σ → Prop}
  {x : EStateM ε σ α} {f : α → EStateM ε σ β}

theorem pure {a : α} (h : ∀ s, P s → Q a s) : Triple P (Pure.pure a : EStateM ε σ α) Q E := h

theorem throw {e : ε} (h : ∀ s, P s → E e s) : Triple P (throw e : EStateM ε σ α) Q E := h

theorem bind (hx : Triple P x Q E) (hf : ∀ a, Triple (Q a) (f a) R E) : Triple P (x >>= f) R E := by
  intro s hs
  have hxs := hx s hs
  cases hrun : x s with
  | ok a s' =>
    rw [hrun] at hxs
    rw [bind_ok hrun]
    exact hf a s' hxs
  | error e s' =>
    rw [hrun] at hxs
    rw [bind_error hrun]
    exact hxs

/-- A step that never returns. -/
theorem stop (hx : Triple P x (fun _ _ => False) E) : Triple P (x >>= f) R E :=
  hx.bind fun _ _ h => h.elim

/-- A step that leads from each state into one state. -/
theorem step {a : α} {t : σ → σ} (hx : ∀ s, x s = .ok a (t s)) (h : ∀ s, P s → Q a (t s)) :
    Triple P x Q E := by
  intro s hs
  rw [hx s]
  exact h s hs

theorem mono {P' : σ → Prop} (hx : Triple P x Q E) (h : ∀ s, P' s → P s) : Triple P' x Q E :=
  fun s hs => hx s (h s hs)

theorem post {Q' : α → σ → Prop} (hx : Triple P x Q E) (h : ∀ a s, Q a s → Q' a s) : Triple P x Q' E := by
  intro s hs
  have hxs := hx s hs
  cases hrun : x s with
  | ok a s' =>
    rw [hrun] at hxs
    exact h a s' hxs
  | error e s' =>
    rw [hrun] at hxs
    exact hxs

theorem ite {c : Prop} [Decidable c] {y : EStateM ε σ α} (hx : c → Triple P x Q E)
    (hy : ¬ c → Triple P y Q E) : Triple P (if c then x else y) Q E := by
  by_cases h : c
  · rw [if_pos h]
    exact hx h
  · rw [if_neg h]
    exact hy h

end Triple

end Cscan.Lib
