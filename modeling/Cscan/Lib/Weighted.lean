import Mathlib.Data.List.Basic
import Mathlib.Tactic.TypeStar

/-! Values with weights: a draw from as many numbers as the sum of the weights gives each value as often
as its weight says. -/

namespace Cscan.Lib

variable {α : Type*}

/-- Each value as often as its weight, in order. -/
def spread (entries : List (α × Nat)) : List α := entries.flatMap fun e => List.replicate e.2 e.1

def totalWeight : List (α × Nat) → Nat
  | [] => 0
  | e :: entries => e.2 + totalWeight entries

/-- The sum of the weights listed for `a`. -/
def weightOf [DecidableEq α] (entries : List (α × Nat)) (a : α) : Nat :=
  totalWeight (entries.filter fun e => e.1 = a)

@[simp] theorem spread_cons (e : α × Nat) (entries : List (α × Nat)) :
    spread (e :: entries) = List.replicate e.2 e.1 ++ spread entries := rfl

@[simp] theorem totalWeight_cons (e : α × Nat) (entries : List (α × Nat)) :
    totalWeight (e :: entries) = e.2 + totalWeight entries := rfl

@[simp] theorem length_spread (entries : List (α × Nat)) :
    (spread entries).length = totalWeight entries := by
  induction entries with
  | nil => rfl
  | cons e entries ih => simp [ih]

theorem count_spread [DecidableEq α] (entries : List (α × Nat)) (a : α) :
    (spread entries).count a = weightOf entries a := by
  induction entries with
  | nil => rfl
  | cons e entries ih =>
    rw [spread_cons, List.count_append, List.count_replicate, ih, weightOf, weightOf]
    by_cases he : e.1 = a
    · rw [List.filter_cons_of_pos (by simpa using he), totalWeight_cons, if_pos (by simpa using he)]
    · rw [List.filter_cons_of_neg (by simpa using he), if_neg (by simpa using he), Nat.zero_add]

theorem getElem?_spread_cons (e : α × Nat) (entries : List (α × Nat)) (r : Nat) :
    (spread (e :: entries))[r]? = if r < e.2 then some e.1 else (spread entries)[r - e.2]? := by
  rw [spread_cons, List.getElem?_append, List.length_replicate]
  by_cases hr : r < e.2
  · rw [if_pos hr, if_pos hr, List.getElem?_replicate, if_pos hr]
  · rw [if_neg hr, if_neg hr]

theorem countP_range_getElem? [DecidableEq α] (xs : List α) (a : α) :
    (List.range xs.length).countP (fun i => xs[i]? = some a) = xs.count a := by
  induction xs with
  | nil => rfl
  | cons x xs ih =>
    rw [List.length_cons, List.range_succ_eq_map, List.countP_cons, List.countP_map, List.count_cons,
      ← ih]
    congr 1
    by_cases hx : x = a <;> simp [hx]

/-- The values of positive weight are those that a draw can give. -/
theorem mem_spread (entries : List (α × Nat)) (a : α) :
    a ∈ spread entries ↔ ∃ e ∈ entries, e.1 = a ∧ 0 < e.2 := by
  simp only [spread, List.mem_flatMap, List.mem_replicate]
  constructor
  · rintro ⟨e, he, hne, rfl⟩
    exact ⟨e, he, rfl, Nat.pos_of_ne_zero hne⟩
  · rintro ⟨e, he, rfl, hpos⟩
    exact ⟨e, he, Nat.ne_of_gt hpos, rfl⟩

end Cscan.Lib
