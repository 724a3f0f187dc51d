import Mathlib.Tactic.Ring

/-! Arithmetic on `int`. An operation whose value is not one of the 32-bit integers has no result, and
neither has a division by zero. -/

namespace Cscan.Lib

/-- The values of `int`. -/
def IsInt (z : Int) : Prop := -2 ^ 31 ≤ z ∧ z < 2 ^ 31

instance (z : Int) : Decidable (IsInt z) := inferInstanceAs (Decidable (_ ∧ _))

/-- `SSIZE_MAX`. -/
def ssizeMax : Nat := 2 ^ 63 - 1

def checked (z : Int) : Option Int := if IsInt z then some z else none

/-- `a / b`, which truncates. -/
def divide (a b : Int) : Option Int := if b = 0 then none else checked (a.tdiv b)

@[simp] theorem checked_eq_some_iff {z v : Int} : checked z = some v ↔ IsInt z ∧ z = v := by
  unfold checked
  by_cases h : IsInt z
  · simp [h]
  · simp [h]

theorem checked_eq {z : Int} (h : IsInt z) : checked z = some z := if_pos h

@[simp] theorem checked_eq_none_iff {z : Int} : checked z = none ↔ ¬ IsInt z := by
  unfold checked
  by_cases h : IsInt z
  · simp [h]
  · simp [h]

@[simp] theorem divide_eq_some_iff {a b q : Int} :
    divide a b = some q ↔ b ≠ 0 ∧ IsInt (a.tdiv b) ∧ a.tdiv b = q := by
  unfold divide
  by_cases hb : b = 0
  · simp [hb]
  · rw [if_neg hb, checked_eq_some_iff]
    exact (and_iff_right hb).symm

theorem divide_eq {a b : Int} (ha : 0 ≤ a) (hint : IsInt a) (hb : 0 < b) : divide a b = some (a / b) := by
  have hnonneg : 0 ≤ a / b := Int.ediv_nonneg ha (by omega)
  have hle : a / b ≤ a := Int.ediv_le_self b ha
  obtain ⟨-, hlt⟩ := hint
  rw [divide, if_neg (by omega), Int.tdiv_eq_ediv_of_nonneg ha, checked_eq ⟨by omega, by omega⟩]

/-- A quotient by a positive number is no larger than the dividend. -/
theorem isInt_tdiv {a b : Int} (ha : IsInt a) (hb : 0 < b) : IsInt (a.tdiv b) := by
  obtain ⟨hlow, hhigh⟩ := ha
  rcases le_total 0 a with hnonneg | hneg
  · have hquotient : 0 ≤ a / b := Int.ediv_nonneg hnonneg hb.le
    have hle := Int.ediv_le_self b hnonneg
    rw [Int.tdiv_eq_ediv_of_nonneg hnonneg]
    exact ⟨by omega, by omega⟩
  · have hquotient : 0 ≤ -a / b := Int.ediv_nonneg (by omega) hb.le
    have hle := Int.ediv_le_self b (show 0 ≤ -a by omega)
    rw [show a.tdiv b = -((-a).tdiv b) by rw [Int.neg_tdiv, neg_neg],
      Int.tdiv_eq_ediv_of_nonneg (show 0 ≤ -a by omega)]
    exact ⟨by omega, by omega⟩

end Cscan.Lib
