import Mathlib.Data.List.Infix
import Mathlib.Tactic.TypeStar

/-! Lists that end too soon: their elements are the first ones of another list, but maybe for the last one, which is
related to the one that is next there. -/

namespace Cscan.Lib

variable {α β : Type*} {R S : α → α → Prop} {xs ys zs : List α}

inductive Begins (R : α → α → Prop) : List α → List α → Prop
  | whole {xs ys : List α} (h : xs <+: ys) : Begins R xs ys
  | cut {xs ys : List α} {x y : α} (h : xs ++ [y] <+: ys) (hR : R x y) : Begins R (xs ++ [x]) ys

namespace Begins

theorem refl (R : α → α → Prop) (xs : List α) : Begins R xs xs := .whole (List.prefix_refl xs)

theorem trans_front (h : Begins R xs ys) (hys : ys <+: zs) : Begins R xs zs := by
  cases h with
  | whole h => exact .whole (h.trans hys)
  | cut h hR => exact .cut (h.trans hys) hR

theorem append_left (h : Begins R xs ys) (zs : List α) : Begins R (zs ++ xs) (zs ++ ys) := by
  cases h with
  | whole h => exact .whole ((List.prefix_append_right_inj zs).mpr h)
  | cut h hR =>
    rw [← List.append_assoc]
    refine .cut ?_ hR
    rw [List.append_assoc]
    exact (List.prefix_append_right_inj zs).mpr h

theorem ne_nil (h : Begins R xs ys) (hxs : xs ≠ []) : ys ≠ [] := by
  rintro rfl
  cases h with
  | whole h => exact hxs (List.prefix_nil.mp h)
  | cut h => simpa using List.prefix_nil.mp h

/-- The first elements are the same, unless the list ends there. -/
theorem of_cons {x y : α} (h : Begins R (x :: xs) (y :: ys)) : (x = y ∧ Begins R xs ys) ∨ (xs = [] ∧ R x y) := by
  generalize hl : x :: xs = l at h
  cases h with
  | whole h =>
    subst hl
    obtain ⟨rfl, htail⟩ := List.cons_prefix_cons.mp h
    exact Or.inl ⟨rfl, .whole htail⟩
  | @cut pre _ z w h hR =>
    cases pre with
    | nil =>
      obtain ⟨rfl, rfl⟩ := List.cons.inj hl
      obtain ⟨rfl, -⟩ := List.cons_prefix_cons.mp h
      exact Or.inr ⟨rfl, hR⟩
    | cons first pre =>
      obtain ⟨rfl, rfl⟩ := List.cons.inj hl
      obtain ⟨rfl, htail⟩ := List.cons_prefix_cons.mp h
      exact Or.inl ⟨rfl, .cut htail hR⟩

theorem map_front (h : Begins R xs ys) {f : α → β} (hf : ∀ x y, R x y → f x = f y) : xs.map f <+: ys.map f := by
  cases h with
  | whole h => exact h.map f
  | cut h hR =>
    have hmap := h.map f
    rwa [List.map_append, List.map_singleton, ← hf _ _ hR, ← List.map_singleton, ← List.map_append] at hmap

end Begins

end Cscan.Lib
