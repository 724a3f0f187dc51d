import Mathlib.Data.List.Range
import Mathlib.Data.Nat.ModEq

/-! A ring of slots that holds a list: from a first index on, around the end of the ring. -/

namespace Cscan.Lib

variable {α : Type*} {capacity start length : Nat}

/-- The `length` items from slot `start` on. -/
def ring (capacity start length : Nat) (slot : Nat → α) : List α :=
  (List.range length).map fun k => slot ((start + k) % capacity)

/-- The slots of different items differ. -/
theorem ring_index_inj {i j : Nat} (hi : i < capacity) (hj : j < capacity)
    (h : (start + i) % capacity = (start + j) % capacity) : i = j := by
  have hmod : i % capacity = j % capacity := Nat.ModEq.add_left_cancel' start h
  rwa [Nat.mod_eq_of_lt hi, Nat.mod_eq_of_lt hj] at hmod

/-- Writing the slot behind the last item appends to the list. -/
theorem ring_write {slot slot' : Nat → α} (hroom : length < capacity)
    (hsame : ∀ i < capacity, i ≠ (start + length) % capacity → slot' i = slot i) :
    ring capacity start (length + 1) slot' =
      ring capacity start length slot ++ [slot' ((start + length) % capacity)] := by
  rw [ring, List.range_succ, List.map_append, List.map_singleton]
  refine congrArg (· ++ _) (List.map_congr_left fun k hk => ?_)
  have hk : k < length := List.mem_range.mp hk
  refine hsame _ (Nat.mod_lt _ (by omega)) fun heq => ?_
  have := ring_index_inj (by omega) hroom heq
  omega

/-- The first item is in the first slot, and the others start behind it. -/
theorem ring_succ (slot : Nat → α) :
    ring capacity start (length + 1) slot =
      slot (start % capacity) :: ring capacity ((start + 1) % capacity) length slot := by
  rw [ring, List.range_succ_eq_map, List.map_cons, List.map_map, Nat.add_zero, ring]
  refine congrArg _ (List.map_congr_left fun k _ => ?_)
  rw [Function.comp_apply, Nat.mod_add_mod]
  exact congrArg (fun n => slot (n % capacity)) (by omega)

/-- The index behind the last item is the first index only if the ring is full or empty. -/
theorem ring_full_iff (hstart : start < capacity) (hpos : 0 < length) (hle : length ≤ capacity) :
    (start + length) % capacity = start ↔ length = capacity := by
  constructor
  · intro h
    by_contra hne
    have hmod : (start + length) % capacity = (start + 0) % capacity := by
      rw [h, Nat.add_zero, Nat.mod_eq_of_lt hstart]
    have := ring_index_inj (by omega) (by omega) hmod
    omega
  · rintro rfl
    rw [Nat.add_mod_right, Nat.mod_eq_of_lt hstart]

theorem ring_take (slot : Nat → α) (n : Nat) :
    (ring capacity start length slot).take n = ring capacity start (min n length) slot := by
  rw [ring, ← List.map_take, List.take_range, ring]

/-- Two rings hold the same list if their slots do, one after the other. -/
theorem ring_congr_iff {capacity' start' : Nat} {slot slot' : Nat → α} :
    ring capacity start length slot = ring capacity' start' length slot' ↔
      ∀ k < length, slot ((start + k) % capacity) = slot' ((start' + k) % capacity') := by
  rw [ring, ring, List.map_inj_left]
  simp only [List.mem_range]

end Cscan.Lib
