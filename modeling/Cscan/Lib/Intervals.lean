import Mathlib.Data.List.Nodup
import Mathlib.Order.Interval.Finset.Basic
import Mathlib.Data.Int.Interval

/-! Lists of closed intervals of integers, and their members counted through one interval after the
other. -/

namespace Cscan.Lib

def size (p : Int × Int) : Nat := (p.2 + 1 - p.1).toNat

def interval (p : Int × Int) : List Int := (List.range (size p)).map fun j : Nat => p.1 + j

/-- The members of the intervals, one interval after the other. -/
def members (ranges : List (Int × Int)) : List Int := ranges.flatMap interval

/-- The number of members before interval `i`. -/
def before (ranges : List (Int × Int)) (i : Nat) : Nat := (members (ranges.take i)).length

@[simp] theorem length_interval (p : Int × Int) : (interval p).length = size p := by
  simp [interval]

theorem mem_interval {p : Int × Int} {a : Int} : a ∈ interval p ↔ p.1 ≤ a ∧ a ≤ p.2 := by
  simp only [interval, size, List.mem_map, List.mem_range]
  constructor
  · rintro ⟨j, hj, rfl⟩
    omega
  · rintro ⟨h1, h2⟩
    exact ⟨(a - p.1).toNat, by omega, by omega⟩

theorem mem_members {ranges : List (Int × Int)} {a : Int} :
    a ∈ members ranges ↔ ∃ p ∈ ranges, p.1 ≤ a ∧ a ≤ p.2 := by
  simp [members, mem_interval]

@[simp] theorem members_cons (p : Int × Int) (ranges : List (Int × Int)) :
    members (p :: ranges) = interval p ++ members ranges := rfl

theorem nodup_interval (p : Int × Int) : (interval p).Nodup :=
  List.nodup_range.map fun a b h => by simpa using h

theorem nodup_members {ranges : List (Int × Int)}
    (h : ranges.Pairwise fun p q => p.2 < q.1 ∨ q.2 < p.1) : (members ranges).Nodup := by
  refine List.nodup_flatMap.mpr ⟨fun p _ => nodup_interval p, h.imp fun {p q} hpq => ?_⟩
  intro a hp hq
  have := mem_interval.mp hp
  have := mem_interval.mp hq
  omega

@[simp] theorem before_zero (ranges : List (Int × Int)) : before ranges 0 = 0 := rfl

@[simp] theorem before_cons_succ (p : Int × Int) (ranges : List (Int × Int)) (i : Nat) :
    before (p :: ranges) (i + 1) = size p + before ranges i := by
  simp [before]

theorem before_succ {ranges : List (Int × Int)} {i : Nat} {p : Int × Int}
    (hp : ranges[i]? = some p) : before ranges (i + 1) = before ranges i + size p := by
  simp [before, List.take_add_one, hp, members]

theorem before_mono (ranges : List (Int × Int)) {i j : Nat} (h : i ≤ j) :
    before ranges i ≤ before ranges j := by
  obtain ⟨d, rfl⟩ := Nat.exists_eq_add_of_le h
  simp [before, List.take_add, members]

/-- Member `j` of interval `i` comes after the members of the intervals before. -/
theorem getElem?_members {ranges : List (Int × Int)} {i j : Nat} {p : Int × Int}
    (hp : ranges[i]? = some p) (hj : j < size p) :
    (members ranges)[before ranges i + j]? = some (p.1 + j) := by
  induction ranges generalizing i with
  | nil => simp at hp
  | cons q ranges ih =>
    cases i with
    | zero =>
      obtain rfl : q = p := by simpa using hp
      rw [members_cons, before_zero, Nat.zero_add, List.getElem?_append_left (by simpa using hj)]
      simp [interval, List.getElem?_range hj]
    | succ i =>
      rw [List.getElem?_cons_succ] at hp
      rw [members_cons, before_cons_succ, Nat.add_assoc, List.getElem?_append_right (by simp),
        length_interval, Nat.add_sub_cancel_left]
      exact ih hp

theorem exists_place {ranges : List (Int × Int)} {r : Nat} (hr : r < (members ranges).length) :
    ∃ i p j, ranges[i]? = some p ∧ j < size p ∧ r = before ranges i + j := by
  induction ranges generalizing r with
  | nil => simp [members] at hr
  | cons q ranges ih =>
    by_cases hq : r < size q
    · exact ⟨0, q, r, rfl, hq, by simp⟩
    · rw [members_cons, List.length_append, length_interval] at hr
      obtain ⟨i, p, j, hp, hj, hij⟩ := ih (show r - size q < (members ranges).length by omega)
      exact ⟨i + 1, p, j, by simpa using hp, hj, by rw [before_cons_succ]; omega⟩

/-- Intervals that do not meet have at most as many members as the space that holds them. -/
theorem length_members_le {ranges : List (Int × Int)} {bound : Nat}
    (hdisjoint : ranges.Pairwise fun p q => p.2 < q.1 ∨ q.2 < p.1)
    (hbounds : ∀ p ∈ ranges, 0 ≤ p.1 ∧ p.2 < bound) : (members ranges).length ≤ bound := by
  rw [← List.toFinset_card_of_nodup (nodup_members hdisjoint)]
  have hsub : (members ranges).toFinset ⊆ Finset.Ico (0 : Int) bound := by
    intro a ha
    obtain ⟨p, hp, h1, h2⟩ := mem_members.mp (List.mem_toFinset.mp ha)
    have := hbounds p hp
    exact Finset.mem_Ico.mpr ⟨by omega, by omega⟩
  have hcard := Finset.card_le_card hsub
  rwa [Int.card_Ico, Int.sub_zero, Int.toNat_natCast] at hcard

end Cscan.Lib
