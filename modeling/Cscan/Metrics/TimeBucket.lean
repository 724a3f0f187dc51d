import Cscan.Lib.Bins
import Cscan.Lib.Python
import Mathlib.Data.List.Sort

/-! The class `TimeBucket` of `metrics.py`: counters for each axis under times, and histograms of them. -/

namespace Cscan.Metrics

open Cscan.Lib

/-- What a script may raise. -/
inductive Raised
  | struct
  | index
  | key
  | zeroDivision
  | exit
deriving DecidableEq

structure TimeBucket (dimensions : Nat) where
  sorted : Bool := true
  biggestIdx : Int := -1
  indices : List Int := []
  values : Int → Option (List Nat) := fun _ => none

namespace TimeBucket

variable {dimensions : Nat}

def ensureKey (b : TimeBucket dimensions) (key : Int) : TimeBucket dimensions :=
  match b.values key with
  | some _ => b
  | none =>
    let b : TimeBucket dimensions := { b with
      indices := b.indices ++ [key]
      values := Function.update b.values key (some (List.replicate dimensions 0)) }
    if key < b.biggestIdx then { b with sorted := false } else { b with biggestIdx := key }

def sort (b : TimeBucket dimensions) : TimeBucket dimensions :=
  if b.sorted then b
  else
    let indices := b.indices.insertionSort (· ≤ ·)
    { b with indices := indices, biggestIdx := indices.getLast?.getD b.biggestIdx, sorted := true }

/-- `none` is an `IndexError`. -/
def addEvent (b : TimeBucket dimensions) (key evt : Int) : Option (TimeBucket dimensions) := do
  let b := b.ensureKey key
  let row ← b.values key
  let axis ← Python.subscript row.length evt
  some { b with values := Function.update b.values key (some (row.modify axis (· + 1))) }

/-- The variables of `sample`. -/
structure Sampled where
  indices : List Int := []
  values : List Nat := []
  lastKey : Int := -1
deriving DecidableEq

/-- A turn of the loop of `sample`. -/
def sampleTurn (b : TimeBucket dimensions) (axis size : Int) (s : Sampled) (idx : Int) :
    Except Raised Sampled := do
  if size = 0 then throw .zeroDivision
  let nkey := idx.fdiv size * size
  let s := if s.lastKey < nkey then ⟨s.indices ++ [nkey], s.values ++ [0], nkey⟩ else s
  match b.values idx with
  | none => throw .key
  | some row =>
    match Python.subscript row.length axis with
    | none => throw .index
    | some place =>
      if s.values = [] then throw .index
      pure { s with values := s.values.modifyLast (· + row.getD place 0) }

def sample (b : TimeBucket dimensions) (axis size : Int) : Except Raised (List Int × List Nat) := do
  let s ← b.indices.foldlM (b.sampleTurn axis size) {}
  pure (s.indices, s.values)

/-! ### The events that a bucket holds -/

/-- The bucket counts these events, each with its axis, and no others. -/
structure Counts (b : TimeBucket dimensions) (events : List (Int × Nat)) : Prop where
  nodup : b.indices.Nodup
  mem_indices : ∀ key, key ∈ b.indices ↔ ∃ e ∈ events, e.1 = key
  values : ∀ key, b.values key =
    if key ∈ b.indices then some ((List.range dimensions).map fun axis => events.count (key, axis)) else none

/-- What `sorted` and `biggest_idx` say. -/
structure Ordered (b : TimeBucket dimensions) : Prop where
  le_biggestIdx : ∀ key ∈ b.indices, key ≤ b.biggestIdx
  sorted : b.sorted = true → b.indices.Pairwise (· < ·)

variable {b : TimeBucket dimensions} {events : List (Int × Nat)} {key : Int}

theorem counts_new : ({} : TimeBucket dimensions).Counts [] :=
  ⟨List.nodup_nil, by simp, by simp⟩

theorem Counts.append_nil (h : b.Counts events) : b.Counts (events ++ []) := by
  rw [List.append_nil]
  exact h

theorem ordered_new : ({} : TimeBucket dimensions).Ordered :=
  ⟨by simp, fun _ => List.Pairwise.nil⟩

theorem ensureKey_of_mem (h : b.Counts events) (hmem : key ∈ b.indices) : b.ensureKey key = b := by
  rw [ensureKey, h.values, if_pos hmem]

theorem ensureKey_indices (h : b.Counts events) (hmem : key ∉ b.indices) :
    (b.ensureKey key).indices = b.indices ++ [key] ∧
      (b.ensureKey key).values = Function.update b.values key (some (List.replicate dimensions 0)) := by
  rw [ensureKey, h.values, if_neg hmem]
  dsimp only
  split_ifs
  · exact ⟨rfl, rfl⟩
  · exact ⟨rfl, rfl⟩

theorem Ordered.ensureKey (hordered : b.Ordered) (h : b.Counts events) : (b.ensureKey key).Ordered := by
  by_cases hmem : key ∈ b.indices
  · rw [ensureKey_of_mem h hmem]
    exact hordered
  rw [TimeBucket.ensureKey, h.values, if_neg hmem]
  dsimp only
  by_cases hlt : key < b.biggestIdx
  · rw [if_pos hlt]
    refine ⟨fun k hk => ?_, fun hsorted => absurd hsorted Bool.false_ne_true⟩
    rcases List.mem_append.mp hk with hk | hk
    · exact hordered.le_biggestIdx k hk
    · rw [List.mem_singleton.mp hk]
      exact hlt.le
  · rw [if_neg hlt]
    have hle : ∀ k ∈ b.indices, k < key := by
      intro k hk
      have hbig := hordered.le_biggestIdx k hk
      have hne : k ≠ key := fun heq => hmem (heq ▸ hk)
      omega
    refine ⟨fun k hk => ?_, fun hsorted => ?_⟩
    · rcases List.mem_append.mp hk with hk | hk
      · exact (hle k hk).le
      · exact (List.mem_singleton.mp hk).le
    · refine List.pairwise_append.mpr ⟨hordered.sorted hsorted, List.pairwise_singleton _ _, ?_⟩
      simpa using hle

/-- The row of a key after `ensure_key`: what was counted before. -/
theorem ensureKey_row (h : b.Counts events) :
    (b.ensureKey key).values key = some ((List.range dimensions).map fun axis => events.count (key, axis)) := by
  by_cases hmem : key ∈ b.indices
  · rw [ensureKey_of_mem h hmem, h.values, if_pos hmem]
  · have hzero : (fun axis => events.count (key, axis)) = fun _ => 0 := by
      funext axis
      refine List.count_eq_zero.mpr fun he => hmem ((h.mem_indices key).mpr ⟨_, he, rfl⟩)
    rw [(ensureKey_indices h hmem).2, Function.update_self, hzero, List.map_const', List.length_range]

theorem mem_ensureKey (h : b.Counts events) (k : Int) :
    k ∈ (b.ensureKey key).indices ↔ k ∈ b.indices ∨ k = key := by
  by_cases hmem : key ∈ b.indices
  · rw [ensureKey_of_mem h hmem]
    exact ⟨Or.inl, fun hor => hor.elim id fun heq => heq ▸ hmem⟩
  · rw [(ensureKey_indices h hmem).1, List.mem_append, List.mem_singleton]

theorem nodup_ensureKey (h : b.Counts events) : (b.ensureKey key).indices.Nodup := by
  by_cases hmem : key ∈ b.indices
  · rw [ensureKey_of_mem h hmem]
    exact h.nodup
  · rw [(ensureKey_indices h hmem).1]
    exact List.nodup_append'.mpr ⟨h.nodup, List.nodup_singleton key, by simpa using hmem⟩

theorem ensureKey_values_of_ne (h : b.Counts events) {k : Int} (hne : k ≠ key) :
    (b.ensureKey key).values k = b.values k := by
  by_cases hmem : key ∈ b.indices
  · rw [ensureKey_of_mem h hmem]
  · rw [(ensureKey_indices h hmem).2, Function.update_of_ne hne]

theorem modify_row (axis : Nat) :
    ((List.range dimensions).map fun a => events.count (key, a)).modify axis (· + 1) =
      (List.range dimensions).map fun a => (events ++ [(key, axis)]).count (key, a) := by
  refine List.ext_getElem? fun i => ?_
  rw [List.getElem?_modify, List.getElem?_map, List.getElem?_map]
  by_cases hi : i < dimensions
  · rw [List.getElem?_range hi]
    by_cases heq : axis = i
    · simp [heq]
    · simp [heq]
  · rw [List.getElem?_eq_none (by simpa using hi)]
    rfl

/-- `add_event` counts one more event, if the axis exists. -/
theorem addEvent_counts (h : b.Counts events) (hordered : b.Ordered) {evt : Int} {axis : Nat}
    (haxis : Python.subscript dimensions evt = some axis) :
    ∃ b', b.addEvent key evt = some b' ∧ b'.Counts (events ++ [(key, axis)]) ∧ b'.Ordered := by
  have hensured : (b.ensureKey key).Ordered := hordered.ensureKey h
  refine ⟨{ b.ensureKey key with
    values := Function.update (b.ensureKey key).values key
      (some ((List.range dimensions).map fun a => (events ++ [(key, axis)]).count (key, a))) }, ?_, ?_,
    hensured.le_biggestIdx, hensured.sorted⟩
  · rw [addEvent, ensureKey_row h]
    simp only [Option.bind_eq_bind, Option.bind_some, List.length_map, List.length_range, haxis, modify_row]
  · refine ⟨nodup_ensureKey h, fun k => ?_, fun k => ?_⟩
    all_goals dsimp only
    · refine (mem_ensureKey h k).trans ?_
      rw [h.mem_indices]
      simp [or_and_right, exists_or, eq_comm]
    · by_cases hk : k = key
      · subst hk
        rw [Function.update_self, if_pos ((mem_ensureKey h k).mpr (Or.inr rfl))]
      · have hmem : k ∈ (b.ensureKey key).indices ↔ k ∈ b.indices :=
          (mem_ensureKey h k).trans (or_iff_left hk)
        have hcount : (fun a => (events ++ [(key, axis)]).count (k, a)) = fun a => events.count (k, a) := by
          funext a
          have hnot : (k, a) ∉ [(key, axis)] := by simp [hk]
          rw [List.count_append, List.count_eq_zero_of_not_mem hnot, Nat.add_zero]
        rw [Function.update_of_ne hk, ensureKey_values_of_ne h hk, h.values, hcount]
        simp only [hmem]

/-- On an axis that does not exist it raises an `IndexError`. -/
theorem addEvent_eq_none (h : b.Counts events) {evt : Int} (haxis : Python.subscript dimensions evt = none) :
    b.addEvent key evt = none := by
  rw [addEvent, ensureKey_row h]
  simp [haxis]

theorem addEvent_of_eq {b' : TimeBucket dimensions} (h : b.Counts events) (hordered : b.Ordered) {evt : Int}
    (hadd : b.addEvent key evt = some b') :
    ∃ axis, Python.subscript dimensions evt = some axis ∧ b'.Counts (events ++ [(key, axis)]) ∧ b'.Ordered := by
  cases haxis : Python.subscript dimensions evt with
  | none =>
    rw [addEvent_eq_none h haxis] at hadd
    cases hadd
  | some axis =>
    obtain ⟨b'', hadd', hcounts⟩ := addEvent_counts h hordered haxis
    obtain rfl := Option.some.inj (hadd.symm.trans hadd')
    exact ⟨axis, rfl, hcounts⟩

theorem sort_counts (h : b.Counts events) : b.sort.Counts events := by
  unfold sort
  split_ifs
  · exact h
  · have hperm := List.perm_insertionSort (· ≤ ·) b.indices
    exact ⟨hperm.nodup_iff.mpr h.nodup, fun key => hperm.mem_iff.trans (h.mem_indices key), fun key => by
      simp only [h.values, hperm.mem_iff]⟩

/-- After `sort` the keys come in increasing order. -/
theorem sort_increasing (h : b.Counts events) (hordered : b.Ordered) : b.sort.indices.Pairwise (· < ·) := by
  unfold sort
  split_ifs with hsorted
  · exact hordered.sorted hsorted
  · have hperm := List.perm_insertionSort (· ≤ ·) b.indices
    have hle := List.pairwise_insertionSort (· ≤ ·) b.indices
    exact (hle.and (hperm.nodup_iff.mpr h.nodup)).imp fun hlt => lt_of_le_of_ne hlt.1 hlt.2

end TimeBucket

end Cscan.Metrics
