import Mathlib.Algebra.BigOperators.Group.List.Basic
import Mathlib.Algebra.Ring.Nat
import Mathlib.Data.List.Nodup
import Mathlib.Order.Lattice

/-! Items that fall into bins and come in the order of their bins: the bins that are hit, with the sum of the weights
in each. Counts of elements. -/

namespace Cscan.Lib

/-- A sum with one term that counts. -/
theorem sum_map_single {α : Type*} [DecidableEq α] {keys : List α} {a : α} (hnodup : keys.Nodup)
    (hmem : a ∈ keys) (n : Nat) : (keys.map fun k => if a = k then n else 0).sum = n := by
  rw [List.sum_map_eq_nsmul_single a _ fun k hk _ => if_neg hk.symm, if_pos rfl,
    List.count_eq_one_of_mem hnodup hmem, one_nsmul]

section Bins

variable {ι κ : Type*} [LinearOrder κ] {bin : ι → κ} {weight : ι → Nat} {items : List ι} {keys : List κ}
  {sums : List Nat} {i : ι} {n : Nat}

/-- The sum of the weights in the bin `k`. -/
def binned (bin : ι → κ) (weight : ι → Nat) (items : List ι) (k : κ) : Nat :=
  ((items.filter (bin · = k)).map weight).sum

/-- `keys` are the bins that the items hit, and `sums` the weights in them. -/
structure Bins (bin : ι → κ) (weight : ι → Nat) (items : List ι) (keys : List κ) (sums : List Nat) : Prop where
  increasing : keys.Pairwise (· < ·)
  mem_keys : ∀ k, k ∈ keys ↔ ∃ i ∈ items, bin i = k
  sums_eq : sums = keys.map (binned bin weight items)

theorem binned_append (k : κ) :
    binned bin weight (items ++ [i]) k = binned bin weight items k + if bin i = k then weight i else 0 := by
  rw [binned, binned, List.filter_append, List.map_append, List.sum_append]
  by_cases h : bin i = k
  · simp [h]
  · simp [h]

theorem binned_cons (k : κ) :
    binned bin weight (i :: items) k = (if bin i = k then weight i else 0) + binned bin weight items k := by
  by_cases h : bin i = k
  · simp [binned, h]
  · simp [binned, h]

namespace Bins

theorem nil : Bins bin weight [] [] [] where
  increasing := List.Pairwise.nil
  mem_keys := by simp
  sums_eq := rfl

theorem mem_append (h : Bins bin weight items keys sums) (k : κ) :
    (k ∈ keys ∨ bin i = k) ↔ ∃ j ∈ items ++ [i], bin j = k := by
  rw [h.mem_keys]
  constructor
  · rintro (⟨j, hj, hbin⟩ | hbin)
    · exact ⟨j, List.mem_append_left _ hj, hbin⟩
    · exact ⟨i, List.mem_append_right _ List.mem_cons_self, hbin⟩
  · rintro ⟨j, hj, hbin⟩
    rcases List.mem_append.mp hj with hj | hj
    · exact Or.inl ⟨j, hj, hbin⟩
    · rw [List.mem_singleton.mp hj] at hbin
      exact Or.inr hbin

/-- An item behind the last bin has a new one. -/
theorem next (h : Bins bin weight items keys sums) (hlt : ∀ k ∈ keys, k < bin i) :
    Bins bin weight (items ++ [i]) (keys ++ [bin i]) (sums ++ [weight i]) where
  increasing := List.pairwise_append.mpr
    ⟨h.increasing, List.pairwise_singleton _ _, by simpa using hlt⟩
  mem_keys k := by
    rw [← h.mem_append, List.mem_append, List.mem_singleton, eq_comm (a := k)]
  sums_eq := by
    have hnew : binned bin weight items (bin i) = 0 := by
      have hnone : items.filter (bin · = bin i) = [] := by
        rw [List.filter_eq_nil_iff]
        intro j hj
        have hj' := hlt (bin j) ((h.mem_keys _).mpr ⟨j, hj, rfl⟩)
        simpa using hj'.ne
      rw [binned, hnone, List.map_nil, List.sum_nil]
    have hold : keys.map (binned bin weight (items ++ [i])) = keys.map (binned bin weight items) := by
      refine List.map_congr_left fun k hk => ?_
      rw [binned_append, if_neg (hlt k hk).ne', Nat.add_zero]
    rw [List.map_append, hold, h.sums_eq, List.map_singleton, binned_append, hnew, if_pos rfl, Nat.zero_add]

/-- An item of the last bin is added to it. -/
theorem add (h : Bins bin weight items (keys ++ [bin i]) (sums ++ [n])) :
    Bins bin weight (items ++ [i]) (keys ++ [bin i]) (sums ++ [n + weight i]) where
  increasing := h.increasing
  mem_keys k := by
    rw [← h.mem_append, List.mem_append, List.mem_singleton, eq_comm (a := k), or_assoc, or_self]
  sums_eq := by
    have hsums := h.sums_eq
    obtain ⟨-, -, hlt⟩ := List.pairwise_append.mp h.increasing
    have hold : keys.map (binned bin weight (items ++ [i])) = keys.map (binned bin weight items) := by
      refine List.map_congr_left fun k hk => ?_
      have hk' := hlt k hk (bin i) List.mem_cons_self
      rw [binned_append, if_neg hk'.ne', Nat.add_zero]
    rw [List.map_append, List.map_singleton] at hsums ⊢
    obtain ⟨hsums, hlast⟩ := List.append_inj' hsums rfl
    rw [hold, hsums, List.head_eq_of_cons_eq hlast, binned_append, if_pos rfl]

/-- Every item is counted in one bin. -/
theorem sum_map_binned (hnodup : keys.Nodup) (hmem : ∀ i ∈ items, bin i ∈ keys) :
    (keys.map (binned bin weight items)).sum = (items.map weight).sum := by
  induction items with
  | nil =>
    have hnil : binned bin weight [] = fun _ => 0 := rfl
    simp [hnil]
  | cons i items ih =>
    have hcons : binned bin weight (i :: items) =
        fun k => (if bin i = k then weight i else 0) + binned bin weight items k := funext binned_cons
    rw [hcons, List.sum_map_add, ih fun j hj => hmem j (List.mem_cons_of_mem _ hj),
      sum_map_single hnodup (hmem i List.mem_cons_self), List.map_cons, List.sum_cons]

theorem sum_eq (h : Bins bin weight items keys sums) : sums.sum = (items.map weight).sum := by
  rw [h.sums_eq]
  exact sum_map_binned (h.increasing.imp LT.lt.ne) fun i hi => (h.mem_keys _).mpr ⟨i, hi, rfl⟩

end Bins

end Bins

section Events

variable {α β : Type*} [DecidableEq α] [DecidableEq β] {keys : List α} {events : List (α × β)}

/-- Counts of the events with one key, summed over the keys. -/
theorem sum_count_eq_countP (hnodup : keys.Nodup) (hmem : ∀ e ∈ events, e.1 ∈ keys) (p : α → Prop)
    [DecidablePred p] (b : β) :
    ((keys.filter (p ·)).map fun k => events.count (k, b)).sum = events.countP fun e => p e.1 ∧ e.2 = b := by
  induction events with
  | nil => simp
  | cons e events ih =>
    have hmem' : ∀ e ∈ events, e.1 ∈ keys := fun e he => hmem e (List.mem_cons_of_mem _ he)
    have hcount : ∀ k, (e :: events).count (k, b) = events.count (k, b) + if e = (k, b) then 1 else 0 := by
      intro k
      rw [List.count_cons]
      simp only [beq_iff_eq]
    simp only [hcount, List.sum_map_add, ih hmem', List.countP_cons, decide_eq_true_eq]
    refine congrArg _ ?_
    obtain ⟨a, c⟩ := e
    by_cases hb : c = b
    · subst hb
      have hpair : ∀ k, ((a, c) = (k, c)) = (a = k) := fun k => by simp
      simp only [hpair, and_true]
      by_cases hp : p a
      · rw [if_pos hp]
        refine sum_map_single (hnodup.filter _) (List.mem_filter.mpr ⟨hmem _ List.mem_cons_self, ?_⟩) 1
        simpa using hp
      · rw [if_neg hp]
        refine List.sum_eq_zero fun n hn => ?_
        obtain ⟨k, hk, rfl⟩ := List.mem_map.mp hn
        refine if_neg fun hak => hp ?_
        rw [hak]
        simpa using (List.mem_filter.mp hk).2
    · simp [hb]

end Events

/-- If no fewer elements have the stronger property, all that have the weaker one have it. -/
theorem forall_of_countP_eq {α : Type*} {p q : α → Prop} [DecidablePred p] [DecidablePred q] {l : List α}
    (himp : ∀ a ∈ l, p a → q a) (h : l.countP (p ·) = l.countP (q ·)) : ∀ a ∈ l, q a → p a := by
  induction l with
  | nil => simp
  | cons a l ih =>
    obtain ⟨ha, himp⟩ := List.forall_mem_cons.mp himp
    have hle : l.countP (p ·) ≤ l.countP (q ·) :=
      List.countP_mono_left fun b hb hp => decide_eq_true (himp b hb (of_decide_eq_true hp))
    rw [List.countP_cons, List.countP_cons] at h
    by_cases hp : p a
    · simp only [hp, ha hp, decide_true, if_true] at h
      exact List.forall_mem_cons.mpr ⟨fun _ => hp, ih himp (by omega)⟩
    · by_cases hq : q a
      · simp only [hp, hq, decide_true, decide_false, if_true] at h
        simp at h
        omega
      · simp only [hp, hq, decide_false] at h
        exact List.forall_mem_cons.mpr ⟨fun hq' => absurd hq' hq, ih himp (by simpa using h)⟩

end Cscan.Lib
