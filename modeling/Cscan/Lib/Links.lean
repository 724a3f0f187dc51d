import Mathlib.Data.List.Basic
import Mathlib.Data.List.Nodup
import Mathlib.Logic.Function.Basic

/-! Doubly linked lists as two maps on keys, where the key `nil` stands for no key: how the maps change
when a key is put at the end, and when a key is taken out, and what a walk along one of the maps meets. -/

namespace Cscan.Lib

variable {κ : Type*} [DecidableEq κ] {nil : κ} {next prev : κ → κ}

/-- The first key, and the last one. -/
def firstOf (nil : κ) (ks : List κ) : κ := ks.head?.getD nil
def lastOf (nil : κ) (ks : List κ) : κ := ks.getLast?.getD nil

/-- The maps link the keys in order. -/
def Linked (nil : κ) (next prev : κ → κ) (ks : List κ) : Prop :=
  ∀ pre k post, ks = pre ++ k :: post → next k = firstOf nil post ∧ prev k = lastOf nil pre

section Ends

omit [DecidableEq κ]

@[simp] theorem firstOf_cons (k : κ) (ks : List κ) : firstOf nil (k :: ks) = k := rfl

@[simp] theorem lastOf_append_singleton (k : κ) (ks : List κ) : lastOf nil (ks ++ [k]) = k := by
  simp [lastOf]

theorem firstOf_append {ks : List κ} (h : ks ≠ []) (ks' : List κ) :
    firstOf nil (ks ++ ks') = firstOf nil ks := by
  cases ks with
  | nil => exact absurd rfl h
  | cons k ks => rfl

theorem lastOf_append {ks' : List κ} (h : ks' ≠ []) (ks : List κ) :
    lastOf nil (ks ++ ks') = lastOf nil ks' := by
  obtain ⟨pre, k, rfl⟩ := (List.eq_nil_or_concat' ks').resolve_left h
  rw [← List.append_assoc, lastOf_append_singleton, lastOf_append_singleton]

theorem firstOf_mem {ks : List κ} (h : ks ≠ []) : firstOf nil ks ∈ ks := by
  cases ks with
  | nil => exact absurd rfl h
  | cons k ks => exact List.mem_cons_self

theorem lastOf_mem {ks : List κ} (h : ks ≠ []) : lastOf nil ks ∈ ks := by
  obtain ⟨pre, k, rfl⟩ := (List.eq_nil_or_concat' ks).resolve_left h
  simp

theorem firstOf_eq_nil {ks : List κ} (hnil : nil ∉ ks) : firstOf nil ks = nil ↔ ks = [] := by
  constructor
  · intro h
    by_contra hne
    exact hnil (h ▸ firstOf_mem hne)
  · rintro rfl
    rfl

theorem lastOf_eq_nil {ks : List κ} (hnil : nil ∉ ks) : lastOf nil ks = nil ↔ ks = [] := by
  constructor
  · intro h
    by_contra hne
    exact hnil (h ▸ lastOf_mem hne)
  · rintro rfl
    rfl

end Ends

/-- A key put at the end. -/
theorem Linked.snoc {ks : List κ} (h : Linked nil next prev ks) (hnodup : ks.Nodup) {k : κ}
    (hk : k ∉ ks) :
    Linked nil
      (if ks = [] then Function.update next k nil
        else Function.update (Function.update next k nil) (lastOf nil ks) k)
      (Function.update prev k (lastOf nil ks)) (ks ++ [k]) := by
  intro pre x post heq
  rcases List.eq_nil_or_concat' post with rfl | ⟨post', y, rfl⟩
  · -- the new key itself
    obtain ⟨rfl, hx⟩ := List.append_inj' heq rfl
    obtain rfl : k = x := List.singleton_inj.mp hx
    refine ⟨?_, Function.update_self ..⟩
    split_ifs with hks
    · exact Function.update_self ..
    · have hne : k ≠ lastOf nil ks := fun h => hk (h ▸ lastOf_mem hks)
      rw [Function.update_of_ne hne]
      exact Function.update_self ..
  · rw [← List.cons_append, ← List.append_assoc] at heq
    obtain ⟨rfl, hy⟩ := List.append_inj' heq rfl
    obtain rfl : k = y := List.singleton_inj.mp hy
    have hx : x ≠ k := fun h => hk (h ▸ List.mem_append_right _ List.mem_cons_self)
    have hks : pre ++ x :: post' ≠ [] := by simp
    obtain ⟨hnext, hprev⟩ := h pre x post' rfl
    rw [if_neg hks, Function.update_of_ne hx]
    refine ⟨?_, hprev⟩
    by_cases hpost : post' = []
    · subst hpost
      rw [lastOf_append_singleton, Function.update_self]
      rfl
    · have hlast : lastOf nil (pre ++ x :: post') = lastOf nil post' := by
        rw [lastOf_append (by simp), ← List.singleton_append, lastOf_append hpost]
      have hne : x ≠ lastOf nil (pre ++ x :: post') := by
        intro heq
        have hmem : x ∈ post' := by
          rw [heq, hlast]
          exact lastOf_mem hpost
        exact (List.nodup_cons.mp (List.nodup_append.mp hnodup).2.1).1 hmem
      rw [Function.update_of_ne hne, Function.update_of_ne hx, hnext, firstOf_append hpost]

omit [DecidableEq κ] in
/-- A key of two lists is one of the first or one of the second. -/
theorem append_eq_split {pre post a b : List κ} {x : κ} (h : pre ++ post = a ++ x :: b) :
    (∃ c, a = pre ++ c ∧ post = c ++ x :: b) ∨ ∃ c, pre = a ++ x :: c ∧ b = c ++ post := by
  rcases List.append_eq_append_iff.mp h with ⟨c, ha, hpost⟩ | ⟨c, hpre, hx⟩
  · exact Or.inl ⟨c, ha, hpost⟩
  · cases c with
    | nil =>
      refine Or.inl ⟨[], ?_, hx.symm⟩
      rw [hpre, List.append_nil, List.append_nil]
    | cons y c =>
      obtain ⟨rfl, rfl⟩ := List.cons.inj hx
      exact Or.inr ⟨c, hpre, rfl⟩

/-- A key taken out. -/
theorem Linked.remove {pre post : List κ} {k : κ} (h : Linked nil next prev (pre ++ k :: post))
    (hnodup : (pre ++ k :: post).Nodup) (hnil : nil ∉ pre ++ k :: post) :
    Linked nil (if prev k = nil then next else Function.update next (prev k) (next k))
      (if next k = nil then prev else Function.update prev (next k) (prev k)) (pre ++ post) := by
  obtain ⟨hnextk, hprevk⟩ := h pre k post rfl
  have hnilpre : nil ∉ pre := fun hmem => hnil (List.mem_append_left _ hmem)
  have hnilpost : nil ∉ post := fun hmem => hnil (List.mem_append_right _ (List.mem_cons_of_mem _ hmem))
  have hdisjoint : ∀ x ∈ pre, x ∉ post := fun x hx hpost =>
    (List.nodup_append.mp hnodup).2.2 x hx x (List.mem_cons_of_mem _ hpost) rfl
  simp only [hnextk, hprevk, firstOf_eq_nil hnilpost, lastOf_eq_nil hnilpre]
  intro a x b heq
  rcases append_eq_split heq with ⟨c, rfl, rfl⟩ | ⟨c, rfl, rfl⟩
  · -- behind the key that goes
    have hx : x ∉ pre := fun hmem => hdisjoint x hmem (by simp)
    obtain ⟨hnext, hprev⟩ := h (pre ++ k :: c) x b (by simp)
    constructor
    · split_ifs with hpre
      · exact hnext
      · have hne : x ≠ lastOf nil pre := fun h => hx (h ▸ lastOf_mem hpre)
        rw [Function.update_of_ne hne]
        exact hnext
    · rw [if_neg (by simp)]
      by_cases hc : c = []
      · subst hc
        rw [List.nil_append, firstOf_cons, Function.update_self, List.append_nil]
      · have hxc : x ∉ c := by
          have hsub := ((List.nodup_append.mp hnodup).2.1).of_cons
          exact fun hmem => (List.nodup_append.mp hsub).2.2 x hmem x List.mem_cons_self rfl
        have hne : x ≠ firstOf nil (c ++ x :: b) := by
          rw [firstOf_append hc]
          exact fun h => hxc (h ▸ firstOf_mem hc)
        have hkc : lastOf nil (k :: c) = lastOf nil c := by
          rw [← List.singleton_append, lastOf_append hc]
        rw [Function.update_of_ne hne, hprev, lastOf_append (by simp), lastOf_append hc, hkc]
  · -- in front of it
    have hx : x ∉ post := hdisjoint x (by simp)
    obtain ⟨hnext, hprev⟩ := h a x (c ++ k :: post) (by simp)
    constructor
    · rw [if_neg (by simp)]
      by_cases hc : c = []
      · subst hc
        rw [lastOf_append_singleton, Function.update_self, List.nil_append]
      · have hxc : x ∉ c :=
          (List.nodup_cons.mp (List.nodup_append.mp (List.nodup_append.mp hnodup).1).2.1).1
        have hlast : lastOf nil (a ++ x :: c) = lastOf nil c := by
          rw [lastOf_append (by simp), ← List.singleton_append, lastOf_append hc]
        have hne : x ≠ lastOf nil (a ++ x :: c) := by
          rw [hlast]
          exact fun h => hxc (h ▸ lastOf_mem hc)
        rw [Function.update_of_ne hne, hnext, firstOf_append hc, firstOf_append hc]
    · split_ifs with hpost
      · exact hprev
      · have hne : x ≠ firstOf nil post := fun h => hx (h ▸ firstOf_mem hpost)
        rw [Function.update_of_ne hne]
        exact hprev

/-! ### Walks -/

/-- The keys that a walk along `next` from `k` meets up to `nil`, in at most the given number of steps. -/
def walk (nil : κ) (next : κ → κ) : Nat → κ → List κ
  | 0, _ => []
  | steps + 1, k => if k = nil then [] else k :: walk nil next steps (next k)

theorem walk_nil (next : κ → κ) (steps : Nat) : walk nil next steps nil = [] := by
  cases steps with
  | zero => rfl
  | succ steps => exact if_pos rfl

/-- A walk meets the keys, one after the other, if each one leads to the one behind it. -/
theorem walk_firstOf {ks : List κ} (hnil : nil ∉ ks)
    (hnext : ∀ pre x post, ks = pre ++ x :: post → next x = firstOf nil post) {steps : Nat}
    (hsteps : ks.length ≤ steps) : walk nil next steps (firstOf nil ks) = ks := by
  induction ks generalizing steps with
  | nil => exact walk_nil next steps
  | cons k ks ih =>
    obtain ⟨hk, hnil⟩ := not_or.mp (mt List.mem_cons.mpr hnil)
    rw [List.length_cons] at hsteps
    obtain ⟨steps, rfl⟩ : ∃ n, steps = n + 1 := ⟨steps - 1, by omega⟩
    have hrest := ih hnil (fun pre x post heq => hnext (k :: pre) x post (by rw [heq]; rfl))
      (Nat.le_of_succ_le_succ hsteps)
    rw [firstOf_cons, walk, if_neg (Ne.symm hk), hnext [] k ks rfl, hrest]

theorem Linked.walk_next {ks : List κ} (h : Linked nil next prev ks) (hnil : nil ∉ ks) {steps : Nat}
    (hsteps : ks.length ≤ steps) : walk nil next steps (firstOf nil ks) = ks :=
  walk_firstOf hnil (fun pre x post heq => (h pre x post heq).1) hsteps

/-- Along the other map a walk meets the keys in the opposite order. -/
theorem Linked.walk_prev {ks : List κ} (h : Linked nil next prev ks) (hnil : nil ∉ ks) {steps : Nat}
    (hsteps : ks.length ≤ steps) : walk nil prev steps (lastOf nil ks) = ks.reverse := by
  have hfirst : lastOf nil ks = firstOf nil ks.reverse := by
    rw [lastOf, firstOf, List.head?_reverse]
  rw [hfirst]
  refine walk_firstOf (by rwa [List.mem_reverse]) (fun pre x post heq => ?_) (by rwa [List.length_reverse])
  have hsplit : ks = post.reverse ++ x :: pre.reverse := by
    rw [← List.reverse_reverse ks, heq]
    simp
  rw [(h _ x _ hsplit).2, lastOf, firstOf, List.getLast?_reverse]

end Cscan.Lib
