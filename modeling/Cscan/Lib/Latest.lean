import Mathlib.Data.List.Basic
import Mathlib.Data.List.Perm.Basic

/-! Settings that are made one after the other. The latest one counts, and the order does not matter where
they agree. -/

namespace Cscan.Lib

variable {ι α σ : Type*}

/-- What the last of the elements that sets a value sets it to. -/
def latest (sets : ι → Option α) : List ι → Option α
  | [] => none
  | i :: is => (latest sets is).or (sets i)

variable {sets : ι → Option α} {is js : List ι} {a : α}

theorem latest_append : latest sets (is ++ js) = (latest sets js).or (latest sets is) := by
  induction is with
  | nil => simp [latest]
  | cons i is ih => simp [latest, ih, Option.or_assoc]

theorem exists_of_latest (h : latest sets is = some a) : ∃ i ∈ is, sets i = some a := by
  induction is with
  | nil => cases h
  | cons i is ih =>
    rw [latest, Option.or_eq_some_iff] at h
    rcases h with h | ⟨-, h⟩
    · obtain ⟨j, hj, hset⟩ := ih h
      exact ⟨j, List.mem_cons_of_mem _ hj, hset⟩
    · exact ⟨i, List.mem_cons_self, h⟩

theorem latest_eq_none_iff : latest sets is = none ↔ ∀ i ∈ is, sets i = none := by
  induction is with
  | nil => simp [latest]
  | cons i is ih => simp [latest, ih, and_comm]

/-- A latest value has what the default and all that are set have. -/
theorem latest_getD {P : α → Prop} (ha : P a) (hset : ∀ i ∈ is, ∀ b, sets i = some b → P b) :
    P ((latest sets is).getD a) := by
  cases hlatest : latest sets is with
  | none => exact ha
  | some b =>
    obtain ⟨i, hi, hb⟩ := exists_of_latest hlatest
    exact hset i hi b hb

/-- Where all the elements that set a value set it to the same, one of them is enough. -/
theorem latest_eq_some_iff (hagree : ∀ i ∈ is, ∀ j ∈ is, ∀ a b, sets i = some a → sets j = some b → a = b) :
    latest sets is = some a ↔ ∃ i ∈ is, sets i = some a := by
  constructor
  · exact exists_of_latest
  · rintro ⟨i, hi, hset⟩
    cases hlatest : latest sets is with
    | none =>
      rw [latest_eq_none_iff.mp hlatest i hi] at hset
      cases hset
    | some b =>
      obtain ⟨j, hj, hset'⟩ := exists_of_latest hlatest
      rw [hagree j hj i hi b a hset' hset]

theorem latest_perm (hperm : is.Perm js)
    (hagree : ∀ i ∈ js, ∀ j ∈ js, ∀ a b, sets i = some a → sets j = some b → a = b) :
    latest sets is = latest sets js := by
  have hagree' : ∀ i ∈ is, ∀ j ∈ is, ∀ a b, sets i = some a → sets j = some b → a = b :=
    fun i hi j hj => hagree i (hperm.mem_iff.mp hi) j (hperm.mem_iff.mp hj)
  apply Option.ext
  intro a
  simp only [latest_eq_some_iff hagree, latest_eq_some_iff hagree', hperm.mem_iff]

/-- What is set behind the others counts. -/
theorem latest_append_of_mem {i : ι} (hi : i ∈ js) (hset : sets i = some a)
    (hagree : ∀ j ∈ js, ∀ b, sets j = some b → b = a) : latest sets (is ++ js) = some a := by
  have hjs : latest sets js = some a := by
    rw [latest_eq_some_iff fun j hj k hk b c hb hc => (hagree j hj b hb).trans (hagree k hk c hc).symm]
    exact ⟨i, hi, hset⟩
  rw [latest_append, hjs, Option.some_or]

theorem latest_map {β : Type*} {sets' : ι → Option β} {f : α → β}
    (h : ∀ i ∈ is, sets' i = (sets i).map f) : latest sets' is = (latest sets is).map f := by
  induction is with
  | nil => rfl
  | cons i is ih =>
    rw [latest, latest, ih fun j hj => h j (List.mem_cons_of_mem _ hj), h i List.mem_cons_self]
    cases latest sets is with
    | none => rfl
    | some a => rfl

/-- A part of the state that every step sets or leaves as it is has the latest value after a run. -/
theorem foldlM_latest {step : σ → ι → Option σ} {part : σ → α} {s s' : σ}
    (hstep : ∀ i ∈ is, ∀ s s', step s i = some s' → part s' = (sets i).getD (part s))
    (hrun : is.foldlM step s = some s') : part s' = (latest sets is).getD (part s) := by
  induction is generalizing s with
  | nil =>
    cases hrun
    rfl
  | cons i is ih =>
    rw [List.foldlM_cons] at hrun
    obtain ⟨t, ht, hrest⟩ := Option.bind_eq_some_iff.mp hrun
    rw [ih (fun j hj => hstep j (List.mem_cons_of_mem _ hj)) hrest, hstep i List.mem_cons_self s t ht, latest]
    cases latest sets is with
    | none => rfl
    | some a => rfl

end Cscan.Lib
