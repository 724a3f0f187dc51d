import Mathlib.Logic.Function.Basic
import Mathlib.Tactic.TypeStar

/-! State machines that share one list of inputs: each input carries the key of the machine that it is
for. What the machine of a key does depends on the inputs of that key alone, in whatever way the
inputs of the others fall between them. -/

namespace Cscan.Lib

variable {κ S A O : Type*}

/-- A machine that answers each input with a list of outputs. -/
structure Machine (S A O : Type*) where
  next : S → A → S
  out : S → A → List O

/-- The elements of `l` with key `k`, in order. -/
def proj [DecidableEq κ] (k : κ) : List (κ × A) → List A
  | [] => []
  | (k', a) :: l => if k' = k then a :: proj k l else proj k l

section Proj

variable [DecidableEq κ]

theorem proj_append (k : κ) (l l' : List (κ × A)) : proj k (l ++ l') = proj k l ++ proj k l' := by
  induction l with
  | nil => rfl
  | cons p l ih =>
    obtain ⟨k', a⟩ := p
    by_cases h : k' = k <;> simp [proj, h, ih]

theorem proj_tagged_self (k : κ) (as : List A) : proj k (as.map (Prod.mk k)) = as := by
  induction as with
  | nil => rfl
  | cons a as ih => simp [proj, ih]

theorem proj_tagged_ne {k k' : κ} (h : k' ≠ k) (as : List A) : proj k (as.map (Prod.mk k')) = [] := by
  induction as with
  | nil => rfl
  | cons a as ih => simp [proj, h, ih]

theorem proj_eq_filterMap (k : κ) (l : List (κ × A)) :
    proj k l = l.filterMap fun p => if p.1 = k then some p.2 else none := by
  induction l with
  | nil => rfl
  | cons p l ih =>
    obtain ⟨k', a⟩ := p
    by_cases h : k' = k <;> simp [proj, h, ih]

theorem mem_proj {k : κ} {l : List (κ × A)} {a : A} : a ∈ proj k l ↔ (k, a) ∈ l := by
  rw [proj_eq_filterMap, List.mem_filterMap]
  constructor
  · rintro ⟨⟨k', a'⟩, hmem, h⟩
    by_cases hk : k' = k
    · simp only [hk, if_true, Option.some_inj] at h
      rwa [← hk, ← h]
    · simp [hk] at h
  · intro h
    exact ⟨(k, a), h, by simp⟩

theorem proj_flatMap_tagged {ks : List κ} (hks : ks.Nodup) (f : κ → List A) (k : κ) :
    proj k (ks.flatMap fun k' => (f k').map (Prod.mk k')) = if k ∈ ks then f k else [] := by
  induction ks with
  | nil => rfl
  | cons k' ks ih =>
    obtain ⟨hnotMem, hks⟩ := List.nodup_cons.mp hks
    rw [List.flatMap_cons, proj_append, ih hks]
    by_cases h : k' = k
    · subst h
      simp [proj_tagged_self, hnotMem]
    · simp [proj_tagged_ne h, Ne.symm h]

end Proj

namespace Machine

variable (m : Machine S A O)

/-- The state after a list of inputs. -/
def run (s : S) (as : List A) : S := as.foldl m.next s

/-- The outputs to a list of inputs. -/
def outs : S → List A → List O
  | _, [] => []
  | s, a :: as => m.out s a ++ outs (m.next s a) as

@[simp] theorem run_nil (s : S) : m.run s [] = s := rfl

@[simp] theorem run_cons (s : S) (a : A) (as : List A) : m.run s (a :: as) = m.run (m.next s a) as :=
  rfl

theorem run_append (s : S) (as bs : List A) : m.run s (as ++ bs) = m.run (m.run s as) bs :=
  List.foldl_append

@[simp] theorem outs_nil (s : S) : m.outs s [] = [] := rfl

@[simp] theorem outs_cons (s : S) (a : A) (as : List A) :
    m.outs s (a :: as) = m.out s a ++ m.outs (m.next s a) as := rfl

theorem outs_append (s : S) (as bs : List A) :
    m.outs s (as ++ bs) = m.outs s as ++ m.outs (m.run s as) bs := by
  induction as generalizing s with
  | nil => rfl
  | cons a as ih => simp [ih, List.append_assoc]

variable [DecidableEq κ]

/-- The states of all machines after a list of tagged inputs. -/
def feed (σ : κ → S) : List (κ × A) → κ → S
  | [] => σ
  | (k, a) :: l => feed (Function.update σ k (m.next (σ k) a)) l

/-- The outputs of all machines to a list of tagged inputs, in order. -/
def trace (σ : κ → S) : List (κ × A) → List (κ × O)
  | [] => []
  | (k, a) :: l =>
    (m.out (σ k) a).map (Prod.mk k) ++ trace (Function.update σ k (m.next (σ k) a)) l

theorem trace_append (σ : κ → S) (l l' : List (κ × A)) :
    m.trace σ (l ++ l') = m.trace σ l ++ m.trace (m.feed σ l) l' := by
  induction l generalizing σ with
  | nil => rfl
  | cons p l ih =>
    obtain ⟨k, a⟩ := p
    rw [List.cons_append, trace, trace, feed, ih, List.append_assoc]

theorem feed_apply (σ : κ → S) (l : List (κ × A)) (k : κ) :
    m.feed σ l k = m.run (σ k) (proj k l) := by
  induction l generalizing σ with
  | nil => rfl
  | cons p l ih =>
    obtain ⟨k', a⟩ := p
    rw [feed, ih]
    by_cases h : k' = k
    · subst h
      simp [proj]
    · simp [proj, h, Function.update_of_ne (Ne.symm h)]

/-- The outputs with key `k` are those that the machine of `k` gives alone. -/
theorem proj_trace (σ : κ → S) (l : List (κ × A)) (k : κ) :
    proj k (m.trace σ l) = m.outs (σ k) (proj k l) := by
  induction l generalizing σ with
  | nil => rfl
  | cons p l ih =>
    obtain ⟨k', a⟩ := p
    rw [trace, proj_append, ih]
    by_cases h : k' = k
    · subst h
      simp [proj, proj_tagged_self]
    · simp [proj, h, proj_tagged_ne h, Function.update_of_ne (Ne.symm h)]

theorem trace_tagged (σ : κ → S) (k : κ) (as : List A) :
    m.trace σ (as.map (Prod.mk k)) = (m.outs (σ k) as).map (Prod.mk k) := by
  induction as generalizing σ with
  | nil => rfl
  | cons a as ih =>
    rw [List.map_cons, trace, ih, Function.update_self, outs_cons, List.map_append]

/-- A machine that gives only some of the outputs. -/
theorem trace_filter {m m' : Machine S A O} (q : O → Bool) (hnext : m'.next = m.next)
    (hout : ∀ s a, m'.out s a = (m.out s a).filter q) (σ : κ → S) (l : List (κ × A)) :
    m'.trace σ l = (m.trace σ l).filter (fun p => q p.2) ∧ m'.feed σ l = m.feed σ l := by
  induction l generalizing σ with
  | nil => exact ⟨rfl, rfl⟩
  | cons p l ih =>
    obtain ⟨k, a⟩ := p
    obtain ⟨htrace, hfeed⟩ := ih (Function.update σ k (m.next (σ k) a))
    have hmap : ((m.out (σ k) a).filter q).map (Prod.mk k) =
        ((m.out (σ k) a).map (Prod.mk k)).filter (fun p => q p.2) := by
      rw [List.filter_map]
      rfl
    rw [trace, trace, feed, feed, hnext, hout, List.filter_append, htrace, hfeed, hmap]
    exact ⟨rfl, rfl⟩

/-- Two families of machines that agree on every input give the same outputs in the same order. -/
theorem trace_congr {m m' : Machine S A O} (σ : κ → S) (l : List (κ × A)) (P : S → A → Prop)
    (hnext : ∀ s a, P s a → m.next s a = m'.next s a) (hout : ∀ s a, P s a → m.out s a = m'.out s a)
    (hP : ∀ k, ∀ as a bs, proj k l = as ++ a :: bs → P (m.run (σ k) as) a) :
    m.trace σ l = m'.trace σ l ∧ m.feed σ l = m'.feed σ l := by
  induction l generalizing σ with
  | nil => exact ⟨rfl, rfl⟩
  | cons p l ih =>
    obtain ⟨k, a⟩ := p
    have hPa : P (σ k) a := hP k [] a (proj k l) (by simp [proj])
    obtain ⟨ht, hf⟩ := ih (Function.update σ k (m.next (σ k) a)) fun k' as b bs h => by
      by_cases hk : k' = k
      · subst hk
        have := hP k' (a :: as) b bs (by simp [proj, h])
        simpa using this
      · rw [Function.update_of_ne hk]
        exact hP k' as b bs (by simp [proj, Ne.symm hk, h])
    rw [trace, trace, feed, feed, ht, hf, hout _ _ hPa, hnext _ _ hPa]
    exact ⟨rfl, rfl⟩

end Machine

end Cscan.Lib
