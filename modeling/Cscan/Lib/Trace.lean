import Mathlib.Data.List.Infix

/-! Traces of events, of which each is seen with the history up to it. -/

namespace Cscan.Lib

variable {ε α : Type*} {f : List ε → ε → List α} {P Q : List ε → ε → Prop} {before es es' : List ε}

/-- What the events behind `before` give, one after the other. -/
def along (f : List ε → ε → List α) (before : List ε) : List ε → List α
  | [] => []
  | e :: es => f (before ++ [e]) e ++ along f (before ++ [e]) es

/-- `P` is true of every event behind `before`. -/
def Each (P : List ε → ε → Prop) (before : List ε) : List ε → Prop
  | [] => True
  | e :: es => P (before ++ [e]) e ∧ Each P (before ++ [e]) es

theorem along_append : along f before (es ++ es') = along f before es ++ along f (before ++ es) es' := by
  induction es generalizing before with
  | nil => rw [List.nil_append, along, List.nil_append, List.append_nil]
  | cons e es ih =>
    rw [List.cons_append, along, along, ih, List.append_assoc, List.append_assoc]
    rfl

theorem each_append : Each P before (es ++ es') ↔ Each P before es ∧ Each P (before ++ es) es' := by
  induction es generalizing before with
  | nil => rw [List.nil_append, Each, List.append_nil, true_and]
  | cons e es ih =>
    rw [List.cons_append, Each, Each, ih, and_assoc, List.append_assoc]
    rfl

/-- Events that give nothing. -/
theorem along_eq_nil (h : ∀ e ∈ es, ∀ history, f history e = []) : along f before es = [] := by
  induction es generalizing before with
  | nil => rfl
  | cons e es ih =>
    rw [along, h e List.mem_cons_self, ih fun e he => h e (List.mem_cons_of_mem _ he), List.append_nil]

theorem each_of_forall (h : ∀ e ∈ es, ∀ history, P history e) : Each P before es := by
  induction es generalizing before with
  | nil => trivial
  | cons e es ih => exact ⟨h e List.mem_cons_self _, ih fun e he => h e (List.mem_cons_of_mem _ he)⟩

theorem Each.imp (h : Each P before es) (hPQ : ∀ history e, P history e → Q history e) : Each Q before es := by
  induction es generalizing before with
  | nil => trivial
  | cons e es ih => exact ⟨hPQ _ _ h.1, ih h.2⟩

end Cscan.Lib
