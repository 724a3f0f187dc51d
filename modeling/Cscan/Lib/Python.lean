import Cscan.Lib.Scanf

/-! `int` of Python on ASCII texts that are lists of characters, and subscripts of its lists. -/

namespace Cscan.Lib.Python

def isSpace (c : Char) : Bool := Scanf.isSpace c || ('\x1c' ≤ c && c ≤ '\x1f')

def strip (text : List Char) : List Char :=
  ((text.dropWhile isSpace).reverse.dropWhile isSpace).reverse

/-- Digits, with single underscores between them. -/
def grouped : List Char → Bool
  | [] => false
  | [c] => c.isDigit
  | c :: '_' :: cs => c.isDigit && grouped cs
  | c :: cs => c.isDigit && grouped cs

/-- `int(text)`, which raises `ValueError` on a text that is no number. -/
def int (text : List Char) : Option Int :=
  let text := strip text
  let (negative, used) := Scanf.sign text
  let digits := text.drop used
  if grouped digits then
    some (Scanf.signed negative (Nat.ofDigitChars 10 (digits.filter Char.isDigit) 0))
  else none

theorem isSpace_of_isDigit {c : Char} (h : c.isDigit = true) : isSpace c = false := by
  obtain ⟨hlow, -⟩ := Scanf.isDigit_bounds h
  have hseparator : ¬ c ≤ '\x1f' := fun hle => absurd (Char.le_trans hlow hle) (by decide)
  simp [isSpace, Scanf.isSpace_of_isDigit h, hseparator]

theorem dropWhile_digits {text : List Char} (h : ∀ c ∈ text, c.isDigit = true) :
    text.dropWhile isSpace = text := by
  cases text with
  | nil => rfl
  | cons c text =>
    rw [List.dropWhile_cons_of_neg (by simp [isSpace_of_isDigit (h c List.mem_cons_self)])]

theorem strip_digits {text : List Char} (h : ∀ c ∈ text, c.isDigit = true) : strip text = text := by
  have hreverse : ∀ c ∈ text.reverse, c.isDigit = true := fun c hc => h c (List.mem_reverse.mp hc)
  rw [strip, dropWhile_digits h, dropWhile_digits hreverse, List.reverse_reverse]

theorem grouped_digits {digits : List Char} (hne : digits ≠ [])
    (h : ∀ c ∈ digits, c.isDigit = true) : grouped digits = true := by
  induction digits with
  | nil => exact absurd rfl hne
  | cons c cs ih =>
    have hc : c.isDigit = true := h c List.mem_cons_self
    have hcs : ∀ c ∈ cs, c.isDigit = true := fun c hmem => h c (List.mem_cons_of_mem _ hmem)
    cases cs with
    | nil => exact hc
    | cons d ds =>
      have hd : d ≠ '_' := by
        rintro rfl
        exact absurd (hcs '_' List.mem_cons_self) (by decide)
      have hrest := ih (List.cons_ne_nil d ds) hcs
      rw [grouped]
      · simp [hc, hrest]
      · exact List.cons_ne_nil d ds
      · rintro cs' heq
        exact hd (List.cons.inj heq).1

theorem int_digits {digits : List Char} (hne : digits ≠ []) (h : ∀ c ∈ digits, c.isDigit = true) :
    int digits = some (Nat.ofDigitChars 10 digits 0 : Int) := by
  obtain ⟨d, ds, rfl⟩ := List.exists_cons_of_ne_nil hne
  have hsign : Scanf.sign (d :: ds) = (false, 0) := Scanf.sign_of_isDigit (h d List.mem_cons_self)
  simp only [int, strip_digits h, hsign, List.drop_zero, grouped_digits hne h, if_true,
    List.filter_eq_self.mpr h, Scanf.signed, Bool.false_eq_true, if_false]

/-- The place in a list that a subscript names. A negative one counts from the end; `none` is an `IndexError`. -/
def subscript (length : Nat) (i : Int) : Option Nat :=
  if 0 ≤ i ∧ i < length then some i.toNat
  else if -length ≤ i ∧ i < 0 then some (i + length).toNat
  else none

theorem subscript_lt {length place : Nat} {i : Int} (h : subscript length i = some place) : place < length := by
  unfold subscript at h
  split_ifs at h
  · injection h
    omega
  · injection h
    omega

theorem subscript_natCast {length place : Nat} (h : place < length) : subscript length place = some place := by
  rw [subscript, if_pos (by omega), Int.toNat_natCast]

end Cscan.Lib.Python
