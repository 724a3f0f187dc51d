import Mathlib.Algebra.Order.Ring.Int
import Mathlib.Data.List.Basic
import Mathlib.Data.List.TakeWhile
import Mathlib.Tactic.SplitIfs
import Mathlib.Tactic.Zify

/-! Directives of `scanf` and of `printf` on texts that are lists of characters. A directive of `scanf`
gives what it converted and the rest of the text, or has no result where the input does not match. -/

namespace Cscan.Lib.Scanf

/-- The white space of the C locale. -/
def isSpace (c : Char) : Bool := c = ' ' || ('\t' ≤ c && c ≤ '\r')

/-- White space in a format: it matches any amount of white space, and none too. -/
def space (text : List Char) : List Char := text.dropWhile isSpace

/-- An ordinary character in a format. -/
def literal (c : Char) : List Char → Option (List Char)
  | [] => none
  | c' :: text => if c' = c then some text else none

/-- The sign in front of a number: whether it is a minus, and how many characters it takes. -/
def sign : List Char → Bool × Nat
  | '-' :: _ => (true, 1)
  | '+' :: _ => (false, 1)
  | _ => (false, 0)

def signed (negative : Bool) (n : Nat) : Int := if negative then -n else n

/-- `%d` of at most `width` characters, behind white space that does not count. -/
def decimal (width : Nat) (text : List Char) : Option (Int × List Char) :=
  let text := space text
  let (negative, used) := sign text
  let digits := ((text.drop used).take (width - used)).takeWhile Char.isDigit
  if digits = [] then none
  else some (signed negative (Nat.ofDigitChars 10 digits 0), text.drop (used + digits.length))

/-- `%d` without a width. -/
def integer (text : List Char) : Option (Int × List Char) := decimal text.length text

/-- `%0wd` of `printf`: the sign, zeros up to the width, and the digits. -/
def printPadded (width : Nat) (z : Int) : List Char :=
  let digits := Nat.toDigits 10 z.natAbs
  let minus := if z < 0 then ['-'] else []
  minus ++ List.replicate (width - minus.length - digits.length) '0' ++ digits

/-- `%d` of `printf`. -/
def printInteger (z : Int) : List Char := printPadded 0 z

/-! ### The numbers of a given width -/

/-- A number that `width` characters can hold, one of them for a minus. -/
def InWidth (width : Nat) (z : Int) : Prop := -(10 : Int) ^ (width - 1) < z ∧ z < 10 ^ width

theorem ofDigitChars_lt (digits : List Char) (h : ∀ c ∈ digits, c.isDigit = true) :
    Nat.ofDigitChars 10 digits 0 < 10 ^ digits.length := by
  induction digits with
  | nil => simp
  | cons c digits ih =>
    have ih' := ih fun c hc => h c (List.mem_cons_of_mem _ hc)
    have hc := h c List.mem_cons_self
    simp only [Char.isDigit, Bool.and_eq_true, decide_eq_true_eq, ge_iff_le, UInt32.le_iff_toNat_le]
      at hc
    have hlow : c.toNat - '0'.toNat < 10 := by
      have hhigh : c.toNat ≤ 57 := hc.2
      simp
      omega
    rw [Nat.ofDigitChars_cons, Nat.ofDigitChars_eq_ofDigitChars_zero, List.length_cons, Nat.pow_succ,
      Nat.mul_zero, Nat.zero_add]
    have hmul := Nat.mul_le_mul_left (10 ^ digits.length) (Nat.le_of_lt_succ hlow)
    omega

theorem sign_cases (text : List Char) :
    sign text = (true, 1) ∨ sign text = (false, 1) ∨ sign text = (false, 0) := by
  unfold sign
  split
  · exact Or.inl rfl
  · exact Or.inr (Or.inl rfl)
  · exact Or.inr (Or.inr rfl)

theorem decimal_inWidth {width : Nat} {text rest : List Char} {z : Int}
    (h : decimal width text = some (z, rest)) : InWidth width z := by
  simp only [decimal] at h
  split_ifs at h with hnil
  simp only [Option.some_inj, Prod.mk.injEq] at h
  rw [← h.1]
  have hbound : ∀ used, Nat.ofDigitChars 10 ((((space text).drop used).take (width - used)).takeWhile
      Char.isDigit) 0 < 10 ^ (width - used) := fun used => by
    apply Nat.lt_of_lt_of_le (ofDigitChars_lt _ fun c hc => List.mem_takeWhile_imp hc)
    apply Nat.pow_le_pow_right (by omega)
    exact (List.takeWhile_sublist _).length_le.trans (List.length_take_le _ _)
  have hpow : 10 ^ (width - 1) ≤ 10 ^ width := Nat.pow_le_pow_right (by omega) (by omega)
  have hpos : 0 < 10 ^ (width - 1) := Nat.pow_pos (by omega)
  have hone := hbound 1
  have hzero := hbound 0
  unfold InWidth
  zify at hone hzero hpow hpos
  rcases sign_cases (space text) with hs | hs | hs
  · simp only [hs, signed, if_true]
    omega
  · simp only [hs, signed, Bool.false_eq_true, if_false]
    omega
  · simp only [hs, signed, Bool.false_eq_true, if_false]
    rw [Nat.sub_zero] at hzero ⊢
    omega

theorem length_printPadded {width : Nat} {z : Int} (hwidth : 2 ≤ width) (h : InWidth width z) :
    (printPadded width z).length = width := by
  obtain ⟨hlow, hhigh⟩ := h
  unfold printPadded
  by_cases hz : z < 0
  · have hdigits : (Nat.toDigits 10 z.natAbs).length ≤ width - 1 := by
      have hcast : ((10 ^ (width - 1) : Nat) : Int) = (10 : Int) ^ (width - 1) := Int.natCast_pow 10 _
      rw [Nat.length_toDigits_le_iff (by omega) (by omega)]
      omega
    simp only [hz, if_true, List.length_append, List.length_replicate, List.length_singleton]
    omega
  · have hdigits : (Nat.toDigits 10 z.natAbs).length ≤ width := by
      have hcast : ((10 ^ width : Nat) : Int) = (10 : Int) ^ width := Int.natCast_pow 10 _
      rw [Nat.length_toDigits_le_iff (by omega) (by omega)]
      omega
    simp only [hz, if_false, List.length_append, List.length_replicate, List.length_nil]
    omega

/-! ### Numbers that are written in digits -/

theorem isDigit_bounds {c : Char} (h : c.isDigit = true) : '0' ≤ c ∧ c ≤ '9' := by
  simp only [Char.isDigit, Bool.and_eq_true, decide_eq_true_eq] at h
  exact h

theorem isSpace_of_isDigit {c : Char} (h : c.isDigit = true) : isSpace c = false := by
  obtain ⟨hlow, -⟩ := isDigit_bounds h
  have hspace : c ≠ ' ' := by
    rintro rfl
    exact absurd h (by decide)
  have hcontrol : ¬ c ≤ '\r' := fun hle =>
    absurd (Char.le_trans hlow hle) (by decide)
  simp [isSpace, hspace, hcontrol]

/-- The text behind a number does not go on with a digit. -/
def NoDigit (text : List Char) : Prop := ∀ c ∈ text.head?, c.isDigit = false

theorem takeWhile_digits {digits rest : List Char} (hdigits : ∀ c ∈ digits, c.isDigit = true)
    (hrest : NoDigit rest) : (digits ++ rest).takeWhile Char.isDigit = digits := by
  rw [List.takeWhile_append_of_pos hdigits]
  cases rest with
  | nil => exact List.append_nil digits
  | cons c rest =>
    have hc : c.isDigit = false := hrest c rfl
    simp [hc]

theorem sign_of_isDigit {c : Char} {text : List Char} (h : c.isDigit = true) :
    sign (c :: text) = (false, 0) := by
  have hminus : c ≠ '-' := by
    rintro rfl
    exact absurd h (by decide)
  have hplus : c ≠ '+' := by
    rintro rfl
    exact absurd h (by decide)
  unfold sign
  split
  · exact absurd (List.cons.inj ‹_›).1 hminus
  · exact absurd (List.cons.inj ‹_›).1 hplus
  · rfl

/-- Digits, with at most one sign in front of them. -/
def IsNumber (text : List Char) : Prop :=
  text.drop (sign text).2 ≠ [] ∧ ∀ c ∈ text.drop (sign text).2, c.isDigit = true

instance (text : List Char) : Decidable (IsNumber text) :=
  decidable_of_iff (text.drop (sign text).2 ≠ [] ∧ (text.drop (sign text).2).all Char.isDigit = true)
    (by rw [List.all_eq_true]; rfl)

def value (text : List Char) : Int :=
  signed (sign text).1 (Nat.ofDigitChars 10 (text.drop (sign text).2) 0)

theorem sign_append {text : List Char} (hne : text ≠ []) (rest : List Char) :
    sign (text ++ rest) = sign text := by
  obtain ⟨c, text, rfl⟩ := List.exists_cons_of_ne_nil hne
  rw [List.cons_append]
  unfold sign
  split
  · simp_all
  · simp_all
  · simp_all

theorem IsNumber.ne_nil {text : List Char} (h : IsNumber text) : text ≠ [] := by
  rintro rfl
  exact h.1 List.drop_nil

/-- A number has no other characters than digits and signs. -/
theorem IsNumber.mem {text : List Char} (h : IsNumber text) {c : Char} (hc : c ∈ text) :
    c.isDigit = true ∨ c = '-' ∨ c = '+' := by
  obtain ⟨-, hdigits⟩ := h
  unfold sign at hdigits
  split at hdigits
  · rcases List.mem_cons.mp hc with rfl | hc
    · exact .inr (.inl rfl)
    · exact .inl (hdigits c hc)
  · rcases List.mem_cons.mp hc with rfl | hc
    · exact .inr (.inr rfl)
    · exact .inl (hdigits c hc)
  · exact .inl (hdigits c hc)

theorem IsNumber.space_append {text : List Char} (h : IsNumber text) (rest : List Char) :
    space (text ++ rest) = text ++ rest := by
  obtain ⟨c, text, rfl⟩ := List.exists_cons_of_ne_nil h.ne_nil
  have hspace : isSpace c = false := by
    rcases h.mem List.mem_cons_self with hc | rfl | rfl
    · exact isSpace_of_isDigit hc
    · rfl
    · rfl
  rw [space, List.cons_append, List.dropWhile_cons_of_neg (by simp [hspace])]

theorem sign_length (text : List Char) : (sign text).2 ≤ text.length := by
  unfold sign
  split <;> simp

/-- `%d` reads a number and leaves the text behind it. -/
theorem integer_number {text rest : List Char} (h : IsNumber text) (hrest : NoDigit rest) :
    integer (text ++ rest) = some (value text, rest) := by
  obtain ⟨hne, hdigits⟩ := h
  have hused := sign_length text
  have hdrop : (text ++ rest).drop (sign text).2 = text.drop (sign text).2 ++ rest :=
    List.drop_append_of_le_length hused
  have htake : ((text ++ rest).drop (sign text).2).take ((text ++ rest).length - (sign text).2) =
      text.drop (sign text).2 ++ rest := by
    rw [← List.length_drop, List.take_length, hdrop]
  have hleft : (text ++ rest).drop ((sign text).2 + (text.drop (sign text).2).length) = rest := by
    rw [List.length_drop, Nat.add_sub_cancel' hused, List.drop_left]
  simp only [integer, decimal, IsNumber.space_append ⟨hne, hdigits⟩, sign_append (IsNumber.ne_nil ⟨hne, hdigits⟩),
    htake, takeWhile_digits hdigits hrest, if_neg hne, hleft, value]

theorem isNumber_digits {digits : List Char} (hne : digits ≠ []) (hdigits : ∀ c ∈ digits, c.isDigit = true) :
    IsNumber digits ∧ value digits = (Nat.ofDigitChars 10 digits 0 : Int) := by
  obtain ⟨d, ds, rfl⟩ := List.exists_cons_of_ne_nil hne
  have hsign : sign (d :: ds) = (false, 0) := sign_of_isDigit (hdigits d List.mem_cons_self)
  simp only [IsNumber, value, hsign, List.drop_zero, signed, Bool.false_eq_true, if_false]
  exact ⟨⟨hne, hdigits⟩, trivial⟩

theorem printInteger_eq (z : Int) :
    printInteger z = (if z < 0 then ['-'] else []) ++ Nat.toDigits 10 z.natAbs := by
  simp [printInteger, printPadded]

/-- What `%d` prints is a number, and `%d` reads it back. -/
theorem isNumber_printInteger (z : Int) : IsNumber (printInteger z) ∧ value (printInteger z) = z := by
  have hne : Nat.toDigits 10 z.natAbs ≠ [] := Nat.toDigits_ne_nil
  have hdigits : ∀ c ∈ Nat.toDigits 10 z.natAbs, c.isDigit = true :=
    fun c hc => Nat.isDigit_of_mem_toDigits (by decide) (by decide) hc
  rw [printInteger_eq]
  by_cases hz : z < 0
  · rw [if_pos hz, List.singleton_append]
    simp only [IsNumber, value, sign, List.drop_one, List.tail_cons, signed, if_true, Nat.ofDigitChars_ten_toDigits]
    exact ⟨⟨hne, hdigits⟩, by omega⟩
  · obtain ⟨hnumber, hvalue⟩ := isNumber_digits hne hdigits
    rw [if_neg hz, List.nil_append, hvalue, Nat.ofDigitChars_ten_toDigits]
    exact ⟨hnumber, by omega⟩

end Cscan.Lib.Scanf
