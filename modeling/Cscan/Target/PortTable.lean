import Cscan.Lib.Weighted
import Cscan.Target.Compile
import Cscan.Target.Linear
import Cscan.Target.PortSpec

/-! The portspecs `port[:weight],...` and the table that both compilers build for them. -/

namespace Cscan.Target

open Cscan.Lib

/-- `port` or `port:weight`, in decimal digits. -/
structure PortEntry where
  port : List Char
  weight : Option (List Char)
deriving DecidableEq, Repr

namespace PortEntry

def number (e : PortEntry) : Nat := Nat.ofDigitChars 10 e.port 0

/-- The weight, which is 1 if there is none. -/
def points (e : PortEntry) : Nat :=
  match e.weight with
  | none => 1
  | some weight => Nat.ofDigitChars 10 weight 0

def text (e : PortEntry) : List Char :=
  match e.weight with
  | none => e.port
  | some weight => e.port ++ ':' :: weight

def IsNumeral (digits : List Char) : Prop := digits ≠ [] ∧ ∀ c ∈ digits, c.isDigit = true

instance (digits : List Char) : Decidable (IsNumeral digits) :=
  decidable_of_iff (digits ≠ [] ∧ digits.all Char.isDigit = true) (by rw [List.all_eq_true]; rfl)

/-- The port, where a sign may stand in front of it. -/
def signedNumber (e : PortEntry) : Int := Scanf.value e.port

def signedPoints (e : PortEntry) : Int :=
  match e.weight with
  | none => 1
  | some weight => Scanf.value weight

structure Signed (e : PortEntry) : Prop where
  port : Scanf.IsNumber e.port
  weight : ∀ weight ∈ e.weight, Scanf.IsNumber weight

structure WellFormed (e : PortEntry) : Prop where
  port : IsNumeral e.port
  weight : ∀ weight ∈ e.weight, IsNumeral weight
  number : e.number < 2 ^ 31

end PortEntry

variable {es : List PortEntry} {e : PortEntry}

def portspec (es : List PortEntry) : List Char := [','].intercalate (es.map PortEntry.text)

/-- Each port with its weight. -/
def weights (es : List PortEntry) : List (Int × Nat) := es.map fun e => (e.number, e.points)

def total (es : List PortEntry) : Nat := totalWeight (weights es)

/-- The pairs of a port and the sum of the weights so far less one. -/
def cumPairs : Nat → List PortEntry → List (UInt32 × UInt32)
  | _, [] => []
  | sum, e :: es => (toUInt32 e.number, toUInt32 ((sum + e.points : Nat) - 1)) ::
      cumPairs (sum + e.points) es

def signedTotal (es : List PortEntry) : Int := (es.map PortEntry.signedPoints).sum

/-- The same pairs where the numbers may have signs. -/
def signedPairs : Int → List PortEntry → List (UInt32 × UInt32)
  | _, [] => []
  | sum, e :: es => (toUInt32 e.signedNumber, toUInt32 (sum + e.signedPoints - 1)) ::
      signedPairs (sum + e.signedPoints) es

def portTable (es : List PortEntry) : RangeCfg where
  num := es.length
  maxIdx := toUInt32 (total es - 1)
  mask := toUInt32 (getBinmask (total es))
  ranges := pairWords (cumPairs 0 es)

@[simp] theorem total_cons (e : PortEntry) (es : List PortEntry) :
    total (e :: es) = e.points + total es := rfl

@[simp] theorem length_cumPairs (sum : Nat) (es : List PortEntry) :
    (cumPairs sum es).length = es.length := by
  induction es generalizing sum with
  | nil => rfl
  | cons e es ih => simp [cumPairs, ih]

@[simp] theorem signedTotal_cons (e : PortEntry) (es : List PortEntry) :
    signedTotal (e :: es) = e.signedPoints + signedTotal es := by
  simp [signedTotal]

namespace PortEntry.WellFormed

variable (h : e.WellFormed)
include h

theorem signed : e.Signed where
  port := (Scanf.isNumber_digits h.port.1 h.port.2).1
  weight := fun weight hweight =>
    (Scanf.isNumber_digits (h.weight weight hweight).1 (h.weight weight hweight).2).1

theorem signedNumber_eq : e.signedNumber = e.number := (Scanf.isNumber_digits h.port.1 h.port.2).2

theorem signedPoints_eq : e.signedPoints = e.points := by
  unfold PortEntry.signedPoints PortEntry.points
  cases hweight : e.weight with
  | none => rfl
  | some weight =>
    obtain ⟨hne, hdigits⟩ := h.weight weight hweight
    exact (Scanf.isNumber_digits hne hdigits).2

end PortEntry.WellFormed

theorem signedTotal_eq (h : ∀ e ∈ es, e.WellFormed) : signedTotal es = total es := by
  induction es with
  | nil => rfl
  | cons e es ih =>
    obtain ⟨he, hrest⟩ := List.forall_mem_cons.mp h
    rw [signedTotal_cons, total_cons, he.signedPoints_eq, ih hrest, Nat.cast_add]

theorem signedPairs_eq (h : ∀ e ∈ es, e.WellFormed) (sum : Nat) : signedPairs sum es = cumPairs sum es := by
  induction es generalizing sum with
  | nil => rfl
  | cons e es ih =>
    obtain ⟨he, hrest⟩ := List.forall_mem_cons.mp h
    rw [signedPairs, cumPairs, he.signedNumber_eq, he.signedPoints_eq, ← Nat.cast_add, ih hrest]

/-! ### The text of an entry -/

/-- What stands behind the first entry of a portspec. -/
def behind (es : List PortEntry) : List Char :=
  match es with
  | [] => []
  | e :: es => ',' :: portspec (e :: es)

theorem portspec_cons (e : PortEntry) (es : List PortEntry) :
    portspec (e :: es) = e.text ++ behind es := by
  cases es with
  | nil => simp [portspec, behind]
  | cons e' es => simp [portspec, behind]

theorem noDigit_behind (es : List PortEntry) : Scanf.NoDigit (behind es) := by
  cases es with
  | nil => exact nofun
  | cons e es =>
    intro c hc
    obtain rfl : ',' = c := Option.some.inj hc
    rfl

namespace PortEntry.Signed

variable (h : e.Signed)
include h

theorem not_mem_text {c : Char} (hdigit : c.isDigit = false) (hsigns : c ≠ '-' ∧ c ≠ '+') (hcolon : c ≠ ':') :
    c ∉ e.text := by
  have hnumber : ∀ text, Scanf.IsNumber text → c ∉ text := by
    intro text htext hc
    rcases htext.mem hc with h | h | h
    · rw [h] at hdigit
      cases hdigit
    · exact hsigns.1 h
    · exact hsigns.2 h
  unfold PortEntry.text
  cases hweight : e.weight with
  | none => exact hnumber _ h.port
  | some weight => simp [hnumber _ h.port, hnumber _ (h.weight weight hweight), hcolon]

theorem space_text (rest : List Char) : Scanf.space (e.text ++ rest) ≠ [] := by
  have hport : ∀ rest, Scanf.space (e.port ++ rest) ≠ [] := fun rest => by
    rw [h.port.space_append]
    exact List.append_ne_nil_of_left_ne_nil h.port.ne_nil rest
  unfold PortEntry.text
  cases e.weight with
  | none => exact hport rest
  | some weight =>
    rw [List.append_assoc]
    exact hport _

/-- `sscanf` reads the entry if its numbers are of type `int`. -/
theorem scanEntry_eq (es : List PortEntry) :
    ∃ points, points.getD 1 = e.signedPoints ∧ scanEntry (e.text ++ behind es) =
      if IsInt e.signedNumber ∧ IsInt e.signedPoints then some (.entry e.signedNumber points) else none := by
  have hspace := h.space_text (behind es)
  unfold scanEntry
  rw [if_neg hspace]
  unfold PortEntry.text PortEntry.signedPoints PortEntry.signedNumber checked
  cases hweight : e.weight with
  | none =>
    have hscan := Scanf.integer_number h.port (noDigit_behind es)
    have hcolon : Scanf.literal ':' (behind es) = none := by
      cases es with
      | nil => rfl
      | cons e' es => rfl
    have hone : IsInt 1 := by decide
    refine ⟨none, rfl, ?_⟩
    simp only [hscan, hcolon]
    by_cases hport : IsInt (Scanf.value e.port)
    · simp [hport, hone]
    · simp [hport]
  | some weight =>
    have hrest : Scanf.NoDigit (':' :: (weight ++ behind es)) := by
      intro c hc
      obtain rfl : ':' = c := Option.some.inj hc
      rfl
    have hscan := Scanf.integer_number h.port hrest
    have hpointScan := Scanf.integer_number (h.weight weight hweight) (noDigit_behind es)
    refine ⟨some (Scanf.value weight), rfl, ?_⟩
    simp only [List.append_assoc, List.cons_append, hscan, Scanf.literal, if_true, Option.bind_some, hpointScan]
    by_cases hport : IsInt (Scanf.value e.port)
    · by_cases hpoints : IsInt (Scanf.value weight)
      · simp [hport, hpoints]
      · simp [hport, hpoints]
    · simp [hport]

end PortEntry.Signed

/-! ### The loops of `make_port_ranges` -/

theorem nextSpec_eq (h : e.Signed) (es : List PortEntry) :
    nextSpec (e.text ++ behind es) = if es = [] then none else some (portspec es) := by
  have hcomma : ∀ c ∈ e.text, decide (c ≠ ',') = true := fun c hc => by
    rw [decide_eq_true_eq]
    rintro rfl
    exact h.not_mem_text (by decide) (by decide) (by decide) hc
  unfold nextSpec
  rw [List.dropWhile_append_of_pos hcomma]
  cases es with
  | nil => rfl
  | cons e' es => simp [behind]

theorem countLoop_cons (h : e.Signed) (fuel : Nat) (port : Option Int) (num max : Int) :
    countLoop (fuel + 1) (portspec (e :: es)) port num max = (do
      let value ← checked e.signedNumber
      let points ← checked e.signedPoints
      let num ← checked (num + 1)
      let max ← checked (max + points)
      if es = [] then some (some value, num, max) else countLoop fuel (portspec es) (some value) num max) := by
  obtain ⟨points, hstore, hscan⟩ := h.scanEntry_eq es
  rw [portspec_cons, countLoop, hscan, nextSpec_eq h es]
  unfold checked
  by_cases hint : IsInt e.signedNumber ∧ IsInt e.signedPoints
  · simp only [if_pos hint, if_pos hint.1, if_pos hint.2, Option.bind_eq_bind, Option.bind_some, Scanned.store,
      hstore, reduceCtorEq, if_false]
    by_cases hes : es = []
    · simp only [if_pos hes]
    · simp only [if_neg hes]
  · rw [if_neg hint]
    by_cases hport : IsInt e.signedNumber
    · have hpoints : ¬ IsInt e.signedPoints := fun hpoints => hint ⟨hport, hpoints⟩
      simp [hport, hpoints]
    · simp [hport]

theorem fillLoop_cons (h : e.Signed) (fuel : Nat) (port : Option Int) (sum : Int) (i : Nat)
    (words : List UInt32) :
    fillLoop (fuel + 1) (portspec (e :: es)) port sum i words = (do
      let value ← checked e.signedNumber
      let points ← checked e.signedPoints
      let sum ← checked (sum + points)
      let last ← checked (sum - 1)
      if i + 1 < words.length then
        let words := (words.set i (toUInt32 value)).set (i + 1) (toUInt32 last)
        if es = [] then some words else fillLoop fuel (portspec es) (some value) sum (i + 2) words
      else none) := by
  obtain ⟨points, hstore, hscan⟩ := h.scanEntry_eq es
  rw [portspec_cons, fillLoop, hscan, nextSpec_eq h es]
  unfold checked
  by_cases hint : IsInt e.signedNumber ∧ IsInt e.signedPoints
  · simp only [if_pos hint, if_pos hint.1, if_pos hint.2, Option.bind_eq_bind, Option.bind_some, Scanned.store,
      hstore, reduceCtorEq, if_false]
    by_cases hes : es = []
    · simp only [if_pos hes]
    · simp only [if_neg hes]
  · rw [if_neg hint]
    by_cases hport : IsInt e.signedNumber
    · have hpoints : ¬ IsInt e.signedPoints := fun hpoints => hint ⟨hport, hpoints⟩
      simp [hport, hpoints]
    · simp [hport]

theorem length_portspec_cons (e : PortEntry) (hes : es ≠ []) :
    (portspec es).length < (portspec (e :: es)).length := by
  obtain ⟨e', es, rfl⟩ := List.exists_cons_of_ne_nil hes
  rw [portspec_cons e, List.length_append, behind, List.length_cons]
  omega

/-- The first loop counts the entries and adds up their weights unless it overflows. -/
theorem countLoop_some {fuel : Nat} {port : Option Int} {num max : Int} {r : Option Int × Int × Int}
    (hes : es ≠ []) (h : ∀ e ∈ es, e.Signed) (hcount : countLoop fuel (portspec es) port num max = some r) :
    r.2 = (num + es.length, max + signedTotal es) := by
  induction es generalizing fuel port num max with
  | nil => exact absurd rfl hes
  | cons e es ih =>
    obtain ⟨he, hrest⟩ := List.forall_mem_cons.mp h
    cases fuel with
    | zero => cases hcount
    | succ fuel =>
      rw [countLoop_cons he] at hcount
      simp only [Option.bind_eq_bind, Option.bind_eq_some_iff, checked_eq_some_iff] at hcount
      obtain ⟨value, ⟨-, rfl⟩, points, ⟨-, rfl⟩, num', ⟨-, rfl⟩, max', ⟨-, rfl⟩, hcount⟩ := hcount
      by_cases hes : es = []
      · subst hes
        rw [if_pos rfl] at hcount
        obtain rfl := Option.some.inj hcount
        simp [signedTotal]
      · rw [if_neg hes] at hcount
        rw [ih hes hrest hcount, List.length_cons, signedTotal_cons]
        push_cast
        ring_nf

theorem isInt_natCast {n : Nat} (h : n < 2 ^ 31) : IsInt n := ⟨by omega, by omega⟩

theorem PortEntry.WellFormed.checked_signed (h : e.WellFormed) (hpoints : e.points < 2 ^ 31) :
    checked e.signedNumber = some (e.number : Int) ∧ checked e.signedPoints = some (e.points : Int) := by
  rw [h.signedNumber_eq, h.signedPoints_eq]
  exact ⟨checked_eq (isInt_natCast h.number), checked_eq (isInt_natCast hpoints)⟩

theorem countLoop_portspec {fuel : Nat} {port : Option Int} {num max : Nat} (hes : es ≠ [])
    (h : ∀ e ∈ es, e.WellFormed) (hfuel : (portspec es).length < fuel)
    (hnum : num + es.length < 2 ^ 31) (hmax : max + total es < 2 ^ 31) :
    ∃ port', countLoop fuel (portspec es) port num max =
      some (port', (num : Int) + es.length, (max : Int) + total es) := by
  induction es generalizing fuel port num max with
  | nil => exact absurd rfl hes
  | cons e es ih =>
    obtain ⟨he, hrest⟩ := List.forall_mem_cons.mp h
    rw [List.length_cons] at hnum
    rw [total_cons] at hmax
    obtain ⟨fuel, rfl⟩ : ∃ n, fuel = n + 1 := ⟨fuel - 1, by omega⟩
    obtain ⟨hnumber, hpoints⟩ := he.checked_signed (by omega)
    have hnumInt : checked ((num : Int) + 1) = some ((num + 1 : Nat) : Int) :=
      checked_eq ⟨by omega, by omega⟩
    have hmaxInt : checked ((max : Int) + e.points) = some ((max + e.points : Nat) : Int) :=
      checked_eq ⟨by omega, by omega⟩
    rw [countLoop_cons he.signed, Option.bind_eq_bind, hnumber, Option.bind_some, hpoints, Option.bind_some,
      hnumInt, Option.bind_some, hmaxInt, Option.bind_some]
    by_cases hes : es = []
    · subst hes
      exact ⟨some e.number, by simp [total, weights, totalWeight]⟩
    · have hshorter := length_portspec_cons e hes
      obtain ⟨port', hcount⟩ := @ih fuel (some e.number) (num + 1) (max + e.points) hes hrest (by omega)
        (by omega) (by omega)
      refine ⟨port', ?_⟩
      rw [if_neg hes, hcount, List.length_cons, total_cons]
      push_cast
      ring_nf

/-- The second loop stores a pair for each entry unless it overflows. -/
theorem fillLoop_some {fuel i : Nat} {sum : Int} {port : Option Int} {words words' : List UInt32}
    (hes : es ≠ [])
    (h : ∀ e ∈ es, e.Signed) (hlen : words.length = i + 2 * es.length)
    (hfill : fillLoop fuel (portspec es) port sum i words = some words') :
    words' = words.take i ++ pairWords (signedPairs sum es) := by
  induction es generalizing fuel sum port i words with
  | nil => exact absurd rfl hes
  | cons e es ih =>
    obtain ⟨he, hrest⟩ := List.forall_mem_cons.mp h
    rw [List.length_cons] at hlen
    cases fuel with
    | zero => cases hfill
    | succ fuel =>
      rw [fillLoop_cons he] at hfill
      simp only [Option.bind_eq_bind, Option.bind_eq_some_iff, checked_eq_some_iff] at hfill
      obtain ⟨value, ⟨-, rfl⟩, points, ⟨-, rfl⟩, sum', ⟨-, rfl⟩, last, ⟨-, rfl⟩, hfill⟩ := hfill
      rw [if_pos (by omega)] at hfill
      generalize hset : (words.set i (toUInt32 e.signedNumber)).set (i + 1)
        (toUInt32 (sum + e.signedPoints - 1)) = stored at hfill
      have htake : stored.take (i + 2) =
          words.take i ++ [toUInt32 e.signedNumber, toUInt32 (sum + e.signedPoints - 1)] := by
        rw [← hset, List.take_add_one, List.take_set_of_le (Nat.le_refl _), List.take_add_one,
          List.take_set_of_le (Nat.le_refl _), List.getElem?_set_self (by omega),
          List.getElem?_set_self (by rw [List.length_set]; omega)]
        simp
      have hstored : stored.length = i + 2 + 2 * es.length := by
        rw [← hset, List.length_set, List.length_set]
        omega
      rw [signedPairs, pairWords_cons]
      by_cases hes : es = []
      · subst hes
        rw [if_pos rfl] at hfill
        obtain rfl := Option.some.inj hfill
        rw [List.length_nil] at hstored
        have hall : stored.take (i + 2) = stored := List.take_of_length_le (by omega)
        exact hall.symm.trans htake
      · rw [if_neg hes] at hfill
        rw [ih hes hrest hstored hfill, htake]
        simp

theorem fillLoop_isSome {fuel sum i : Nat} (port : Option Int) {words : List UInt32} (hes : es ≠ [])
    (h : ∀ e ∈ es, e.WellFormed) (hfuel : (portspec es).length < fuel) (hsum : sum + total es < 2 ^ 31)
    (hlen : words.length = i + 2 * es.length) : (fillLoop fuel (portspec es) port sum i words).isSome := by
  induction es generalizing fuel sum port i words with
  | nil => exact absurd rfl hes
  | cons e es ih =>
    obtain ⟨he, hrest⟩ := List.forall_mem_cons.mp h
    rw [List.length_cons] at hlen
    rw [total_cons] at hsum
    obtain ⟨fuel, rfl⟩ : ∃ n, fuel = n + 1 := ⟨fuel - 1, by omega⟩
    obtain ⟨hnumber, hpoints⟩ := he.checked_signed (by omega)
    have hsumInt : checked ((sum : Int) + e.points) = some ((sum + e.points : Nat) : Int) :=
      checked_eq ⟨by omega, by omega⟩
    have hlastInt : checked (((sum + e.points : Nat) : Int) - 1) =
        some (((sum + e.points : Nat) : Int) - 1) := checked_eq ⟨by omega, by omega⟩
    rw [fillLoop_cons he.signed, Option.bind_eq_bind, hnumber, Option.bind_some, hpoints, Option.bind_some,
      hsumInt, Option.bind_some, hlastInt, Option.bind_some]
    rw [if_pos (by omega)]
    by_cases hes : es = []
    · rw [if_pos hes]
      rfl
    · have hshorter := length_portspec_cons e hes
      rw [if_neg hes]
      refine ih _ hes hrest (by omega) (by omega) ?_
      rw [List.length_set, List.length_set]
      omega

theorem fillLoop_portspec {fuel sum i : Nat} {port : Option Int} {words : List UInt32} (hes : es ≠ [])
    (h : ∀ e ∈ es, e.WellFormed) (hfuel : (portspec es).length < fuel)
    (hsum : sum + total es < 2 ^ 31) (hlen : words.length = i + 2 * es.length) :
    fillLoop fuel (portspec es) port sum i words =
      some (words.take i ++ pairWords (cumPairs sum es)) := by
  obtain ⟨words', hfill⟩ := Option.isSome_iff_exists.mp (fillLoop_isSome port hes h hfuel hsum hlen)
  rw [hfill, fillLoop_some hes (fun e he => (h e he).signed) hlen hfill, signedPairs_eq h]

/-! ### The mask -/

theorem shiftMask_pow {k : Nat} (hk : k < 30) : shiftMask (2 ^ k) = 2 ^ (k + 1) := by
  have hlt := Nat.pow_lt_pow_right (show 1 < 2 by decide) (show k + 1 < 31 by omega)
  have hdouble : ((2 : Int) ^ k * 2) = ((2 ^ (k + 1) : Nat) : Int) := by
    push_cast
    ring
  rw [shiftMask, hdouble, Int.emod_eq_of_lt (by positivity) (by exact_mod_cast (by omega)),
    Int.toNat_natCast, toInt32, if_pos (by omega)]
  push_cast
  rfl

theorem maskLoop_pow {max : Int} (hmax : max ≤ 2 ^ 30) (left : Nat) {k fuel : Nat} (hk : k + left = 30)
    (hfuel : left < fuel) :
    ∃ m, maskLoop fuel (2 ^ k) max = some (2 ^ m) ∧ max ≤ 2 ^ m ∧ (m ≠ k → (2 : Int) ^ m < 2 * max) := by
  induction left generalizing k fuel with
  | zero =>
    obtain ⟨fuel, rfl⟩ : ∃ n, fuel = n + 1 := ⟨fuel - 1, by omega⟩
    obtain rfl : k = 30 := by omega
    exact ⟨30, by rw [maskLoop, if_neg (by omega)], hmax, fun h => absurd rfl h⟩
  | succ left ih =>
    obtain ⟨fuel, rfl⟩ : ∃ n, fuel = n + 1 := ⟨fuel - 1, by omega⟩
    by_cases hlt : (2 : Int) ^ k < max
    · obtain ⟨m, heq, hle, hsmall⟩ := @ih (k + 1) fuel (by omega) (by omega)
      refine ⟨m, by rw [maskLoop, if_pos hlt, shiftMask_pow (by omega), heq], hle, fun _ => ?_⟩
      by_cases hm : m = k + 1
      · rw [hm, pow_succ]
        linarith
      · exact hsmall hm
    · exact ⟨k, by rw [maskLoop, if_neg hlt], not_lt.mp hlt, fun h => absurd rfl h⟩

/-- Two powers of two between a number and its double are the same. -/
theorem pow_eq_of_near {a b : Nat} {num : Int} (ha : num ≤ 2 ^ a) (ha' : (2 : Int) ^ a < 2 * num)
    (hb : num ≤ 2 ^ b) (hb' : (2 : Int) ^ b < 2 * num) : a = b := by
  have hstep : ∀ {i j : Nat}, num ≤ 2 ^ i → (2 : Int) ^ j < 2 * num → ¬ i < j := by
    intro i j hi hj hij
    have hle : (2 : Int) ^ (i + 1) ≤ 2 ^ j := pow_le_pow_right₀ (by norm_num) hij
    rw [pow_succ] at hle
    linarith
  exact Nat.le_antisymm (Nat.not_lt.mp (hstep hb ha')) (Nat.not_lt.mp (hstep ha hb'))

/-- Up to `2^30` points the loop ends with the mask of `compile-targets.py`. -/
theorem maskLoop_eq {max : Int} (hpos : 0 < max) (hmax : max ≤ 2 ^ 30) {fuel : Nat} (hfuel : 30 < fuel) :
    ∃ mask, maskLoop fuel 1 max = some mask ∧ mask - 1 = getBinmask max := by
  obtain ⟨m, hloop, hle, hsmall⟩ := maskLoop_pow hmax 30 (show 0 + 30 = 30 by rfl) hfuel
  obtain ⟨m', hmask, hle', hsmall'⟩ := getBinmask_pow hpos
  have hsmall : (2 : Int) ^ m < 2 * max := by
    by_cases hm : m = 0
    · rw [hm, pow_zero]
      linarith
    · exact hsmall hm
  rw [pow_zero] at hloop
  exact ⟨2 ^ m, hloop, by rw [hmask, pow_eq_of_near hle hsmall hle' hsmall']⟩

/-- Beyond, the bit leaves the word and the loop goes on with 0 for ever. -/
theorem maskLoop_endless {max : Int} (hmax : 2 ^ 30 < max) (fuel : Nat) : maskLoop fuel 1 max = none := by
  have hloop : ∀ (fuel : Nat) (mask : Int), (mask = 0 ∨ mask = -2 ^ 31 ∨ ∃ k ≤ 30, mask = 2 ^ k) →
      maskLoop fuel mask max = none := by
    intro fuel
    induction fuel with
    | zero => exact fun _ _ => rfl
    | succ fuel ih =>
      rintro mask (rfl | rfl | ⟨k, hk, rfl⟩)
      · rw [maskLoop, if_pos (by omega)]
        exact ih _ (Or.inl rfl)
      · rw [maskLoop, if_pos (by omega)]
        exact ih _ (Or.inl rfl)
      · have hle : (2 : Int) ^ k ≤ 2 ^ 30 := pow_le_pow_right₀ (by norm_num) hk
        rw [maskLoop, if_pos (by linarith)]
        by_cases hlast : k = 30
        · subst hlast
          exact ih _ (Or.inr (Or.inl rfl))
        · rw [shiftMask_pow (by omega)]
          exact ih _ (Or.inr (Or.inr ⟨k + 1, by omega, rfl⟩))
  exact hloop fuel 1 (Or.inr (Or.inr ⟨0, by omega, (pow_zero 2).symm⟩))

/-! ### What `make_port_ranges` returns -/

variable {malloc : Nat → Option (Nat → UInt32)}

theorem points_le_total (he : e ∈ es) : e.points ≤ total es := by
  induction es with
  | nil => cases he
  | cons e' es ih =>
    rw [total_cons]
    rcases List.mem_cons.mp he with rfl | he
    · omega
    · have := ih he
      omega

theorem makePortRanges_eq (hes : es ≠ []) (h : ∀ e ∈ es, e.WellFormed) (hshort : es.length < 2 ^ 30)
    (hpos : 0 < total es) (hle : total es ≤ 2 ^ 30) (hmem : (malloc (12 + 8 * es.length)).isSome)
    {fuel : Nat} (hfuel : 30 < fuel) :
    makePortRanges fuel malloc (portspec es) = some (.record (portTable es)) := by
  obtain ⟨word, hword⟩ := Option.isSome_iff_exists.mp hmem
  obtain ⟨port, hcount⟩ := @countLoop_portspec es ((portspec es).length + 1) none 0 0 hes h (by omega)
    (by omega) (by omega)
  obtain ⟨mask, hmask, hbinmask⟩ := @maskLoop_eq (total es) (by omega) (by omega) fuel hfuel
  have hsize : allocSize es.length = 12 + 8 * es.length := by
    unfold allocSize
    omega
  have hmaxIdx : checked ((total es : Int) - 1) = some ((total es : Int) - 1) :=
    checked_eq ⟨by omega, by omega⟩
  have hslots : (freshRecord (12 + 8 * es.length) word).ranges.length = 0 + 2 * es.length := by
    simp only [freshRecord, List.length_map, List.length_range]
    omega
  have hfill := @fillLoop_portspec es ((portspec es).length + 1) 0 0 port _ hes h (by omega) (by omega)
    hslots
  simp only [Nat.cast_zero, zero_add, List.take_zero, List.nil_append] at hcount hfill
  simp only [makePortRanges, hcount]
  rw [if_neg (by omega)]
  simp only [hsize, hword, hmaxIdx, hmask, hfill, hbinmask]
  rfl

/-- A record has a pair for each entry. -/
theorem makePortRanges_some (hes : es ≠ []) (h : ∀ e ∈ es, e.Signed) {fuel : Nat} {cfg : RangeCfg}
    (hbuilt : makePortRanges fuel malloc (portspec es) = some (.record cfg)) :
    cfg.num = es.length ∧ cfg.ranges = pairWords (signedPairs 0 es) := by
  unfold makePortRanges at hbuilt
  cases hcount : countLoop ((portspec es).length + 1) (portspec es) none 0 0 with
  | none =>
    rw [hcount] at hbuilt
    cases hbuilt
  | some r =>
    obtain ⟨port, num, max⟩ := r
    obtain ⟨hnum, -⟩ := Prod.mk.inj (countLoop_some hes h hcount)
    obtain rfl : num = es.length := hnum.trans (Int.zero_add _)
    by_cases hint : (es.length : Int) * 2 < -2 ^ 31 ∨ 2 ^ 31 ≤ (es.length : Int) * 2
    · simp only [hcount, if_pos hint] at hbuilt
      cases hbuilt
    · have hsize : allocSize es.length = 12 + 8 * (es.length : Int).toNat :=
        allocSize_of_nonneg (by omega) (by omega)
      simp only [hcount, if_neg hint] at hbuilt
      cases hword : malloc (allocSize es.length) with
      | none => simp [hword] at hbuilt
      | some word =>
        have hslots : (freshRecord (allocSize es.length) word).ranges.length = 0 + 2 * es.length := by
          simp only [freshRecord, List.length_map, List.length_range]
          omega
        cases hmax : checked (max - 1) with
        | none => simp [hword, hmax] at hbuilt
        | some maxIdx =>
          cases hmask : maskLoop fuel 1 max with
          | none => simp [hword, hmax, hmask] at hbuilt
          | some mask =>
            simp only [hword, hmax, hmask] at hbuilt
            split at hbuilt
            · cases hbuilt
            · rename_i words hfill
              cases hbuilt
              exact ⟨rfl, fillLoop_some hes h hslots hfill⟩

/-- With memory the portspec is not refused. -/
theorem makePortRanges_ne_null (word : Nat → UInt32) (fuel : Nat) (portspec : List Char) :
    makePortRanges fuel (fun _ => some word) portspec ≠ some .null := by
  unfold makePortRanges
  cases countLoop (portspec.length + 1) portspec none 0 0 with
  | none => exact nofun
  | some r =>
    obtain ⟨port, num, max⟩ := r
    dsimp only
    by_cases hint : num * 2 < -2 ^ 31 ∨ 2 ^ 31 ≤ num * 2
    · rw [if_pos hint]
      exact nofun
    · rw [if_neg hint]
      cases checked (max - 1) with
      | none => exact nofun
      | some maxIdx =>
        cases maskLoop fuel 1 max with
        | none => exact nofun
        | some mask =>
          dsimp only
          split
          · exact nofun
          · exact nofun

/-- Nothing is built where the number of entries overflows or the mask does not fit. -/
theorem not_makePortRanges (hes : es ≠ []) (h : ∀ e ∈ es, e.WellFormed) (hlt : total es < 2 ^ 31)
    (hbig : 2 ^ 30 ≤ es.length ∨ 2 ^ 30 < total es) (fuel : Nat) (cfg : RangeCfg) :
    makePortRanges fuel malloc (portspec es) ≠ some (.record cfg) := by
  unfold makePortRanges
  cases hcount : countLoop ((portspec es).length + 1) (portspec es) none 0 0 with
  | none => exact nofun
  | some r =>
    obtain ⟨port, num, max⟩ := r
    obtain ⟨rfl, rfl⟩ := Prod.mk.inj (countLoop_some hes (fun e he => (h e he).signed) hcount)
    rw [signedTotal_eq h] at hcount ⊢
    dsimp only
    by_cases hnum : 2 ^ 30 ≤ es.length
    · rw [if_pos (Or.inr (by omega))]
      exact nofun
    · rw [if_neg (by omega)]
      have hloop := maskLoop_endless (show (2 ^ 30 : Int) < 0 + total es by omega) fuel
      cases malloc (allocSize (0 + es.length)) with
      | none => exact nofun
      | some word =>
        cases checked (0 + (total es : Int) - 1) with
        | none => exact nofun
        | some maxIdx =>
          simp only [hloop]
          exact nofun

/-- `make_port_ranges` returns a record: it does so with any number of turns from some number on. -/
def Builds (malloc : Nat → Option (Nat → UInt32)) (portspec : List Char) (cfg : RangeCfg) : Prop :=
  ∃ turns, ∀ fuel ≥ turns, makePortRanges fuel malloc portspec = some (.record cfg)

/-- The record of a portspec of at most `2^30` points. -/
theorem builds_iff (hes : es ≠ []) (h : ∀ e ∈ es, e.WellFormed) (hpos : 0 < total es)
    (hlt : total es < 2 ^ 31) (hmem : (malloc (12 + 8 * es.length)).isSome) (cfg : RangeCfg) :
    Builds malloc (portspec es) cfg ↔
      es.length < 2 ^ 30 ∧ total es ≤ 2 ^ 30 ∧ cfg = portTable es := by
  constructor
  · rintro ⟨turns, hbuilds⟩
    by_cases hbig : 2 ^ 30 ≤ es.length ∨ 2 ^ 30 < total es
    · exact absurd (hbuilds turns (Nat.le_refl _)) (not_makePortRanges hes h hlt hbig turns cfg)
    · obtain ⟨hshort, hle⟩ := not_or.mp hbig
      have hmine := hbuilds (turns + 31) (Nat.le_add_right ..)
      rw [makePortRanges_eq hes h (by omega) hpos (by omega) hmem (by omega)] at hmine
      cases hmine
      exact ⟨by omega, by omega, rfl⟩
  · rintro ⟨hshort, hle, rfl⟩
    exact ⟨31, fun fuel hfuel => makePortRanges_eq hes h hshort hpos hle hmem hfuel⟩

end Cscan.Target
