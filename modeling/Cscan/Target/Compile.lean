import Cscan.Target.LoadFile
import Mathlib.Tactic.Linarith

/-! The file that `compile-targets.py` writes is the table that `load_range_cfg` reads back. -/

namespace Cscan.Target

open Cscan.Lib

/-! ### The mask -/

theorem binmaskLoop_pow (fuel k : Nat) {num : Int} (h : num ≤ 2 ^ k + fuel) :
    ∃ m, binmaskLoop fuel (2 ^ k) num = 2 ^ m ∧ k ≤ m ∧ num ≤ 2 ^ m ∧
      (m ≠ k → (2 : Int) ^ m < 2 * num) := by
  induction fuel generalizing k with
  | zero => exact ⟨k, rfl, le_refl k, by simpa using h, fun hne => absurd rfl hne⟩
  | succ fuel ih =>
    by_cases hlt : 2 ^ k < num
    · have hpos : (0 : Int) < 2 ^ k := by positivity
      have hdouble : (2 : Int) ^ k * 2 = 2 ^ (k + 1) := (pow_succ 2 k).symm
      obtain ⟨m, heq, hkm, hle, hsmall⟩ := ih (k + 1) (by push_cast at h; linarith)
      refine ⟨m, by rw [binmaskLoop, if_pos hlt, hdouble, heq], by omega, hle, fun _ => ?_⟩
      by_cases hm : m = k + 1
      · rw [hm, ← hdouble]
        linarith
      · exact hsmall hm
    · exact ⟨k, by rw [binmaskLoop, if_neg hlt], le_refl k, by linarith,
        fun hne => absurd rfl hne⟩

theorem getBinmask_pow {num : Int} (hpos : 0 < num) :
    ∃ m : Nat, getBinmask num = 2 ^ m - 1 ∧ num ≤ 2 ^ m ∧ (2 : Int) ^ m < 2 * num := by
  obtain ⟨m, heq, -, hle, hsmall⟩ := binmaskLoop_pow num.toNat 0 (show num ≤ 2 ^ 0 + num.toNat by omega)
  refine ⟨m, by rw [getBinmask, ← heq, pow_zero], hle, ?_⟩
  by_cases hm : m = 0
  · subst hm
    rw [pow_zero]
    omega
  · exact hsmall hm

/-! ### Writing and reading words -/

def Fits (v : Int) : Prop := 0 ≤ v ∧ v < 2 ^ 32

theorem packWords_eq {words : List Int} (h : ∀ v ∈ words, Fits v) :
    packWords words = some (words.flatMap fun v => ByteOrder.little.encode 4 v.toNat) := by
  induction words with
  | nil => rfl
  | cons v vs ih =>
    obtain ⟨hv, hvs⟩ := List.forall_mem_cons.mp h
    have hpack : packWord v = some (ByteOrder.little.encode 4 v.toNat) := if_pos hv
    simp only [packWords, hpack, ih hvs]
    rfl

/-- Only words that fit are written. -/
theorem fits_of_packWords {words : List Int} {bytes : List UInt8} (h : packWords words = some bytes) :
    ∀ v ∈ words, Fits v := by
  induction words generalizing bytes with
  | nil => simp
  | cons v vs ih =>
    obtain ⟨front, hfront, h⟩ := Option.bind_eq_some_iff.mp h
    obtain ⟨rest, hrest, -⟩ := Option.bind_eq_some_iff.mp h
    unfold packWord at hfront
    split_ifs at hfront with hfits
    exact List.forall_mem_cons.mpr ⟨hfits, ih hrest⟩

theorem littleWords_map {words : List Int} (h : ∀ v ∈ words, Fits v) :
    littleWords (words.map fun v => UInt32.ofNat v.toNat) =
      words.flatMap fun v => ByteOrder.little.encode 4 v.toNat := by
  rw [littleWords, List.flatMap_map]
  refine List.flatMap_congr fun v hv => ?_
  obtain ⟨h0, h1⟩ := h v hv
  have hlt : v.toNat < 2 ^ 32 := by omega
  rw [UInt32.toNat_ofNat_of_lt' hlt]

/-! ### The table of a list of ranges -/

/-- What the code promises of the merged ranges: they are in the space of 32-bit addresses and no
two of them meet. -/
structure Merged (ranges : List (Int × Int)) : Prop where
  nonempty : ranges ≠ []
  short : ranges.length < 2 ^ 30
  bounds : ∀ p ∈ ranges, 0 ≤ p.1 ∧ p.1 ≤ p.2 ∧ p.2 < 2 ^ 32
  disjoint : ranges.Pairwise fun p q => p.2 < q.1 ∨ q.2 < p.1

def compiled (ranges : List (Int × Int)) : RangeCfg where
  num := ranges.length
  maxIdx := UInt32.ofNat ((rangeData 0 ranges).1 - 1).toNat
  mask := UInt32.ofNat (getBinmask (rangeData 0 ranges).1).toNat
  ranges := (rangeData 0 ranges).2.map fun v => UInt32.ofNat v.toNat

theorem length_rangeData (total : Int) (ranges : List (Int × Int)) :
    (rangeData total ranges).2.length = 2 * ranges.length := by
  induction ranges generalizing total with
  | nil => rfl
  | cons p ranges ih =>
    simp only [rangeData, List.length_cons, ih]
    omega

/-- Words that fit are read back as they were written if there is memory for them. -/
theorem loadRangeCfg_words (order : ByteOrder) {malloc : Nat → Option (Nat → UInt32)} {num : Nat}
    {maxIdx mask : Int} {data : List Int} (hshort : num < 2 ^ 30) (hlen : data.length = 2 * num)
    (hfits : ∀ v ∈ (num : Int) :: maxIdx :: mask :: data, Fits v)
    (hmem : (malloc (12 + 8 * num)).isSome) :
    ∃ bytes, packWords ((num : Int) :: maxIdx :: mask :: data) = some bytes ∧
      loadRangeCfg order malloc (some bytes) = .record
        ⟨num, UInt32.ofNat maxIdx.toNat, UInt32.ofNat mask.toNat,
          data.map fun v => UInt32.ofNat v.toNat⟩ := by
  have hnum : UInt32.ofNat ((num : Int) % 2 ^ 32).toNat = UInt32.ofNat ((num : Int)).toNat := by
    rw [Int.emod_eq_of_lt (by omega) (by omega)]
  refine ⟨_, packWords_eq hfits, ?_⟩
  rw [← littleWords_map hfits]
  refine Whole.load order ⟨by simp only; omega, by simp only [List.length_map]; omega, [], ?_⟩ ?_ ?_
  · rw [List.append_nil, RangeCfg.words, hnum]
    rfl
  · show (num : Int) < 2 ^ 30
    omega
  · have hsize : allocSize num = 12 + 8 * num := allocSize_of_nonneg (by omega) (by omega)
    show (malloc (allocSize num)).isSome
    rwa [hsize]

/-- The table is read back as it was written when its words fit and there is memory for it. -/
theorem loadRangeCfg_compileTargets (order : ByteOrder) {malloc : Nat → Option (Nat → UInt32)}
    {ranges : List (Int × Int)} (hshort : ranges.length < 2 ^ 30)
    (hfits : ∀ v ∈ tableWords ranges, Fits v) (hmem : (malloc (12 + 8 * ranges.length)).isSome) :
    ∃ bytes, compileTargets ranges = some bytes ∧
      loadRangeCfg order malloc (some bytes) = .record (compiled ranges) :=
  loadRangeCfg_words order hshort (length_rangeData 0 ranges) hfits hmem

end Cscan.Target
