import Mathlib.Data.FinEnum
import Mathlib.Data.Int.CardIntervalMod
import Mathlib.Algebra.BigOperators.Group.Finset.Basic

/-! How many of the `2^32` words have a given value under a mask of low bits. -/

namespace Cscan.Lib

theorem card_words (p : ℕ → Prop) [DecidablePred p] :
    (Finset.univ.filter fun w : UInt32 => p w.toNat).card =
      ((Finset.range (2 ^ 32)).filter p).card := by
  refine Finset.card_nbij' UInt32.toNat UInt32.ofNat (fun w hw => ?_) (fun n hn => ?_)
    (fun w _ => UInt32.ofNat_toNat) (fun n hn => ?_)
  · have hlt := w.toNat_lt
    simp_all
  · obtain ⟨hlt, hp⟩ := Finset.mem_filter.mp hn
    have hlt := Finset.mem_range.mp hlt
    have hn : (UInt32.ofNat n).toNat = n := UInt32.toNat_ofNat_of_lt' hlt
    simpa [hn] using hp
  · have hlt := Finset.mem_range.mp (Finset.mem_filter.mp hn).1
    exact UInt32.toNat_ofNat_of_lt' hlt

variable {k : ℕ}

/-- Each value of the low `k` bits is that of `2^32 / 2^k` words. -/
theorem card_masked (hk : k ≤ 32) {r : ℕ} (hr : r < 2 ^ k) :
    (Finset.univ.filter fun w : UInt32 => w.toNat % 2 ^ k = r).card = 2 ^ 32 / 2 ^ k := by
  have hdvd : 2 ^ k ∣ 2 ^ 32 := pow_dvd_pow 2 hk
  have hcount := Nat.count_modEq_card (2 ^ 32) (Nat.two_pow_pos k) r
  rw [Nat.mod_eq_zero_of_dvd hdvd, if_neg (Nat.not_lt_zero _), Nat.add_zero,
    Nat.count_eq_card_filter_range] at hcount
  rw [card_words fun n => n % 2 ^ k = r, ← hcount]
  refine congrArg Finset.card (Finset.filter_congr fun n _ => ?_)
  rw [Nat.ModEq, Nat.mod_eq_of_lt hr]

/-- The words whose low `k` bits are below `m`. -/
theorem card_masked_lt (hk : k ≤ 32) {m : ℕ} (hm : m ≤ 2 ^ k) :
    (Finset.univ.filter fun w : UInt32 => w.toNat % 2 ^ k < m).card = m * (2 ^ 32 / 2 ^ k) := by
  have hmaps : ∀ w ∈ Finset.univ.filter fun w : UInt32 => w.toNat % 2 ^ k < m,
      w.toNat % 2 ^ k ∈ Finset.range m := by
    intro w hw
    simpa using hw
  rw [Finset.card_eq_sum_card_fiberwise hmaps]
  have hfiber : ∀ r ∈ Finset.range m, (Finset.filter (fun w : UInt32 => w.toNat % 2 ^ k = r)
      (Finset.univ.filter fun w : UInt32 => w.toNat % 2 ^ k < m)).card = 2 ^ 32 / 2 ^ k := by
    intro r hr
    have hlt := Finset.mem_range.mp hr
    rw [← card_masked hk (show r < 2 ^ k by omega), Finset.filter_filter]
    refine congrArg Finset.card (Finset.filter_congr fun w _ => ?_)
    omega
  rw [Finset.sum_congr rfl hfiber, Finset.sum_const, Finset.card_range, Nat.nsmul_eq_mul]

end Cscan.Lib
