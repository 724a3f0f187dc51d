import Cscan.Target.Table
import Mathlib.Data.Nat.Bitwise

/-! The binary search of `random_ip` on a table whose cumulative entries increase strictly: it ends,
it reads inside the table, and it stops at the first entry that is at least the number drawn. -/

namespace Cscan.Target

theorem mid_toNat {start stop : UInt32} (h : stop.toNat + start.toNat < 2 ^ 32) :
    ((stop + start) >>> 1).toNat = (stop.toNat + start.toNat) / 2 := by
  rw [UInt32.toNat_shiftRight, UInt32.toNat_add, Nat.mod_eq_of_lt h]
  simp [Nat.shiftRight_eq_div_pow]

theorem double_toNat {idx : UInt32} (h : idx.toNat < 2 ^ 31) :
    (idx <<< 1).toNat = 2 * idx.toNat := by
  rw [UInt32.toNat_shiftLeft]
  simp only [UInt32.reduceToNat, Nat.reduceMod, Nat.shiftLeft_eq]
  omega

theorem double_succ_toNat {idx : UInt32} (h : idx.toNat < 2 ^ 31) :
    ((idx <<< 1) ||| 1).toNat = 2 * idx.toNat + 1 := by
  rw [UInt32.toNat_or, double_toNat h]
  exact (Nat.two_pow_add_eq_or_of_lt (i := 1) (b := 1) (by decide) idx.toNat).symm

/-- The table `ranges` has `n` pairs, the second of pair `i` being `cum i`, and these increase
strictly. -/
structure Cumulative (ranges : List UInt32) (n : Nat) (cum : Nat → UInt32) : Prop where
  bound : n < 2 ^ 31
  entry : ∀ i < n, ranges[2 * i + 1]? = some (cum i)
  increasing : ∀ i j, i < j → j < n → (cum i).toNat < (cum j).toNat

structure FirstAtLeast (n : Nat) (cum : Nat → UInt32) (r : UInt32) (k : Nat) : Prop where
  bound : k < n
  atLeast : r.toNat ≤ (cum k).toNat
  before : ∀ i < k, (cum i).toNat < r.toNat

namespace FirstAtLeast

variable {ranges : List UInt32} {n k i : Nat} {cum : Nat → UInt32} {r : UInt32}

theorem eq_of_hit (first : FirstAtLeast n cum r k) (table : Cumulative ranges n cum) (hi : i < n)
    (hit : cum i = r) : i = k := by
  by_contra hne
  rcases Nat.lt_or_gt_of_ne hne with h | h
  · have := first.before i h
    rw [hit] at this
    omega
  · have hlt := table.increasing k i h hi
    have := first.atLeast
    rw [hit] at hlt
    omega

theorem lt_of_below (first : FirstAtLeast n cum r k) (table : Cumulative ranges n cum) (hi : i < n)
    (hlt : (cum i).toNat < r.toNat) : i < k := by
  by_contra hle
  rcases Nat.lt_or_eq_of_le (Nat.not_lt.mp hle) with h | h
  · have := table.increasing k i h hi
    have := first.atLeast
    omega
  · have := first.atLeast
    rw [h] at this
    omega

theorem le_of_above (first : FirstAtLeast n cum r k) (hgt : r.toNat < (cum i).toNat) : k ≤ i := by
  by_contra hlt
  have := first.before i (by omega)
  omega

end FirstAtLeast

/-- The interval from `start` to `stop` keeps the entry that is sought, and where it is empty the
last entry read is that entry. -/
theorem searchLoop_eq {ranges : List UInt32} {n k : Nat} {cum : Nat → UInt32} {r : UInt32}
    (table : Cumulative ranges n cum) (first : FirstAtLeast n cum r k) (fuel : Nat)
    (start stop idx val : UInt32) (hstart : start.toNat ≤ k) (hstop : k ≤ stop.toNat)
    (hn : stop.toNat ≤ n) (hfuel : stop.toNat - start.toNat < fuel)
    (hlast : start = stop → idx.toNat = k ∧ val = cum k) :
    searchLoop ranges r fuel start stop idx val = some (UInt32.ofNat k, cum k) := by
  have hbound := table.bound
  induction fuel generalizing start stop idx val with
  | zero => omega
  | succ fuel ih =>
    by_cases hempty : start = stop
    · obtain ⟨hidx, hval⟩ := hlast hempty
      rw [searchLoop, if_pos hempty, hval, ← hidx, UInt32.ofNat_toNat]
    have hne : start.toNat ≠ stop.toNat := fun h => hempty (UInt32.toNat_inj.mp h)
    have hmid := mid_toNat (show stop.toNat + start.toNat < 2 ^ 32 by omega)
    generalize hm : (stop + start) >>> 1 = mid at hmid
    have hread := table.entry mid.toNat (by omega)
    rw [← double_succ_toNat (by omega)] at hread
    simp only [searchLoop, if_neg hempty, hm, hread]
    by_cases hhit : cum mid.toNat = r
    · have hk := first.eq_of_hit table (by omega) hhit
      rw [if_pos hhit, ← hk, UInt32.ofNat_toNat]
    rw [if_neg hhit]
    by_cases hbelow : cum mid.toNat < r
    · have hlt := first.lt_of_below table (by omega) (UInt32.lt_iff_toNat_lt.mp hbelow)
      have hsucc : (mid + 1).toNat = mid.toNat + 1 := by
        rw [UInt32.toNat_add, show (1 : UInt32).toNat = 1 from rfl, Nat.mod_eq_of_lt (by omega)]
      have hpred : (stop - 1).toNat = stop.toNat - 1 := by
        rw [UInt32.toNat_sub_of_le _ _ (UInt32.le_iff_toNat_le.mpr (by simp; omega))]
        rfl
      rw [if_pos hbelow]
      by_cases hend : mid = stop - 1
      · -- the early exit: entry `stop` is the one sought, and it was read when `stop` was set
        have hk : mid.toNat + 1 = k := by
          have := congrArg UInt32.toNat hend
          omega
        have hnext := table.entry (mid + 1).toNat (by have := first.bound; omega)
        rw [← double_succ_toNat (by omega)] at hnext
        simp only [if_pos hend, hnext]
        rw [hsucc, hk, ← UInt32.ofNat_toNat (x := mid + 1), hsucc, hk]
      · have hlt' : mid.toNat ≠ stop.toNat - 1 := fun h =>
          hend (UInt32.toNat_inj.mp (by omega))
        rw [if_neg hend]
        refine ih (mid + 1) stop mid _ (by omega) hstop hn (by omega) fun h => ?_
        have := congrArg UInt32.toNat h
        omega
    · have hgt : r.toNat < (cum mid.toNat).toNat := by
        have := UInt32.lt_iff_toNat_lt.not.mp hbelow
        have : (cum mid.toNat).toNat ≠ r.toNat := fun h => hhit (UInt32.toNat_inj.mp h)
        omega
      have hk := first.le_of_above hgt
      rw [if_neg hbelow]
      refine ih start mid mid _ hstart hk (by omega) (by omega) fun h => ?_
      have := congrArg UInt32.toNat h
      have heq : mid.toNat = k := by omega
      exact ⟨heq, by rw [heq]⟩

/-- `random_ip` maps the number `r` to the address that lies as far before the end of the range
found as `r` lies before its cumulative entry. -/
theorem lookup_eq {cfg : RangeCfg} {n k : Nat} {cum : Nat → UInt32} {r last : UInt32}
    (hnum : cfg.num = n) (table : Cumulative cfg.ranges n cum) (first : FirstAtLeast n cum r k)
    (hlast : cfg.ranges[2 * k]? = some last) : lookup cfg r = some (last - cum k + r) := by
  have hn := table.bound
  have hk := first.bound
  have hstop : (UInt32.ofNat (cfg.num % 2 ^ 32).toNat).toNat = n := by
    rw [hnum, UInt32.toNat_ofNat']
    omega
  have hsearch := searchLoop_eq table first (n + 1) 0 (UInt32.ofNat (cfg.num % 2 ^ 32).toNat) 0 0
    (by simp) (by omega) (by omega) (by omega) fun h => by
      have := congrArg UInt32.toNat h
      rw [hstop] at this
      simp at this
      omega
  have hidx : (UInt32.ofNat k).toNat = k := by
    rw [UInt32.toNat_ofNat']
    omega
  rw [← hidx, ← double_toNat (by omega)] at hlast
  simp only [lookup, hstop, hsearch, hlast, Option.map_some]

end Cscan.Target
