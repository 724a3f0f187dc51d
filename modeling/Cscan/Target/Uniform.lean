import Cscan.Lib.Intervals
import Cscan.Lib.MaskedWords
import Cscan.Target.Compile
import Cscan.Target.Search

/-! Target generation is uniform: over the table that `compile-targets.py` writes for ranges that do
not meet, `random_ip` maps the same number of random words to each address of the ranges. -/

namespace Cscan.Target

open Cscan.Lib

variable {ranges : List (Int × Int)}

/-! ### The cumulative entries -/

theorem total_eq (total : Int) (hle : ∀ p ∈ ranges, p.1 ≤ p.2) :
    (rangeData total ranges).1 = total + (members ranges).length := by
  induction ranges generalizing total with
  | nil => simp [rangeData, members]
  | cons p ranges ih =>
    obtain ⟨hp, hrest⟩ := List.forall_mem_cons.mp hle
    simp only [rangeData, ih _ hrest, members_cons, List.length_append, length_interval, size]
    omega

theorem rangeData_entries (total : Int) (hle : ∀ p ∈ ranges, p.1 ≤ p.2) {i : Nat}
    {p : Int × Int} (hp : ranges[i]? = some p) :
    (rangeData total ranges).2[2 * i]? = some p.2 ∧
      (rangeData total ranges).2[2 * i + 1]? = some (total + before ranges (i + 1) - 1) := by
  induction ranges generalizing total i with
  | nil => simp at hp
  | cons q ranges ih =>
    obtain ⟨hq, hrest⟩ := List.forall_mem_cons.mp hle
    cases i with
    | zero =>
      obtain rfl : q = p := by simpa using hp
      have hsize : (size q : Int) = q.2 - q.1 + 1 := by
        unfold size
        omega
      simp [rangeData, hsize]
    | succ i =>
      obtain ⟨h1, h2⟩ := ih (total + (q.2 - q.1 + 1)) hrest (by simpa using hp)
      have hsize : (size q : Int) = q.2 - q.1 + 1 := by
        unfold size
        omega
      refine ⟨?_, ?_⟩
      · rw [show 2 * (i + 1) = 2 * i + 1 + 1 by omega]
        simpa [rangeData] using h1
      · rw [show 2 * (i + 1) + 1 = 2 * i + 1 + 1 + 1 by omega]
        simp only [rangeData, List.getElem?_cons_succ, h2, before_cons_succ, Option.some_inj]
        push_cast
        omega

theorem rangeData_fits (total : Int) (htotal : 0 ≤ total)
    (hbounds : ∀ p ∈ ranges, 0 ≤ p.1 ∧ p.1 ≤ p.2 ∧ p.2 < 2 ^ 32)
    (hsum : total + (members ranges).length ≤ 2 ^ 32) : ∀ v ∈ (rangeData total ranges).2, Fits v := by
  induction ranges generalizing total with
  | nil => simp [rangeData]
  | cons p ranges ih =>
    obtain ⟨hp, hrest⟩ := List.forall_mem_cons.mp hbounds
    have hsize : (size p : Int) = p.2 - p.1 + 1 := by
      unfold size
      omega
    rw [members_cons, List.length_append, length_interval] at hsum
    push_cast at hsum
    simp only [rangeData, List.forall_mem_cons, Fits]
    exact ⟨⟨by omega, by omega⟩, ⟨by omega, by omega⟩, ih _ (by omega) hrest (by omega)⟩

def cumulative (ranges : List (Int × Int)) (i : Nat) : UInt32 :=
  UInt32.ofNat (before ranges (i + 1) - 1)

namespace Merged

variable (h : Merged ranges)
include h

theorem length_le : (members ranges).length ≤ 2 ^ 32 :=
  length_members_le h.disjoint fun p hp => ⟨(h.bounds p hp).1, by
    have := (h.bounds p hp).2.2
    push_cast
    omega⟩

theorem length_pos : 0 < (members ranges).length := by
  obtain ⟨p, hp⟩ := List.exists_mem_of_ne_nil ranges h.nonempty
  have hb := h.bounds p hp
  exact List.length_pos_of_mem (mem_members.mpr ⟨p, hp, le_refl p.1, hb.2.1⟩)

theorem total : (rangeData 0 ranges).1 = (members ranges).length := by
  rw [total_eq 0 fun p hp => (h.bounds p hp).2.1, zero_add]

theorem mask : ∃ k ≤ 32, (compiled ranges).mask.toNat = 2 ^ k - 1 ∧
    getBinmask (members ranges).length = (2 ^ k - 1 : Nat) ∧
    (members ranges).length ≤ 2 ^ k ∧ 2 ^ k < 2 * (members ranges).length := by
  have hpos := h.length_pos
  have hle := h.length_le
  obtain ⟨k, hmask, hcover, hhalf⟩ := getBinmask_pow
    (show (0 : Int) < (members ranges).length by exact_mod_cast hpos)
  norm_cast at hcover hhalf
  have hk : k ≤ 32 := by
    by_contra hk
    have := Nat.pow_le_pow_right two_pos (show 33 ≤ k by omega)
    omega
  have hk32 := Nat.pow_le_pow_right two_pos hk
  have hk1 : 1 ≤ 2 ^ k := Nat.one_le_two_pow
  have hcast : (2 : Int) ^ k - 1 = (2 ^ k - 1 : Nat) := by
    push_cast [hk1]
    rfl
  refine ⟨k, hk, ?_, hmask.trans hcast, hcover, hhalf⟩
  rw [compiled, h.total, hmask, hcast, Int.toNat_natCast, UInt32.toNat_ofNat']
  omega

theorem fits : ∀ v ∈ tableWords ranges, Fits v := by
  have hpos := h.length_pos
  have hle := h.length_le
  have hshort := h.short
  obtain ⟨k, hk, -, hmask, -⟩ := h.mask
  have hk32 := Nat.pow_le_pow_right two_pos hk
  have hk1 : 1 ≤ 2 ^ k := Nat.one_le_two_pow
  have hdata := rangeData_fits 0 (le_refl 0) h.bounds (by omega)
  simp only [tableWords, List.forall_mem_cons, h.total, hmask]
  exact ⟨⟨by omega, by omega⟩, ⟨by omega, by omega⟩, ⟨by omega, by omega⟩, hdata⟩

theorem maxIdx : (compiled ranges).maxIdx.toNat = (members ranges).length - 1 := by
  have hpos := h.length_pos
  have hle := h.length_le
  rw [compiled, h.total, UInt32.toNat_ofNat']
  omega

theorem getElem?_compiled {i : Nat} {v : Int} (hv : (rangeData 0 ranges).2[i]? = some v) :
    ∃ w : UInt32, (compiled ranges).ranges[i]? = some w ∧ (w.toNat : Int) = v := by
  have hdata := rangeData_fits 0 (le_refl 0) h.bounds (by have := h.length_le; omega)
  obtain ⟨h0, h1⟩ := hdata v (List.mem_of_getElem? hv)
  refine ⟨UInt32.ofNat v.toNat, by simp [compiled, hv], ?_⟩
  rw [UInt32.toNat_ofNat']
  omega

theorem size_pos {i : Nat} {p : Int × Int} (hp : ranges[i]? = some p) : 0 < size p := by
  have hb := h.bounds p (List.mem_of_getElem? hp)
  unfold size
  omega

theorem before_lt {i j : Nat} (hij : i < j) (hj : j < ranges.length) :
    before ranges (i + 1) < before ranges (j + 1) := by
  have hp := List.getElem?_eq_getElem hj
  have hpos := h.size_pos hp
  have hmono := before_mono ranges (show i + 1 ≤ j by omega)
  rw [before_succ hp]
  omega

theorem cumulative_toNat {i : Nat} (hi : i < ranges.length) :
    (cumulative ranges i).toNat = before ranges (i + 1) - 1 ∧ 0 < before ranges (i + 1) := by
  have hp := List.getElem?_eq_getElem hi
  have hpos := h.size_pos hp
  have hle := h.length_le
  have hbefore : before ranges (i + 1) ≤ (members ranges).length := by
    have hmono := before_mono ranges (show i + 1 ≤ ranges.length by omega)
    simpa [before] using hmono
  have hsucc := before_succ hp
  rw [cumulative, UInt32.toNat_ofNat']
  omega

theorem table : Cumulative (compiled ranges).ranges ranges.length (cumulative ranges) where
  bound := by
    have := h.short
    omega
  entry i hi := by
    have hentry := (rangeData_entries 0 (fun p hp => (h.bounds p hp).2.1)
      (List.getElem?_eq_getElem hi)).2
    obtain ⟨w, hw, hval⟩ := h.getElem?_compiled hentry
    obtain ⟨hcum, hpos⟩ := h.cumulative_toNat hi
    rw [hw, Option.some_inj]
    apply UInt32.toNat_inj.mp
    omega
  increasing i j hij hj := by
    have := h.before_lt hij hj
    have := (h.cumulative_toNat (show i < ranges.length by omega))
    have := (h.cumulative_toNat hj)
    omega

theorem lookup_members {r : UInt32} (hr : r.toNat < (members ranges).length) :
    ∃ ip : UInt32, lookup (compiled ranges) r = some ip ∧
      (members ranges)[r.toNat]? = some (ip.toNat : Int) := by
  obtain ⟨i, p, j, hp, hj, hplace⟩ := exists_place hr
  have hi : i < ranges.length := List.getElem?_eq_some_iff.mp hp |>.1
  have hb := h.bounds p (List.mem_of_getElem? hp)
  obtain ⟨hcum, -⟩ := h.cumulative_toNat hi
  have hsucc := before_succ hp
  obtain ⟨last, hlast, hval⟩ := h.getElem?_compiled
    (rangeData_entries 0 (fun p hp => (h.bounds p hp).2.1) hp).1
  have hfirst : FirstAtLeast ranges.length (cumulative ranges) r i := by
    refine ⟨hi, by omega, fun i' hi' => ?_⟩
    obtain ⟨hcum', hpos'⟩ := h.cumulative_toNat (show i' < ranges.length by omega)
    have hmono := before_mono ranges (show i' + 1 ≤ i by omega)
    omega
  refine ⟨_, lookup_eq rfl h.table hfirst hlast, ?_⟩
  have hsize : size p = (p.2 + 1 - p.1).toNat := rfl
  have hlt := last.toNat_lt
  have hlt' := (cumulative ranges i).toNat_lt
  have hlt'' := r.toNat_lt
  rw [hplace, getElem?_members hp hj, Option.some_inj, UInt32.toNat_add, UInt32.toNat_sub]
  omega

/-! ### One random word -/

theorem genRand32_word {k : Nat} (hmask : (compiled ranges).mask.toNat = 2 ^ k - 1) (w : UInt32) :
    genRand32 (compiled ranges).mask (compiled ranges).maxIdx (some [w]) =
      if w.toNat % 2 ^ k < (members ranges).length then
        some (w &&& (compiled ranges).mask, some [])
      else none := by
  have hpos := h.length_pos
  have hand : (w &&& (compiled ranges).mask).toNat = w.toNat % 2 ^ k := by
    rw [UInt32.toNat_and, hmask, Nat.and_two_pow_sub_one_eq_mod]
  have hcmp : (compiled ranges).maxIdx < w &&& (compiled ranges).mask ↔
      ¬ w.toNat % 2 ^ k < (members ranges).length := by
    rw [UInt32.lt_iff_toNat_lt, hand, h.maxIdx]
    omega
  by_cases hlt : w.toNat % 2 ^ k < (members ranges).length
  · simp [genRand32, randLoop, hcmp, hlt]
  · simp [genRand32, randLoop, hcmp, hlt]

theorem randomIp_word {k : Nat} (hmask : (compiled ranges).mask.toNat = 2 ^ k - 1) (w a : UInt32) :
    randomIp (compiled ranges) (some [w]) = some (a, some []) ↔
      (members ranges)[w.toNat % 2 ^ k]? = some (a.toNat : Int) := by
  have hand : (w &&& (compiled ranges).mask).toNat = w.toNat % 2 ^ k := by
    rw [UInt32.toNat_and, hmask, Nat.and_two_pow_sub_one_eq_mod]
  rw [randomIp, h.genRand32_word hmask]
  by_cases hlt : w.toNat % 2 ^ k < (members ranges).length
  · obtain ⟨ip, hip, hmem⟩ := h.lookup_members (r := w &&& (compiled ranges).mask) (by omega)
    rw [hand] at hmem
    rw [if_pos hlt, hmem]
    simp only [hip, Option.map_some, Option.some_inj, Prod.mk.injEq, and_true, Nat.cast_inj,
      UInt32.toNat_inj]
  · rw [if_neg hlt, List.getElem?_eq_none (by omega)]
    simp

theorem card_mapped {k : Nat} (hk : k ≤ 32)
    (hmask : (compiled ranges).mask.toNat = 2 ^ k - 1) (hcover : (members ranges).length ≤ 2 ^ k)
    {a : UInt32} (ha : (a.toNat : Int) ∈ members ranges) :
    (Finset.univ.filter fun w => randomIp (compiled ranges) (some [w]) = some (a, some [])).card =
      2 ^ 32 / 2 ^ k := by
  obtain ⟨r, hr⟩ := List.getElem?_of_mem ha
  obtain ⟨hlt, -⟩ := List.getElem?_eq_some_iff.mp hr
  rw [← card_masked hk (show r < 2 ^ k by omega)]
  refine congrArg Finset.card (Finset.filter_congr fun w _ => ?_)
  rw [h.randomIp_word hmask]
  constructor
  · intro hw
    obtain ⟨hlt', -⟩ := List.getElem?_eq_some_iff.mp hw
    exact (List.getElem?_inj hlt' (nodup_members h.disjoint)).mp (hw.trans hr.symm)
  · rintro rfl
    exact hr

end Merged

def InRanges (ranges : List (Int × Int)) (a : UInt32) : Prop :=
  ∃ p ∈ ranges, p.1 ≤ a.toNat ∧ (a.toNat : Int) ≤ p.2

/-- Over the table `cfg` the random words are shared out evenly among the addresses of the ranges. -/
structure UniformOver (cfg : RangeCfg) (ranges : List (Int × Int)) : Prop where
  /-- Each address of the ranges is the image of `2^32 / (mask + 1)` random words. -/
  each : ∀ a, InRanges ranges a →
    (Finset.univ.filter fun w => randomIp cfg (some [w]) = some (a, some [])).card =
      2 ^ 32 / (cfg.mask.toNat + 1)
  /-- Each accepted word is mapped, and to an address of the ranges. -/
  within : ∀ w, (genRand32 cfg.mask cfg.maxIdx (some [w])).isSome →
    ∃ a, randomIp cfg (some [w]) = some (a, some []) ∧ InRanges ranges a
  /-- More than half of the words are accepted. -/
  half : 2 ^ 32 < 2 * (Finset.univ.filter fun w =>
    (genRand32 cfg.mask cfg.maxIdx (some [w])).isSome).card

theorem Merged.uniformOver (h : Merged ranges) : UniformOver (compiled ranges) ranges := by
  obtain ⟨k, hk, hmask, -, hcover, hhalf⟩ := h.mask
  have hpos := Nat.two_pow_pos k
  refine ⟨fun a ha => ?_, fun w hw => ?_, ?_⟩
  · rw [h.card_mapped hk hmask hcover (mem_members.mpr ha), hmask, Nat.sub_add_cancel hpos]
  · rw [h.genRand32_word hmask] at hw
    have hlt : w.toNat % 2 ^ k < (members ranges).length := by
      by_contra hlt
      simp [hlt] at hw
    have hand : (w &&& (compiled ranges).mask).toNat = w.toNat % 2 ^ k := by
      rw [UInt32.toNat_and, hmask, Nat.and_two_pow_sub_one_eq_mod]
    obtain ⟨ip, -, hip⟩ := h.lookup_members (r := w &&& (compiled ranges).mask) (by omega)
    rw [hand] at hip
    exact ⟨ip, (h.randomIp_word hmask w ip).mpr hip,
      mem_members.mp (List.mem_of_getElem? hip)⟩
  · have haccept : (Finset.univ.filter fun w =>
        (genRand32 (compiled ranges).mask (compiled ranges).maxIdx (some [w])).isSome) =
        Finset.univ.filter fun w : UInt32 => w.toNat % 2 ^ k < (members ranges).length := by
      refine Finset.filter_congr fun w _ => ?_
      rw [h.genRand32_word hmask]
      by_cases hlt : w.toNat % 2 ^ k < (members ranges).length <;> simp [hlt]
    have hshare : 0 < 2 ^ 32 / 2 ^ k := Nat.div_pos (Nat.pow_le_pow_right (by decide) hk) hpos
    rw [haccept, card_masked_lt hk hcover]
    calc 2 ^ 32 = 2 ^ k * (2 ^ 32 / 2 ^ k) := (Nat.mul_div_cancel' (pow_dvd_pow 2 hk)).symm
      _ < 2 * (members ranges).length * (2 ^ 32 / 2 ^ k) := Nat.mul_lt_mul_of_pos_right hhalf hshare
      _ = 2 * ((members ranges).length * (2 ^ 32 / 2 ^ k)) := Nat.mul_assoc _ _ _

theorem Merged.compiled_words (h : Merged ranges) :
    (compiled ranges).num :: ((compiled ranges).maxIdx.toNat : Int) ::
      ((compiled ranges).mask.toNat : Int) ::
      (compiled ranges).ranges.map (fun v => (v.toNat : Int)) = tableWords ranges := by
  obtain ⟨k, -, hmask, hbinmask, -⟩ := h.mask
  have hdata := h.fits
  have hlen := h.length_pos
  simp only [tableWords, List.forall_mem_cons] at hdata
  have hmap : ((rangeData 0 ranges).2.map fun v => UInt32.ofNat v.toNat).map
      (fun v => (v.toNat : Int)) = (rangeData 0 ranges).2 := by
    rw [List.map_map]
    refine (List.map_congr_left fun v hv => ?_).trans (List.map_id' _)
    obtain ⟨h0, h1⟩ := hdata.2.2.2 v hv
    simp only [Function.comp_apply, UInt32.toNat_ofNat']
    omega
  simp only [tableWords, h.maxIdx, hmask, h.total, hbinmask]
  simp only [compiled, hmap, List.cons.injEq, true_and, and_true]
  omega

/-- Target generation is uniform from the ranges to the addresses. The words of the table fit in 32
bits; `load_range_cfg` reads them back on a machine of either byte order when there is memory for
them; and `random_ip` over the record is uniform over the addresses of the ranges. -/
theorem random_ip_uniform (order : ByteOrder) (malloc : Nat → Option (Nat → UInt32))
    (ranges : List (Int × Int)) (h : Merged ranges)
    (hmem : (malloc (12 + 8 * ranges.length)).isSome) :
    ∃ bytes cfg, (∀ v ∈ tableWords ranges, Fits v) ∧ compileTargets ranges = some bytes ∧
      loadRangeCfg order malloc (some bytes) = .record cfg ∧
      cfg.num :: (cfg.maxIdx.toNat : Int) :: (cfg.mask.toNat : Int) ::
        cfg.ranges.map (fun v => (v.toNat : Int)) = tableWords ranges ∧
      UniformOver cfg ranges := by
  obtain ⟨bytes, hbytes, hload⟩ := loadRangeCfg_compileTargets order h.short h.fits hmem
  exact ⟨bytes, compiled ranges, h.fits, hbytes, hload, h.compiled_words, h.uniformOver⟩

/-- The first address, the last one, and the three from 40 on. -/
theorem random_ip_uniform_edges : ∃ bytes cfg,
    (∀ v ∈ tableWords [(0, 0), (40, 42), (4294967295, 4294967295)], Fits v) ∧
      compileTargets [(0, 0), (40, 42), (4294967295, 4294967295)] = some bytes ∧
      loadRangeCfg .big (fun _ => some fun _ => 7) (some bytes) = .record cfg ∧
      cfg.num :: (cfg.maxIdx.toNat : Int) :: (cfg.mask.toNat : Int) ::
        cfg.ranges.map (fun v => (v.toNat : Int)) =
          tableWords [(0, 0), (40, 42), (4294967295, 4294967295)] ∧
      UniformOver cfg [(0, 0), (40, 42), (4294967295, 4294967295)] :=
  random_ip_uniform .big (fun _ => some fun _ => 7) _
    ⟨by decide, by decide, by decide, by decide⟩ rfl

end Cscan.Target
