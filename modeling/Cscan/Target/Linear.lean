import Cscan.Target.Search
import Mathlib.Data.List.Sort

/-! The binary search of `random_ip` finds the entry that a linear scan finds, as `random_port` does it,
and reads no entry behind the last one. -/

namespace Cscan.Target

/-! ### Tables as lists of pairs -/

def pairWords (pairs : List (UInt32 × UInt32)) : List UInt32 := pairs.flatMap fun p => [p.1, p.2]

@[simp] theorem pairWords_cons (p : UInt32 × UInt32) (pairs : List (UInt32 × UInt32)) :
    pairWords (p :: pairs) = p.1 :: p.2 :: pairWords pairs := rfl

theorem getElem?_pairWords (pairs : List (UInt32 × UInt32)) (i : Nat) :
    (pairWords pairs)[2 * i]? = pairs[i]?.map Prod.fst ∧
      (pairWords pairs)[2 * i + 1]? = pairs[i]?.map Prod.snd := by
  induction pairs generalizing i with
  | nil => exact ⟨rfl, rfl⟩
  | cons p pairs ih =>
    cases i with
    | zero => exact ⟨rfl, rfl⟩
    | succ i =>
      obtain ⟨hfst, hsnd⟩ := ih i
      rw [show 2 * (i + 1) = 2 * i + 1 + 1 by omega]
      exact ⟨hfst, hsnd⟩

/-- What `random_port` returns for the number `r`. -/
def linearPort (pairs : List (UInt32 × UInt32)) (r : UInt32) : Int :=
  match pairs with
  | [] => -1
  | p :: pairs => if r ≤ p.2 then toInt32 p.1.toNat else linearPort pairs r

theorem portLoop_eq (pre pairs : List (UInt32 × UInt32)) (r : UInt32) :
    portLoop (pairWords (pre ++ pairs)) r pairs.length pre.length = some (linearPort pairs r) := by
  induction pairs generalizing pre with
  | nil => rfl
  | cons p pairs ih =>
    have hentry : (pre ++ p :: pairs)[pre.length]? = some p := by simp
    obtain ⟨hfst, hsnd⟩ := getElem?_pairWords (pre ++ p :: pairs) pre.length
    rw [hentry, Option.map_some] at hfst hsnd
    simp only [List.length_cons, portLoop, hsnd, hfst, linearPort, Option.map_some]
    by_cases hle : r ≤ p.2
    · rw [if_pos hle, if_pos hle]
    · rw [if_neg hle, if_neg hle]
      have hrest := ih (pre ++ [p])
      simpa using hrest

/-- Behind entries that are below `r`, the linear scan stops at the first one that is not. -/
theorem linearPort_eq {pairs : List (UInt32 × UInt32)} {r : UInt32} {i : Nat} {p : UInt32 × UInt32}
    (hp : pairs[i]? = some p) (hr : r ≤ p.2)
    (hbefore : ∀ j < i, ∀ q, pairs[j]? = some q → q.2 < r) : linearPort pairs r = toInt32 p.1.toNat := by
  induction pairs generalizing i with
  | nil => cases hp
  | cons q pairs ih =>
    cases i with
    | zero =>
      obtain rfl : q = p := Option.some.inj hp
      exact if_pos hr
    | succ i =>
      have hq : q.2 < r := hbefore 0 (Nat.succ_pos i) q rfl
      rw [linearPort, if_neg (UInt32.not_le.mpr hq)]
      exact ih hp fun j hj => hbefore (j + 1) (Nat.succ_lt_succ hj)

/-! ### The entries that the search reads -/

/-- The indices of the entries whose cumulative value `searchLoop` reads, turn by turn. -/
def searchReads (ranges : List UInt32) (r : UInt32) : Nat → UInt32 → UInt32 → List UInt32
  | 0, _, _ => []
  | fuel + 1, start, stop =>
    if start = stop then []
    else
      let idx := (stop + start) >>> 1
      match ranges[((idx <<< 1) ||| 1).toNat]? with
      | none => [idx]
      | some val =>
        if val = r then [idx]
        else if val < r then
          if idx = stop - 1 then [idx, idx + 1] else idx :: searchReads ranges r fuel (idx + 1) stop
        else idx :: searchReads ranges r fuel start idx

/-- The cumulative value of an entry, as `searchLoop` reads it. -/
def cumAt (ranges : List UInt32) (idx : UInt32) : Option UInt32 := ranges[((idx <<< 1) ||| 1).toNat]?

/-- `searchLoop` reads no other entries: what it returns depends on these only. -/
theorem searchLoop_congr {ranges ranges' : List UInt32} {r : UInt32} (fuel : Nat) (start stop idx val : UInt32)
    (h : ∀ i ∈ searchReads ranges r fuel start stop, cumAt ranges' i = cumAt ranges i) :
    searchLoop ranges' r fuel start stop idx val = searchLoop ranges r fuel start stop idx val := by
  induction fuel generalizing start stop idx val with
  | zero => rfl
  | succ fuel ih =>
    by_cases hempty : start = stop
    · rw [searchLoop, searchLoop, if_pos hempty, if_pos hempty]
    rw [searchReads, if_neg hempty] at h
    rw [searchLoop, searchLoop, if_neg hempty, if_neg hempty]
    generalize (stop + start) >>> 1 = mid at h ⊢
    dsimp only at h ⊢
    cases hread : ranges[((mid <<< 1) ||| 1).toNat]? with
    | none =>
      have hmid : ranges'[((mid <<< 1) ||| 1).toNat]? = _ := h mid (by rw [hread]; exact List.mem_singleton_self mid)
      rw [hmid, cumAt, hread]
    | some v =>
      rw [hread] at h
      dsimp only at h ⊢
      have hmid : ranges'[((mid <<< 1) ||| 1).toNat]? = some v :=
        (h mid (by split_ifs <;> simp)).trans hread
      rw [hmid]
      dsimp only
      split_ifs at h ⊢ with hhit hbelow hend
      · rfl
      · have hnext : ranges'[(((mid + 1) <<< 1) ||| 1).toNat]? = ranges[(((mid + 1) <<< 1) ||| 1).toNat]? :=
          h (mid + 1) (by simp)
        rw [hnext]
      · exact ih _ _ _ _ fun i hi => h i (List.mem_cons_of_mem _ hi)
      · exact ih _ _ _ _ fun i hi => h i (List.mem_cons_of_mem _ hi)

/-- `searchLoop` reads each of them: it has no result if one is not there. -/
theorem searchLoop_missing {ranges : List UInt32} {r : UInt32} (fuel : Nat) (start stop idx val : UInt32)
    (h : ∃ i ∈ searchReads ranges r fuel start stop, cumAt ranges i = none) :
    searchLoop ranges r fuel start stop idx val = none := by
  induction fuel generalizing start stop idx val with
  | zero => rfl
  | succ fuel ih =>
    obtain ⟨i, hi, hnone⟩ := h
    have hne : start ≠ stop := by
      intro hempty
      rw [searchReads, if_pos hempty] at hi
      cases hi
    rw [searchReads, if_neg hne] at hi
    rw [searchLoop, if_neg hne]
    generalize (stop + start) >>> 1 = mid at hi ⊢
    dsimp only at hi ⊢
    cases hread : ranges[((mid <<< 1) ||| 1).toNat]? with
    | none => rfl
    | some v =>
      have hmid : i ≠ mid := by
        rintro rfl
        rw [cumAt, hread] at hnone
        cases hnone
      rw [hread] at hi
      dsimp only at hi ⊢
      split_ifs at hi ⊢ with hhit hbelow hend
      · exact absurd (List.mem_singleton.mp hi) hmid
      · obtain rfl : i = mid + 1 := by simpa [hmid] using hi
        rw [cumAt] at hnone
        rw [hnone]
      · exact ih _ _ _ _ ⟨i, (List.mem_cons.mp hi).resolve_left hmid, hnone⟩
      · exact ih _ _ _ _ ⟨i, (List.mem_cons.mp hi).resolve_left hmid, hnone⟩

theorem searchReads_lt {ranges : List UInt32} {n k : Nat} {cum : Nat → UInt32} {r : UInt32}
    (table : Cumulative ranges n cum) (first : FirstAtLeast n cum r k) (fuel : Nat)
    (start stop : UInt32) (hstart : start.toNat ≤ stop.toNat) (hstop : k ≤ stop.toNat)
    (hn : stop.toNat ≤ n) : ∀ idx ∈ searchReads ranges r fuel start stop, idx.toNat < n := by
  have hbound := table.bound
  induction fuel generalizing start stop with
  | zero => simp [searchReads]
  | succ fuel ih =>
    by_cases hempty : start = stop
    · simp [searchReads, hempty]
    have hne : start.toNat ≠ stop.toNat := fun h => hempty (UInt32.toNat_inj.mp h)
    have hmid := mid_toNat (show stop.toNat + start.toNat < 2 ^ 32 by omega)
    generalize hm : (stop + start) >>> 1 = mid at hmid
    have hlt : mid.toNat < n := by omega
    have hread := table.entry mid.toNat hlt
    rw [← double_succ_toNat (by omega)] at hread
    simp only [searchReads, if_neg hempty, hm, hread]
    by_cases hhit : cum mid.toNat = r
    · simp [hhit, hlt]
    rw [if_neg hhit]
    by_cases hbelow : cum mid.toNat < r
    · have hafter := first.lt_of_below table hlt (UInt32.lt_iff_toNat_lt.mp hbelow)
      have hsucc : (mid + 1).toNat = mid.toNat + 1 := by
        rw [UInt32.toNat_add, show (1 : UInt32).toNat = 1 from rfl, Nat.mod_eq_of_lt (by omega)]
      rw [if_pos hbelow]
      by_cases hend : mid = stop - 1
      · -- the entry that is sought lies behind `mid`, so there is one
        have hnext : mid.toNat + 1 < n := by
          have := first.bound
          omega
        rw [if_pos hend]
        simp [hlt, hsucc, hnext]
      · rw [if_neg hend]
        have hrest := ih (mid + 1) stop (by omega) hstop hn
        exact List.forall_mem_cons.mpr ⟨hlt, hrest⟩
    · have hgt : r.toNat < (cum mid.toNat).toNat := by
        have := UInt32.lt_iff_toNat_lt.not.mp hbelow
        have : (cum mid.toNat).toNat ≠ r.toNat := fun h => hhit (UInt32.toNat_inj.mp h)
        omega
      have hk := first.le_of_above hgt
      rw [if_neg hbelow]
      have hrest := ih start mid (by omega) hk (by omega)
      exact List.forall_mem_cons.mpr ⟨hlt, hrest⟩

/-! ### Tables whose cumulative entries increase -/

/-- The record of `num` pairs, at least one, whose second words increase strictly up to `max_idx`. -/
structure Increasing (cfg : RangeCfg) (pairs : List (UInt32 × UInt32)) : Prop where
  num : cfg.num = pairs.length
  short : pairs.length < 2 ^ 31
  words : cfg.ranges = pairWords pairs
  increasing : pairs.Pairwise fun p q => p.2 < q.2
  last : pairs.getLast?.map Prod.snd = some cfg.maxIdx

namespace Increasing

variable {cfg : RangeCfg} {pairs : List (UInt32 × UInt32)} {r : UInt32}

/-- The cumulative value of entry `i`. -/
def cum (pairs : List (UInt32 × UInt32)) (i : Nat) : UInt32 := (pairs[i]?.map Prod.snd).getD 0

theorem cum_eq {i : Nat} {p : UInt32 × UInt32} (hp : pairs[i]? = some p) : cum pairs i = p.2 := by
  simp [cum, hp]

theorem table (h : Increasing cfg pairs) : Cumulative cfg.ranges pairs.length (cum pairs) where
  bound := h.short
  entry i hi := by
    have hp := List.getElem?_eq_getElem hi
    rw [h.words, (getElem?_pairWords pairs i).2, hp, cum_eq hp]
    rfl
  increasing i j hij hj := by
    have hi : i < pairs.length := Nat.lt_trans hij hj
    rw [cum_eq (List.getElem?_eq_getElem hi), cum_eq (List.getElem?_eq_getElem hj)]
    exact UInt32.lt_iff_toNat_lt.mp (List.pairwise_iff_getElem.mp h.increasing i j hi hj hij)

/-- Some entry is at least `r`, so there is a first one. -/
theorem first (h : Increasing cfg pairs) (hr : r ≤ cfg.maxIdx) :
    ∃ k, FirstAtLeast pairs.length (cum pairs) r k := by
  obtain ⟨p, hlast, hp⟩ := Option.map_eq_some_iff.mp h.last
  have hentry : pairs[pairs.length - 1]? = some p := by rw [← List.getLast?_eq_getElem?, hlast]
  have hbound := (List.getElem?_eq_some_iff.mp hentry).1
  have hex : ∃ k, k < pairs.length ∧ r.toNat ≤ (cum pairs k).toNat :=
    ⟨pairs.length - 1, hbound, by rw [cum_eq hentry, hp]; exact UInt32.le_iff_toNat_le.mp hr⟩
  obtain ⟨hk, hle⟩ := Nat.find_spec hex
  refine ⟨Nat.find hex, hk, hle, fun i hi => ?_⟩
  have hnot := Nat.find_min hex hi
  omega

end Increasing

/-- What `random_ip` does with a number that is at most `max_idx`: all entries that it reads are inside
of the table, and the first entry that is at least the number gives the address, as it gives the port in
`random_port`. -/
theorem random_ip_linear {cfg : RangeCfg} {pairs : List (UInt32 × UInt32)} {r : UInt32}
    (h : Increasing cfg pairs) (hr : r ≤ cfg.maxIdx) :
    (∀ fuel, ∀ idx ∈ searchReads cfg.ranges r fuel 0 (UInt32.ofNat (cfg.num % 2 ^ 32).toNat),
      (idx.toNat : Int) < cfg.num) ∧
    ∃ (i : Nat) (last cum : UInt32), pairs[i]? = some (last, cum) ∧ r ≤ cum ∧
      (∀ j < i, ∀ p, pairs[j]? = some p → p.2 < r) ∧
      lookup cfg r = some (last - cum + r) ∧
      portLoop cfg.ranges r cfg.num.toNat 0 = some (toInt32 last.toNat) ∧
      ∀ urandom rest, genRand32 cfg.mask cfg.maxIdx urandom = some (r, rest) →
        randomIp cfg urandom = some (last - cum + r, rest) ∧
          randomPort cfg urandom = some (toInt32 last.toNat, rest) := by
  obtain ⟨i, hfirst⟩ := h.first hr
  have hshort := h.short
  have hstop : (UInt32.ofNat (cfg.num % 2 ^ 32).toNat).toNat = pairs.length := by
    rw [h.num, UInt32.toNat_ofNat']
    omega
  constructor
  · intro fuel idx hidx
    have hlt := searchReads_lt h.table hfirst fuel 0 _ (by simp)
      (by rw [hstop]; exact hfirst.bound.le) (by rw [hstop]) idx hidx
    rw [h.num]
    exact_mod_cast hlt
  · obtain ⟨p, hp⟩ : ∃ p, pairs[i]? = some p := ⟨_, List.getElem?_eq_getElem hfirst.bound⟩
    have hcum := Increasing.cum_eq hp
    have hle : r ≤ p.2 := by
      rw [← hcum]
      exact UInt32.le_iff_toNat_le.mpr hfirst.atLeast
    have hbefore : ∀ j < i, ∀ p, pairs[j]? = some p → p.2 < r := fun j hj p hjp => by
      have hlt := hfirst.before j hj
      rw [Increasing.cum_eq hjp] at hlt
      exact UInt32.lt_iff_toNat_lt.mpr hlt
    have hlast : cfg.ranges[2 * i]? = some p.1 := by
      rw [h.words, (getElem?_pairWords pairs i).1, hp]
      rfl
    have hlookup := lookup_eq h.num h.table hfirst hlast
    rw [hcum] at hlookup
    have hport : portLoop cfg.ranges r cfg.num.toNat 0 = some (toInt32 p.1.toNat) := by
      rw [h.words, h.num, Int.toNat_natCast, ← linearPort_eq hp hle hbefore]
      exact portLoop_eq [] pairs r
    refine ⟨i, _, _, hp, hle, hbefore, hlookup, hport, fun urandom rest hdraw => ?_⟩
    rw [randomIp, randomPort, hdraw]
    simp [hlookup, hport]

/-- The table of `target_gen_test.c`. -/
theorem random_ip_linear_test : ∃ (i : Nat) (last cum : UInt32),
    [((5 : UInt32), (5 : UInt32)), (45, 11), (54, 16)][i]? = some (last, cum) ∧ (12 : UInt32) ≤ cum ∧
      lookup ⟨3, 16, 31, [5, 5, 45, 11, 54, 16]⟩ 12 = some (last - cum + 12) := by
  obtain ⟨-, i, last, cum, hp, hle, -, hlookup, -⟩ :=
    @random_ip_linear ⟨3, 16, 31, [5, 5, 45, 11, 54, 16]⟩ [(5, 5), (45, 11), (54, 16)] 12
      ⟨rfl, by decide, rfl, by decide, rfl⟩ (by decide)
  exact ⟨i, last, cum, hp, hle, hlookup⟩

end Cscan.Target
