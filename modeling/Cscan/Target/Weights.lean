import Cscan.Target.PortTable

/-! `random_port` draws from the table of a portspec in proportion to the weights, unless the portspec
begins with a port of weight 0: the sum so far less one is the greatest word then, and no number is beyond
it. -/

namespace Cscan.Target

open Cscan.Lib

variable {es : List PortEntry} {e : PortEntry}

/-- The ports that `random_port` returns for the numbers that `gen_rand32` can draw: each one as often as
its weights say. -/
structure Proportional (cfg : RangeCfg) (weights : List (Int × Nat)) : Prop where
  /-- The numbers that can be drawn are those below the sum of the weights. -/
  draws : ∀ r : UInt32, (∃ w, genRand32 cfg.mask cfg.maxIdx (some [w]) = some (r, some [])) ↔
    r.toNat < totalWeight weights
  each : ∀ port, ((List.range (totalWeight weights)).countP fun r =>
    randomPort cfg (some [UInt32.ofNat r]) = some (port, some [])) = weightOf weights port
  never : ∀ r < totalWeight weights, ∃ port,
    randomPort cfg (some [UInt32.ofNat r]) = some (port, some []) ∧ port ≠ -1

theorem toUInt32_toNat {n : Nat} (h : n < 2 ^ 32) : (toUInt32 n).toNat = n := by
  rw [toUInt32, UInt32.toNat_ofNat']
  omega

/-! ### The linear scan -/

/-- Where a sum so far is not 0, less one it is the last number of its port. -/
theorem linearPort_cumPairs {sum : Nat} {r : UInt32} (h : ∀ e ∈ es, e.WellFormed)
    (hfirst : ∀ e ∈ es.head?, 0 < sum + e.points) (hsum : sum + total es < 2 ^ 31)
    (hr : sum ≤ r.toNat) :
    linearPort (cumPairs sum es) r = ((spread (weights es))[r.toNat - sum]?).getD (-1) := by
  induction es generalizing sum with
  | nil => rfl
  | cons e es ih =>
    obtain ⟨he, hrest⟩ := List.forall_mem_cons.mp h
    rw [total_cons] at hsum
    have hpos : 0 < sum + e.points := hfirst e rfl
    have hcast : ((sum + e.points : Nat) : Int) - 1 = ((sum + e.points - 1 : Nat) : Int) := by omega
    have hcum : (toUInt32 ((sum + e.points : Nat) - 1)).toNat = sum + e.points - 1 := by
      rw [hcast, toUInt32_toNat (by omega)]
    have hle : r ≤ toUInt32 ((sum + e.points : Nat) - 1) ↔ r.toNat - sum < e.points := by
      rw [UInt32.le_iff_toNat_le, hcum]
      omega
    have hnumber : toInt32 (toUInt32 e.number).toNat = e.number := by
      have := he.number
      rw [toUInt32_toNat (by omega), toInt32, if_pos (by omega)]
    rw [cumPairs, linearPort, weights, List.map_cons, getElem?_spread_cons]
    by_cases hhere : r.toNat - sum < e.points
    · rw [if_pos (hle.mpr hhere), if_pos hhere, hnumber]
      rfl
    · rw [if_neg (mt hle.mp hhere), if_neg hhere,
        ih hrest (fun _ _ => Nat.lt_of_lt_of_le hpos (Nat.le_add_right ..)) (by omega) (by omega),
        Nat.sub_sub]
      rfl

/-- The greatest word stands behind a first port of weight 0. -/
theorem linearPort_of_zero (he : e.WellFormed) (hzero : e.points = 0) (r : UInt32) :
    linearPort (cumPairs 0 (e :: es)) r = e.number := by
  have hcum : toUInt32 ((0 + e.points : Nat) - 1) = 0xFFFFFFFF := by
    rw [hzero]
    rfl
  have hle : r ≤ 0xFFFFFFFF := by
    have := r.toNat_lt
    exact UInt32.le_iff_toNat_le.mpr (Nat.le_of_lt_succ this)
  have := he.number
  rw [cumPairs, linearPort, hcum, if_pos hle, toUInt32_toNat (by omega), toInt32, if_pos (by omega)]

/-! ### The numbers that are drawn -/

section Draws

variable (hpos : 0 < total es) (hle : total es ≤ 2 ^ 30)
include hpos hle

theorem portTable_maxIdx : (portTable es).maxIdx.toNat = total es - 1 := by
  have hcast : (total es : Int) - 1 = ((total es - 1 : Nat) : Int) := by omega
  rw [portTable, hcast, toUInt32_toNat (by omega)]

theorem portTable_mask : ∃ k, (portTable es).mask.toNat = 2 ^ k - 1 ∧ total es ≤ 2 ^ k := by
  obtain ⟨k, hmask, hcover, hhalf⟩ := getBinmask_pow (show (0 : Int) < total es by exact_mod_cast hpos)
  norm_cast at hcover hhalf
  have hone : 1 ≤ 2 ^ k := Nat.one_le_two_pow
  have hcast : (2 : Int) ^ k - 1 = ((2 ^ k - 1 : Nat) : Int) := by
    push_cast [hone]
    rfl
  refine ⟨k, ?_, hcover⟩
  rw [portTable, hmask, hcast, toUInt32_toNat (by omega)]

/-- A word that is at most `max_idx` is drawn as it is. -/
theorem genRand32_portTable {r : UInt32} (hr : r.toNat < total es) :
    genRand32 (portTable es).mask (portTable es).maxIdx (some [r]) = some (r, some []) := by
  obtain ⟨k, hmask, hcover⟩ := portTable_mask hpos hle
  have hmasked : r &&& (portTable es).mask = r := by
    apply UInt32.toNat_inj.mp
    rw [UInt32.toNat_and, hmask, Nat.and_two_pow_sub_one_eq_mod, Nat.mod_eq_of_lt (by omega)]
  have hmax : ¬ (portTable es).maxIdx < r := by
    rw [UInt32.lt_iff_toNat_lt, portTable_maxIdx hpos hle]
    omega
  simp [genRand32, randLoop, hmasked, hmax]

theorem draws_portTable (r : UInt32) :
    (∃ w, genRand32 (portTable es).mask (portTable es).maxIdx (some [w]) = some (r, some [])) ↔
      r.toNat < total es := by
  constructor
  · rintro ⟨w, hw⟩
    by_contra hr
    have hle' : ¬ (portTable es).maxIdx < r := by
      simp only [genRand32, randLoop] at hw
      by_cases hmax : (portTable es).maxIdx < w &&& (portTable es).mask
      · simp [hmax] at hw
      · simp only [hmax, if_false, Option.map_some, Option.some_inj, Prod.mk.injEq, and_true] at hw
        rwa [← hw]
    rw [UInt32.lt_iff_toNat_lt, portTable_maxIdx hpos hle] at hle'
    omega
  · exact fun hr => ⟨r, genRand32_portTable hpos hle hr⟩

theorem randomPort_portTable {r : Nat} (hr : r < total es) :
    randomPort (portTable es) (some [UInt32.ofNat r]) =
      some (linearPort (cumPairs 0 es) (UInt32.ofNat r), some []) := by
  have hword : (UInt32.ofNat r).toNat = r := by
    rw [UInt32.toNat_ofNat']
    omega
  have hloop := portLoop_eq [] (cumPairs 0 es) (UInt32.ofNat r)
  rw [List.nil_append, length_cumPairs] at hloop
  rw [randomPort, genRand32_portTable hpos hle (by rw [hword]; exact hr)]
  simp only [portTable, Int.toNat_natCast]
  exact congrArg (Option.map _) hloop

end Draws

/-! ### When the draws are in proportion -/

/-- The scan gives the port that stands at the number among all, each as often as its weight. -/
theorem linearPort_eq_spread (h : ∀ x ∈ e :: es, x.WellFormed) (hle : total (e :: es) ≤ 2 ^ 30)
    (hfirst : 0 < e.points ∨ ∀ x ∈ es, 0 < x.points → x.number = e.number) {r : Nat}
    (hr : r < total (e :: es)) :
    (spread (weights (e :: es)))[r]? = some (linearPort (cumPairs 0 (e :: es)) (UInt32.ofNat r)) := by
  have hword : (UInt32.ofNat r).toNat = r := by
    rw [UInt32.toNat_ofNat']
    omega
  have hlength : r < (spread (weights (e :: es))).length := by
    rw [length_spread]
    exact hr
  by_cases hpos : 0 < e.points
  · rw [linearPort_cumPairs h (fun x hx => by obtain rfl := Option.some.inj hx; omega) (by omega)
      (Nat.zero_le _), hword, Nat.sub_zero, List.getElem?_eq_getElem hlength]
    rfl
  · have hsame := hfirst.resolve_left hpos
    have hmem := List.getElem_mem hlength
    obtain ⟨p, hp, hport, hpoints⟩ := (mem_spread _ _).mp hmem
    obtain ⟨x, hx, rfl⟩ := List.mem_map.mp hp
    have hnumber : x.number = e.number := by
      rcases List.mem_cons.mp hx with rfl | hx
      · rfl
      · exact hsame x hx hpoints
    rw [linearPort_of_zero (h e List.mem_cons_self) (by omega), List.getElem?_eq_getElem hlength,
      ← hport, ← hnumber]

theorem portTable_proportional (h : ∀ x ∈ e :: es, x.WellFormed) (hpos : 0 < total (e :: es))
    (hle : total (e :: es) ≤ 2 ^ 30)
    (hfirst : 0 < e.points ∨ ∀ x ∈ es, 0 < x.points → x.number = e.number) :
    Proportional (portTable (e :: es)) (weights (e :: es)) := by
  have hdraw : ∀ r < total (e :: es), ∃ port, (spread (weights (e :: es)))[r]? = some port ∧
      randomPort (portTable (e :: es)) (some [UInt32.ofNat r]) = some (port, some []) := fun r hr =>
    ⟨_, linearPort_eq_spread h hle hfirst hr, randomPort_portTable hpos hle hr⟩
  refine ⟨draws_portTable hpos hle, fun port => ?_, fun r hr => ?_⟩
  · rw [← count_spread, ← countP_range_getElem?, length_spread]
    refine List.countP_congr fun r hr => ?_
    obtain ⟨port', hspread, hport⟩ := hdraw r (List.mem_range.mp hr)
    simp [hspread, hport]
  · obtain ⟨port, hspread, hport⟩ := hdraw r hr
    obtain ⟨p, hp, rfl, -⟩ := (mem_spread _ _).mp (List.mem_of_getElem? hspread)
    obtain ⟨x, -, rfl⟩ := List.mem_map.mp hp
    exact ⟨_, hport, by dsimp only; omega⟩

/-- A first port of weight 0 is all that is drawn. -/
theorem not_proportional {x : PortEntry} (he : e.WellFormed) (hle : total (e :: es) ≤ 2 ^ 30)
    (hzero : e.points = 0) (hx : x ∈ es) (hpoints : 0 < x.points) (hne : x.number ≠ e.number) :
    ¬ Proportional (portTable (e :: es)) (weights (e :: es)) := by
  intro h
  have hpos : 0 < total (e :: es) :=
    Nat.lt_of_lt_of_le hpoints (points_le_total (List.mem_cons_of_mem _ hx))
  have hport : ((x.number : Int), x.points) ∈ weights (e :: es) :=
    List.mem_map.mpr ⟨x, List.mem_cons_of_mem _ hx, rfl⟩
  have hcount := h.each x.number
  rw [← count_spread, List.countP_eq_zero.mpr] at hcount
  · have hmem := (mem_spread (weights (e :: es)) x.number).mpr ⟨_, hport, rfl, hpoints⟩
    exact List.count_eq_zero.mp hcount.symm hmem
  · intro r hr
    rw [randomPort_portTable hpos hle (List.mem_range.mp hr), linearPort_of_zero he hzero]
    simpa using fun heq : e.number = x.number => hne heq.symm

/-- The table of a portspec draws its ports in proportion to their weights exactly if it is built and the
first weight is not 0, or no other port has a weight. -/
theorem ports_proportional_iff {malloc : Nat → Option (Nat → UInt32)} {e : PortEntry}
    {es : List PortEntry} (h : ∀ x ∈ e :: es, x.WellFormed) (hpos : 1 ≤ total (e :: es))
    (hle : total (e :: es) ≤ 2 ^ 30) (hmem : (malloc (12 + 8 * (e :: es).length)).isSome) :
    (∃ cfg, Builds malloc (portspec (e :: es)) cfg ∧ Proportional cfg (weights (e :: es))) ↔
      (e :: es).length < 2 ^ 30 ∧ (0 < e.points ∨ ∀ x ∈ es, 0 < x.points → x.number = e.number) := by
  have hbuilds := builds_iff (List.cons_ne_nil e es) h hpos (by omega) hmem
  constructor
  · rintro ⟨cfg, hcfg, hproportional⟩
    obtain ⟨hshort, -, rfl⟩ := (hbuilds cfg).mp hcfg
    refine ⟨hshort, ?_⟩
    by_contra hnot
    rw [not_or] at hnot
    obtain ⟨hzero, hother⟩ := hnot
    push Not at hother
    obtain ⟨x, hx, hpoints, hne⟩ := hother
    exact not_proportional (h e List.mem_cons_self) hle (by omega) hx hpoints hne hproportional
  · rintro ⟨hshort, hfirst⟩
    exact ⟨_, (hbuilds _).mpr ⟨hshort, hle, rfl⟩, portTable_proportional h hpos hle hfirst⟩

/-- The portspec of `target_gen_test.c`. -/
theorem ports_proportional_test :
    ∃ cfg, Builds (fun _ => some fun _ => 0) ['4', '4', '3', ':', '2', ',', '8', '0'] cfg ∧
      Proportional cfg [(443, 2), (80, 1)] := by
  have hformed : ∀ x ∈ [PortEntry.mk ['4', '4', '3'] (some ['2']), ⟨['8', '0'], none⟩],
      x.WellFormed := by
    simp only [List.forall_mem_cons]
    exact ⟨⟨by decide, by decide, by decide⟩, ⟨by decide, by decide, by decide⟩, by simp⟩
  exact (@ports_proportional_iff (fun _ => some fun _ => 0) _ _ hformed (by decide) (by decide) rfl).mpr
    ⟨by decide, by decide⟩

/-- With the portspec `80:0,443:1` the only number is 0, and `random_port` returns 80 for it. -/
theorem leading_zero_takes_all :
    ∃ cfg, Builds (fun _ => some fun _ => 0) ['8', '0', ':', '0', ',', '4', '4', '3', ':', '1'] cfg ∧
      randomPort cfg (some [0]) = some (80, some []) ∧ ¬ Proportional cfg [(80, 0), (443, 1)] := by
  have hformed : ∀ x ∈ [PortEntry.mk ['8', '0'] (some ['0']), ⟨['4', '4', '3'], some ['1']⟩],
      x.WellFormed := by
    simp only [List.forall_mem_cons]
    exact ⟨⟨by decide, by decide, by decide⟩, ⟨by decide, by decide, by decide⟩, by simp⟩
  refine ⟨_, (@builds_iff _ (fun _ => some fun _ => 0) (List.cons_ne_nil _ _) hformed (by decide)
    (by decide) rfl _).mpr ⟨by decide, by decide, rfl⟩, by decide, ?_⟩
  exact not_proportional (hformed _ List.mem_cons_self) (by decide) rfl List.mem_cons_self (by decide)
    (by decide)

end Cscan.Target
