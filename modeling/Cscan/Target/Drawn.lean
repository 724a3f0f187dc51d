import Cscan.Target.PortSpec
import Cscan.Target.Uniform

/-! What `random_ip` and `random_port` can return at all: the addresses of the ranges, and some port of
every table that `compile-targets.py` writes. -/

namespace Cscan.Target

open Cscan.Lib

/-- `random_ip` can return the address, also where `/dev/urandom` cannot be opened. -/
def DrawnIp (cfg : RangeCfg) (ip : UInt32) : Prop := ∃ urandom rest, randomIp cfg urandom = some (ip, rest)

def DrawnPort (cfg : RangeCfg) (port : Int32) : Prop :=
  ∃ urandom rest, randomPort cfg urandom = some (port.toInt, rest)

/-! ### Addresses -/

/-- The search for a number that is above all entries reads behind the table. -/
theorem searchLoop_above {ranges : List UInt32} {n : Nat} {cum : Nat → UInt32} {r : UInt32}
    (table : Cumulative ranges n cum) (hlen : ranges.length = 2 * n) (hr : ∀ i < n, cum i < r)
    (fuel : Nat) (start stop idx val : UInt32) (hstart : start.toNat < n) (hstop : stop.toNat = n) :
    searchLoop ranges r fuel start stop idx val = none := by
  have hbound := table.bound
  induction fuel generalizing start idx val with
  | zero => rfl
  | succ fuel ih =>
    have hempty : start ≠ stop := fun heq => by
      rw [heq] at hstart
      omega
    have hmid := mid_toNat (show stop.toNat + start.toNat < 2 ^ 32 by omega)
    generalize hm : (stop + start) >>> 1 = mid at hmid
    have hread := table.entry mid.toNat (by omega)
    have hbelow := hr mid.toNat (by omega)
    have hne : cum mid.toNat ≠ r := fun heq => by
      rw [heq] at hbelow
      exact (UInt32.lt_irrefl _ hbelow).elim
    have hsucc : (mid + 1).toNat = mid.toNat + 1 := by
      rw [UInt32.toNat_add, show (1 : UInt32).toNat = 1 from rfl, Nat.mod_eq_of_lt (by omega)]
    have hpred : (stop - 1).toNat = stop.toNat - 1 := by
      rw [UInt32.toNat_sub_of_le _ _ (UInt32.le_iff_toNat_le.mpr (by simp; omega))]
      rfl
    rw [← double_succ_toNat (by omega)] at hread
    simp only [searchLoop, if_neg hempty, hm, hread, if_neg hne, if_pos hbelow]
    by_cases hend : mid = stop - 1
    · have hbehind : ranges[(((mid + 1) <<< 1) ||| 1).toNat]? = none := by
        have hlast := congrArg UInt32.toNat hend
        rw [double_succ_toNat (by omega)]
        exact List.getElem?_eq_none (by omega)
      simp only [if_pos hend, hbehind]
    · rw [if_neg hend]
      have hne' : mid.toNat ≠ stop.toNat - 1 := fun h => hend (UInt32.toNat_inj.mp (by omega))
      exact ih (mid + 1) mid _ (by omega)

section Merged

variable {ranges : List (Int × Int)} (h : Merged ranges)
include h

/-- A number is mapped to an address of the ranges if there are that many, and else to nothing. -/
theorem Merged.inRanges_of_lookup {r ip : UInt32} (hip : lookup (compiled ranges) r = some ip) :
    InRanges ranges ip := by
  by_cases hr : r.toNat < (members ranges).length
  · obtain ⟨ip', hip', hmem⟩ := h.lookup_members hr
    obtain rfl := Option.some.inj (hip.symm.trans hip')
    exact mem_members.mp (List.mem_of_getElem? hmem)
  · have hlen : (compiled ranges).ranges.length = 2 * ranges.length := by
      rw [compiled, List.length_map, length_rangeData]
    have habove : ∀ i < ranges.length, cumulative ranges i < r := by
      intro i hi
      obtain ⟨hcum, hpos⟩ := h.cumulative_toNat hi
      have hmono := before_mono ranges (show i + 1 ≤ ranges.length by omega)
      have hall : before ranges ranges.length = (members ranges).length := by simp [before]
      rw [UInt32.lt_iff_toNat_lt]
      omega
    have hstop : (UInt32.ofNat ((compiled ranges).num % 2 ^ 32).toNat).toNat = ranges.length := by
      have hshort := h.short
      have hnum : (compiled ranges).num = ranges.length := rfl
      rw [hnum, UInt32.toNat_ofNat']
      omega
    have hpos : (0 : UInt32).toNat < ranges.length := List.length_pos_iff.mpr h.nonempty
    have hnone := searchLoop_above h.table hlen habove (ranges.length + 1) 0 _ 0 0 hpos hstop
    simp only [lookup, hstop, hnone] at hip
    cases hip

/-- Over the table of ranges `random_ip` returns their addresses and no others. -/
theorem Merged.drawnIp_iff (ip : UInt32) : DrawnIp (compiled ranges) ip ↔ InRanges ranges ip := by
  constructor
  · rintro ⟨urandom, rest, hdraw⟩
    unfold randomIp at hdraw
    cases hgen : genRand32 (compiled ranges).mask (compiled ranges).maxIdx urandom with
    | none =>
      rw [hgen] at hdraw
      cases hdraw
    | some p =>
      rw [hgen] at hdraw
      obtain ⟨ip', hip', heq⟩ := Option.map_eq_some_iff.mp hdraw
      obtain ⟨rfl, -⟩ := Prod.mk.inj heq
      exact h.inRanges_of_lookup hip'
  · intro hip
    have hpos : 0 < 2 ^ 32 / ((compiled ranges).mask.toNat + 1) :=
      Nat.div_pos (compiled ranges).mask.toNat_lt (Nat.succ_pos _)
    rw [← h.uniformOver.each ip hip, Finset.card_pos] at hpos
    obtain ⟨word, hword⟩ := hpos
    exact ⟨_, _, (Finset.mem_filter.mp hword).2⟩

end Merged

/-! ### Ports -/

/-- The record of a table of ports. -/
def compiledPorts (weights : List (Int × Int)) : RangeCfg where
  num := weights.length
  maxIdx := UInt32.ofNat ((portData 0 weights).1 - 1).toNat
  mask := UInt32.ofNat (getBinmask (portData 0 weights).1).toNat
  ranges := (portData 0 weights).2.map fun v => UInt32.ofNat v.toNat

theorem length_portData (ptSum : Int) (weights : List (Int × Int)) :
    (portData ptSum weights).2.length = 2 * weights.length := by
  induction weights generalizing ptSum with
  | nil => rfl
  | cons p weights ih =>
    simp only [portData, List.length_cons, ih]
    omega

/-- The number 0 is drawn for the first port, at least. -/
theorem exists_drawnPort {weights : List (Int × Int)} (hne : weights ≠ []) :
    ∃ port, DrawnPort (compiledPorts weights) port := by
  obtain ⟨⟨port, pt⟩, weights, rfl⟩ := List.exists_cons_of_ne_nil hne
  have hgen : genRand32 (compiledPorts ((port, pt) :: weights)).mask
      (compiledPorts ((port, pt) :: weights)).maxIdx (some [0]) = some (0, some []) := by
    simp [genRand32, randLoop]
  refine ⟨Int32.ofInt (toInt32 (UInt32.ofNat port.toNat).toNat), some [0], some [], ?_⟩
  have hlt := (UInt32.ofNat port.toNat).toNat_lt
  rw [randomPort, hgen, Int32.toInt_ofInt_of_le]
  · simp [portLoop, compiledPorts, portData]
  · unfold toInt32
    split_ifs <;> omega
  · unfold toInt32
    split_ifs <;> omega

/-- A table without entries has no ports, and `random_port` returns -1. -/
theorem drawnPort_negative {cfg : RangeCfg} (h : cfg.num < 0) : DrawnPort cfg (-1) := by
  refine ⟨none, none, ?_⟩
  rw [randomPort, genRand32]
  simp only [Int.toNat_of_nonpos h.le, portLoop]
  rfl

theorem announced_packWords {num : Int} {words : List Int} {bytes : List UInt8}
    (h : packWords (num :: words) = some bytes) : announced bytes = toInt32 num.toNat := by
  have hfits := fits_of_packWords h
  have hnum := hfits num List.mem_cons_self
  have hbytes := Option.some.inj ((packWords_eq hfits).symm.trans h)
  rw [← hbytes, ← littleWords_map hfits, List.map_cons]
  have hannounced := announced_words (UInt32.ofNat num.toNat) (words.map fun v => UInt32.ofNat v.toNat) []
  rw [List.append_nil] at hannounced
  have hlt : num.toNat < 2 ^ 32 := by
    have := hnum.2
    omega
  rw [hannounced, UInt32.toNat_ofNat_of_lt' hlt]

/-- The file for a portspec has at least one entry. -/
theorem exists_weights {portspec : List Char} {bytes : List UInt8} (h : compilePorts portspec = some bytes) :
    ∃ weights, weights ≠ [] ∧ packWords (portWords weights) = some bytes := by
  obtain ⟨weights, hweights, hpack⟩ := Option.bind_eq_some_iff.mp h
  refine ⟨weights, ?_, hpack⟩
  obtain ⟨entry, entries, hentries⟩ := List.exists_cons_of_ne_nil (List.splitOn_ne_nil ',' portspec)
  rw [hentries, List.mapM_cons] at hweights
  obtain ⟨w, -, hweights⟩ := Option.bind_eq_some_iff.mp hweights
  obtain ⟨ws, -, hweights⟩ := Option.bind_eq_some_iff.mp hweights
  cases hweights
  exact List.cons_ne_nil w ws

/-- A table of ports that is loaded has a port that can be drawn, be it -1 where the `int` for their number is
negative. -/
theorem exists_drawnPort_of_load {order : ByteOrder} {malloc : Nat → Option (Nat → UInt32)} {portspec : List Char}
    {bytes : List UInt8} {ports : RangeCfg} (hbytes : compilePorts portspec = some bytes)
    (hload : loadRangeCfg order malloc (some bytes) = .record ports) : ∃ port, DrawnPort ports port := by
  obtain ⟨weights, hne, hpack⟩ := exists_weights hbytes
  obtain ⟨hlength, hint, word, hmem⟩ := exists_malloc_of_record hload
  have hfits := fits_of_packWords hpack
  have hannounced := announced_packWords hpack
  have hnum : (weights.length : Int).toNat < 2 ^ 32 := by
    obtain ⟨-, hlt⟩ := hfits weights.length List.mem_cons_self
    omega
  by_cases hshort : weights.length < 2 ^ 30
  · have hsize : allocSize (announced bytes) = 12 + 8 * weights.length := by
      rw [hannounced, toInt32, if_pos (by omega), allocSize_of_nonneg (by omega) (by omega)]
      omega
    obtain ⟨bytes', hbytes', hload'⟩ := @loadRangeCfg_words order malloc _ _ _ _ hshort (length_portData 0 weights)
      hfits (by rw [← hsize, hmem]; rfl)
    obtain rfl := Option.some.inj (hpack.symm.trans hbytes')
    rw [hload'] at hload
    cases hload
    exact exists_drawnPort hne
  · -- the count has wrapped, as a positive one would have overflowed
    have hnegative : announced bytes < 0 := by
      rw [hannounced, toInt32] at hint ⊢
      split_ifs at hint ⊢ <;> omega
    rcases loadRangeCfg_filled order hlength hint hmem with hundefined | ⟨cfg, hrecord, hcount⟩
    · rw [hload] at hundefined
      cases hundefined
    · rw [hload] at hrecord
      cases hrecord
      exact ⟨-1, drawnPort_negative (hcount ▸ hnegative)⟩

end Cscan.Target
