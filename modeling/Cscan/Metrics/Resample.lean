import Cscan.Metrics.Truncated
import Mathlib.Data.List.ModifyLast

/-! Histograms of a `TimeBucket`: what `sample` makes of the events that were added. -/

namespace Cscan.Metrics

open Cscan.Lib

def evtSamples : Int := 120

def tspSamples : Int := 200

namespace TimeBucket

variable {dimensions : Nat} {events : List (Int × Int)} {b : TimeBucket dimensions} {axis : Nat} {size : Int}

/-- Calls of `add_event` on a new bucket. -/
def addEvents (dimensions : Nat) (events : List (Int × Int)) : Option (TimeBucket dimensions) :=
  events.foldlM (fun b e => b.addEvent e.1 e.2) {}

/-- The histogram has every event of the axis in the bin of its key, and no others. -/
structure Resamples (dimensions : Nat) (events : List (Int × Int)) (axis : Nat) (size : Int)
    (indices : List Int)
    (values : List Nat) : Prop where
  increasing : indices.Pairwise (· < ·)
  multiples : ∀ k ∈ indices, size ∣ k
  sum : values.sum = events.countP fun e => Python.subscript dimensions e.2 = some axis
  counted : values = indices.map fun k => events.countP fun e =>
    (k ≤ e.1 ∧ e.1 < k + size) ∧ Python.subscript dimensions e.2 = some axis
  covered : ∀ e ∈ events, ∃ k ∈ indices, k ≤ e.1 ∧ e.1 < k + size

/-- After `sort` the keys come in order, and every axis has its histogram. -/
def Conserves (events : List (Int × Int)) (b : TimeBucket dimensions) (size : Int) : Prop :=
  b.sort.indices.Pairwise (· < ·) ∧ (∀ key, key ∈ b.sort.indices ↔ ∃ e ∈ events, e.1 = key) ∧
    ∀ axis : Nat, axis < dimensions → ∃ indices values, b.sort.sample axis size = .ok (indices, values) ∧
      Resamples dimensions events axis size indices values

/-- The events with the places of their axes. -/
def placed (dimensions : Nat) (events : List (Int × Int)) : List (Int × Nat) :=
  events.filterMap fun e => (Python.subscript dimensions e.2).map (Prod.mk e.1)

theorem addEvents_counts {start : TimeBucket dimensions} {before : List (Int × Nat)} (h : start.Counts before)
    (hordered : start.Ordered) (hadd : events.foldlM (fun b e => b.addEvent e.1 e.2) start = some b) :
    b.Counts (before ++ placed dimensions events) ∧ b.Ordered ∧
      ∀ e ∈ events, (Python.subscript dimensions e.2).isSome := by
  induction events generalizing start before with
  | nil =>
    cases hadd
    rw [placed, List.filterMap_nil, List.append_nil]
    exact ⟨h, hordered, by simp⟩
  | cons e events ih =>
    rw [List.foldlM_cons] at hadd
    obtain ⟨b', hb', hrest⟩ := Option.bind_eq_some_iff.mp hadd
    obtain ⟨axis, haxis, hcounts, hordered'⟩ := addEvent_of_eq h hordered hb'
    obtain ⟨hcounts', hordered'', hsome⟩ := ih hcounts hordered' hrest
    refine ⟨?_, hordered'', List.forall_mem_cons.mpr ⟨by rw [haxis]; rfl, hsome⟩⟩
    rw [List.append_assoc] at hcounts'
    simpa [placed, haxis] using hcounts'

theorem countP_placed (events : List (Int × Int)) (p : Int → Prop) [DecidablePred p] (axis : Nat) :
    (placed dimensions events).countP (fun e => p e.1 ∧ e.2 = axis) =
      events.countP fun e => p e.1 ∧ Python.subscript dimensions e.2 = some axis := by
  induction events with
  | nil => rfl
  | cons e events ih =>
    rw [List.countP_cons, ← ih, placed, List.filterMap_cons]
    cases haxis : Python.subscript dimensions e.2 with
    | none => simp [placed]
    | some place => simp [placed, List.countP_cons]

/-- The start of the bin of a key. -/
def bin (size key : Int) : Int := key.fdiv size * size

theorem bin_le_and_lt (hsize : 0 < size) (key : Int) : bin size key ≤ key ∧ key < bin size key + size := by
  rw [bin, Int.fdiv_eq_ediv_of_nonneg key hsize.le]
  have hle := Int.ediv_mul_le key hsize.ne'
  have hlt := Int.lt_ediv_add_one_mul_self key hsize
  rw [add_mul, one_mul] at hlt
  exact ⟨hle, hlt⟩

theorem bin_mono (hsize : 0 < size) {key key' : Int} (h : key ≤ key') : bin size key ≤ bin size key' := by
  rw [bin, bin, Int.fdiv_eq_ediv_of_nonneg key hsize.le, Int.fdiv_eq_ediv_of_nonneg key' hsize.le]
  exact mul_le_mul_of_nonneg_right (Int.ediv_le_ediv hsize h) hsize.le

/-- The bin is the only multiple of the size that is so close. -/
theorem bin_eq_iff (hsize : 0 < size) {key k : Int} (hk : size ∣ k) :
    bin size key = k ↔ k ≤ key ∧ key < k + size := by
  obtain ⟨m, rfl⟩ := hk
  rw [bin, Int.fdiv_eq_ediv_of_nonneg key hsize.le, mul_comm size m]
  constructor
  · intro h
    rw [← h]
    have hbin := bin_le_and_lt hsize key
    rwa [bin, Int.fdiv_eq_ediv_of_nonneg key hsize.le] at hbin
  · rintro ⟨hle, hlt⟩
    have hlow : m ≤ key / size := (Int.le_ediv_iff_mul_le hsize).mpr hle
    have hhigh : key / size < m + 1 := (Int.ediv_lt_iff_lt_mul hsize).mpr (by rw [add_mul, one_mul]; exact hlt)
    exact congrArg (· * size) (by omega)

/-- What the loop of `sample` has made of the keys that are done. -/
structure Sampling (counts : List (Int × Nat)) (axis : Nat) (size : Int) (s : Sampled)
    (done : List Int) : Prop where
  bins : Bins (bin size) (fun idx => counts.count (idx, axis)) done s.indices s.values
  last : (done = [] ∧ s.lastKey = -1) ∨ ∃ indices, s.indices = indices ++ [s.lastKey]

variable {counts : List (Int × Nat)} {s : Sampled} {done : List Int} {idx : Int}

/-- A turn adds what is counted under its key. -/
theorem sampleTurn_eq (hb : b.Counts counts) (hsize : size ≠ 0) (haxis : axis < dimensions)
    (hmem : idx ∈ b.indices)
    (s : Sampled) :
    b.sampleTurn axis size s idx =
      let s := if s.lastKey < bin size idx then
        ⟨s.indices ++ [bin size idx], s.values ++ [0], bin size idx⟩ else s
      if s.values = [] then .error .index
      else .ok { s with values := s.values.modifyLast (· + counts.count (idx, axis)) } := by
  have hrow := hb.values idx
  rw [if_pos hmem] at hrow
  have hplace : Python.subscript ((List.range dimensions).map fun a => counts.count (idx, a)).length axis =
      some axis := by
    rw [List.length_map, List.length_range]
    exact Python.subscript_natCast haxis
  have hget : ((List.range dimensions).map fun a => counts.count (idx, a)).getD axis 0 =
      counts.count (idx, axis) := by
    rw [List.getD_eq_getElem?_getD, List.getElem?_map, List.getElem?_range haxis]
    rfl
  rw [sampleTurn, if_neg hsize, hrow]
  dsimp only
  rw [hplace]
  dsimp only
  rw [hget]
  rfl

/-- One more key, which is behind those that are done. -/
theorem Sampling.turn (h : Sampling counts axis size s done) (hb : b.Counts counts) (hsize : 0 < size)
    (haxis : axis < dimensions) (hmem : idx ∈ b.indices) (hle : ∀ key ∈ done, key ≤ idx) (hnonneg : 0 ≤ idx) :
    ∃ s', b.sampleTurn axis size s idx = .ok s' ∧ Sampling counts axis size s' (done ++ [idx]) := by
  have hbin : 0 ≤ bin size idx := by
    rw [bin, Int.fdiv_eq_ediv_of_nonneg idx hsize.le]
    exact mul_nonneg (Int.ediv_nonneg hnonneg hsize.le) hsize.le
  have hturn := sampleTurn_eq hb hsize.ne' haxis hmem s
  by_cases hnew : s.lastKey < bin size idx
  · rw [if_pos hnew] at hturn
    dsimp only at hturn
    rw [if_neg (List.append_ne_nil_of_right_ne_nil _ (List.cons_ne_nil _ _)), List.modifyLast_concat,
      Nat.zero_add] at hturn
    refine ⟨_, hturn, h.bins.next fun k hk => ?_, Or.inr ⟨_, rfl⟩⟩
    rcases h.last with ⟨rfl, -⟩ | ⟨indices, hindices⟩
    · obtain ⟨key, hkey, -⟩ := (h.bins.mem_keys k).mp hk
      cases hkey
    · have hincreasing := h.bins.increasing
      rw [hindices] at hincreasing hk
      rcases List.mem_append.mp hk with hk | hk
      · exact ((List.pairwise_append.mp hincreasing).2.2 k hk _ List.mem_cons_self).trans hnew
      · exact (List.mem_singleton.mp hk).trans_lt hnew
  · rw [if_neg hnew] at hturn
    rcases h.last with ⟨-, hlast⟩ | ⟨indices, hindices⟩
    · omega
    have hsame : s.lastKey = bin size idx := by
      have hmem : s.lastKey ∈ s.indices := hindices ▸ List.mem_append_right _ List.mem_cons_self
      obtain ⟨key, hkey, hlast⟩ := (h.bins.mem_keys s.lastKey).mp hmem
      have hmono := bin_mono hsize (hle key hkey)
      omega
    obtain ⟨values, n, hvalues⟩ : ∃ values n, s.values = values ++ [n] := by
      have hlength := congrArg List.length h.bins.sums_eq
      rw [List.length_map, hindices, List.length_append, List.length_singleton] at hlength
      have hne : s.values ≠ [] := List.ne_nil_of_length_pos (by omega)
      exact ⟨_, _, (List.dropLast_append_getLast hne).symm⟩
    have hbins := h.bins
    rw [hindices, hvalues, hsame] at hbins
    dsimp only at hturn
    rw [if_neg (by rw [hvalues]; exact List.append_ne_nil_of_right_ne_nil _ (List.cons_ne_nil _ _)), hvalues,
      List.modifyLast_concat, hindices, hsame] at hturn
    exact ⟨_, hturn, hbins.add, Or.inr ⟨_, rfl⟩⟩

theorem Sampling.run (h : Sampling counts axis size s done) (hb : b.Counts counts) (hsize : 0 < size)
    (haxis : axis < dimensions) {rest : List Int} (hmem : ∀ idx ∈ rest, idx ∈ b.indices)
    (hsorted : (done ++ rest).Pairwise (· < ·)) (hnonneg : ∀ idx ∈ rest, 0 ≤ idx) :
    ∃ s', rest.foldlM (b.sampleTurn axis size) s = .ok s' ∧ Sampling counts axis size s' (done ++ rest) := by
  induction rest generalizing s done with
  | nil => exact ⟨s, rfl, by rwa [List.append_nil]⟩
  | cons idx rest ih =>
    obtain ⟨hidx, hmem⟩ := List.forall_mem_cons.mp hmem
    obtain ⟨hpos, hnonneg⟩ := List.forall_mem_cons.mp hnonneg
    have hle : ∀ key ∈ done, key ≤ idx := fun key hkey =>
      ((List.pairwise_append.mp hsorted).2.2 key hkey idx List.mem_cons_self).le
    obtain ⟨t, ht, hsampling⟩ := h.turn hb hsize haxis hidx hle hpos
    rw [List.append_cons] at hsorted ⊢
    obtain ⟨s', hs', hrest⟩ := ih hsampling hmem hsorted hnonneg
    exact ⟨s', by rw [List.foldlM_cons, ht]; exact hs', hrest⟩

/-- The keys of a bucket are those of the events. -/
theorem mem_indices_placed (hb : b.Counts (placed dimensions events))
    (hsome : ∀ e ∈ events, (Python.subscript dimensions e.2).isSome) (key : Int) :
    key ∈ b.indices ↔ ∃ e ∈ events, e.1 = key := by
  rw [hb.mem_indices]
  constructor
  · rintro ⟨e, he, rfl⟩
    obtain ⟨e', he', hplace⟩ := List.mem_filterMap.mp he
    obtain ⟨axis, -, rfl⟩ := Option.map_eq_some_iff.mp hplace
    exact ⟨e', he', rfl⟩
  · rintro ⟨e, he, rfl⟩
    obtain ⟨axis, haxis⟩ := Option.isSome_iff_exists.mp (hsome e he)
    exact ⟨(e.1, axis), List.mem_filterMap.mpr ⟨e, he, by rw [haxis]; rfl⟩, rfl⟩

/-- With bins of a positive size the histogram of sorted keys that are not negative has every event. -/
theorem sample_resamples (hb : b.Counts (placed dimensions events))
    (hsome : ∀ e ∈ events, (Python.subscript dimensions e.2).isSome) (hsorted : b.indices.Pairwise (· < ·))
    (hkeys : ∀ e ∈ events, 0 ≤ e.1) (hsize : 0 < size) (haxis : axis < dimensions) :
    ∃ indices values, b.sample axis size = .ok (indices, values) ∧
      Resamples dimensions events axis size indices values := by
  have hmem := mem_indices_placed hb hsome
  have hnonneg : ∀ idx ∈ b.indices, 0 ≤ idx := by
    intro idx hidx
    obtain ⟨e, he, rfl⟩ := (hmem idx).mp hidx
    exact hkeys e he
  have hstart : Sampling (placed dimensions events) axis size {} [] := ⟨Bins.nil, Or.inl ⟨rfl, rfl⟩⟩
  obtain ⟨s, hrun, hsampling⟩ := hstart.run hb hsize haxis (fun idx hidx => hidx) hsorted hnonneg
  rw [List.nil_append] at hsampling
  have hcovered : ∀ e ∈ placed dimensions events, e.1 ∈ b.indices :=
    fun e he => (hb.mem_indices e.1).mpr ⟨e, he, rfl⟩
  have hmultiples : ∀ k ∈ s.indices, size ∣ k := by
    intro k hk
    obtain ⟨idx, -, rfl⟩ := (hsampling.bins.mem_keys k).mp hk
    exact Dvd.intro_left _ rfl
  refine ⟨s.indices, s.values, by rw [sample, hrun]; rfl, hsampling.bins.increasing, hmultiples, ?_, ?_, ?_⟩
  · have hall := sum_count_eq_countP hb.nodup hcovered (fun _ => True) axis
    have hplaced := @countP_placed dimensions events (fun _ => True) inferInstance axis
    simp only [true_and, decide_true, List.filter_true] at hall hplaced
    rw [hsampling.bins.sum_eq, hall, hplaced]
  · rw [hsampling.bins.sums_eq]
    refine List.map_congr_left fun k hk => ?_
    have hplaced := @countP_placed dimensions events (fun key => bin size key = k) inferInstance axis
    rw [binned, sum_count_eq_countP hb.nodup hcovered (fun key => bin size key = k) axis, hplaced]
    refine List.countP_congr fun e _ => ?_
    rw [decide_eq_true_iff, decide_eq_true_iff, bin_eq_iff hsize (hmultiples k hk)]
  · intro e he
    refine ⟨bin size e.1, (hsampling.bins.mem_keys _).mpr ⟨e.1, (hmem e.1).mpr ⟨e, he, rfl⟩, rfl⟩, ?_⟩
    exact bin_le_and_lt hsize e.1

/-- Bins of size 0 are a division by zero, unless there is nothing to divide. -/
theorem sample_zero (hne : b.indices ≠ []) (axis : Int) : b.sample axis 0 = .error .zeroDivision := by
  obtain ⟨idx, rest, hindices⟩ := List.exists_cons_of_ne_nil hne
  rw [sample, hindices, List.foldlM_cons, sampleTurn]
  rfl

/-- When the histograms that the script makes of a bucket have all its events. -/
theorem conserves_iff (hkeys : ∀ e ∈ events, 0 ≤ e.1)
    (hadd : addEvents dimensions events = some b) {samples : Int}
    (hsamples : samples = evtSamples ∨ samples = tspSamples) {lastPacket : Int} (hlast : 0 ≤ lastPacket) :
    Conserves events b (lastPacket.fdiv samples) ↔ events = [] ∨ samples ≤ lastPacket := by
  have hpos : 0 < samples := by
    rcases hsamples with rfl | rfl <;> decide
  obtain ⟨hcounts, hordered, hsome⟩ := addEvents_counts counts_new ordered_new hadd
  rw [List.nil_append] at hcounts
  have hsorted := sort_counts hcounts
  have hincreasing := sort_increasing hcounts hordered
  have hmem := mem_indices_placed hsorted hsome
  unfold Conserves
  rw [and_iff_right hincreasing, and_iff_right hmem]
  by_cases hnil : events = []
  · subst hnil
    refine iff_of_true (fun axis haxis => ⟨[], [], ?_, ?_⟩) (Or.inl rfl)
    · have hindices : b.sort.indices = [] := List.eq_nil_iff_forall_not_mem.mpr fun key hkey => by
        simpa using (hmem key).mp hkey
      rw [sample, hindices]
      rfl
    · exact ⟨List.Pairwise.nil, by simp, rfl, rfl, by simp⟩
  rw [or_iff_right hnil]
  by_cases hlong : samples ≤ lastPacket
  · have hsize : 0 < lastPacket.fdiv samples := by
      rw [Int.fdiv_eq_ediv_of_nonneg _ hpos.le]
      have hone : 1 ≤ lastPacket / samples := (Int.le_ediv_iff_mul_le hpos).mpr (by rwa [one_mul])
      omega
    exact iff_of_true (fun axis haxis => sample_resamples hsorted hsome hincreasing hkeys hsize haxis) hlong
  · refine iff_of_false (fun h => ?_) hlong
    have hsize : lastPacket.fdiv samples = 0 := by
      rw [Int.fdiv_eq_ediv_of_nonneg _ hpos.le, Int.ediv_eq_zero_of_lt hlast (by omega)]
    obtain ⟨e, events', rfl⟩ := List.exists_cons_of_ne_nil hnil
    obtain ⟨axis, haxis⟩ := Option.isSome_iff_exists.mp (hsome e List.mem_cons_self)
    obtain ⟨indices, values, hsample, -⟩ := h axis (Python.subscript_lt haxis)
    have hne : b.sort.indices ≠ [] := List.ne_nil_of_mem ((hmem e.1).mpr ⟨e, List.mem_cons_self, rfl⟩)
    rw [hsize, sample_zero hne] at hsample
    cases hsample

/-- Three events in 240 ms, with bins of 2 ms. -/
theorem conserves_iff_long : ∃ b, addEvents 5 [(130, 0), (3, 1), (3, 0)] = some b ∧
    Conserves [(130, 0), (3, 1), (3, 0)] b ((240 : Int).fdiv evtSamples) := by
  obtain ⟨b, hb⟩ : ∃ b, addEvents 5 [(130, 0), (3, 1), (3, 0)] = some b := ⟨_, rfl⟩
  exact ⟨b, hb, (conserves_iff (by decide) hb (Or.inl rfl) (by decide)).mpr (Or.inr (by decide))⟩

/-- The first record of a log has the time 0. -/
theorem handle_packet {s' : Vars} {size : Nat} {ct time fd : Int}
    (h : (Vars.start size ct).handle ⟨time, .packet fd⟩ = some s') :
    s'.lastPacket = 0 ∧ addEvents 5 [(0, 0)] = some s'.tbuckets := by
  obtain ⟨b, hb, heq⟩ := Option.bind_eq_some_iff.mp h
  obtain rfl := Option.some.inj heq
  have htime : time - ((Vars.start size ct).stamp 0xe0 time).firstPacket = 0 := sub_self time
  have hlast : ((Vars.start size ct).stamp 0xe0 time).lastPacket =
      if 0 < time - ((Vars.start size ct).stamp 0xe0 time).firstPacket then
        time - ((Vars.start size ct).stamp 0xe0 time).firstPacket else 0 := rfl
  have hadd : ({} : TimeBucket 5).addEvent
    (time - ((Vars.start size ct).stamp 0xe0 time).firstPacket) 0 = some b := hb
  rw [htime] at hlast hadd
  exact ⟨hlast, by rw [addEvents, List.foldlM_cons, hadd]; rfl⟩

/-- A log with one packet lasts for 0 ms, and `sample` divides by 0. -/
theorem short_conserves_not : ∃ s, parse (log .little 400 [.packet 5 3]) = .ok true s ∧
    addEvents 5 [(0, 0)] = some s.tbuckets ∧
      ¬ Conserves [(0, 0)] s.tbuckets (s.lastPacket.fdiv tspSamples) := by
  obtain ⟨size, hcases⟩ := parse_take .little 400 [.packet 5 3] (show 4 ≤ 17 by decide)
  have hwhole : (log .little 400 [.packet 5 3]).take 17 = log .little 400 [.packet 5 3] := by decide
  have hcomplete : complete [.packet 5 3] (17 - 4) = [.packet 5 3] := by decide
  have htorn : torn [.packet 5 3] (17 - 4) = 0 := by decide
  have hread : (Call.packet 5 3).read .little = ⟨5, .packet 3⟩ := by decide
  dsimp only at hcases
  rw [hwhole, hcomplete, htorn] at hcases
  rcases hcases with ⟨hnone, -⟩ | ⟨s', hrun, ⟨-, hend⟩ | ⟨hlong, -⟩⟩
  · obtain ⟨t, ht⟩ : ∃ t, [Call.packet 5 3].foldlM (fun s c => s.handle (c.read .little))
        (Vars.start size (reread32 .little (400 : Int32).toInt)) = some t :=
      (inv_start size _).run_some (by decide)
    cases hnone.symm.trans ht
  · rw [List.foldlM_cons, hread] at hrun
    obtain ⟨t, ht, hpure⟩ := Option.bind_eq_some_iff.mp hrun
    obtain rfl := Option.some.inj hpure
    obtain ⟨hlast, hadd⟩ := handle_packet ht
    refine ⟨_, hend, hadd, ?_⟩
    rintro ⟨-, hmem, hsample⟩
    have hne : t.tbuckets.sort.indices ≠ [] :=
      List.ne_nil_of_mem ((hmem 0).mpr ⟨(0, 0), List.mem_cons_self, rfl⟩)
    obtain ⟨indices, values, hsample, -⟩ := hsample 0 (by decide)
    have hsize : (putInput [] t).lastPacket.fdiv tspSamples = 0 := by
      show t.lastPacket.fdiv tspSamples = 0
      rw [hlast]
      decide
    rw [hsize] at hsample
    cases (sample_zero hne 0).symm.trans hsample
  · omega

end TimeBucket

end Cscan.Metrics
