import Cscan.Metrics.Truncated

/-! The two curves of successes and failures of `metrics.py`: by the time when an event is received, in the loop over
the records, and by the time when its socket was opened, in a loop over `esbuckets`. -/

namespace Cscan.Metrics

open Cscan.Lib

/-- The variables of the loop over `esbuckets`. -/
structure Curve where
  stScoreinfo : TVec 3 := {}
  otherStSofar : Nat := 0
  scoreStSofar : Nat := 0
deriving DecidableEq

/-- `sum(row[start:stop])`. -/
def sumSlice (row : List Nat) (start stop : Nat) : Nat := ((row.take stop).drop start).sum

def curveTurn (esbuckets : TimeBucket 5) (c : Curve) (idx : Int) : Option Curve := do
  let row ← esbuckets.values idx
  let otherStSofar := c.otherStSofar + sumSlice row 0 1
  let scoreStSofar := c.scoreStSofar + sumSlice row 2 3
  some ⟨c.stScoreinfo.add [idx, scoreStSofar, otherStSofar], otherStSofar, scoreStSofar⟩

/-- The loop over the sorted `esbuckets`. -/
def sendCurve (esbuckets : TimeBucket 5) : Option Curve :=
  esbuckets.sort.indices.foldlM (curveTurn esbuckets.sort) {}

/-- The curve by send time ends where the other one does. -/
def CurvesAgree (s : Vars) : Prop :=
  ∃ c, sendCurve s.esbuckets = some c ∧ c.scoreStSofar = s.scoreSofar ∧ c.otherStSofar = s.otherSofar

theorem curve_totals {esbuckets : TimeBucket 5} {events : List (Int × Nat)} (h : esbuckets.Counts events)
    {indices : List Int} (hmem : ∀ idx ∈ indices, idx ∈ esbuckets.indices) (c : Curve) :
    ∃ c', indices.foldlM (curveTurn esbuckets) c = some c' ∧
      c'.otherStSofar = c.otherStSofar + (indices.map fun idx => events.count (idx, 0)).sum ∧
      c'.scoreStSofar = c.scoreStSofar + (indices.map fun idx => events.count (idx, 2)).sum := by
  induction indices generalizing c with
  | nil => exact ⟨c, rfl, rfl, rfl⟩
  | cons idx indices ih =>
    obtain ⟨hidx, hmem⟩ := List.forall_mem_cons.mp hmem
    have hrow := h.values idx
    rw [if_pos hidx] at hrow
    obtain ⟨c', hc', hother, hscore⟩ := ih hmem ⟨c.stScoreinfo.add [idx,
      ((c.scoreStSofar + events.count (idx, 2) : Nat) : Int),
      ((c.otherStSofar + events.count (idx, 0) : Nat) : Int)],
      c.otherStSofar + events.count (idx, 0), c.scoreStSofar + events.count (idx, 2)⟩
    refine ⟨c', ?_, ?_, ?_⟩
    · rw [List.foldlM_cons, curveTurn, hrow]
      exact hc'
    · rw [hother, List.map_cons, List.sum_cons, Nat.add_assoc]
    · rw [hscore, List.map_cons, List.sum_cons, Nat.add_assoc]

/-- The curve by send time ends with the events on the axes 0 and 2. -/
theorem sendCurve_totals {esbuckets : TimeBucket 5} {events : List (Int × Nat)} (h : esbuckets.Counts events) :
    ∃ c, sendCurve esbuckets = some c ∧ c.otherStSofar = events.countP (·.2 = 0) ∧
      c.scoreStSofar = events.countP (·.2 = 2) := by
  have hsorted := TimeBucket.sort_counts h
  obtain ⟨c, hc, hother, hscore⟩ := curve_totals hsorted (fun idx hidx => hidx) {}
  have hcount : ∀ axis, (esbuckets.sort.indices.map fun idx => events.count (idx, axis)).sum =
      events.countP (·.2 = axis) := by
    intro axis
    have hsum := sum_count_eq_countP hsorted.nodup
      (fun e he => (hsorted.mem_indices e.1).mpr ⟨e, he, rfl⟩) (fun _ => True) axis
    simpa using hsum
  exact ⟨c, hc, by rw [hother, hcount]; exact Nat.zero_add _, by rw [hscore, hcount]; exact Nat.zero_add _⟩

/-- The events of the records on an axis other than the last one are those of the kinds that a subscript takes to
it. -/
theorem countP_opened (rows : List Row) {axis : Nat} (haxis : axis ≠ 4) :
    (rows.flatMap (Row.opened (Python.subscript 5))).countP (·.2 = axis) =
      (rows.filterMap Row.kind?).countP (Python.subscript 5 · = some axis) := by
  induction rows with
  | nil => rfl
  | cons r rows ih =>
    obtain ⟨key, hkey⟩ := r.opened_eq
    rw [List.flatMap_cons, List.countP_append, ih, hkey, List.filterMap_cons]
    cases r.kind? with
    | none => simp
    | some kind =>
      rw [List.countP_cons, Option.elim_some, kindEvents, List.countP_append, Nat.add_comm]
      cases Python.subscript 5 kind with
      | none => simp [haxis.symm]
      | some place => simp [haxis.symm]

/-- The axes 0 and 2 count as many events as there are failures and successes only if all events are of their kinds. -/
theorem totals_iff {kinds : List Int} :
    (kinds.countP (Python.subscript 5 · = some 2) = kinds.countP (2 ≤ ·) ∧
        kinds.countP (Python.subscript 5 · = some 0) = kinds.countP (· < 2)) ↔
      ∀ kind ∈ kinds, kind = 0 ∨ kind = 2 ∨ kind = -5 := by
  have hzero : ∀ kind, Python.subscript 5 kind = some 0 ↔ kind = 0 ∨ kind = -5 := by
    intro kind
    unfold Python.subscript
    split_ifs <;> simp <;> omega
  have htwo : ∀ kind, Python.subscript 5 kind = some 2 ↔ kind = 2 ∨ kind = -3 := by
    intro kind
    unfold Python.subscript
    split_ifs <;> simp <;> omega
  constructor
  · rintro ⟨hscore, hother⟩
    have hlosses := forall_of_countP_eq (fun kind _ h => by have := (hzero kind).mp h; omega) hother
    have hwins := forall_of_countP_eq (fun kind hkind h => by
      by_contra hlt
      have := (hzero kind).mp (hlosses kind hkind (by omega))
      have := (htwo kind).mp h
      omega) hscore
    intro kind hkind
    rcases lt_or_ge kind 2 with hlt | hge
    · have := (hzero kind).mp (hlosses kind hkind hlt)
      omega
    · have := (htwo kind).mp (hwins kind hkind hge)
      omega
  · intro hall
    constructor
    · refine List.countP_congr fun kind hkind => ?_
      have := hall kind hkind
      rw [decide_eq_true_iff, decide_eq_true_iff, htwo]
      omega
    · refine List.countP_congr fun kind hkind => ?_
      have := hall kind hkind
      rw [decide_eq_true_iff, decide_eq_true_iff, hzero]
      omega

/-- What the script has when its first loop ends on the first bytes of a log. -/
theorem parse_ended {order : ByteOrder} {connectTimeout : Int32} {calls : List Call} {n : Nat}
    (hn : 4 ≤ n) {s : Vars}
    (hparse : parse ((log order connectTimeout calls).take n) = .ok true s) :
    ∃ s' rows, Inv s' rows ∧ rows.map Row.kind? = (complete calls (n - 4)).map Call.kind? ∧
      s.esbuckets = s'.esbuckets ∧ s.scoreSofar = s'.scoreSofar ∧ s.otherSofar = s'.otherSofar := by
  obtain ⟨size, hcases⟩ := parse_take order connectTimeout calls hn
  dsimp only at hcases
  rw [hparse] at hcases
  rcases hcases with ⟨-, s', herror⟩ | ⟨s', hrun, ⟨-, hend⟩ | ⟨-, mt, time, hend⟩⟩
  · cases herror
  all_goals
    obtain ⟨hinv, -⟩ := (inv_start size _).run hrun
    refine ⟨s', _, hinv, shift_kinds order _ _, ?_⟩
    cases hend
    exact ⟨rfl, rfl, rfl⟩

/-- A log whose kinds have axes is read to its end. -/
theorem parse_ends {order : ByteOrder} (connectTimeout : Int32) {calls : List Call} {n : Nat} (hn : 4 ≤ n)
    (hkinds : ∀ c ∈ complete calls (n - 4), ∀ kind, c.kind? = some kind → (Python.subscript 5 kind).isSome) :
    ∃ s, parse ((log order connectTimeout calls).take n) = .ok true s := by
  obtain ⟨size, hcases⟩ := parse_take order connectTimeout calls hn
  obtain ⟨t, ht⟩ : ∃ t, (complete calls (n - 4)).foldlM (fun s c => s.handle (c.read order))
      (Vars.start size (reread32 order connectTimeout.toInt)) = some t := (inv_start size _).run_some hkinds
  rcases hcases with ⟨hnone, -⟩ | ⟨s', -, ⟨-, hend⟩ | ⟨-, mt, time, hend⟩⟩
  · rw [ht] at hnone
    cases hnone
  · exact ⟨_, hend⟩
  · exact ⟨_, hend⟩

/-- The totals of both curves, counted over the kinds of the records. -/
theorem curvesAgree_iff_counts {s s' : Vars} {rows : List Row} (hinv : Inv s' rows)
    (hesbuckets : s.esbuckets = s'.esbuckets) (hscore : s.scoreSofar = s'.scoreSofar)
    (hother : s.otherSofar = s'.otherSofar) :
    CurvesAgree s ↔
      (rows.filterMap Row.kind?).countP (Python.subscript 5 · = some 2) = wins rows ∧
        (rows.filterMap Row.kind?).countP (Python.subscript 5 · = some 0) = losses rows := by
  obtain ⟨c, hc, hcother, hcscore⟩ := sendCurve_totals (hesbuckets ▸ hinv.esbuckets)
  have hagree : CurvesAgree s ↔ c.scoreStSofar = s.scoreSofar ∧ c.otherStSofar = s.otherSofar := by
    constructor
    · rintro ⟨c', hc', h⟩
      obtain rfl := Option.some.inj (hc.symm.trans hc')
      exact h
    · exact fun h => ⟨c, hc, h⟩
  rw [hagree, hcscore, hcother, hscore, hother, hinv.sofar.1, hinv.sofar.2, countP_opened rows (by decide),
    countP_opened rows (by decide)]

/-- When the two curves end in the same totals. -/
theorem curvesAgree_iff (order : ByteOrder) (connectTimeout : Int32) (calls : List Call) {n : Nat} (hn : 4 ≤ n)
    {s : Vars} (hparse : parse ((log order connectTimeout calls).take n) = .ok true s) :
    CurvesAgree s ↔
      ∀ c ∈ complete calls (n - 4), ∀ kind, c.kind? = some kind → kind = 0 ∨ kind = 2 ∨ kind = -5 := by
  obtain ⟨s', rows, hinv, hkinds, hesbuckets, hscore, hother⟩ := parse_ended hn hparse
  rw [curvesAgree_iff_counts hinv hesbuckets hscore hother, wins, losses, totals_iff, ← forall_kinds hkinds]
  simp only [List.mem_filterMap, forall_exists_index, and_imp]
  exact ⟨fun h r hr kind hkind => h kind r hr hkind, fun h kind r hr hkind => h r hr kind hkind⟩

/-- A failure and a success, neither of them immediate. -/
theorem curvesAgree_iff_events :
    ∃ s, parse ((log .little 400 [.ret 7 6 0, .ret 9 5 2]).take 32) = .ok true s ∧ CurvesAgree s := by
  have hkinds : ∀ c ∈ complete [.ret 7 6 0, .ret 9 5 2] (32 - 4), ∀ kind, c.kind? = some kind →
      (Python.subscript 5 kind).isSome := by decide
  obtain ⟨s, hs⟩ := parse_ends 400 (by decide) hkinds
  exact ⟨s, hs, (curvesAgree_iff .little 400 [.ret 7 6 0, .ret 9 5 2] (by decide) hs).mpr (by decide)⟩

/-- An immediate failure is in the curve by receive time only. -/
theorem immediate_agrees_not : ∃ s, parse (log .little 400 [.ret 7 7 1]) = .ok true s ∧ ¬ CurvesAgree s := by
  have hfour : 4 ≤ 18 := by decide
  have hwhole : (log .little 400 [.ret 7 7 1]).take 18 = log .little 400 [.ret 7 7 1] := by decide
  have hsome : ∀ c ∈ complete [.ret 7 7 1] (18 - 4), ∀ kind, c.kind? = some kind →
      (Python.subscript 5 kind).isSome := by decide
  obtain ⟨s, hs⟩ := @parse_ends .little 400 _ _ hfour hsome
  obtain ⟨s', rows, hinv, hkinds, hesbuckets, hscore, hother⟩ := parse_ended hfour hs
  have hone : rows.filterMap Row.kind? = [1] := by
    have hmap : rows.filterMap Row.kind? = (rows.map Row.kind?).filterMap id := by
      rw [List.filterMap_map, Function.id_comp]
    rw [hmap, hkinds]
    decide
  refine ⟨s, hwhole ▸ hs, fun hagree => ?_⟩
  have hcounts := (curvesAgree_iff_counts hinv hesbuckets hscore hother).mp hagree
  rw [wins, losses, hone] at hcounts
  revert hcounts
  decide

end Cscan.Metrics
