import Cscan.Metrics.Curves
import Cscan.Scan.Recorded

/-! What `metrics.py` tells about a run of `conn_thread`, from the file that the run has left. -/

namespace Cscan.Metrics

open Cscan.Lib
open Scan (Config Measured Fate SocketListEntry Reads Recorded Ordered endings)

/-! ### The lines that are printed -/

variable {s s' : Vars}

/-- A record prints nothing, if it is not that of a socket that was swept too early. -/
theorem Vars.handle_printed {r : Row} (h : s.handle r = some s') (hdelta : ∀ d, r.fields = .delta d → s.ct ≤ d) :
    s'.printed = s.printed ∧ s'.ct = s.ct := by
  rw [handle] at h
  cases hfields : r.fields with
  | packet fd =>
    rw [hfields] at h
    obtain ⟨tbuckets, -, h⟩ := Option.bind_eq_some_iff.mp h
    cases h
    exact ⟨rfl, rfl⟩
  | ret delta kind =>
    rw [hfields] at h
    obtain ⟨e₁, -, h⟩ := Option.bind_eq_some_iff.mp h
    obtain ⟨e₂, -, h⟩ := Option.bind_eq_some_iff.mp h
    obtain ⟨o₁, -, h⟩ := Option.bind_eq_some_iff.mp h
    obtain ⟨o₂, -, h⟩ := Option.bind_eq_some_iff.mp h
    cases h
    exact ⟨rfl, rfl⟩
  | delta delta =>
    rw [hfields] at h
    cases h
    exact ⟨if_neg (Int.not_lt.mpr (hdelta delta hfields)), rfl⟩
  | epoll returned timeout =>
    rw [hfields] at h
    cases h
    exact ⟨rfl, rfl⟩
  | sendinfo delta sent =>
    rw [hfields] at h
    cases h
    exact ⟨rfl, rfl⟩
  | delinfo delta deleted =>
    rw [hfields] at h
    cases h
    exact ⟨rfl, rfl⟩

theorem run_printed {calls : List Call} (h : calls.foldlM (fun s c => s.handle (c.read .little)) s = some s')
    (hoverdue : ∀ time start, .delta time start ∈ calls → s.ct ≤ (elapsed time start).toInt) :
    s'.printed = s.printed := by
  induction calls generalizing s with
  | nil =>
    cases h
    rfl
  | cons c calls ih =>
    rw [List.foldlM_cons] at h
    obtain ⟨t, ht, hrest⟩ := Option.bind_eq_some_iff.mp h
    have hread : (c.read .little).fields = c.fields := (legible_little (by decide : 0 < 256 ^ 8) c).2
    obtain ⟨hprinted, hct⟩ := Vars.handle_printed ht fun d hd => by
      rw [hread] at hd
      cases c with
      | delta time start =>
        cases hd
        exact hoverdue time start List.mem_cons_self
      | packet time fd => cases hd
      | epoll time returned timeout => cases hd
      | ret time start kind => cases hd
      | sendinfo time start sendCount => cases hd
      | delinfo time start delCount => cases hd
    rw [ih hrest fun time start hmem => hct ▸ hoverdue time start (List.mem_cons_of_mem _ hmem), hprinted]

/-! ### The whole file -/

theorem mem_complete {calls : List Call} {n : Nat} {c : Call} (h : c ∈ complete calls n) : c ∈ calls := by
  induction calls generalizing n with
  | nil => exact h
  | cons d calls ih =>
    rw [complete] at h
    split_ifs at h
    · rcases List.mem_cons.mp h with rfl | h
      · exact List.mem_cons_self
      · exact List.mem_cons_of_mem _ (ih h)
    · exact absurd h List.not_mem_nil

theorem complete_all (order : ByteOrder) (calls : List Call) :
    complete calls (calls.flatMap (Call.bytes order)).length = calls ∧
      torn calls (calls.flatMap (Call.bytes order)).length = 0 := by
  induction calls with
  | nil => exact ⟨rfl, rfl⟩
  | cons c calls ih =>
    rw [List.flatMap_cons, List.length_append, c.length_bytes, complete, torn, if_pos (by omega), if_pos (by omega),
      Nat.add_sub_cancel_left, ih.1, ih.2]
    exact ⟨rfl, rfl⟩

/-! ### The tables by the calls -/

/-- A column of a table. -/
def TVec.column {dimensions : Nat} (v : TVec dimensions) (i : Nat) : List Int := v.list.getD i []

theorem TVec.column_ofRows {dimensions : Nat} (rows : List (List Int)) {i : Nat} (hi : i < dimensions) :
    (TVec.ofRows dimensions rows).column i = rows.map fun row => row.getD i 0 := by
  simp [column, ofRows, hi]

variable (calls : List Call)

theorem relative_fd : (relative calls).filterMap Row.fd? = calls.filterMap Call.fd? := by
  rw [relative, List.filterMap_map]
  refine List.filterMap_congr fun c _ => ?_
  cases c <;> rfl

theorem relative_delta : (relative calls).filterMap Row.delta? =
    (calls.filterMap Call.ending?).map fun e => [e.1 - (firstTime calls : Int), e.2.1] := by
  rw [relative, List.filterMap_map, List.map_filterMap]
  refine List.filterMap_congr fun c _ => ?_
  cases c with
  | ret time start kind => simp [Row.delta?, Call.fields, Call.time, Call.ending?, sub_right_comm]
  | delta time start => simp [Row.delta?, Call.fields, Call.time, Call.ending?, sub_right_comm]
  | packet time fd => rfl
  | epoll time returned timeout => rfl
  | sendinfo time start sendCount => rfl
  | delinfo time start delCount => rfl

theorem relative_sendinfo : ((relative calls).filterMap Row.sendinfo?).map (fun row => row.getD 2 0) =
    calls.filterMap Call.sendCount? := by
  rw [relative, List.filterMap_map, List.map_filterMap]
  refine List.filterMap_congr fun c _ => ?_
  cases c <;> rfl

theorem relative_delinfo : ((relative calls).filterMap Row.delinfo?).map (fun row => row.getD 2 0) =
    calls.filterMap Call.delCount? := by
  rw [relative, List.filterMap_map, List.map_filterMap]
  refine List.filterMap_congr fun c _ => ?_
  cases c <;> rfl

theorem relative_kind : (relative calls).filterMap Row.kind? = calls.filterMap Call.kind? := by
  rw [relative, List.filterMap_map]
  refine List.filterMap_congr fun c _ => ?_
  cases c <;> rfl

theorem ending_kinds : calls.filterMap Call.kind? =
    ((calls.filterMap Call.ending?).map (·.2.2)).filterMap (Option.map Int8.toInt) := by
  rw [List.filterMap_map, List.filterMap_filterMap]
  refine List.filterMap_congr fun c _ => ?_
  cases c <;> rfl

/-! ### A run -/

/-- What the script tells about a run. -/
structure Tells (cfg : Config) (m : Measured) (v : Vars) : Prop where
  printed : v.printed = [.ct cfg.connectTimeout]
  sorted : v.mtlog.Pairwise fun r r' => r.2 ≤ r'.2
  nonneg : ∀ r ∈ v.mtlog, 0 ≤ r.2
  packets : v.packetfd.length = m.scanner.probes ∧ m.scanner.packetsSent = .ofNat v.packetfd.length
  deltainfo : v.deltainfo = .ofRows 2 ((endings m.sent m.scanner.fates m.ended).map fun e =>
    [e.1 - (firstTime m.calls : Int), e.2.1])
  score : v.scoreSofar = m.scanner.fates.countP (·.2.connected)
  events : v.scoreSofar + v.otherSofar = m.scanner.events ∧
    m.scanner.eventCount = .ofNat (v.scoreSofar + v.otherSofar)
  sends : (v.sendinfo.column 2).sum + m.sendCount + m.scanner.fates.countP (·.2.immediate) = m.scanner.probes
  deletes : (v.delinfo.column 2).sum = m.scanner.swept
  curves : CurvesAgree v ↔ ∀ f ∈ m.scanner.fates, ¬ f.2.immediate

section Run

variable {cfg : Config} {first sendCount delCount : Nat} {m : Measured} {fds : List Int}

theorem recorded_kinds (h : Recorded cfg first m sendCount delCount fds) :
    m.calls.filterMap Call.kind? = m.scanner.fates.filterMap fun f => f.2.kind.map Int8.toInt := by
  rw [ending_kinds, h.endings, Scan.endings_kinds h.ended, List.filterMap_map]
  rfl

theorem fate_kind {f : Fate} {kind : Int} (h : f.kind.map Int8.toInt = some kind) :
    (0 ≤ kind ∧ kind ≤ 3) ∧ (2 ≤ kind ↔ f.connected) ∧ (kind = 0 ∨ kind = 2 ∨ kind = -5 ↔ ¬ f.immediate) := by
  cases f with
  | returned o =>
    cases h
    by_cases hconnects : o.Connects <;> simp [Fate.connected, Fate.immediate, hconnects]
  | event e =>
    cases h
    cases hok : e.ok <;> simp [Fate.connected, Fate.immediate, hok]
  | timedOut => cases h

theorem recorded_rows (h : Recorded cfg first m sendCount delCount fds) :
    (relative m.calls).filterMap Row.kind? = m.scanner.fates.filterMap fun f => f.2.kind.map Int8.toInt :=
  (relative_kind m.calls).trans (recorded_kinds h)

theorem wins_add_losses (rows : List Row) : wins rows + losses rows = (rows.filterMap Row.kind?).length := by
  rw [wins, losses, List.length_eq_countP_add_countP (2 ≤ ·)]
  congr 1
  refine List.countP_congr fun kind _ => ?_
  simp

/-- How many of the kinds have a property, by the probes. -/
theorem countP_kinds {fates : List (Nat × Fate)} {p : Int → Bool} {q : Fate → Bool}
    (h : ∀ f : Fate, (f.kind.map Int8.toInt).any p = q f) :
    (fates.filterMap fun f => f.2.kind.map Int8.toInt).countP p = fates.countP (q ·.2) := by
  rw [List.countP_filterMap]
  refine List.countP_congr fun f _ => ?_
  rw [← h]
  cases f.2.kind <;> rfl

theorem firstTime_le (h : Ordered first m.clock m.calls) : ∀ c ∈ m.calls, firstTime m.calls ≤ c.time.toNat := by
  intro c hc
  have hsorted := h.sorted
  cases hcalls : m.calls with
  | nil =>
    rw [hcalls] at hc
    exact absurd hc List.not_mem_nil
  | cons d calls =>
    rw [hcalls] at hc hsorted
    rcases List.mem_cons.mp hc with rfl | hc
    · exact Nat.le_refl _
    · exact (List.pairwise_cons.mp hsorted).1 c hc

theorem recorded_tells {v : Vars} (h : Recorded cfg first m m.sendCount 0 fds) (hinv : Inv v (relative m.calls))
    (hprinted : v.printed = [.ct cfg.connectTimeout]) : Tells cfg m v := by
  have hwins : wins (relative m.calls) = m.scanner.fates.countP (·.2.connected) := by
    rw [wins, recorded_rows h]
    refine countP_kinds fun f => ?_
    cases hkind : f.kind.map Int8.toInt with
    | none => cases f <;> simp_all [Fate.kind, Fate.connected]
    | some kind =>
      have hconnected := (fate_kind hkind).2.1
      rw [Option.any_some, Bool.eq_iff_iff, decide_eq_true_iff]
      exact hconnected
  have hboth : wins (relative m.calls) + losses (relative m.calls) = m.scanner.events := by
    rw [wins_add_losses, recorded_rows h, List.length_filterMap_eq_countP, h.good.events,
      ← List.countP_eq_length_filter]
    refine List.countP_congr fun f _ => ?_
    cases hfate : f.2 <;> simp [Fate.kind]
  refine ⟨hprinted, ?_, ?_, ?_, ?_, hinv.sofar.1.trans hwins, ?_, ?_, ?_, ?_⟩
  · rw [hinv.mtlog, relative, List.map_map, List.pairwise_map]
    exact h.ordered.sorted.imp fun hle => by
      simp only [Function.comp]
      omega
  · intro r hr
    rw [hinv.mtlog, relative, List.map_map] at hr
    obtain ⟨c, hc, rfl⟩ := List.mem_map.mp hr
    have hle := firstTime_le h.ordered c hc
    simp only [Function.comp]
    omega
  · rw [hinv.packetfd, relative_fd, h.packets]
    exact ⟨rfl, h.good.counters.packetsSent⟩
  · rw [hinv.deltainfo, relative_delta, h.endings]
  · rw [hinv.sofar.1, hinv.sofar.2, hboth]
    exact ⟨rfl, h.good.counters.eventCount⟩
  · rw [hinv.sendinfo, TVec.column_ofRows _ (by decide), relative_sendinfo]
    exact h.sends
  · have hdeletes := h.deletes
    rw [hinv.delinfo, TVec.column_ofRows _ (by decide), relative_delinfo, Scan.Scanner.swept,
      ← List.countP_eq_length_filter]
    omega
  · rw [curvesAgree_iff_counts hinv rfl rfl rfl, wins, losses, totals_iff, recorded_rows h]
    constructor
    · intro hall f hf himmediate
      cases hfate : f.2 with
      | returned o =>
        have hkind : f.2.kind.map Int8.toInt = some (if o.Connects then 3 else 1 : Int8).toInt := by
          rw [hfate]
          rfl
        exact (fate_kind hkind).2.2.mp (hall _ (List.mem_filterMap.mpr ⟨f, hf, hkind⟩)) himmediate
      | event e =>
        rw [hfate] at himmediate
        cases himmediate
      | timedOut =>
        rw [hfate] at himmediate
        cases himmediate
    · intro hall kind hkind
      obtain ⟨f, hf, hkind⟩ := List.mem_filterMap.mp hkind
      exact (fate_kind hkind).2.2.mpr (hall f hf)

/-- The script has the records that were logged. -/
theorem recorded_rows_eq (h : Recorded cfg first m sendCount delCount fds) (hfirst : 0 < first) :
    shift 0 (m.calls.map (Call.read .little)) = relative m.calls := by
  refine (shift_iff .little m.calls).mpr ⟨?_, fun c _ => legible_little ?_ c⟩
  · cases hcalls : m.calls with
    | nil => exact Or.inr (List.forall_mem_nil _)
    | cons c calls =>
      have hwithin := (h.ordered.within c (hcalls ▸ List.mem_cons_self)).1
      refine Or.inl ?_
      show c.time.toNat ≠ 0
      omega
  · cases hcalls : m.calls with
    | nil => exact (by decide : 0 < 256 ^ 8)
    | cons c calls => exact c.time.toNat_lt

theorem recorded_subscripts (h : Recorded cfg first m sendCount delCount fds) :
    ∀ c ∈ m.calls, ∀ kind, c.kind? = some kind → (Python.subscript 5 kind).isSome := by
  intro c hc kind hkind
  have hmem : kind ∈ m.calls.filterMap Call.kind? := List.mem_filterMap.mpr ⟨c, hc, hkind⟩
  rw [recorded_kinds h] at hmem
  obtain ⟨f, -, hf⟩ := List.mem_filterMap.mp hmem
  have hrange := (fate_kind hf).1
  rw [subscript_kind hrange, kindAxis, if_pos hrange]
  rfl

theorem reread_connectTimeout {connectTimeout : Nat} (h : connectTimeout < 2 ^ 31) :
    reread32 .little (Int32.ofNat connectTimeout).toInt = connectTimeout := by
  rw [Scan.toInt_ofNat_lt h]
  exact ByteOrder.decodeInt_encodeInt (by omega) (by omega)

/-- Of what a run of such a build logs the script loses nothing: from the first bytes of the file it gets its tables
without a complaint, and from all of them what the scan has counted, and the time of every probe. The scan itself is
one of a build without `METRICS`. -/
theorem metrics_tell {entries : Int → SocketListEntry} {size : Int} (hfirst : 0 < first)
    (hconnectTimeout : cfg.connectTimeout < 2 ^ 31) (hmax : cfg.maxPendingSockets < 2 ^ 31)
    (hrun : Reaches (Measured.step cfg) (Reads cfg) (.start entries size first) m) :
    Reaches (Scan.step cfg) Scan.Answers (.start entries size) m.scanner ∧
      (∀ n, 4 ≤ n → ∃ v, parse ((log .little (.ofNat cfg.connectTimeout) m.calls).take n) = .ok true v ∧
        v.printed = [.ct cfg.connectTimeout]) ∧
      ∃ v, parse (log .little (.ofNat cfg.connectTimeout) m.calls) = .ok true v ∧ Tells cfg m v := by
  obtain ⟨fds, hrecorded⟩ := Scan.run_recorded hmax hrun
  have hsome : ∀ n, ∀ c ∈ complete m.calls n, ∀ kind, c.kind? = some kind → (Python.subscript 5 kind).isSome :=
    fun n c hc => recorded_subscripts hrecorded c (mem_complete hc)
  have hprinted : ∀ {n size : Nat} {v : Vars}, (complete m.calls n).foldlM (fun s c => s.handle (c.read .little))
      (Vars.start size (reread32 .little (Int32.ofNat cfg.connectTimeout).toInt)) = some v →
      v.printed = [.ct cfg.connectTimeout] := by
    intro n size v hv
    rw [reread_connectTimeout hconnectTimeout] at hv
    exact run_printed hv fun time start hmem => hrecorded.overdue time start (mem_complete hmem)
  have hhandled : ∀ n size, (complete m.calls n).foldlM (fun s c => s.handle (c.read .little))
      (Vars.start size (reread32 .little (Int32.ofNat cfg.connectTimeout).toInt)) ≠ none := by
    intro n size hnone
    obtain ⟨t, ht⟩ := (inv_start size _).run_some (hsome n)
    exact absurd (hnone.symm.trans ht) (by simp)
  refine ⟨Scan.reaches_of_measured hrun, fun n hn => ?_, ?_⟩
  · obtain ⟨size, ⟨hnone, -⟩ | ⟨v, hv, ⟨-, hend⟩ | ⟨-, mt, time, hend⟩⟩⟩ :=
      parse_take .little (.ofNat cfg.connectTimeout) m.calls hn
    · exact absurd hnone (hhandled _ _)
    · have hlines := hprinted hv
      exact ⟨_, hend, hlines⟩
    · have hlines := hprinted hv
      exact ⟨_, hend, hlines⟩
  · obtain ⟨hcomplete, htorn⟩ := complete_all .little m.calls
    have hlength : (log .little (.ofNat cfg.connectTimeout) m.calls).length =
        (m.calls.flatMap (Call.bytes .little)).length + 4 := by
      rw [log, metricsPrepare, List.length_append, length_word32, Nat.add_comm]
    obtain ⟨size, hcases⟩ := parse_take .little (.ofNat cfg.connectTimeout) m.calls
      (n := (log .little (.ofNat cfg.connectTimeout) m.calls).length) (by omega)
    rw [List.take_length, hlength, Nat.add_sub_cancel, htorn] at hcases
    rcases hcases with ⟨hnone, -⟩ | ⟨v, hv, ⟨-, hend⟩ | ⟨hlong, -⟩⟩
    · exact absurd hnone (hhandled _ _)
    · have hinv := ((inv_start size _).run hv).1
      have hrows : shift (Vars.start size (reread32 .little (Int32.ofNat cfg.connectTimeout).toInt)).firstPacket
          (m.calls.map (Call.read .little)) = relative m.calls := recorded_rows_eq hrecorded hfirst
      rw [hcomplete, List.nil_append, hrows] at hinv
      have htells := recorded_tells hrecorded hinv (hprinted hv)
      exact ⟨putInput [] v, hend, htells.printed, htells.sorted, htells.nonneg, htells.packets, htells.deltainfo,
        htells.score, htells.events, htells.sends, htells.deletes, htells.curves⟩
    · omega

end Run

def threeConfig : Config := ⟨1, 100, 0, 0, 10, 0, 80, 5600, 1000⟩

/-- One probe has an event, one is refused at once, and one is swept. -/
def threeInputs : List Scan.MeasuredInput :=
  let attempt (o : Scan.ConnectOutcome) (now : Nat) : Scan.MeasuredInput :=
    .attempt now ⟨0x0a000001, 80, 3, fun _ => none, o, now + 1, true⟩
  [attempt ⟨.done, some .inProgress, .done⟩ 5, .poll 7 8 false [((3, ⟨true, false, false⟩), 9)] 10 11 12,
    attempt ⟨.done, some .refused, .done⟩ 13, attempt ⟨.done, some .inProgress, .done⟩ 15,
    .poll 17 116 false [] 116 117 118]

theorem metrics_tell_three : ∃ v, (∃ calls, calls.length = 12 ∧ parse (log .little 100 calls) = .ok true v) ∧
    v.printed = [.ct 100] ∧ v.deltainfo = .ofRows 2 [[1, 3], [8, 0], [11, 100]] ∧ v.scoreSofar = 1 ∧
    ¬ CurvesAgree v := by
  have hview : (runSchedule (fun m i => if Reads threeConfig m i then Measured.step threeConfig m i else none)
      (.start (fun _ => ⟨0, 0, 0, 0, 0⟩) 10 4) threeInputs).map (fun m =>
        (m.calls.length,
          (endings m.sent m.scanner.fates m.ended).map (fun e => [e.1 - (firstTime m.calls : Int), e.2.1]),
          m.scanner.fates.countP (·.2.connected), m.scanner.fates.any (·.2.immediate))) =
      some (12, [[1, 3], [8, 0], [11, 100]], 1, true) := by
    decide +kernel
  obtain ⟨m, hrun, hm⟩ := Option.map_eq_some_iff.mp hview
  simp only [Prod.mk.injEq] at hm
  obtain ⟨hlength, hdeltainfo, hscore, himmediate⟩ := hm
  obtain ⟨-, -, v, hparse, htells⟩ :=
    @metrics_tell threeConfig 4 m _ _ (by decide) (by decide) (by decide) (reaches_of_runSchedule .start hrun)
  refine ⟨v, ⟨m.calls, hlength, hparse⟩, htells.printed, ?_, htells.score.trans hscore, fun hagree => ?_⟩
  · rw [htells.deltainfo, hdeltainfo]
  · obtain ⟨f, hf, hf'⟩ := List.any_eq_true.mp himmediate
    exact htells.curves.mp hagree f hf hf'

end Cscan.Metrics
