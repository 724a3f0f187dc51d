import Cscan.Cba.Lines
import Cscan.Results.Marker
import Cscan.Scan.Canary
import Cscan.Scan.Sent
import Cscan.Scan.Tallies
import Cscan.Worker.Replayed
import Mathlib.Algebra.BigOperators.Ring.Finset

/-! A scan as `cba_reader_cscan.py` reports it: the statistics and the events that the main thread has logged, and
the results, which go from `conn_thread` through the queue and the worker into the same file. -/

namespace Cscan.Worker

open Cscan.Lib
open Scan (Scanner statRecords)
open Blocking (Result Pipeline)
open Cba (LogCall Stat Entry)
open Rfb (ofChars)

/-! ### What the main thread logs -/

/-- `"Can't bind to port %d"`. -/
def cantBind (port : Int32) : List Char := "Can't bind to port ".toList ++ Scanf.printInteger port.toInt

def possibleClash : List Char := "possible clash".toList

/-- The call of `log.c` for an entry, at a time. -/
def logCall (time : Int64) : Scan.Log → LogCall
  | .stats _ _ newEvents newResults => .stats time newEvents newResults
  | .cantBind port => .event (ofChars (cantBind port))
  | .possibleClash => .event (ofChars possibleClash)
  | .canaryFail _ gotReply => .canaryFail gotReply

def logCalls (times : Nat → Int64) (logs : List Scan.Log) (n : Nat) : List LogCall :=
  (logs.zipIdx n).map fun p => logCall (times p.2) p.1

/-- `log_stats_every`, what `conn_thread` has logged when it returns, and the last `print_stats`. What `time(NULL)`
returns for the entry `n` is `times n`. -/
def scanLog (cfg : Scan.Config) (times : Nat → Int64) (s : Scanner) : List LogCall :=
  .statsEvery (Int32.ofNat cfg.statsEvery) :: logCalls times s.printStats.logs 0

theorem ascii_cantBind {port : Int32} {c : Char} (hc : c ∈ cantBind port) : Ascii c := by
  rcases List.mem_append.mp hc with hc | hc
  · have hall : ("Can't bind to port ".toList.all fun c => decide (Ascii c)) = true := by decide +kernel
    exact of_decide_eq_true (List.all_eq_true.mp hall c hc)
  · rcases (Scanf.isNumber_printInteger _).1.mem hc with h | rfl | rfl
    · exact ascii_of_isDigit h
    · decide
    · decide

theorem ascii_possibleClash {c : Char} (hc : c ∈ possibleClash) : Ascii c := by
  have hall : (possibleClash.all fun c => decide (Ascii c)) = true := by decide +kernel
  exact of_decide_eq_true (List.all_eq_true.mp hall c hc)

theorem length_cantBind (port : Int32) : (cantBind port).length ≤ 30 := by
  have htext : "Can't bind to port ".toList.length ≤ 19 := by decide +kernel
  have hlength := Nat.add_le_add htext (length_printInteger port)
  exact List.length_append.trans_le hlength

theorem short_clipped {text : List Char} (hascii : ∀ c ∈ text, Ascii c) (hlength : text.length ≤ 30) :
    (LogCall.event (ofChars text)).clipped = .event (ofChars text) := by
  have hbytes : (ofChars text).length < Cba.cbaMaxBuff := by
    rw [ofChars, List.length_map]
    exact Nat.lt_of_le_of_lt hlength (by decide)
  exact congrArg LogCall.event (Cba.formatted_plain (ofChars_plain hascii) hbytes)

/-- The texts are in the file as they are. -/
theorem logCall_clipped (time : Int64) (l : Scan.Log) : (logCall time l).clipped = logCall time l := by
  cases l with
  | cantBind port => exact @short_clipped (cantBind port) (fun c => ascii_cantBind) (length_cantBind port)
  | possibleClash => exact @short_clipped possibleClash (fun c => ascii_possibleClash) (by decide +kernel)
  | _ => rfl

theorem scanLog_clipped (cfg : Scan.Config) (times : Nat → Int64) (s : Scanner) :
    (scanLog cfg times s).map LogCall.clipped = scanLog cfg times s := by
  rw [scanLog, List.map_cons, logCalls, List.map_map]
  refine congrArg _ (List.map_congr_left fun p _ => ?_)
  exact logCall_clipped _ _

/-! ### The records -/

section Records

variable {τ : Type} {fromtimestamp : Int → Option τ} {times : Nat → Int64}

theorem logCalls_times (htimes : ∀ n, (fromtimestamp (times n).toInt).isSome) (logs : List Scan.Log) (n : Nat) :
    ∀ r ∈ (logCalls times logs n).filterMap LogCall.record, (fromtimestamp r.1).isSome := by
  intro r hr
  obtain ⟨c, hc, hrecord⟩ := List.mem_filterMap.mp hr
  obtain ⟨⟨l, k⟩, -, rfl⟩ := List.mem_map.mp hc
  cases l with
  | stats packets results newEvents newResults =>
    cases hrecord
    exact htimes k
  | _ => cases hrecord

/-- The numbers of new events and new results in the file are those that were logged. -/
theorem logCalls_stats (htimes : ∀ n, (fromtimestamp (times n).toInt).isSome) (logs : List Scan.Log) (n : Nat) :
    ((logCalls times logs n).filterMap (LogCall.stat fromtimestamp)).map (fun s => (s.eventCount, s.resultCount)) =
      (statRecords logs).map fun r => (r.1.toInt, r.2.toInt) := by
  induction logs generalizing n with
  | nil => rfl
  | cons l logs ih =>
    have hcons : logCalls times (l :: logs) n = logCall (times n) l :: logCalls times logs (n + 1) := rfl
    rw [hcons, List.filterMap_cons]
    cases l with
    | stats packets results newEvents newResults =>
      obtain ⟨ts, hts⟩ := Option.isSome_iff_exists.mp (htimes n)
      simp only [logCall, LogCall.stat, LogCall.record, Option.bind_some, hts, Option.map_some, List.map_cons, ih]
      rfl
    | _ => exact ih (n + 1)

/-- What is logged of a scan whose counters do not overflow. -/
theorem scanLog_stats {cfg : Scan.Config} {s : Scanner} (htallied : Scan.Tallied cfg s) (hfew : s.probes < 2 ^ 31)
    (hevents : s.events ≤ s.probes) (hresults : s.results.length ≤ s.events)
    (htimes : ∀ n, (fromtimestamp (times n).toInt).isSome) :
    let stats := (scanLog cfg times s).filterMap (LogCall.stat fromtimestamp)
    ∃ records : List (Nat × Nat), stats.map Stat.eventCount = (records.map Prod.fst).map Nat.cast ∧
      stats.map Stat.resultCount = (records.map Prod.snd).map Nat.cast ∧
      records.length = s.probes / cfg.statsEvery + 1 ∧
      (records.map Prod.fst).sum = s.events ∧ (records.map Prod.snd).sum = s.results.length := by
  intro stats
  obtain ⟨records, htallies⟩ := htallied
  obtain ⟨hsumEvents, hsumResults⟩ := htallies.toSums.total
  have hlogged := htallies.toSums.printStats.logged
  have hstats : stats.map (fun s => (s.eventCount, s.resultCount)) =
      (statRecords s.printStats.logs).map fun r => (r.1.toInt, r.2.toInt) := logCalls_stats htimes s.printStats.logs 0
  rw [hlogged, List.map_map] at hstats
  have hstats : stats.map (fun s => (s.eventCount, s.resultCount)) =
      (records ++ [s.unlogged records]).map fun r => ((r.1 : Int), (r.2 : Int)) := by
    refine hstats.trans (List.map_congr_left fun r hr => ?_)
    have hfst : r.1 ≤ s.events := hsumEvents ▸ List.le_sum_of_mem (List.mem_map_of_mem hr)
    have hsnd : r.2 ≤ s.results.length := hsumResults ▸ List.le_sum_of_mem (List.mem_map_of_mem hr)
    refine Prod.ext ?_ ?_
    · exact Int32.toInt_ofNat_of_lt (by omega)
    · exact Int32.toInt_ofNat_of_lt (by omega)
  have hevents := congrArg (List.map Prod.fst) hstats
  have hresults := congrArg (List.map Prod.snd) hstats
  rw [List.map_map, List.map_map] at hevents hresults
  refine ⟨records ++ [s.unlogged records], ?_, ?_, ?_, hsumEvents, hsumResults⟩
  · rw [List.map_map]
    exact hevents
  · rw [List.map_map]
    exact hresults
  · rw [List.length_append, htallies.due hfew]
    rfl

end Records

/-! ### The entry of the main thread -/

section Printed

variable {m : Modules} {jobs : List Job} {calls : List Cba.Call} {log : List LogCall} {s : Cba.Sys Role}

def logEntry (log : List LogCall) : Entry := .ofEvents (Cba.latin1 Cba.cscanName) (log.flatMap LogCall.logged)

theorem mainSection_entry (hlog : log ≠ []) :
    (Cba.mainSection log).entry = some (logEntry (log.map LogCall.clipped)) := by
  obtain ⟨c, rest, rfl⟩ := List.exists_cons_of_ne_nil hlog
  have hevents : (Cba.mainSection (c :: rest)).events ≠ [] := by
    cases c <;> exact List.cons_ne_nil _ _
  rw [Cba.Section.entry, if_neg hevents, Cba.mainSection, List.map_flatMap]
  rfl

theorem sections_named (w : Work) : (w.sections.filter fun s => Cba.latin1 s.name = Cba.latin1 Cba.cscanName) = [] := by
  obtain ⟨r, print, vnc, x11⟩ := w
  cases print <;> cases vnc <;> cases x11 <;> rfl

/-- The main thread has one entry, and it is the only one of `"cscan"`. -/
theorem main_pass (hcalls : processThread m jobs = some calls) (hrun : Writing log calls s) (hdone : Finished s)
    (hlog : log ≠ []) (cfg : Cba.Config) :
    (Cba.entries cfg (some (Cba.latin1 Cba.cscanName)) (Cba.newReader s.file)).1 =
      ⟨[(0, logEntry (log.map LogCall.clipped))], none⟩ := by
  obtain ⟨works, -, hwrites⟩ := program_writes log hcalls
  have hread := Cba.finished_readBack tid_injective hwrites hrun hdone cfg (some (Cba.latin1 Cba.cscanName))
  refine (hread.alone .main fun i hi => ?_).trans ?_
  · cases i with
    | main => exact absurd rfl hi
    | worker =>
      rw [filter_entries, sections, List.filter_flatMap, List.flatMap_eq_nil_iff.mpr fun w _ => sections_named w]
      rfl
  · rw [sections, List.filterMap_cons, mainSection_entry hlog]
    rfl

/-- The lines of the statistics of a scan. -/
structure ShowsScan {τ : Type} (fromtimestamp : Int → Option τ) (cfg : Scan.Config) (sc : Scanner) (log : List LogCall)
    (lines : List (Cba.Line τ)) : Prop where
  printed : ∃ least most, lines = Cba.canaryFailed log ++ log.filterMap (LogCall.line fromtimestamp) ++
    [.minEvents least, .maxEvents most] ∧ Cba.Extremes (lines.filterMap Cba.Line.stat?) least most
  due : ∃ n, (lines.filterMap Cba.Line.stat?).length = n + 1 ∧ cfg.statsEvery * n ≤ sc.probes ∧
    sc.probes < cfg.statsEvery * (n + 1)
  events : ((lines.filterMap Cba.Line.stat?).map Stat.eventCount).sum = (sc.fates.filter (·.2 ≠ .timedOut)).length
  results : ((lines.filterMap Cba.Line.stat?).map Stat.resultCount).sum = sc.results.length

theorem shown_stats {τ : Type} {fromtimestamp : Int → Option τ} (log : List LogCall) (least most : Stat τ) :
    (Cba.canaryFailed log ++ log.filterMap (LogCall.line fromtimestamp) ++
      [Cba.Line.minEvents least, Cba.Line.maxEvents most]).filterMap Cba.Line.stat? =
        log.filterMap (LogCall.stat fromtimestamp) := by
  rw [List.filterMap_append, List.filterMap_append, Cba.canaryFailed_stats, Cba.lines_stats, List.nil_append]
  exact List.append_nil _

/-- Of a scan in which a probe has ended with an event, all that `conn_thread` has logged is printed in its order, and
the numbers of new events and new results add up to those of the whole scan. Without an event there is an exception.
The number of packets is an `int`. -/
theorem stats_printed {τ : Type} {fromtimestamp : Int → Option τ} {times : Nat → Int64} {cfg : Scan.Config}
    {sockets : Int → Scan.SocketListEntry} {size : Int} {sc : Scanner}
    (hscan : Reaches (Scan.step cfg) Scan.Answers (.start sockets size) sc) (hevery : 0 < cfg.statsEvery)
    (hpackets : sc.probes < 2 ^ 31) (htimes : ∀ n, (fromtimestamp (times n).toInt).isSome)
    (hcalls : processThread m jobs = some calls) (hrun : Writing (scanLog cfg times sc) calls s) (hdone : Finished s)
    (reader : Cba.Config) :
    ∃ entry, (Cba.entries reader (some (Cba.latin1 Cba.cscanName)) (Cba.newReader s.file)).1 = ⟨[(0, entry)], none⟩ ∧
      ((∀ p ∈ sc.fates, p.2 = .timedOut) → Cba.handleCscanEntry fromtimestamp entry = .error .type) ∧
      ((∃ p ∈ sc.fates, p.2 ≠ .timedOut) → ∃ lines, Cba.handleCscanEntry fromtimestamp entry = .ok lines ∧
        ShowsScan fromtimestamp cfg sc (scanLog cfg times sc) lines) := by
  obtain ⟨fds, hgood⟩ := Scan.run_good hscan
  obtain ⟨hevents, hresults⟩ := hgood.counts_le
  obtain ⟨records, hstatEvents, hstatResults, hlength, hsumEvents, hsumResults⟩ :=
    @scanLog_stats τ fromtimestamp times cfg sc (Scan.run_tallied hscan) hpackets hevents hresults htimes
  have hrecords : ∀ r ∈ (scanLog cfg times sc).filterMap LogCall.record, (fromtimestamp r.1).isSome :=
    logCalls_times htimes sc.printStats.logs 0
  have hcounts := (Cba.stats_events hrecords).symm.trans hstatEvents
  have hentry := main_pass hcalls hrun hdone (List.cons_ne_nil _ _) reader
  rw [scanLog_clipped] at hentry
  obtain ⟨hnone, hsome⟩ := Cba.handle_lines (Cba.latin1 Cba.cscanName) hrecords
  refine ⟨_, hentry, fun htimedOut => hnone fun r hr => ?_, fun ⟨p, hp, hevent⟩ => ?_⟩
  · have hzero : sc.events = 0 := by
      rw [hgood.events, List.length_eq_zero_iff, List.filter_eq_nil_iff]
      intro p hp
      simpa using htimedOut p hp
    obtain ⟨n, hn, hcount⟩ := List.mem_map.mp (hcounts ▸ List.mem_map_of_mem hr)
    have hle : n ≤ (records.map Prod.fst).sum := List.le_sum_of_mem hn
    omega
  · have hpos : 0 < sc.events := by
      rw [hgood.events]
      exact List.length_pos_of_mem (List.mem_filter.mpr ⟨hp, decide_eq_true hevent⟩)
    obtain ⟨n, hn, hne⟩ := List.exists_mem_ne_zero_of_sum_ne_zero (hsumEvents ▸ hpos.ne')
    obtain ⟨r, hr, hnew⟩ := List.mem_map.mp (hcounts.symm ▸ List.mem_map_of_mem (f := Nat.cast) hn)
    obtain ⟨least, most, hlines, hextremes⟩ := hsome ⟨r, hr, by omega⟩
    have hstats := @shown_stats τ fromtimestamp (scanLog cfg times sc) least most
    refine ⟨_, hlines, ⟨⟨least, most, rfl, hstats.symm ▸ hextremes⟩, ?_, ?_, ?_⟩⟩
    · have hnumber := congrArg List.length hstatEvents
      rw [List.length_map, List.length_map, List.length_map, hlength] at hnumber
      rw [hstats]
      exact ⟨_, hnumber, Nat.mul_div_le .., Nat.lt_mul_div_succ _ hevery⟩
    · rw [hstats, hstatEvents, ← Nat.cast_list_sum, hsumEvents, hgood.events]
    · rw [hstats, hstatResults, ← Nat.cast_list_sum, hsumResults]

/-! ### The results of a scan -/

/-- The destinations of the probes that succeeded, but for the canary, in the order in which the probes ended. -/
def reached (cfg : Scan.Config) (t : Scan.Tracked) : List Result :=
  (t.scanner.fates.filter fun p => p.2.succeeded ∧ ¬ Scan.IsCanary cfg p.1).filterMap fun p =>
    (t.sent[p.1]?).map fun d => ⟨d.1, d.2⟩

/-- What is queued are the destinations of the probes that succeeded. -/
theorem queued_reached {cfg : Scan.Config} {t : Scan.Tracked} {fds : List Int}
    (hcarries : Scan.Carries cfg t.sent t.scanner fds) (hfaithful : Scan.Faithful cfg t.scanner) :
    Results.queued t.scanner = reached cfg t := by
  have hprobes : reached cfg t = (t.scanner.results.map Scan.Result.probe).filterMap fun n =>
      (t.sent[n]?).map fun d => (⟨d.1, d.2⟩ : Result) := by
    rw [hfaithful.results, List.filterMap_map]
    rfl
  rw [hprobes, List.filterMap_map, Results.queued, ← List.filterMap_eq_map]
  refine List.filterMap_congr fun r hr => ?_
  simp only [Function.comp_apply, hcarries.results r hr, Option.map_some]

/-- Of a scan in which the canary is kept apart and no probe goes to 0.0.0.0, the printed results are the destinations
of the probes that succeeded, in the order in which they ended, as far as they pass the check. -/
theorem probes_printed {cfg : Scan.Config} {sockets : Int → Scan.SocketListEntry} {size : Int} {t : Scan.Tracked}
    (hscan : Reaches (Scan.Tracked.step cfg) (fun t i => Scan.Answers t.scanner i ∧ Scan.Keeps cfg t.scanner i)
      (.start sockets size) t)
    (hsent : ∀ d ∈ t.sent, d.1 ≠ 0) {order : ByteOrder} {malloc : Nat → List UInt8}
    (hmalloc : Blocking.Allocates malloc) {capacity : Nat} (hcapacity : 1 ≤ capacity)
    (hproduct : capacity * 8 < 2 ^ 31) {p : Pipeline}
    (hp : Pipeline.Runs order malloc capacity (Results.queued t.scanner) p) (hexited : p.worker = .exited)
    (hjobs : jobs.map Prod.fst = p.execs) (hcalls : processThread m jobs = some calls) {times : Nat → Int64}
    (hrun : Writing (scanLog cfg times t.scanner) calls s) (hdone : Finished s) (opened : Nat → Bool) :
    jobs.map Prod.fst = reached cfg t ∧ (∀ p ∈ t.scanner.fates, p.1 < t.sent.length) ∧
    Cba.printResults opened s.file =
      ⟨(jobs.filter fun j => passes m j && m.print).map fun j => .text (address j.1), none⟩ ∧
    (m.print = true → m.cookie.on = false → Cba.printResults opened s.file =
      ⟨(reached cfg t).map fun r => .text (address r), none⟩) := by
  have hplain : Reaches (Scan.step cfg) (fun s i => Scan.Answers s i ∧ Scan.Keeps cfg s i) (.start sockets size)
      t.scanner := Scan.reaches_of_tracked (fun _ _ => id) hscan
  obtain ⟨fds, hreported⟩ := hplain.invariant (fun s => ∃ fds, Scan.Reported cfg s fds)
    ⟨[], Scan.start_reported cfg sockets size⟩
    fun _ _ _ ⟨_, hreported⟩ hguard hstep => hreported.step hguard.1 hguard.2 hstep
  obtain ⟨fds', hcarries⟩ := Scan.run_carries (fun _ _ => And.left) hscan
  have hqueued := queued_reached hcarries hreported.faithful
  have hresults : ∀ r ∈ Results.queued t.scanner, r.ip ≠ 0 := by
    rw [Results.queued_ne_zero_iff]
    intro r hr
    exact hsent _ (List.mem_of_getElem? (hcarries.results r hr))
  have hexecs := ((hp.inv hmalloc hcapacity hproduct hresults).exited hresults hexited).1
  rw [hexecs] at hjobs
  have hprinted := printResults_eq hcalls hrun hdone opened
  rw [handled_eq (hjobs ▸ hresults)] at hprinted
  refine ⟨hjobs.trans hqueued, fun p hp => ?_, hprinted, fun hprint hoff => ?_⟩
  · have hmem := hreported.good.probes.mem_iff.mp (List.mem_append_left _ (List.mem_map_of_mem hp))
    exact hcarries.length ▸ List.mem_range.mp hmem
  · have hall : (jobs.filter fun j => passes m j && m.print) = jobs := by
      rw [List.filter_eq_self]
      intro j _
      rw [passes_of_off hoff, hprint]
      rfl
    rw [hprinted, hall, ← hqueued, ← hjobs, List.map_map]
    rfl

end Printed

/-! ### A scan of two probes -/

def pairConfig : Scan.Config := ⟨1, 100, 0, 0, 10, 0, 80, 5600, 2⟩

def pairAttempt (o : Scan.ConnectOutcome) (ip : UInt32) : Scan.Input := .attempt ⟨ip, 80, 3, fun _ => none, o, 0, true⟩

/-- A probe that connects with an event, and another one, which is refused on the same socket. -/
def pairInputs : List Scan.Input :=
  [pairAttempt ⟨.done, some .inProgress, .done⟩ 0x0a000001, .poll 0 [(3, ⟨true, false, false⟩)] 0,
    pairAttempt ⟨.done, some .refused, .done⟩ 0x0a000002]

/-- The scan runs and its log is written, and then the worker writes the result. -/
theorem pair_runs : ∃ t calls s,
    Reaches (Scan.Tracked.step pairConfig) (fun t i => Scan.Answers t.scanner i ∧ Scan.Keeps pairConfig t.scanner i)
      (.start (fun _ => ⟨0, 0, 0, 0, 0⟩) 10) t ∧
    (t.sent = [(0x0a000001, 80), (0x0a000002, 80)] ∧ Results.queued t.scanner = [⟨0x0a000001, 80⟩] ∧
      t.scanner.probes = 2 ∧ t.scanner.fates.any (·.2 ≠ .timedOut) = true) ∧
    processThread { print := true } oneJob = some calls ∧
    Writing (scanLog pairConfig (fun _ => 7) t.scanner) calls s ∧ Finished s := by
  have hview : ((runSchedule (fun t i => if Scan.Answers t.scanner i ∧ Scan.Keeps pairConfig t.scanner i then
        Scan.Tracked.step pairConfig t i else none) (.start (fun _ => ⟨0, 0, 0, 0, 0⟩) 10) pairInputs).bind fun t =>
      (processThread { print := true } oneJob).bind fun calls =>
        (runSchedule (fun s i => if Cba.Sys.Alone s i then Cba.Sys.step .little s i else none)
          (Cba.Sys.start .little Role.tid (program (scanLog pairConfig (fun _ => 7) t.scanner) calls))
          (List.replicate 40 .main ++ List.replicate 8 .worker)).map fun s =>
      (t.sent, Results.queued t.scanner, t.scanner.probes, t.scanner.fates.any (·.2 ≠ .timedOut),
        allReturned s)) =
    some ([(0x0a000001, 80), (0x0a000002, 80)], [⟨0x0a000001, 80⟩], 2, true, true) := by
    decide +kernel
  obtain ⟨t, hscan, hview⟩ := Option.bind_eq_some_iff.mp hview
  obtain ⟨calls, hcalls, hview⟩ := Option.bind_eq_some_iff.mp hview
  obtain ⟨s, hrun, hs⟩ := Option.map_eq_some_iff.mp hview
  simp only [Prod.mk.injEq] at hs
  obtain ⟨hsent, hqueued, hpackets, hfates, hreturned⟩ := hs
  exact ⟨t, calls, s, reaches_of_runSchedule .start hscan, ⟨hsent, hqueued, hpackets, hfates⟩, hcalls,
    reaches_of_runSchedule .start hrun, finished_of_allReturned hreturned⟩

theorem stats_printed_pair : ∃ t calls s, processThread { print := true } oneJob = some calls ∧
    Writing (scanLog pairConfig (fun _ => 7) t) calls s ∧ Finished s ∧
    ∃ entry lines, (Cba.entries (Cba.plainConfig fun _ => true) (some (Cba.latin1 Cba.cscanName))
        (Cba.newReader s.file)).1 = ⟨[(0, entry)], none⟩ ∧
      Cba.handleCscanEntry some entry = .ok lines ∧
      ShowsScan some pairConfig t (scanLog pairConfig (fun _ => 7) t) lines := by
  obtain ⟨t, calls, s, hscan, ⟨-, -, hpackets, hfates⟩, hcalls, hrun, hdone⟩ := pair_runs
  have hanswers : Reaches (Scan.step pairConfig) Scan.Answers (.start (fun _ => ⟨0, 0, 0, 0, 0⟩) 10) t.scanner :=
    Scan.reaches_of_tracked (fun _ _ => And.left) hscan
  have htimes : ∀ n : Nat, ((some : Int → Option Int) ((fun _ => 7 : Nat → Int64) n).toInt).isSome = true :=
    fun _ => rfl
  obtain ⟨entry, hentry, -, hlines⟩ := stats_printed hanswers (by decide) (by rw [hpackets]; decide) htimes hcalls
    hrun hdone (Cba.plainConfig fun _ => true)
  obtain ⟨p, hp, hevent⟩ := List.any_eq_true.mp hfates
  obtain ⟨lines, hhandled, hreported⟩ := hlines ⟨p, hp, of_decide_eq_true hevent⟩
  exact ⟨t.scanner, calls, s, hcalls, hrun, hdone, entry, lines, hentry, hhandled, hreported⟩

/-- Only the probe to 10.0.0.1 has connected. -/
theorem probes_printed_pair : ∃ t calls s, processThread { print := true } oneJob = some calls ∧
    Writing (scanLog pairConfig (fun _ => 7) t) calls s ∧ Finished s ∧
    Cba.printResults (fun _ => true) s.file = ⟨[.text "10.0.0.1:80".toList], none⟩ := by
  obtain ⟨t, calls, s, hscan, ⟨hsent, hqueued, -⟩, hcalls, hrun, hdone⟩ := pair_runs
  have hpipeline : (runSchedule (fun p a => if Pipeline.Allows p a then Pipeline.step .little p a else none)
      (Pipeline.start Blocking.zeroed 1 [⟨0x0a000001, 80⟩]) Pipeline.fullRing).map
        (fun p => (p.worker, p.execs)) = some (.exited, [⟨0x0a000001, 80⟩]) := by
    decide +kernel
  obtain ⟨p, hp, hview⟩ := Option.map_eq_some_iff.mp hpipeline
  simp only [Prod.mk.injEq] at hview
  rw [← hqueued] at hp
  refine ⟨t.scanner, calls, s, hcalls, hrun, hdone, ?_⟩
  have hne : ∀ d ∈ t.sent, d.1 ≠ 0 := by simp [hsent]
  have hjobs : oneJob.map Prod.fst = p.execs := hview.2.symm
  have hprinted := (probes_printed hscan hne Blocking.zeroed_allocates (by decide) (by decide)
    (reaches_of_runSchedule .start hp) hview.1 hjobs hcalls hrun hdone fun _ => true).2.2.1
  rw [hprinted]
  decide +kernel

end Cscan.Worker
