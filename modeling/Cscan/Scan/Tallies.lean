import Cscan.Lib.Runs
import Cscan.Scan.Probes
import Mathlib.Algebra.BigOperators.Group.List.Basic
import Mathlib.Data.Nat.ModEq

/-! The statistics that `conn_thread` logs, over whole runs: the numbers of new events and of new results in the
log add up to the counters, and a record is logged every `stats_every` packets. -/

namespace Cscan.Scan

open Cscan.Lib

/-- The last two arguments of a `log_stats`. -/
def Log.record : Log → Option (Int32 × Int32)
  | .stats _ _ newEvents newResults => some (newEvents, newResults)
  | _ => none

def statRecords (logs : List Log) : List (Int32 × Int32) := logs.filterMap Log.record

theorem statRecords_append (logs logs' : List Log) :
    statRecords (logs ++ logs') = statRecords logs ++ statRecords logs' := List.filterMap_append

/-- What was logged are these numbers as ints. They add up to the numbers of events and of results when the last
record was logged. -/
structure Sums (s : Scanner) (records : List (Nat × Nat)) : Prop where
  logged : statRecords s.logs = records.map fun r => (.ofNat r.1, .ofNat r.2)
  lastEventCount : s.lastEventCount = .ofNat (records.map Prod.fst).sum
  lastResultCount : s.lastResultCount = .ofNat (records.map Prod.snd).sum
  lastEvents : (records.map Prod.fst).sum ≤ s.events
  lastResults : (records.map Prod.snd).sum ≤ s.results.length
  counters : Counters s

/-- The records of the packets that were sent; they are due as expected while the number of packets is an `int`. -/
structure Tallies (cfg : Config) (s : Scanner) (records : List (Nat × Nat)) : Prop extends Sums s records where
  due : s.probes < 2 ^ 31 → records.length = s.probes / cfg.statsEvery

def Tallied (cfg : Config) (s : Scanner) : Prop := ∃ records, Tallies cfg s records

variable {cfg : Config} {s s' : Scanner} {records : List (Nat × Nat)}

theorem start_tallied (cfg : Config) (entries : Int → SocketListEntry) (size : Int) :
    Tallied cfg (.start entries size) :=
  ⟨[], ⟨rfl, rfl, rfl, Nat.le_refl 0, Nat.le_refl 0, rfl, rfl, rfl⟩, fun _ => (Nat.zero_div _).symm⟩

/-! ### The counters -/

/-- What the statistics are about. -/
def Scanner.tally (s : Scanner) :=
  (s.packetsSent, s.resultCount, s.eventCount, s.lastEventCount, s.lastResultCount, s.probes, s.events, s.results,
    s.logs)

theorem Tallied.congr (h : Tallied cfg s) (heq : s'.tally = s.tally) : Tallied cfg s' := by
  obtain ⟨records, hsums, hdue⟩ := h
  simp only [Scanner.tally, Prod.mk.injEq] at heq
  obtain ⟨hpackets, hresultCount, heventCount, hlastEvents, hlastResults, hprobes, hevents, hresults, hlogs⟩ := heq
  refine ⟨records, ⟨?_, ?_, ?_, ?_, ?_, ?_, ?_, ?_⟩, ?_⟩
  · rw [hlogs]
    exact hsums.logged
  · rw [hlastEvents]
    exact hsums.lastEventCount
  · rw [hlastResults]
    exact hsums.lastResultCount
  · rw [hevents]
    exact hsums.lastEvents
  · rw [hresults]
    exact hsums.lastResults
  · rw [hpackets, hprobes]
    exact hsums.counters.packetsSent
  · rw [heventCount, hevents]
    exact hsums.counters.eventCount
  · rw [hresultCount, hresults]
    exact hsums.counters.resultCount
  · rw [hprobes]
    exact hdue

/-- Entries that are no statistics leave the records alone. -/
theorem Tallied.logged (h : Tallied cfg s) {logs : List Log} (hlogs : statRecords logs = statRecords s.logs) :
    Tallied cfg { s with logs := logs } := by
  obtain ⟨records, hsums, hdue⟩ := h
  have hcounters := hsums.counters
  exact ⟨records, ⟨hlogs.trans hsums.logged, hsums.lastEventCount, hsums.lastResultCount, hsums.lastEvents,
    hsums.lastResults, ⟨hcounters.packetsSent, hcounters.eventCount, hcounters.resultCount⟩⟩, hdue⟩

theorem Tallied.log (h : Tallied cfg s) {entry : Log} (hentry : entry.record = none) :
    Tallied cfg (s.log entry) := by
  refine h.logged ?_
  rw [statRecords_append, statRecords, statRecords, List.filterMap_cons, hentry]
  exact List.append_nil _

theorem Tallied.queueResult (h : Tallied cfg s) (probe : Nat) (ip : UInt32) (port : Int32) :
    Tallied cfg (s.queueResult probe ip port) := by
  obtain ⟨records, hsums, hdue⟩ := h
  have hcounters := hsums.counters
  refine ⟨records, ⟨hsums.logged, hsums.lastEventCount, hsums.lastResultCount, hsums.lastEvents, ?_,
    ⟨hcounters.packetsSent, hcounters.eventCount, ?_⟩⟩, hdue⟩
  · simp only [Scanner.queueResult, List.length_append]
    exact Nat.le_add_right_of_le hsums.lastResults
  · simp only [Scanner.queueResult, List.length_append, hcounters.resultCount]
    exact (Int32.ofNat_add ..).symm

theorem Tallied.event (h : Tallied cfg s) :
    Tallied cfg { s with eventCount := s.eventCount + 1, events := s.events + 1 } := by
  obtain ⟨records, hsums, hdue⟩ := h
  have hcounters := hsums.counters
  refine ⟨records, ⟨hsums.logged, hsums.lastEventCount, hsums.lastResultCount, Nat.le_succ_of_le hsums.lastEvents,
    hsums.lastResults, ⟨hcounters.packetsSent, ?_, hcounters.resultCount⟩⟩, hdue⟩
  dsimp only
  rw [hcounters.eventCount]
  exact (Int32.ofNat_add ..).symm

/-- What is new since these records. -/
def Scanner.unlogged (s : Scanner) (records : List (Nat × Nat)) : Nat × Nat :=
  (s.events - (records.map Prod.fst).sum, s.results.length - (records.map Prod.snd).sum)

theorem Sums.total (h : Sums s records) :
    ((records ++ [s.unlogged records]).map Prod.fst).sum = s.events ∧
      ((records ++ [s.unlogged records]).map Prod.snd).sum = s.results.length := by
  have hevents := h.lastEvents
  have hresults := h.lastResults
  simp only [List.map_append, List.sum_append, List.map_cons, List.map_nil, List.sum_singleton, Scanner.unlogged]
  omega

/-- A record has in it what is new since the last one. -/
theorem Sums.printStats (h : Sums s records) : Sums s.printStats (records ++ [s.unlogged records]) := by
  obtain ⟨hsumEvents, hsumResults⟩ := h.total
  refine ⟨?_, ?_, ?_, hsumEvents.le, hsumResults.le, ?_⟩
  · have hlogs : statRecords s.printStats.logs = statRecords s.logs ++
        [(s.eventCount - s.lastEventCount, s.resultCount - s.lastResultCount)] := statRecords_append ..
    rw [hlogs, h.logged, h.counters.eventCount, h.counters.resultCount, h.lastEventCount, h.lastResultCount,
      ← Int32.ofNat_sub _ _ h.lastEvents, ← Int32.ofNat_sub _ _ h.lastResults, List.map_append]
    rfl
  · rw [hsumEvents]
    exact h.counters.eventCount
  · rw [hsumResults]
    exact h.counters.resultCount
  · exact ⟨h.counters.packetsSent, h.counters.eventCount, h.counters.resultCount⟩

/-- The statistics are logged whenever another `stats_every` packets have been sent. -/
theorem Tallied.count (h : Tallied cfg s) (hasEnded : Prop) [Decidable hasEnded] :
    Tallied cfg (s.count cfg hasEnded) := by
  obtain ⟨records, hsums, hdue⟩ := h
  have hcounters := hsums.counters
  have hcounted : Sums { s with
      packetsSent := s.packetsSent + 1
      probes := s.probes + 1
      eventCount := if hasEnded then s.eventCount + 1 else s.eventCount
      events := if hasEnded then s.events + 1 else s.events } records := by
    refine ⟨hsums.logged, hsums.lastEventCount, hsums.lastResultCount, ?_, hsums.lastResults, ?_, ?_,
      hcounters.resultCount⟩
    · have hlast := hsums.lastEvents
      dsimp only
      split_ifs <;> omega
    · dsimp only
      rw [hcounters.packetsSent]
      exact (Int32.ofNat_add ..).symm
    · dsimp only
      rw [hcounters.eventCount]
      split_ifs
      · exact (Int32.ofNat_add ..).symm
      · rfl
  have hmod : s.probes + 1 < 2 ^ 31 →
      ((s.packetsSent + 1).toInt.tmod cfg.statsEvery = 0 ↔ (s.probes + 1) % cfg.statsEvery = 0) := by
    intro hfew
    have hpackets : s.packetsSent + 1 = .ofNat (s.probes + 1) := hcounted.counters.packetsSent
    rw [hpackets, Int32.toInt_ofNat_of_lt hfew, ← Int.ofNat_tmod]
    exact Int.natCast_eq_zero
  unfold Scanner.count
  dsimp only
  by_cases hprints : (s.packetsSent + 1).toInt.tmod cfg.statsEvery = 0
  · rw [if_pos hprints]
    refine ⟨_, hcounted.printStats, fun hfew => ?_⟩
    have hfew : s.probes + 1 < 2 ^ 31 := hfew
    show _ = (s.probes + 1) / cfg.statsEvery
    rw [List.length_append, hdue (by omega), Nat.succ_div, if_pos (Nat.dvd_of_mod_eq_zero ((hmod hfew).mp hprints))]
    rfl
  · rw [if_neg hprints]
    refine ⟨records, hcounted, fun hfew => ?_⟩
    have hfew : s.probes + 1 < 2 ^ 31 := hfew
    show _ = (s.probes + 1) / cfg.statsEvery
    rw [Nat.succ_div, if_neg fun hdvd => hprints ((hmod hfew).mpr (Nat.mod_eq_zero_of_dvd hdvd))]
    exact hdue (by omega)

/-! ### The steps -/

theorem bindLoop_records {port : Int32} {binds : Int → Option Errno} {retries : Nat} {toBind : Int}
    {logs logs' : List Log} (h : bindLoop port binds retries toBind logs = some logs') :
    statRecords logs' = statRecords logs := by
  have hcantBind : statRecords (logs ++ [.cantBind port]) = statRecords logs :=
    (statRecords_append ..).trans (List.append_nil _)
  induction retries generalizing toBind logs with
  | zero =>
    cases h
    rfl
  | succ retries ih =>
    rw [bindLoop] at h
    split at h
    · cases h
      rfl
    · split_ifs at h
      · rw [ih h ((statRecords_append ..).trans (List.append_nil _)), hcantBind]
      · cases h
        exact hcantBind
    · cases h

theorem Tallied.tryConnect {a : Attempt} {tfd : Int} (h : Tallied cfg s)
    (htry : tryConnect cfg s a = some (s', tfd)) : Tallied cfg s' := by
  unfold Scan.tryConnect at htry
  dsimp only at htry
  by_cases hsock : a.sock = -1
  · rw [if_pos hsock] at htry
    cases htry
  rw [if_neg hsock] at htry
  generalize (if SendsCanary cfg s.packetsSent then cfg.canaryIp else a.ip) = ip at htry
  generalize (if SendsCanary cfg s.packetsSent then cfg.canaryPort else a.port) = port at htry
  obtain ⟨logs, hbound, htry⟩ := Option.bind_eq_some_iff.mp htry
  have hlogs : statRecords logs = statRecords s.logs := by
    split_ifs at hbound
    · exact bindLoop_records hbound
    · cases hbound
      rfl
  generalize socket4TryConnect a.sock a.outcome = r at htry
  obtain ⟨sock, errno, closed⟩ := r
  dsimp only at htry
  have hclosed : Tallied cfg (if closed = true then
      Scanner.close { s with logs := logs, opened := a.sock :: s.opened } a.sock else
      { s with logs := logs, opened := a.sock :: s.opened }) := by
    refine (h.logged hlogs).congr ?_
    cases closed <;> rfl
  have hcounted := hclosed.count (sock ≥ -2)
  generalize Scanner.count cfg _ (sock ≥ -2) = t at hcounted htry
  split_ifs at htry
  · cases htry
    have hclash : Tallied cfg (t.log .possibleClash) := hcounted.log rfl
    exact hclash.congr rfl
  · cases htry
    exact hcounted.congr rfl
  · cases htry
    exact (hcounted.queueResult s.probes ip port).congr rfl
  · cases htry
    exact hcounted.congr rfl

theorem Tallied.handled (h : Tallied cfg s) (e : Int × Events) : Tallied cfg (handleEvent cfg s e) := by
  unfold handleEvent
  dsimp only
  split_ifs
  · exact h.event.congr rfl
  · exact (h.log rfl).event.congr rfl
  · exact (h.queueResult ..).event.congr rfl
  · exact h.event.congr rfl

theorem Tallied.sweptOut (h : Tallied cfg s) (fd : Int) : Tallied cfg (sweepOut cfg s fd).2 := by
  unfold sweepOut
  dsimp only
  split_ifs
  · exact (h.log rfl).congr rfl
  · exact h.congr rfl

theorem Tallied.swept (h : Tallied cfg s) (now fuel : Nat) (fd : Int) : Tallied cfg (sweep cfg now fuel fd s) := by
  induction fuel generalizing s fd with
  | zero => exact h
  | succ fuel ih =>
    rw [sweep]
    split_ifs
    · exact ih (h.sweptOut fd) _
    · exact h

theorem Tallied.eventsHandled (h : Tallied cfg s) (events : List (Int × Events)) :
    Tallied cfg (events.foldl (handleEvent cfg) s) := by
  induction events generalizing s with
  | nil => exact h
  | cons e events ih => exact ih (h.handled e)

theorem Tallied.step {i : Input} (h : Tallied cfg s) (hstep : step cfg s i = some s') : Tallied cfg s' := by
  cases i with
  | attempt a =>
    simp only [Scan.step] at hstep
    by_cases hroom : s.sockets.numSockets < cfg.maxPendingSockets
    swap
    · rw [if_neg hroom] at hstep
      cases hstep
    rw [if_pos hroom] at hstep
    obtain ⟨⟨t, tfd⟩, htry, hstep⟩ := Option.bind_eq_some_iff.mp hstep
    dsimp only at hstep
    split_ifs at hstep
    · cases hstep
      exact (h.tryConnect htry).congr rfl
    · cases hstep
      exact (h.tryConnect htry).congr rfl
  | poll now events later =>
    simp only [Scan.step] at hstep
    split_ifs at hstep
    cases hstep
    have hstart : Tallied cfg { s with timeout := epollTimeout s now } := h.congr rfl
    have hclock : Tallied cfg { events.foldl (handleEvent cfg) { s with timeout := epollTimeout s now } with
        clock := later } := (hstart.eventsHandled events).congr rfl
    exact hclock.swept ..

/-- In every run the records in the log add up to the counters. -/
theorem run_tallied {guard : Scanner → Input → Prop} {entries : Int → SocketListEntry} {size : Int}
    (h : Reaches (step cfg) guard (.start entries size) s) : Tallied cfg s :=
  h.invariant (Tallied cfg) (start_tallied cfg entries size) fun _ _ _ htallied _ hstep => htallied.step hstep

end Cscan.Scan
