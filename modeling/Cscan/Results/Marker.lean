import Cscan.Results.Replay
import Cscan.Scan.Addresses
import Cscan.Target.Drawn

/-! The address zero is the end marker of the results. It stays apart from them exactly where the records on
stdin have addresses, and where the targets do not have the address zero among them. -/

namespace Cscan.Results

open Cscan.Lib Blocking Target

/-! ### Results that are handed over -/

/-- The results are handed over by the queue: none is the end marker, no run hangs, `modules_exec` is
called for them in order, and the worker stops after the last one, with nothing left to be queued. -/
structure HandedOver (order : ByteOrder) (malloc : Nat → List UInt8) (capacity : Nat) (results : List Result) :
    Prop where
  noMarker : ∀ r ∈ results, r.ip ≠ 0
  goesOn : ∀ ⦃p⦄, Pipeline.Runs order malloc capacity results p → ¬ p.Final →
    ∃ a p', Pipeline.Genuine a ∧ p.Allows a ∧ p.step order a = some p'
  inOrder : ∀ ⦃p⦄, Pipeline.Runs order malloc capacity results p → p.execs <+: results
  stops : ∀ ⦃p⦄, Pipeline.Runs order malloc capacity results p → p.worker = .exited →
    p.execs = results ∧ p.todo = []

section HandedOver

variable {order : ByteOrder} {malloc : Nat → List UInt8} {capacity : Nat}

theorem handedOver_iff (hmalloc : Allocates malloc) (hcapacity : 1 ≤ capacity) (hproduct : capacity * 8 < 2 ^ 31)
    {results : List Result} : HandedOver order malloc capacity results ↔ ∀ r ∈ results, r.ip ≠ 0 := by
  constructor
  · exact HandedOver.noMarker
  intro hresults
  refine ⟨hresults, ?_, ?_, ?_⟩
  · intro p hrun hnot
    exact ((hrun.inv hmalloc hcapacity hproduct hresults).progress hcapacity hresults).resolve_left hnot
  · intro p hrun
    exact (hrun.inv hmalloc hcapacity hproduct hresults).execs_in_order.1
  · intro p hrun hexited
    obtain ⟨hall, -, -, htodo⟩ := (hrun.inv hmalloc hcapacity hproduct hresults).exited hresults hexited
    exact ⟨hall, htodo⟩

/-- All texts whose records have addresses are handed over by a queue whose size in bytes is no greater than an
`int`, and by no other one. -/
theorem texts_handedOver_iff (hmalloc : Allocates malloc) (hcapacity : 1 ≤ capacity) :
    (∀ overflow text, (∀ entry ∈ records text, Inet.IsAddress (Inet.cString entry.1)) →
      HandedOver order malloc capacity (addFromStdin overflow text)) ↔ capacity * 8 < 2 ^ 31 := by
  constructor
  · intro hall
    by_contra hlarge
    have hsmall := hmalloc.length_lt (Nat.le_of_not_lt hlarge)
    have hread := addFromStdin_lines (fun _ => 0) (List.replicate capacity ⟨1, 0⟩)
    have haddresses := (addFromStdin_ne_zero_iff (fun _ => 0)
      (((List.replicate capacity (⟨1, 0⟩ : Result)).map lineOf).flatMap Written.text)).mp
    rw [hread] at haddresses
    have hgiven := hall (fun _ => 0) _ (haddresses (by simp +contextual))
    rw [hread] at hgiven
    obtain ⟨p, hp, hnot, -, hstuck⟩ := @Pipeline.exists_stuck order (List.replicate capacity ⟨1, 0⟩) capacity malloc
      hsmall (by rw [List.length_replicate]; omega)
    obtain ⟨a, p', -, -, hstep⟩ := hgiven.goesOn hp hnot
    exact absurd ((hstuck a).symm.trans hstep).symm (Option.some_ne_none _)
  · intro hproduct overflow text haddresses
    exact (handedOver_iff hmalloc hcapacity hproduct).mpr ((addFromStdin_ne_zero_iff overflow text).mpr haddresses)

end HandedOver

/-! ### The results of a scan -/

/-- An attempt goes to a target that is drawn from the tables. -/
def Draws (targets ports : RangeCfg) : Scan.Input → Prop
  | .attempt a => DrawnIp targets a.ip ∧ DrawnPort ports a.port
  | .poll _ _ _ => True

/-- The states of the scanner in the runs over the tables. -/
def Scans (cfg : Scan.Config) (targets ports : RangeCfg) (entries : Int → Scan.SocketListEntry)
    (size : Int) : Scan.Scanner → Prop :=
  Reaches (Scan.step cfg) (fun s i => Scan.Answers s i ∧ Draws targets ports i) (.start entries size)

/-- The arguments of the calls of `queue_result`. -/
def queued (s : Scan.Scanner) : List Result := s.results.map fun r => ⟨r.ip, r.port⟩

section Scans

variable {cfg : Scan.Config} {targets ports : RangeCfg} {entries : Int → Scan.SocketListEntry}
  {size : Int} {s : Scan.Scanner}

theorem queued_ne_zero_iff : (∀ r ∈ queued s, r.ip ≠ 0) ↔ ∀ r ∈ s.results, r.ip ≠ 0 := by
  simp only [queued, List.forall_mem_map]

/-- Where zero is not drawn, no result has it: the canary is one only if it has another address. -/
theorem Scans.ne_zero (hdrawn : ¬ DrawnIp targets 0) (h : Scans cfg targets ports entries size s) :
    ∀ r ∈ queued s, r.ip ≠ 0 := by
  rw [queued_ne_zero_iff]
  have haddresses := h.invariant (Scan.Addresses (· ≠ 0)) (Scan.start_addresses entries size) ?_
  · exact haddresses.results
  · intro s i s' hs hguard hstep
    refine hs.step hguard.1 ?_ hstep
    rintro a rfl
    have hip : a.ip ≠ 0 := fun hzero => hdrawn (hzero ▸ hguard.2.1)
    rw [Scan.Scanner.target]
    split_ifs with hcanary
    · exact hcanary.1
    · exact hip

/-- A scan without sockets sends nothing. -/
theorem Scans.idle (hmax : cfg.maxPendingSockets = 0) (h : Scans cfg targets ports entries size s) :
    s.results = [] ∧ s.registered = [] ∧ s.sockets.numSockets = 0 := by
  refine h.invariant (fun s => s.results = [] ∧ s.registered = [] ∧ s.sockets.numSockets = 0)
    ⟨rfl, rfl, rfl⟩ ?_
  rintro s i s' ⟨hresults, hregistered, hcount⟩ ⟨hanswers, -⟩ hstep
  cases i with
  | attempt a =>
    rw [Scan.step, if_neg (by omega)] at hstep
    cases hstep
  | poll now events later =>
    have hnone : events = [] := List.eq_nil_iff_forall_not_mem.mpr fun e he =>
      absurd (hanswers.2.2.2 e he) (by simp [hregistered])
    rw [Scan.step, if_neg (by omega), hnone] at hstep
    cases hstep
    simp [Scan.poll, Scan.sweep, hresults, hregistered, hcount]

/-- A run goes on with an attempt that is connected at once. Its result has the address zero if this is
drawn and it is not the canary's turn. -/
theorem Scans.connects {port : Int32} (h : Scans cfg targets ports entries size s)
    (hroom : s.sockets.numSockets < cfg.maxPendingSockets) (hfresh : 3 ∉ s.opened)
    (hip : DrawnIp targets 0) (hport : DrawnPort ports port) :
    ∃ s', Scans cfg targets ports entries size s' ∧ s'.sockets = s.sockets ∧ 3 ∉ s'.opened ∧
      s'.packetsSent = s.packetsSent + 1 ∧
      (¬ Scan.SendsCanary cfg s.packetsSent → ∃ r ∈ queued s', r.ip = 0) := by
  obtain ⟨s', hstep, hsockets, hopened, hsent, p, hresults⟩ :=
    @Scan.step_connects cfg s 0 port hroom
  have hanswers : Scan.Answers s (.attempt
      ⟨0, port, 3, fun _ => none, ⟨.done, none, .done⟩, s.clock, true⟩) :=
    And.intro (Nat.le_refl _) (Or.inr ⟨show (0 : Int) ≤ 3 by decide, hfresh⟩)
  refine ⟨s', h.step ⟨hanswers, And.intro hip hport⟩ hstep, hsockets, hopened, hsent, fun hcanary => ?_⟩
  refine ⟨⟨0, p⟩, ?_, rfl⟩
  rw [queued, hresults, List.map_append, Scan.Scanner.target, if_neg hcanary]
  exact List.mem_append_right _ List.mem_cons_self

/-- Where zero is drawn, the first or the second attempt can be connected to it. -/
theorem exists_scans_zero {port : Int32} (hmax : 0 < cfg.maxPendingSockets) (hip : DrawnIp targets 0)
    (hport : DrawnPort ports port) :
    ∃ s, Scans cfg targets ports entries size s ∧ ∃ r ∈ queued s, r.ip = 0 := by
  have hstart : Scans cfg targets ports entries size (.start entries size) := .start
  have hroom : (0 : Int) < cfg.maxPendingSockets := by exact_mod_cast hmax
  obtain ⟨s, hs, hsockets, hopened, hsent, hfirst⟩ :=
    hstart.connects hroom List.not_mem_nil hip hport
  by_cases hcanary : Scan.SendsCanary cfg 0
  · rw [← show s.sockets.numSockets = 0 by rw [hsockets]; rfl] at hroom
    obtain ⟨s', hs', -, -, -, hsecond⟩ := hs.connects hroom hopened hip hport
    refine ⟨s', hs', hsecond ?_⟩
    rintro ⟨-, hafter⟩
    have hcast := Int32.toInt_inj.mp (hafter.trans hcanary.2.symm)
    rw [hsent, show (Scan.Scanner.start entries size).packetsSent = 0 from rfl] at hcast
    exact absurd hcast (by decide)
  · exact ⟨s, hs, hfirst hcanary⟩

end Scans

/-- The end marker stays apart from the results that are read from a text exactly if all its records have
addresses; and from those of all scans over tables of `compile-targets.py`, exactly if zero is not among the
targets or nothing is sent. The queue has to be one whose size in bytes is no greater than an `int`. -/
theorem marker_apart_iff (order : ByteOrder) (malloc : Nat → Option (Nat → UInt32)) (blocks : Nat → List UInt8)
    (ranges : List (Int × Int)) {capacity : Nat} (h : Merged ranges)
    (hmem : (malloc (12 + 8 * ranges.length)).isSome) (hblocks : Allocates blocks) (hcapacity : 1 ≤ capacity) :
    ((∀ overflow text, (∀ entry ∈ records text, Inet.IsAddress (Inet.cString entry.1)) →
      HandedOver order blocks capacity (addFromStdin overflow text)) ↔ capacity * 8 < 2 ^ 31) ∧
    (capacity * 8 < 2 ^ 31 →
      (∀ overflow text, HandedOver order blocks capacity (addFromStdin overflow text) ↔
        ∀ entry ∈ records text, Inet.IsAddress (Inet.cString entry.1)) ∧
      ∃ bytes targets, compileTargets ranges = some bytes ∧
        loadRangeCfg order malloc (some bytes) = .record targets ∧
        ∀ portspec bytes' ports, compilePorts portspec = some bytes' →
          loadRangeCfg order malloc (some bytes') = .record ports →
          ∀ cfg entries size, (∀ s, Scans cfg targets ports entries size s →
            HandedOver order blocks capacity (queued s)) ↔ (0 < cfg.maxPendingSockets → ¬ InRanges ranges 0)) := by
  refine ⟨texts_handedOver_iff hblocks hcapacity, fun hproduct => ⟨fun overflow text =>
    (handedOver_iff hblocks hcapacity hproduct).trans (addFromStdin_ne_zero_iff overflow text), ?_⟩⟩
  obtain ⟨bytes, hbytes, hload⟩ := loadRangeCfg_compileTargets order h.short h.fits hmem
  refine ⟨bytes, _, hbytes, hload, ?_⟩
  intro portspec bytes' ports hbytes' hload' cfg entries size
  obtain ⟨port, hport⟩ := exists_drawnPort_of_load hbytes' hload'
  constructor
  · intro hall hmax hzero
    obtain ⟨s, hs, r, hr, hip⟩ := exists_scans_zero hmax ((h.drawnIp_iff 0).mpr hzero) hport
    exact (hall s hs).noMarker r hr hip
  · intro hnot s hs
    rw [handedOver_iff hblocks hcapacity hproduct]
    rcases Nat.eq_zero_or_pos cfg.maxPendingSockets with hmax | hmax
    · simp [queued, (hs.idle hmax).1]
    · exact hs.ne_zero fun hdrawn => hnot hmax ((h.drawnIp_iff 0).mp hdrawn)

/-- The tables of the network 10.0.0.0/8 and of port 80, and the queue of 1000 results. -/
theorem marker_apart_private :
    (∀ overflow text, HandedOver .little zeroed 1000 (addFromStdin overflow text) ↔
      ∀ entry ∈ records text, Inet.IsAddress (Inet.cString entry.1)) ∧
    ∃ bytes targets bytes' ports, compileTargets [(0x0a000000, 0x0affffff)] = some bytes ∧
      loadRangeCfg .little (fun _ => some fun _ => 0) (some bytes) = .record targets ∧
      compilePorts ['8', '0'] = some bytes' ∧
      loadRangeCfg .little (fun _ => some fun _ => 0) (some bytes') = .record ports ∧
      ∀ cfg entries size, (∀ s, Scans cfg targets ports entries size s →
        HandedOver .little zeroed 1000 (queued s)) ↔
        (0 < cfg.maxPendingSockets → ¬ InRanges [(0x0a000000, 0x0affffff)] 0) := by
  obtain ⟨htexts, bytes, targets, hbytes, hload, hscans⟩ := (marker_apart_iff .little (fun _ => some fun _ => 0)
    zeroed [(0x0a000000, 0x0affffff)] ⟨by decide, by decide, by decide, by decide⟩ rfl zeroed_allocates (by decide)).2
      (show 1000 * 8 < 2 ^ 31 by decide)
  have hbytes' : compilePorts ['8', '0'] =
      some [1, 0, 0, 0, 0, 0, 0, 0, 0, 0, 0, 0, 80, 0, 0, 0, 0, 0, 0, 0] := by
    decide +kernel
  have hload' : loadRangeCfg .little (fun _ => some fun _ => 0)
      (some [1, 0, 0, 0, 0, 0, 0, 0, 0, 0, 0, 0, 80, 0, 0, 0, 0, 0, 0, 0]) = .record ⟨1, 0, 0, [80, 0]⟩ := by
    decide +kernel
  exact ⟨htexts, bytes, targets, _, _, hbytes, hload, hbytes', hload', hscans _ _ _ hbytes' hload'⟩

/-- Main queues a result, and the worker takes it. -/
def oneResult : List Action :=
  [.queueResult, .queue (.acquire .main), .queue (.check .main), .queue (.update .main),
    .queue (.signal .main none), .getResult, .queue (.acquire .worker), .queue (.check .worker),
    .queue (.update .worker), .queue (.signal .worker none), .handle]

def namedText : List Char :=
  ['x', ':', '8', '0', '\n', '1', '0', '.', '0', '.', '0', '.', '1', ':', '2', '2', '\n']

/-- Of the records `x:80` and `10.0.0.1:22` the first one stops the worker. -/
theorem name_stops_worker :
    addFromStdin (fun _ => 0) namedText = [⟨0, 80⟩, ⟨0x0a000001, 22⟩] ∧
    ∃ p, Pipeline.Runs .little zeroed 1 (addFromStdin (fun _ => 0) namedText) p ∧
      p.worker = .exited ∧ p.execs = [] ∧ p.todo = [⟨0x0a000001, 22⟩, .endMarker] ∧
      ¬ HandedOver .little zeroed 1 (addFromStdin (fun _ => 0) namedText) := by
  have hread : addFromStdin (fun _ => 0) namedText = [⟨0, 80⟩, ⟨0x0a000001, 22⟩] := by decide +kernel
  rw [hread]
  have hview : (runSchedule (fun p a => if Pipeline.Allows p a then Pipeline.step .little p a else none)
      (Pipeline.start zeroed 1 [⟨0, 80⟩, ⟨0x0a000001, 22⟩]) oneResult).map
      (fun p => (p.worker, p.execs, p.todo)) =
        some (.exited, [], [⟨0x0a000001, 22⟩, .endMarker]) := by
    decide +kernel
  obtain ⟨p, hrun, hp⟩ := Option.map_eq_some_iff.mp hview
  simp only [Prod.mk.injEq] at hp
  obtain ⟨hworker, hexecs, htodo⟩ := hp
  refine ⟨rfl, p, reaches_of_runSchedule .start hrun, hworker, hexecs, htodo, fun h => ?_⟩
  exact h.noMarker ⟨0, 80⟩ List.mem_cons_self rfl

end Cscan.Results
