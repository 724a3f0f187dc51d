import Cscan.Lib.Runs
import Cscan.Scan.Outcomes
import Mathlib.Data.List.Range

/-! The fate of every probe: at any time each probe that was sent has ended in one way, or one pending
socket carries it. The counters, the results and the list of pending sockets follow from that. -/

namespace Cscan.Scan

open Cscan.Lib SocketList

/-- The connection of the probe succeeded. -/
def Fate.succeeded : Fate → Bool
  | .returned o => o.nonblocking = .done ∧ o.connect = none
  | .event e => e.ok
  | .timedOut => false

/-- The counters are, as ints, the numbers of what they count. -/
structure Counters (s : Scanner) : Prop where
  packetsSent : s.packetsSent = .ofNat s.probes
  eventCount : s.eventCount = .ofNat s.events
  resultCount : s.resultCount = .ofNat s.results.length

/-- `fds` are the pending sockets in order, and each probe is in `fates` or on one of them. -/
structure Good (cfg : Config) (s : Scanner) (fds : List Int) : Prop where
  list : s.sockets.Represents fds
  registered : ∀ fd, fd ∈ s.registered ↔ fd ∈ fds
  opened : ∀ fd ∈ fds, fd ∈ s.opened
  bounded : fds.length ≤ cfg.maxPendingSockets
  probes : (s.fates.map Prod.fst ++ fds.map s.probe).Perm (List.range s.probes)
  events : s.events = (s.fates.filter (·.2 ≠ .timedOut)).length
  results : (s.results.map Result.probe).Sublist ((s.fates.filter (·.2.succeeded)).map Prod.fst)
  counters : Counters s

theorem start_good (cfg : Config) (entries : Int → SocketListEntry) (size : Int) :
    Good cfg (.start entries size) [] where
  list := init_represents entries size
  registered fd := Iff.rfl
  opened := by simp
  bounded := Nat.zero_le _
  probes := List.Perm.refl _
  events := rfl
  results := List.Sublist.refl _
  counters := ⟨rfl, rfl, rfl⟩

/-! ### What a turn of the sending loop keeps -/

variable {cfg : Config} {s s' : Scanner} {fds pre post : List Int} {fd : Int}

theorem Good.clock (h : Good cfg s fds) (now : Nat) : Good cfg { s with clock := now } fds :=
  ⟨h.list, h.registered, h.opened, h.bounded, h.probes, h.events, h.results,
    ⟨h.counters.packetsSent, h.counters.eventCount, h.counters.resultCount⟩⟩

theorem Good.timeout (h : Good cfg s fds) (timeout : Nat) :
    Good cfg { s with timeout := timeout } fds :=
  ⟨h.list, h.registered, h.opened, h.bounded, h.probes, h.events, h.results,
    ⟨h.counters.packetsSent, h.counters.eventCount, h.counters.resultCount⟩⟩

/-- The results stay among the probes that succeeded when one more probe ends. -/
theorem Queues.keep {probe : Nat} {fate : Fate} {queued : Prop} (h : Queues s s' probe queued)
    (hgood : Good cfg s fds) (hfate : queued → fate.succeeded)
    (hfates : s'.fates = s.fates ++ [(probe, fate)]) :
    (s'.results.map Result.probe).Sublist ((s'.fates.filter (·.2.succeeded)).map Prod.fst) ∧
      s'.resultCount = .ofNat s'.results.length := by
  rw [hfates, List.filter_append, List.map_append]
  rcases h with ⟨-, hresults, hcount⟩ | ⟨hqueued, ⟨ip, port, hresults⟩, hcount⟩
  · rw [hresults, hcount]
    exact ⟨hgood.results.trans (List.sublist_append_left _ _), hgood.counters.resultCount⟩
  · rw [hresults, hcount, List.map_append, List.length_append]
    have hlast : List.filter (fun p : Nat × Fate => p.2.succeeded) [(probe, fate)] = [(probe, fate)] :=
      List.filter_eq_self.mpr (by simpa using hfate hqueued)
    rw [hlast]
    rw [hgood.counters.resultCount]
    exact ⟨hgood.results.append (List.Sublist.refl _), (Int32.ofNat_add ..).symm⟩

theorem Good.resolved {a : Attempt} (hgood : Good cfg s fds) (hsock : a.sock ∉ s.opened)
    (h : Resolved s s' a) : Good cfg s' fds := by
  have hne : ∀ fd ∈ fds, fd ≠ a.sock := fun fd hfd heq => hsock (heq ▸ hgood.opened fd hfd)
  have hfate : a.outcome.Connects → (Fate.returned a.outcome).succeeded := fun h =>
    decide_eq_true ⟨h.1, h.2.1⟩
  obtain ⟨hresults, hcount⟩ := h.results.keep hgood hfate h.fates
  refine ⟨?_, ?_, ?_, hgood.bounded, ?_, ?_, hresults, ?_, ?_, hcount⟩
  · rw [h.sockets]
    exact hgood.list
  · intro fd
    rw [← hgood.registered]
    refine ⟨h.registered.1 fd, fun hfd => ?_⟩
    exact h.registered.2 fd hfd (hne fd ((hgood.registered fd).mp hfd))
  · intro fd hfd
    exact h.opened fd (hgood.opened fd hfd) (hne fd hfd)
  · rw [h.fates, h.probe, h.packetsSent.2, List.range_succ, List.map_append, List.append_assoc]
    refine (List.Perm.append_left _ List.perm_append_comm).trans ?_
    rw [← List.append_assoc]
    exact hgood.probes.append_right _
  · rw [h.fates, h.eventCount.2, List.filter_append, List.length_append, hgood.events]
    rfl
  · rw [h.packetsSent.1, h.packetsSent.2, hgood.counters.packetsSent]
    exact (Int32.ofNat_add ..).symm
  · rw [h.eventCount.1, h.eventCount.2, hgood.counters.eventCount]
    exact (Int32.ofNat_add ..).symm

theorem Good.waits {a : Attempt} (hgood : Good cfg s fds) (hsock : a.sock ∉ s.opened)
    (hlow : 0 ≤ a.sock) (hroom : s.sockets.numSockets < cfg.maxPendingSockets) (h : Waits cfg s s' a) :
    Good cfg { s' with registered := s'.registered ++ [a.sock] } (fds ++ [a.sock]) := by
  have hfd : a.sock ∉ fds := fun hmem => hsock (hgood.opened _ hmem)
  obtain ⟨hhigh, hsockets⟩ := h.sockets
  have hlength : fds.length < cfg.maxPendingSockets := by
    have hcount := hgood.list.count
    omega
  refine ⟨?_, ?_, ?_, ?_, ?_, ?_, ?_, ?_, ?_, ?_⟩
  · dsimp only
    rw [hsockets]
    exact hgood.list.add hfd hlow hhigh _ _ _
  · intro fd
    simp [h.registered, hgood.registered]
  · intro fd hmem
    dsimp only
    rw [h.opened]
    rcases List.mem_append.mp hmem with hmem | hmem
    · exact List.mem_cons_of_mem _ (hgood.opened fd hmem)
    · exact List.mem_singleton.mp hmem ▸ List.mem_cons_self
  · simpa using Nat.succ_le_of_lt hlength
  · have hprobe : ∀ fd ∈ fds, Function.update s.probe a.sock s.probes fd = s.probe fd := by
      intro fd hmem
      have hne : fd ≠ a.sock := fun heq => hfd (heq ▸ hmem)
      exact Function.update_of_ne hne _ _
    dsimp only
    rw [h.fates, h.probe, h.packetsSent.2, List.range_succ, List.map_append, List.map_congr_left hprobe,
      ← List.append_assoc]
    simpa using hgood.probes.append_right [s.probes]
  · dsimp only
    rw [h.eventCount.2, h.fates]
    exact hgood.events
  · dsimp only
    rw [h.results.1, h.fates]
    exact hgood.results
  · dsimp only
    rw [h.packetsSent.1, h.packetsSent.2, hgood.counters.packetsSent]
    exact (Int32.ofNat_add ..).symm
  · dsimp only
    rw [h.eventCount.1, h.eventCount.2]
    exact hgood.counters.eventCount
  · dsimp only
    rw [h.results.1, h.results.2]
    exact hgood.counters.resultCount

/-! ### What the rest of the iteration keeps -/

theorem Good.ends {fate : Fate} {queued fails : Prop} (hgood : Good cfg s (pre ++ fd :: post))
    (hfate : queued → fate.succeeded) (h : Ends s s' fd fate queued fails) :
    Good cfg s' (pre ++ post) := by
  obtain ⟨hresults, hcount⟩ := h.results.keep hgood hfate h.fates
  have hmem : ∀ g, g ∈ pre ++ post ↔ g ∈ pre ++ fd :: post ∧ g ≠ fd := by
    intro g
    have hfd : fd ∉ pre ++ post := (List.nodup_cons.mp (List.nodup_middle.mp hgood.list.nodup)).1
    rw [List.perm_middle.mem_iff, List.mem_cons]
    refine ⟨fun hg => ⟨Or.inr hg, fun heq => hfd (heq ▸ hg)⟩, ?_⟩
    rintro ⟨hg | hg, hne⟩
    · exact absurd hg hne
    · exact hg
  refine ⟨?_, ?_, ?_, ?_, ?_, ?_, hresults, ?_, ?_, hcount⟩
  · rw [h.sockets]
    exact hgood.list.del.1
  · intro g
    rw [h.registered, hmem g, ← hgood.registered g]
    simp
  · intro g hg
    rw [h.opened]
    have hg := (hmem g).mp hg
    simpa [hg.2] using hgood.opened g hg.1
  · have hbounded := hgood.bounded
    simp only [List.length_append, List.length_cons] at hbounded ⊢
    omega
  · rw [h.fates, h.probe, h.packetsSent.2]
    refine List.Perm.trans ?_ hgood.probes
    simp only [List.map_append, List.map_cons, List.map_nil, List.append_assoc, List.singleton_append]
    exact List.Perm.append_left _ List.perm_middle.symm
  · have hevents := h.eventCount
    rw [h.fates, List.filter_append, List.length_append, ← hgood.events]
    split_ifs at hevents with hfate
    · simp [hfate, hevents.2]
    · simp [hfate, hevents.2]
  · rw [h.packetsSent.1, h.packetsSent.2]
    exact hgood.counters.packetsSent
  · have hevents := h.eventCount
    split_ifs at hevents
    · rw [hevents.1, hevents.2]
      exact hgood.counters.eventCount
    · rw [hevents.1, hevents.2, hgood.counters.eventCount]
      exact (Int32.ofNat_add ..).symm

theorem Good.handled {e : Int × Events} (hgood : Good cfg s (pre ++ e.1 :: post)) :
    Good cfg (handleEvent cfg s e) (pre ++ post) :=
  hgood.ends (fun h => h.1) (handleEvent_ends cfg s e.1 e.2)

theorem Good.sweptOut (hgood : Good cfg s (fd :: post)) : Good cfg (sweepOut cfg s fd).2 post :=
  have hfirst : Good cfg s ([] ++ fd :: post) := hgood
  hfirst.ends False.elim (sweepOut_ends cfg s fd)

theorem Good.polled {now later : Nat} {events : List (Int × Events)} (hgood : Good cfg s fds)
    (hnodup : (events.map Prod.fst).Nodup) (hmem : ∀ e ∈ events, e.1 ∈ s.registered) :
    ∃ fds', Good cfg (poll cfg s now events later) fds' := by
  obtain ⟨fds', h, -⟩ := events_handled (fun _ _ _ _ _ h => Good.handled h) hnodup
    (hgood.timeout (epollTimeout s now)) hgood.list.nodup fun e he => (hgood.registered _).mp (hmem e he)
  have hfuel : fds'.length ≤ (events.foldl (handleEvent cfg)
      { s with timeout := epollTimeout s now }).sockets.numSockets.toNat := h.list.toNat_count.ge
  obtain ⟨fds'', hswept, -⟩ := swept (fun _ _ h => h.list)
    (fun _ _ _ (_ : _ ≤ later) h => Good.sweptOut h) (h.clock later) hfuel
  exact ⟨fds'', hswept⟩

theorem Good.step {i : Input} (hgood : Good cfg s fds) (hanswers : Answers s i)
    (hstep : step cfg s i = some s') : ∃ fds', Good cfg s' fds' := by
  rcases step_cases hanswers hstep with
    ⟨a, rfl, hroom, hlow, hfresh, t, ⟨hresolved, rfl⟩ | ⟨hwaits, rfl⟩⟩ | ⟨now, events, later, rfl, -, rfl⟩
  · exact ⟨fds, (hgood.resolved hfresh hresolved).clock a.now⟩
  · exact ⟨fds ++ [a.sock], (hgood.waits hfresh hlow hroom hwaits).clock a.now⟩
  · obtain ⟨-, -, hnodup, hmem⟩ := hanswers
    exact hgood.polled hnodup hmem

theorem run_good {entries : Int → SocketListEntry} {size : Int}
    (h : Reaches (Scan.step cfg) Answers (.start entries size) s) : ∃ fds, Good cfg s fds :=
  h.invariant (fun s => ∃ fds, Good cfg s fds) ⟨[], start_good cfg entries size⟩
    fun _ _ _ ⟨_, hgood⟩ hanswers hstep => hgood.step hanswers hstep

/-! ### What holds in every state of a run -/

/-- The number of probes that the sweep took out. -/
def Scanner.swept (s : Scanner) : Nat := (s.fates.filter (·.2 = .timedOut)).length

/-- Every probe is pending on one socket or has ended, and in one way only. -/
structure Accounts (cfg : Config) (s : Scanner) : Prop where
  sent : s.packetsSent.toInt = s.probes
  packets : s.packetsSent.toInt = s.eventCount.toInt + s.swept + s.sockets.numSockets
  pending : s.sockets.numSockets ≤ cfg.maxPendingSockets
  resultCount_le : s.resultCount ≤ s.eventCount
  resolved : ∀ probe < s.probes,
    (∃ fate, (probe, fate) ∈ s.fates) ↔ ¬ ∃ fd ∈ s.registered, s.probe fd = probe
  once : (s.fates.map Prod.fst).Nodup
  queuedOnce : (s.results.map Result.probe).Nodup
  queued : ∀ r ∈ s.results, ∃ fate, (r.probe, fate) ∈ s.fates ∧ fate.succeeded
  notTimedOut : ∀ r ∈ s.results, (r.probe, .timedOut) ∉ s.fates
  first : ¬ s.sockets.numSockets < cfg.maxPendingSockets → s.sockets.firstFd ≠ -1

theorem Good.nodup (h : Good cfg s fds) : (s.fates.map Prod.fst ++ fds.map s.probe).Nodup :=
  h.probes.nodup_iff.mpr List.nodup_range

/-- No more probes have ended with an event than were sent, and no more results are queued than that. -/
theorem Good.counts_le (h : Good cfg s fds) : s.events ≤ s.probes ∧ s.results.length ≤ s.events := by
  have hprobes := h.probes.length_eq
  have hresults := h.results.length_le
  have hevents := List.length_filter_le (fun p : Nat × Fate => decide (p.2 ≠ .timedOut)) s.fates
  rw [List.length_append, List.length_map, List.length_map, List.length_range] at hprobes
  rw [List.length_map, List.length_map] at hresults
  rw [h.events]
  refine ⟨by omega, hresults.trans (List.Sublist.length_le (List.monotone_filter_right _ ?_))⟩
  rintro ⟨probe, fate⟩ hfate
  cases fate <;> simp_all [Fate.succeeded]

theorem Good.accounts (h : Good cfg s fds) (hmax : 1 ≤ cfg.maxPendingSockets) (hfew : s.probes < 2 ^ 31) :
    Accounts cfg s := by
  have hnodup := h.nodup
  obtain ⟨honce, -, hapart⟩ := List.nodup_append.mp hnodup
  have hqueued : ∀ r ∈ s.results, ∃ fate, (r.probe, fate) ∈ s.fates ∧ fate.succeeded := by
    intro r hr
    obtain ⟨⟨probe, fate⟩, hmem, hprobe⟩ := List.mem_map.mp (h.results.subset (List.mem_map_of_mem hr))
    dsimp only at hprobe
    subst hprobe
    exact ⟨fate, (List.mem_filter.mp hmem).1, by simpa using (List.mem_filter.mp hmem).2⟩
  have hsublist : ((s.fates.filter (·.2.succeeded)).map Prod.fst).Sublist (s.fates.map Prod.fst) :=
    List.Sublist.map _ List.filter_sublist
  have hsplit : (s.fates.filter (·.2 ≠ .timedOut)).length + s.swept = s.fates.length := by
    have h := List.length_eq_length_filter_add (l := s.fates) (fun p => decide (p.2 ≠ .timedOut))
    simpa [Scanner.swept] using h.symm
  obtain ⟨hevents_le, hresults_le⟩ := h.counts_le
  have hsent : s.packetsSent.toInt = s.probes := h.counters.packetsSent ▸ Int32.toInt_ofNat_of_lt hfew
  have heventCount : s.eventCount.toInt = s.events := h.counters.eventCount ▸ Int32.toInt_ofNat_of_lt (by omega)
  have hresultCount : s.resultCount.toInt = s.results.length :=
    h.counters.resultCount ▸ Int32.toInt_ofNat_of_lt (by omega)
  refine ⟨hsent, ?_, ?_, ?_, ?_, honce, ?_, hqueued, ?_, ?_⟩
  · have hlength := h.probes.length_eq
    have hcount := h.list.count
    have hevents := h.events
    simp only [List.length_append, List.length_map, List.length_range] at hlength
    rw [hsent, heventCount]
    omega
  · have hcount := h.list.count
    have hbounded := h.bounded
    omega
  · rw [Int32.le_iff_toInt_le, hresultCount, heventCount]
    exact_mod_cast hresults_le
  · intro probe hprobe
    have hmem : probe ∈ s.fates.map Prod.fst ++ fds.map s.probe :=
      h.probes.mem_iff.mpr (List.mem_range.mpr hprobe)
    constructor
    · rintro ⟨fate, hfate⟩ ⟨fd, hfd, heq⟩
      have hfd := List.mem_map_of_mem (f := s.probe) ((h.registered fd).mp hfd)
      exact hapart _ (List.mem_map_of_mem hfate) _ hfd heq.symm
    · intro hpending
      rcases List.mem_append.mp hmem with hended | hwaits
      · obtain ⟨⟨_, fate⟩, hfate, rfl⟩ := List.mem_map.mp hended
        exact ⟨fate, hfate⟩
      · obtain ⟨fd, hfd, heq⟩ := List.mem_map.mp hwaits
        exact absurd ⟨fd, (h.registered fd).mpr hfd, heq⟩ hpending
  · exact (h.results.trans hsublist).nodup honce
  · intro r hr htimedOut
    obtain ⟨fate, hfate, hsucceeded⟩ := hqueued r hr
    have heq := List.inj_on_of_nodup_map honce hfate htimedOut rfl
    rw [(Prod.mk.inj heq).2] at hsucceeded
    cases hsucceeded
  · intro hfull
    rw [h.list.first_ne]
    intro hnil
    rw [h.list.count, hnil] at hfull
    exact hfull (by simpa using Nat.lt_of_succ_le hmax)

/-! ### Runs in which the counters do not overflow -/

theorem eventsHandled_probes (cfg : Config) (events : List (Int × Events)) (s : Scanner) :
    (events.foldl (handleEvent cfg) s).probes = s.probes := by
  induction events generalizing s with
  | nil => rfl
  | cons e events ih => exact (ih _).trans (handleEvent_ends cfg s e.1 e.2).packetsSent.2

theorem sweep_probes (cfg : Config) (now fuel : Nat) (fd : Int) (s : Scanner) :
    (sweep cfg now fuel fd s).probes = s.probes := by
  induction fuel generalizing fd s with
  | zero => rfl
  | succ fuel ih =>
    rw [sweep]
    split_ifs
    · exact (ih ..).trans (sweepOut_ends cfg s fd).packetsSent.2
    · rfl

theorem poll_probes (cfg : Config) (s : Scanner) (now : Nat) (events : List (Int × Events)) (later : Nat) :
    (poll cfg s now events later).probes = s.probes :=
  (sweep_probes ..).trans (eventsHandled_probes cfg events { s with timeout := epollTimeout s now })

/-- `packets_sent++` does not overflow. -/
def Counts (s : Scanner) : Input → Prop
  | .attempt _ => s.packetsSent < Int32.maxValue
  | .poll _ _ _ => True

instance (s : Scanner) : ∀ i, Decidable (Counts s i)
  | .attempt _ => inferInstanceAs (Decidable (s.packetsSent < Int32.maxValue))
  | .poll _ _ _ => isTrue trivial

/-- The number of probes stays an `int`. -/
theorem Good.few {i : Input} (hgood : Good cfg s fds) (hfew : s.probes < 2 ^ 31) (hanswers : Answers s i)
    (hcounts : Counts s i) (hstep : Scan.step cfg s i = some s') : s'.probes < 2 ^ 31 := by
  have hsent : s.packetsSent.toInt = s.probes :=
    hgood.counters.packetsSent ▸ Int32.toInt_ofNat_of_lt hfew
  rcases step_cases hanswers hstep with
    ⟨a, rfl, -, -, -, t, ⟨hresolved, rfl⟩ | ⟨hwaits, rfl⟩⟩ | ⟨now, events, later, rfl, -, rfl⟩
  · have hlt := Int32.lt_iff_toInt_lt.mp hcounts
    rw [hsent, Int32.toInt_maxValue] at hlt
    show t.probes < 2 ^ 31
    rw [hresolved.packetsSent.2]
    omega
  · have hlt := Int32.lt_iff_toInt_lt.mp hcounts
    rw [hsent, Int32.toInt_maxValue] at hlt
    show t.probes < 2 ^ 31
    rw [hwaits.packetsSent.2]
    omega
  · rwa [poll_probes]

theorem run_accounts {cfg : Config} (hmax : 1 ≤ cfg.maxPendingSockets)
    (entries : Int → SocketListEntry) (size : Int) {s : Scanner}
    (h : Reaches (step cfg) (fun s i => Answers s i ∧ Counts s i) (.start entries size) s) : Accounts cfg s := by
  obtain ⟨⟨fds, hgood⟩, hfew⟩ := h.invariant (fun s => (∃ fds, Good cfg s fds) ∧ s.probes < 2 ^ 31)
    ⟨⟨[], start_good cfg entries size⟩, show 0 < 2 ^ 31 by decide⟩
    fun s i s' ⟨⟨fds, hgood⟩, hfew⟩ ⟨hanswers, hcounts⟩ hstep =>
      ⟨hgood.step hanswers hstep, hgood.few hfew hanswers hcounts hstep⟩
  exact hgood.accounts hmax hfew

/-- One probe is swept, the next one reuses its fd and has an event, the third one connects at once. -/
theorem run_accounts_reuse :
    let cfg : Config := ⟨1, 100, 0, 0, 10, 0, 80, 5600, 1000⟩
    let pending : ConnectOutcome := ⟨.done, some .inProgress, .done⟩
    let connected : ConnectOutcome := ⟨.done, none, .done⟩
    let attempt (o : ConnectOutcome) (now : Nat) : Input :=
      .attempt ⟨0x0a000001, 80, 3, fun _ => none, o, now, true⟩
    ∃ s, (runSchedule (fun s i => if Answers s i ∧ Counts s i then step cfg s i else none)
        (.start (fun _ => ⟨0, 0, 0, 0, 0⟩) 10)
        [attempt pending 0, .poll 0 [] 100, attempt pending 100, .poll 100 [(3, ⟨true, false, false⟩)] 120,
          attempt connected 130]) = some s ∧
      (s.packetsSent, s.eventCount, s.swept, s.results.map Result.probe) = (3, 2, 1, [1, 2]) ∧
      Accounts cfg s := by
  intro cfg pending connected attempt
  have hview : (runSchedule (fun s i => if Answers s i ∧ Counts s i then step cfg s i else none)
      (.start (fun _ => ⟨0, 0, 0, 0, 0⟩) 10)
      [attempt pending 0, .poll 0 [] 100, attempt pending 100, .poll 100 [(3, ⟨true, false, false⟩)] 120,
        attempt connected 130]).map
      (fun s => (s.packetsSent, s.eventCount, s.swept, s.results.map Result.probe)) =
        some (3, 2, 1, [1, 2]) := by
    decide +kernel
  obtain ⟨s, hrun, hs⟩ := Option.map_eq_some_iff.mp hview
  exact ⟨s, hrun, hs, run_accounts (by decide) _ _ (reaches_of_runSchedule .start hrun)⟩

/-- An attempt that is refused at once. -/
def refused : Attempt := ⟨0x0a000001, 80, 3, fun _ => none, ⟨.done, some .refused, .done⟩, 0, true⟩

/-- The next probe can be refused too. -/
theorem step_refused {s : Scanner} (hroom : s.sockets.numSockets < cfg.maxPendingSockets)
    (hbind : ¬ (cfg.bindIpN ≠ 0 ∨ cfg.bindPort ≠ 0)) :
    ∃ t, Scan.step cfg s (.attempt refused) = some { t with clock := 0 } ∧ Resolved s t refused := by
  have hsock : ¬ refused.sock = -1 := by decide
  have hreturns : socket4TryConnect refused.sock refused.outcome = (-1, .refused, true) := rfl
  obtain ⟨t, htry⟩ : ∃ t, tryConnect cfg s refused = some (t, -1) := by
    unfold tryConnect
    rw [if_neg hsock, if_neg hbind, hreturns]
    exact ⟨_, rfl⟩
  refine ⟨t, ?_, ?_⟩
  · simp only [Scan.step, if_pos hroom, htry]
    rfl
  · rcases tryConnect_cases htry (by decide) with ⟨-, hresolved⟩ | ⟨h, -⟩
    · exact hresolved
    · cases h

/-- Any number of probes can be refused one after the other. -/
theorem reaches_refused (hmax : 1 ≤ cfg.maxPendingSockets) (hbind : ¬ (cfg.bindIpN ≠ 0 ∨ cfg.bindPort ≠ 0))
    (entries : Int → SocketListEntry) (size : Int) (n : Nat) :
    ∃ s, Reaches (step cfg) Answers (.start entries size) s ∧ s.probes = n ∧ s.events = n ∧ s.results = [] ∧
      s.sockets.numSockets = 0 ∧ 3 ∉ s.opened ∧ s.clock = 0 := by
  induction n with
  | zero => exact ⟨_, .start, rfl, rfl, rfl, rfl, List.not_mem_nil, rfl⟩
  | succ n ih =>
    obtain ⟨s, hs, hprobes, hevents, hresults, hcount, hopened, hclock⟩ := ih
    obtain ⟨t, hstep, hresolved⟩ := @step_refused cfg s (by rw [hcount]; omega) hbind
    have hanswers : Answers s (.attempt refused) := ⟨hclock.le, Or.inr ⟨by decide, hopened⟩⟩
    have hsocket := hresolved.socket
    rw [if_neg (fun hleaks => hleaks.2.2 rfl)] at hsocket
    have hnone : t.results = s.results :=
      (hresolved.results.resolve_right fun h => absurd h.1.2.1 (Option.some_ne_none _)).2.1
    refine ⟨_, hs.step hanswers hstep, ?_, ?_, hnone.trans hresults, ?_, hsocket.1, rfl⟩
    · exact hresolved.packetsSent.2.trans (congrArg (· + 1) hprobes)
    · exact hresolved.eventCount.2.trans (congrArg (· + 1) hevents)
    · show t.sockets.numSockets = 0
      rw [hresolved.sockets, hcount]

/-- After 2^31 probes that are refused at once the number of results, which is zero, is greater than the number of
events. -/
theorem counters_overflow :
    let cfg : Config := ⟨1, 100, 0, 0, 10, 0, 80, 5600, 1000⟩
    ∃ s, Reaches (step cfg) Answers (.start (fun _ => ⟨0, 0, 0, 0, 0⟩) 10) s ∧ s.probes = 2 ^ 31 ∧
      s.packetsSent = Int32.minValue ∧ s.eventCount = Int32.minValue ∧ s.resultCount = 0 ∧ ¬ Accounts cfg s := by
  intro cfg
  obtain ⟨s, hs, hprobes, hevents, hresults, -⟩ :=
    reaches_refused (show 1 ≤ cfg.maxPendingSockets by decide) (by decide) (fun _ => ⟨0, 0, 0, 0, 0⟩) 10 (2 ^ 31)
  obtain ⟨fds, hgood⟩ := run_good hs
  have hpacketsSent : s.packetsSent = Int32.minValue := by
    rw [hgood.counters.packetsSent, hprobes]
    decide +kernel
  have heventCount : s.eventCount = Int32.minValue := by
    rw [hgood.counters.eventCount, hevents]
    decide +kernel
  have hresultCount : s.resultCount = 0 := by
    rw [hgood.counters.resultCount, hresults]
    rfl
  refine ⟨s, hs, hprobes, hpacketsSent, heventCount, hresultCount, fun h => ?_⟩
  have hle := h.resultCount_le
  rw [hresultCount, heventCount] at hle
  exact absurd hle (by decide +kernel)

end Cscan.Scan
