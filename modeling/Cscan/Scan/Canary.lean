import Cscan.Scan.Probes

/-! The canary probe: what is reported of it and of the others, in runs in which no probe is taken for
the canary, or the canary for another one. -/

namespace Cscan.Scan

open Cscan.Lib SocketList

/-- The probe with this number is sent as the canary. -/
def IsCanary (cfg : Config) (probe : Nat) : Prop := SendsCanary cfg (.ofNat probe)

instance (cfg : Config) (probe : Nat) : Decidable (IsCanary cfg probe) :=
  inferInstanceAs (Decidable (SendsCanary cfg (.ofNat probe)))

/-- `packets_sent` comes back to a value only after 2^32 packets. -/
theorem IsCanary.unique {cfg : Config} {probe probe' : Nat} (h : IsCanary cfg probe) (h' : IsCanary cfg probe')
    (hlt : probe < 2 ^ 32) (hlt' : probe' < 2 ^ 32) : probe = probe' := by
  have hsame : (Int32.ofNat probe).toInt = (Int32.ofNat probe').toInt := h.2.trans h'.2.symm
  rw [Int32.toInt_ofNat', Int32.toInt_ofNat', Int.bmod_def, Int.bmod_def] at hsame
  simp only [Int32.size] at hsame
  split_ifs at hsame <;> omega

/-- Each probe that ended is reported in the way that is meant for it: the canary by `log_canary_fail` if
it failed, the others as results if they succeeded. -/
structure Faithful (cfg : Config) (s : Scanner) : Prop where
  results : s.results.map Result.probe =
    (s.fates.filter fun p => p.2.succeeded ∧ ¬ IsCanary cfg p.1).map Prod.fst
  canaryFails : canaryFails s.logs =
    (s.fates.filter fun p => ¬ p.2.succeeded ∧ IsCanary cfg p.1).map Prod.fst

/-- No step takes a probe for the canary or the canary for another probe: there is no second canary, the
canary does not end when it is sent (or it is connected and lost with its socket), no other connected
socket is lost, and a pending socket with the address of the canary has an event, if there is a canary, or
is swept only if it is the canary's. -/
def Keeps (cfg : Config) (s : Scanner) : Input → Prop
  | .attempt a =>
    s.probes < 2 ^ 32 ∧
      if SendsCanary cfg s.packetsSent then a.outcome.InProgress ∨ a.outcome.Leaks else ¬ a.outcome.Leaks
  | .poll _ events later =>
    (∀ e ∈ events, cfg.canaryIp ≠ 0 → s.sockets.AtCanary cfg e.1 → IsCanary cfg (s.probe e.1)) ∧
      ∀ fd ∈ s.registered, fd ∉ events.map Prod.fst → (s.sockets.entries fd).timeout ≤ later →
        s.sockets.AtCanary cfg fd → IsCanary cfg (s.probe fd)

instance (cfg : Config) (s : Scanner) : ∀ i, Decidable (Keeps cfg s i)
  | .attempt a => inferInstanceAs (Decidable (s.probes < 2 ^ 32 ∧
      if SendsCanary cfg s.packetsSent then a.outcome.InProgress ∨ a.outcome.Leaks else ¬ a.outcome.Leaks))
  | .poll _ _ _ => inferInstanceAs (Decidable (_ ∧ _))

variable {cfg : Config} {s s' : Scanner} {fds pre post : List Int} {fd : Int}

theorem Good.sendsCanary (h : Good cfg s fds) : SendsCanary cfg s.packetsSent ↔ IsCanary cfg s.probes := by
  rw [h.counters.packetsSent]
  rfl

theorem Faithful.ended {probe : Nat} {fate : Fate} {queued fails : Prop} (h : Faithful cfg s)
    (hfates : s'.fates = s.fates ++ [(probe, fate)])
    (hqueues : Queues s s' probe queued)
    (hlogs : (¬ fails ∧ Scan.canaryFails s'.logs = Scan.canaryFails s.logs) ∨
      (fails ∧ Scan.canaryFails s'.logs = Scan.canaryFails s.logs ++ [probe]))
    (hqueued : queued ↔ fate.succeeded ∧ ¬ IsCanary cfg probe)
    (hfails : fails ↔ ¬ fate.succeeded ∧ IsCanary cfg probe) : Faithful cfg s' := by
  constructor
  · rw [hfates, List.filter_append, List.map_append, ← h.results]
    rcases hqueues with ⟨hnot, hresults, -⟩ | ⟨hyes, ⟨ip, port, hresults⟩, -⟩
    · rw [hqueued] at hnot
      rw [hresults, List.filter_cons_of_neg (by rwa [decide_eq_true_eq])]
      exact (List.append_nil _).symm
    · rw [hqueued] at hyes
      rw [hresults, List.map_append, List.filter_cons_of_pos (by rwa [decide_eq_true_eq])]
      rfl
  · rw [hfates, List.filter_append, List.map_append, ← h.canaryFails]
    rcases hlogs with ⟨hnot, hlogs⟩ | ⟨hyes, hlogs⟩
    · rw [hfails] at hnot
      rw [hlogs, List.filter_cons_of_neg (by rwa [decide_eq_true_eq])]
      exact (List.append_nil _).symm
    · rw [hfails] at hyes
      rw [hlogs, List.filter_cons_of_pos (by rwa [decide_eq_true_eq])]
      rfl

/-- The invariant of such runs: the entry of the canary has the address of the canary. -/
structure Reported (cfg : Config) (s : Scanner) (fds : List Int) : Prop where
  good : Good cfg s fds
  faithful : Faithful cfg s
  canary : ∀ fd ∈ fds, IsCanary cfg (s.probe fd) → s.sockets.AtCanary cfg fd
  few : s.probes ≤ 2 ^ 32

theorem start_reported (cfg : Config) (entries : Int → SocketListEntry) (size : Int) :
    Reported cfg (.start entries size) [] :=
  ⟨start_good cfg entries size, ⟨rfl, rfl⟩, by simp, Nat.zero_le _⟩

theorem Reported.clock (h : Reported cfg s fds) (now : Nat) :
    Reported cfg { s with clock := now } fds :=
  ⟨h.good.clock now, ⟨h.faithful.results, h.faithful.canaryFails⟩, h.canary, h.few⟩

theorem Reported.timeout (h : Reported cfg s fds) (timeout : Nat) :
    Reported cfg { s with timeout := timeout } fds :=
  ⟨h.good.timeout timeout, ⟨h.faithful.results, h.faithful.canaryFails⟩, h.canary, h.few⟩

theorem atCanary_iff {l : SocketList} :
    l.AtCanary cfg fd ↔ (l.data fd).2 = (cfg.canaryIp, cfg.canaryPort) :=
  Prod.mk.injEq _ _ _ _ ▸ Iff.rfl

theorem Reported.resolved {a : Attempt} (h : Reported cfg s fds) (hsock : a.sock ∉ s.opened)
    (hkeeps : Keeps cfg s (.attempt a)) (hresolved : Resolved s s' a) : Reported cfg s' fds := by
  rw [Keeps] at hkeeps
  obtain ⟨hfew, hkeeps⟩ := hkeeps
  have hsends : SendsCanary cfg s.packetsSent ↔ IsCanary cfg s.probes := h.good.sendsCanary
  refine ⟨h.good.resolved hsock hresolved, ?_, ?_, ?_⟩
  · have hlogs : (¬ False ∧ Scan.canaryFails s'.logs = Scan.canaryFails s.logs) ∨
        (False ∧ Scan.canaryFails s'.logs = Scan.canaryFails s.logs ++ [s.probes]) :=
      Or.inl ⟨id, hresolved.canaryFails⟩
    have hsucceeded : (Fate.returned a.outcome).succeeded ↔ a.outcome.Connects ∨ a.outcome.Leaks := by
      simp only [Fate.succeeded, decide_eq_true_eq]
      constructor
      · intro hconnect
        by_cases hblocking : a.outcome.blocking = .done
        · exact Or.inl ⟨hconnect.1, hconnect.2, hblocking⟩
        · exact Or.inr ⟨hconnect.1, hconnect.2, hblocking⟩
      · rintro (hconnects | hleaks)
        · exact ⟨hconnects.1, hconnects.2.1⟩
        · exact ⟨hleaks.1, hleaks.2.1⟩
    rw [if_congr hsends rfl rfl] at hkeeps
    refine h.faithful.ended hresolved.fates hresolved.results hlogs ?_ ?_
    · rw [hsucceeded]
      by_cases hcanary : IsCanary cfg s.probes
      · rw [if_pos hcanary] at hkeeps
        have hleaks := hkeeps.resolve_left hresolved.outcome
        exact iff_of_false (fun h => hleaks.2.2 h.2.2) fun h => h.2 hcanary
      · rw [if_neg hcanary] at hkeeps
        exact ⟨fun h => ⟨Or.inl h, hcanary⟩, fun h => h.1.resolve_right hkeeps⟩
    · rw [hsucceeded]
      refine iff_of_false id fun h => ?_
      rw [if_pos h.2] at hkeeps
      exact h.1 (Or.inr (hkeeps.resolve_left hresolved.outcome))
  · rw [hresolved.probe, hresolved.sockets]
    exact h.canary
  · rw [hresolved.packetsSent.2]
    exact hfew

theorem Reported.waits {a : Attempt} (h : Reported cfg s fds) (hsock : a.sock ∉ s.opened)
    (hlow : 0 ≤ a.sock) (hroom : s.sockets.numSockets < cfg.maxPendingSockets) (hfew : s.probes < 2 ^ 32)
    (hwaits : Waits cfg s s' a) :
    Reported cfg { s' with registered := s'.registered ++ [a.sock] } (fds ++ [a.sock]) := by
  have hsends : SendsCanary cfg s.packetsSent ↔ IsCanary cfg s.probes := h.good.sendsCanary
  refine ⟨h.good.waits hsock hlow hroom hwaits, ⟨?_, ?_⟩, ?_, ?_⟩
  · dsimp only
    rw [hwaits.results.1, hwaits.fates]
    exact h.faithful.results
  · dsimp only
    rw [hwaits.canaryFails, hwaits.fates]
    exact h.faithful.canaryFails
  · have hfd : a.sock ∉ fds := fun hmem => hsock (h.good.opened _ hmem)
    have hdata := add_data (Int.ne_of_lt hwaits.sockets.1)
      (if SendsCanary cfg s.packetsSent then cfg.canaryIp else a.ip)
      (if SendsCanary cfg s.packetsSent then cfg.canaryPort else a.port) (a.now + cfg.connectTimeout)
    intro fd hmem hcanary
    dsimp only at hcanary ⊢
    rw [atCanary_iff, hwaits.sockets.2, hdata]
    rw [hwaits.probe] at hcanary
    by_cases heq : fd = a.sock
    · subst heq
      rw [Function.update_self] at hcanary ⊢
      rw [if_pos (hsends.mpr hcanary), if_pos (hsends.mpr hcanary)]
    · rw [Function.update_of_ne heq] at hcanary ⊢
      have hmem : fd ∈ fds := (List.mem_append.mp hmem).resolve_right fun h => heq (List.mem_singleton.mp h)
      exact atCanary_iff.mp (h.canary fd hmem hcanary)
  · show s'.probes ≤ 2 ^ 32
    rw [hwaits.packetsSent.2]
    exact hfew

theorem Reported.ends {fate : Fate} {queued fails : Prop} (h : Reported cfg s (pre ++ fd :: post))
    (hends : Ends s s' fd fate queued fails)
    (hqueued : queued ↔ fate.succeeded ∧ ¬ IsCanary cfg (s.probe fd))
    (hfails : fails ↔ ¬ fate.succeeded ∧ IsCanary cfg (s.probe fd)) : Reported cfg s' (pre ++ post) := by
  refine ⟨h.good.ends (fun h => (hqueued.mp h).1) hends, ?_, ?_, hends.packetsSent.2.trans_le h.few⟩
  · exact h.faithful.ended hends.fates hends.results hends.canaryFails hqueued hfails
  · intro g hg hcanary
    rw [hends.probe] at hcanary
    have hmem : g ∈ pre ++ fd :: post := List.perm_middle.mem_iff.mpr (List.mem_cons_of_mem _ hg)
    rw [atCanary_iff, hends.sockets, del_data]
    exact atCanary_iff.mp (h.canary g hmem hcanary)

/-- What stays during an iteration: the probes and the data of the entries, on the sockets that are left. -/
structure Polling (cfg : Config) (s₀ : Scanner) (fds₀ : List Int) (s : Scanner) (fds : List Int) :
    Prop where
  reported : Reported cfg s fds
  data : s.sockets.data = s₀.sockets.data
  probe : s.probe = s₀.probe
  left : ∀ fd ∈ fds, fd ∈ fds₀

theorem Polling.ends {s₀ : Scanner} {fds₀ : List Int} {fate : Fate} {queued fails : Prop}
    (h : Polling cfg s₀ fds₀ s (pre ++ fd :: post)) (hends : Ends s s' fd fate queued fails)
    (hqueued : queued ↔ fate.succeeded ∧ ¬ IsCanary cfg (s.probe fd))
    (hfails : fails ↔ ¬ fate.succeeded ∧ IsCanary cfg (s.probe fd)) :
    Polling cfg s₀ fds₀ s' (pre ++ post) := by
  refine ⟨h.reported.ends hends hqueued hfails, ?_, hends.probe.trans h.probe, fun g hg => ?_⟩
  · rw [hends.sockets, del_data, h.data]
  · exact h.left g (List.perm_middle.mem_iff.mpr (List.mem_cons_of_mem _ hg))

theorem Polling.atCanary {s₀ : Scanner} {fds₀ : List Int} (h : Polling cfg s₀ fds₀ s fds) :
    s.sockets.AtCanary cfg fd ↔ s₀.sockets.AtCanary cfg fd := by
  rw [atCanary_iff, atCanary_iff, h.data]

/-- An event is handled as one of the canary exactly if it is one. -/
theorem Polling.handled {s₀ : Scanner} {fds₀ : List Int} {e : Int × Events}
    (h : Polling cfg s₀ fds₀ s (pre ++ e.1 :: post))
    (hkeeps : cfg.canaryIp ≠ 0 → s₀.sockets.AtCanary cfg e.1 → IsCanary cfg (s₀.probe e.1)) :
    Polling cfg s₀ fds₀ (handleEvent cfg s e) (pre ++ post) := by
  have hcanary : (cfg.canaryIp ≠ 0 ∧ s.sockets.AtCanary cfg e.1) ↔ IsCanary cfg (s.probe e.1) := by
    refine ⟨fun hat => ?_, fun hcanary => ⟨hcanary.1, ?_⟩⟩
    · rw [h.probe]
      exact hkeeps hat.1 (h.atCanary.mp hat.2)
    · exact h.reported.canary e.1 (by simp) hcanary
  refine h.ends (handleEvent_ends cfg s e.1 e.2) ?_ ?_
  · rw [hcanary]
    rfl
  · rw [← and_assoc, hcanary, and_comm]
    rfl

/-- A socket is swept as the one of the canary exactly if it is. -/
theorem Polling.sweptOut {s₀ : Scanner} {fds₀ : List Int} (h : Polling cfg s₀ fds₀ s (fd :: post))
    (hkeeps : s₀.sockets.AtCanary cfg fd → IsCanary cfg (s₀.probe fd)) :
    Polling cfg s₀ fds₀ (sweepOut cfg s fd).2 post := by
  have hcanary : s.sockets.AtCanary cfg fd ↔ IsCanary cfg (s.probe fd) := by
    refine ⟨fun hat => ?_, fun hcanary => ?_⟩
    · rw [h.probe]
      exact hkeeps (h.atCanary.mp hat)
    · exact h.reported.canary fd List.mem_cons_self hcanary
  have hfirst : Polling cfg s₀ fds₀ s ([] ++ fd :: post) := h
  refine hfirst.ends (sweepOut_ends cfg s fd) ?_ ?_
  · simp [Fate.succeeded]
  · simpa [Fate.succeeded] using hcanary

theorem Reported.polled {now later : Nat} {events : List (Int × Events)} (h : Reported cfg s fds)
    (hnodup : (events.map Prod.fst).Nodup) (hmem : ∀ e ∈ events, e.1 ∈ s.registered)
    (hkeeps : Keeps cfg s (.poll now events later)) :
    ∃ fds', Reported cfg (poll cfg s now events later) fds' := by
  have hgood := h.good
  have hstart : Polling cfg s fds { s with timeout := epollTimeout s now } fds :=
    ⟨h.timeout _, rfl, rfl, fun _ => id⟩
  have hhandled : ∀ e ∈ events, ∀ t pre post, Polling cfg s fds t (pre ++ e.1 :: post) →
      Polling cfg s fds (handleEvent cfg t e) (pre ++ post) :=
    fun e he t pre post hinv => hinv.handled (hkeeps.1 e he)
  obtain ⟨fds', hpolling, hleft⟩ := events_handled hhandled hnodup hstart hgood.list.nodup
    fun e he => (hgood.registered _).mp (hmem e he)
  have hpoll : poll cfg s now events later =
      let t := events.foldl (handleEvent cfg) { s with timeout := epollTimeout s now }
      sweep cfg later t.sockets.numSockets.toNat t.sockets.firstFd { t with clock := later } := rfl
  rw [hpoll]
  generalize events.foldl (handleEvent cfg) { s with timeout := epollTimeout s now } = t at hpolling ⊢
  have hclock : Polling cfg s fds' { t with clock := later } fds' :=
    ⟨hpolling.reported.clock later, hpolling.data, hpolling.probe, fun _ => id⟩
  have hsweptOut : ∀ u fd post, (u.sockets.entries fd).timeout ≤ later →
      Polling cfg s fds' u (fd :: post) → Polling cfg s fds' (sweepOut cfg u fd).2 post := by
    intro u fd post hdue hinv
    obtain ⟨hpending, hevents⟩ := hleft fd (hinv.left fd List.mem_cons_self)
    have htimeout : (u.sockets.entries fd).timeout = (s.sockets.entries fd).timeout :=
      congrArg Prod.fst (congrFun hinv.data fd)
    rw [htimeout] at hdue
    exact hinv.sweptOut (hkeeps.2 fd ((hgood.registered fd).mpr hpending) hevents hdue)
  have hfuel : fds'.length ≤ t.sockets.numSockets.toNat :=
    hpolling.reported.good.list.toNat_count.ge
  obtain ⟨fds'', hswept, -⟩ := swept (fun _ _ h => h.reported.good.list) hsweptOut hclock hfuel
  exact ⟨fds'', hswept.reported⟩

theorem Reported.step {i : Input} (h : Reported cfg s fds) (hanswers : Answers s i)
    (hkeeps : Keeps cfg s i) (hstep : step cfg s i = some s') : ∃ fds', Reported cfg s' fds' := by
  rcases step_cases hanswers hstep with
    ⟨a, rfl, hroom, hlow, hfresh, t, ⟨hresolved, rfl⟩ | ⟨hwaits, rfl⟩⟩ | ⟨now, events, later, rfl, -, rfl⟩
  · exact ⟨fds, (h.resolved hfresh hkeeps hresolved).clock a.now⟩
  · exact ⟨fds ++ [a.sock], (h.waits hfresh hlow hroom hkeeps.1 hwaits).clock a.now⟩
  · obtain ⟨-, -, hnodup, hmem⟩ := hanswers
    exact h.polled hnodup hmem hkeeps

/-! ### What is reported -/

/-- What is reported of the probes that ended. -/
structure CanaryReported (cfg : Config) (s : Scanner) : Prop where
  once : ∀ probe < s.probes, ∀ probe' < s.probes, IsCanary cfg probe → IsCanary cfg probe' → probe = probe'
  notQueued : ∀ r ∈ s.results, ¬ IsCanary cfg r.probe
  failedOnce : ∀ probe fate, (probe, fate) ∈ s.fates → IsCanary cfg probe →
    (canaryFails s.logs).count probe = if fate.succeeded then 0 else 1
  onlyCanary : ∀ probe ∈ canaryFails s.logs, IsCanary cfg probe
  othersQueued : ∀ probe fate, (probe, fate) ∈ s.fates → ¬ IsCanary cfg probe → fate.succeeded →
    ∃ r ∈ s.results, r.probe = probe

theorem Reported.canaryReported (h : Reported cfg s fds) : CanaryReported cfg s := by
  have honce : (s.fates.map Prod.fst).Nodup := (List.nodup_append.mp h.good.nodup).1
  have hfew := h.few
  refine ⟨?_, ?_, ?_, ?_, ?_⟩
  · intro probe hprobe probe' hprobe' hcanary hcanary'
    exact hcanary.unique hcanary' (by omega) (by omega)
  · intro r hr hcanary
    have hmem := List.mem_map_of_mem (f := Result.probe) hr
    rw [h.faithful.results] at hmem
    obtain ⟨p, hp, hprobe⟩ := List.mem_map.mp hmem
    have hfilter := (List.mem_filter.mp hp).2
    rw [decide_eq_true_eq] at hfilter
    exact hfilter.2 (hprobe ▸ hcanary)
  · intro probe fate hfate hcanary
    have hnodup : (canaryFails s.logs).Nodup := by
      rw [h.faithful.canaryFails]
      exact (List.filter_sublist.map Prod.fst).nodup honce
    have hmem : probe ∈ canaryFails s.logs ↔ ¬ fate.succeeded := by
      rw [h.faithful.canaryFails]
      constructor
      · intro hprobe
        obtain ⟨p, hp, rfl⟩ := List.mem_map.mp hprobe
        obtain ⟨hp, hfilter⟩ := List.mem_filter.mp hp
        rw [decide_eq_true_eq] at hfilter
        have heq : p = (p.1, fate) := List.inj_on_of_nodup_map honce hp hfate rfl
        rw [heq] at hfilter
        exact hfilter.1
      · intro hfails
        refine List.mem_map.mpr ⟨(probe, fate), List.mem_filter.mpr ⟨hfate, ?_⟩, rfl⟩
        exact decide_eq_true ⟨hfails, hcanary⟩
    rw [hnodup.count]
    by_cases hsucceeded : fate.succeeded
    · rw [if_neg fun h => hmem.mp h hsucceeded, if_pos hsucceeded]
    · rw [if_pos (hmem.mpr hsucceeded), if_neg hsucceeded]
  · intro probe hprobe
    rw [h.faithful.canaryFails] at hprobe
    obtain ⟨p, hp, rfl⟩ := List.mem_map.mp hprobe
    have hfilter := (List.mem_filter.mp hp).2
    rw [decide_eq_true_eq] at hfilter
    exact hfilter.2
  · intro probe fate hfate hcanary hsucceeded
    have hmem : probe ∈ s.results.map Result.probe := by
      rw [h.faithful.results]
      refine List.mem_map.mpr ⟨(probe, fate), List.mem_filter.mpr ⟨hfate, ?_⟩, rfl⟩
      exact decide_eq_true ⟨hsucceeded, hcanary⟩
    exact List.mem_map.mp hmem

/-- In every run whose steps keep the canary apart, the canary is reported faithfully and only as one. -/
theorem canary_reported (entries : Int → SocketListEntry) (size : Int)
    (h : Reaches (step cfg) (fun s i => Answers s i ∧ Keeps cfg s i) (.start entries size) s) :
    CanaryReported cfg s := by
  obtain ⟨fds, hreported⟩ := h.invariant (fun s => ∃ fds, Reported cfg s fds)
    ⟨[], start_reported cfg entries size⟩ fun s i s' ⟨fds, hreported⟩ hguard hstep =>
      hreported.step hguard.1 hguard.2 hstep
  exact hreported.canaryReported

def canaryConfig : Config := ⟨1, 100, 0, 0, 10, 0x0a000001, 80, 0, 1000⟩

/-- An attempt to connect to the target 10.0.0.2:80, or to the canary. -/
def canaryAttempt (o : ConnectOutcome) : Input :=
  .attempt ⟨0x0a000002, 80, 3, fun _ => none, o, 0, true⟩

/-- The canary has an error event, and the next probe connects at once. -/
theorem canary_reported_error :
    ∃ s, (runSchedule
        (fun s i => if Answers s i ∧ Keeps canaryConfig s i then step canaryConfig s i else none)
        (.start (fun _ => ⟨0, 0, 0, 0, 0⟩) 10)
        [canaryAttempt ⟨.done, some .inProgress, .done⟩, .poll 0 [(3, ⟨true, true, false⟩)] 0,
          canaryAttempt ⟨.done, none, .done⟩]) = some s ∧
      (canaryFails s.logs, s.results) = ([0], [⟨1, 0x0a000002, 80⟩]) ∧
      CanaryReported canaryConfig s := by
  have hview : (runSchedule
      (fun s i => if Answers s i ∧ Keeps canaryConfig s i then step canaryConfig s i else none)
      (.start (fun _ => ⟨0, 0, 0, 0, 0⟩) 10)
      [canaryAttempt ⟨.done, some .inProgress, .done⟩, .poll 0 [(3, ⟨true, true, false⟩)] 0,
        canaryAttempt ⟨.done, none, .done⟩]).map
      (fun s => (canaryFails s.logs, s.results)) = some ([0], [⟨1, 0x0a000002, 80⟩]) := by
    decide +kernel
  obtain ⟨s, hrun, hs⟩ := Option.map_eq_some_iff.mp hview
  exact ⟨s, hrun, hs, canary_reported _ _ (reaches_of_runSchedule .start hrun)⟩

/-- A canary that connects at once is queued as a result; one that is refused at once is not reported. -/
theorem canary_ends_at_once :
    (∃ s, Reaches (step canaryConfig) Answers (.start (fun _ => ⟨0, 0, 0, 0, 0⟩) 10) s ∧
      ¬ CanaryReported canaryConfig s ∧ s.results = [⟨0, 0x0a000001, 80⟩]) ∧
    ∃ s, Reaches (step canaryConfig) Answers (.start (fun _ => ⟨0, 0, 0, 0, 0⟩) 10) s ∧
      ¬ CanaryReported canaryConfig s ∧
        s.fates = [(0, .returned ⟨.done, some .refused, .done⟩)] ∧ canaryFails s.logs = [] := by
  constructor
  · have hview : (runSchedule (fun s i => if Answers s i then step canaryConfig s i else none)
        (.start (fun _ => ⟨0, 0, 0, 0, 0⟩) 10) [canaryAttempt ⟨.done, none, .done⟩]).map
        (fun s => s.results) = some [⟨0, 0x0a000001, 80⟩] := by
      decide +kernel
    obtain ⟨s, hrun, hs⟩ := Option.map_eq_some_iff.mp hview
    refine ⟨s, reaches_of_runSchedule .start hrun, fun h => ?_, hs⟩
    exact h.notQueued ⟨0, 0x0a000001, 80⟩ (hs ▸ List.mem_cons_self) (by decide)
  · have hview : (runSchedule (fun s i => if Answers s i then step canaryConfig s i else none)
        (.start (fun _ => ⟨0, 0, 0, 0, 0⟩) 10) [canaryAttempt ⟨.done, some .refused, .done⟩]).map
        (fun s => (s.fates, canaryFails s.logs)) =
          some ([(0, .returned ⟨.done, some .refused, .done⟩)], []) := by
      decide +kernel
    obtain ⟨s, hrun, hs⟩ := Option.map_eq_some_iff.mp hview
    obtain ⟨hfates, hfails⟩ := Prod.mk.inj hs
    refine ⟨s, reaches_of_runSchedule .start hrun, fun h => ?_, hfates, hfails⟩
    have hcount := h.failedOnce 0 _ (hfates ▸ List.mem_cons_self) (by decide)
    rw [hfails] at hcount
    cases hcount

end Cscan.Scan
