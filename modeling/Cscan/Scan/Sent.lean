import Cscan.Scan.Addresses
import Cscan.Scan.Probes

/-! Where the probes were sent to: each result and each pending socket has the address and the port of its own
probe, however often the sockets are used again. -/

namespace Cscan.Scan

open Cscan.Lib SocketList

/-- The address and the port that an attempt goes to. -/
def Scanner.destination (cfg : Config) (s : Scanner) (a : Attempt) : UInt32 × Int32 :=
  (s.target cfg a, s.targetPort cfg a)

/-- The scanner, with the destinations of the probes by their numbers. -/
structure Tracked where
  scanner : Scanner
  sent : List (UInt32 × Int32)

def Tracked.start (entries : Int → SocketListEntry) (size : Int) : Tracked := ⟨.start entries size, []⟩

def Tracked.step (cfg : Config) (t : Tracked) (i : Input) : Option Tracked :=
  (Scan.step cfg t.scanner i).map fun s =>
    ⟨s, match i with
      | .attempt a => t.sent ++ [t.scanner.destination cfg a]
      | .poll .. => t.sent⟩

/-- The results and the pending sockets have the destinations of their probes. -/
structure Carries (cfg : Config) (sent : List (UInt32 × Int32)) (s : Scanner) (fds : List Int) : Prop where
  good : Good cfg s fds
  length : s.probes = sent.length
  results : ∀ r ∈ s.results, sent[r.probe]? = some (r.ip, r.port)
  pending : ∀ fd ∈ fds, sent[s.probe fd]? = some ((s.sockets.entries fd).ip, (s.sockets.entries fd).port)

variable {cfg : Config} {sent : List (UInt32 × Int32)} {s s' : Scanner} {fds pre post : List Int}

/-- The entries of the list are found by their data. -/
theorem Carries.of_data (hgood : Good cfg s' fds) (hlength : s'.probes = sent.length)
    (hresults : ∀ r ∈ s'.results, sent[r.probe]? = some (r.ip, r.port))
    (hpending : ∀ fd ∈ fds, sent[s'.probe fd]? = some (s'.sockets.data fd).2) : Carries cfg sent s' fds :=
  ⟨hgood, hlength, hresults, hpending⟩

theorem Carries.clock (h : Carries cfg sent s fds) (now : Nat) : Carries cfg sent { s with clock := now } fds :=
  ⟨h.good.clock now, h.length, h.results, h.pending⟩

/-! ### A probe is sent -/

theorem getElem?_sent {n : Nat} {d d' : UInt32 × Int32} (h : sent[n]? = some d) : (sent ++ [d'])[n]? = some d := by
  obtain ⟨hn, -⟩ := List.getElem?_eq_some_iff.mp h
  rwa [List.getElem?_append_left hn]

theorem getElem?_last {n : Nat} (hn : n = sent.length) (d : UInt32 × Int32) : (sent ++ [d])[n]? = some d := by
  rw [hn, List.getElem?_concat_length]

section Attempt

variable {a : Attempt}

theorem step_queues (hstep : step cfg s (.attempt a) = some s') : s'.results = s.results ∨
    s'.results = s.results ++ [⟨s.probes, s.target cfg a, s.targetPort cfg a⟩] := by
  simp only [step] at hstep
  by_cases hroom : s.sockets.numSockets < cfg.maxPendingSockets
  swap
  · rw [if_neg hroom] at hstep
    cases hstep
  rw [if_pos hroom] at hstep
  obtain ⟨⟨t, tfd⟩, htry, hstep⟩ := Option.bind_eq_some_iff.mp hstep
  have hqueues := tryConnect_queues htry
  dsimp only at hstep
  split_ifs at hstep
  · cases hstep
    exact hqueues
  · cases hstep
    exact hqueues

/-- One more probe leaves the destinations of the others alone. -/
theorem Carries.queued (h : Carries cfg sent s fds)
    (hresults : s'.results = s.results ∨
      s'.results = s.results ++ [⟨s.probes, s.target cfg a, s.targetPort cfg a⟩]) :
    ∀ r ∈ s'.results, (sent ++ [s.destination cfg a])[r.probe]? = some (r.ip, r.port) := by
  intro r hr
  rcases hresults with heq | heq
  · exact getElem?_sent (h.results r (heq ▸ hr))
  · rw [heq] at hr
    rcases List.mem_append.mp hr with hr | hr
    · exact getElem?_sent (h.results r hr)
    · rw [List.mem_singleton.mp hr]
      exact getElem?_last h.length _

theorem Carries.resolved (h : Carries cfg sent s fds)
    (hsock : a.sock ∉ s.opened) (hresolved : Resolved s s' a)
    (hresults : s'.results = s.results ∨
      s'.results = s.results ++ [⟨s.probes, s.target cfg a, s.targetPort cfg a⟩]) :
    Carries cfg (sent ++ [s.destination cfg a]) s' fds := by
  have hlength : s'.probes = (sent ++ [s.destination cfg a]).length := by
    rw [hresolved.packetsSent.2, h.length, List.length_append, List.length_singleton]
  refine ⟨h.good.resolved hsock hresolved, hlength, h.queued hresults, fun fd hfd => ?_⟩
  rw [hresolved.probe, hresolved.sockets]
  exact getElem?_sent (h.pending fd hfd)

theorem Carries.waits (h : Carries cfg sent s fds)
    (hsock : a.sock ∉ s.opened) (hlow : 0 ≤ a.sock) (hroom : s.sockets.numSockets < cfg.maxPendingSockets)
    (hwaits : Waits cfg s s' a) : Carries cfg (sent ++ [s.destination cfg a])
      { s' with registered := s'.registered ++ [a.sock] } (fds ++ [a.sock]) := by
  have hresults : ∀ r ∈ s'.results, (sent ++ [s.destination cfg a])[r.probe]? = some (r.ip, r.port) :=
    h.queued (Or.inl hwaits.results.1)
  have hlength : s'.probes = (sent ++ [s.destination cfg a]).length := by
    rw [hwaits.packetsSent.2, h.length, List.length_append, List.length_singleton]
  refine .of_data (h.good.waits hsock hlow hroom hwaits) hlength hresults fun fd hfd => ?_
  have hdata := add_data (Int.ne_of_lt hwaits.sockets.1)
    (if SendsCanary cfg s.packetsSent then cfg.canaryIp else a.ip)
    (if SendsCanary cfg s.packetsSent then cfg.canaryPort else a.port) (a.now + cfg.connectTimeout)
  dsimp only
  rw [hwaits.probe, hwaits.sockets.2, hdata]
  rcases List.mem_append.mp hfd with hfd | hfd
  · have hne : fd ≠ a.sock := fun heq => hsock (heq ▸ h.good.opened fd hfd)
    rw [Function.update_of_ne hne, Function.update_of_ne hne]
    exact getElem?_sent (h.pending fd hfd)
  · rw [List.mem_singleton.mp hfd, Function.update_self, Function.update_self]
    exact getElem?_last h.length _

end Attempt

/-! ### A probe ends -/

theorem Carries.ends {fd : Int} {fate : Fate} {queued fails : Prop}
    (h : Carries cfg sent s (pre ++ fd :: post)) (hends : Ends s s' fd fate queued fails)
    (hfate : queued → fate.succeeded)
    (hresults : s'.results = s.results ∨
      s'.results = s.results ++ [⟨s.probe fd, (s.sockets.entries fd).ip, (s.sockets.entries fd).port⟩]) :
    Carries cfg sent s' (pre ++ post) := by
  have hpending : ∀ g ∈ pre ++ fd :: post, sent[s.probe g]? = some (s.sockets.data g).2 := h.pending
  refine .of_data (h.good.ends hfate hends) (hends.packetsSent.2.trans h.length) (fun r hr => ?_) fun g hg => ?_
  · rcases hresults with heq | heq
    · exact h.results r (heq ▸ hr)
    · rw [heq] at hr
      rcases List.mem_append.mp hr with hr | hr
      · exact h.results r hr
      · rw [List.mem_singleton.mp hr]
        exact h.pending fd (by simp)
  · rw [hends.probe, hends.sockets, del_data]
    exact hpending g (List.perm_middle.mem_iff.mpr (List.mem_cons_of_mem _ hg))

theorem Carries.polled {now later : Nat} {events : List (Int × Events)} (h : Carries cfg sent s fds)
    (hnodup : (events.map Prod.fst).Nodup) (hmem : ∀ e ∈ events, e.1 ∈ s.registered) :
    ∃ fds', Carries cfg sent (poll cfg s now events later) fds' := by
  have hstart : Carries cfg sent { s with timeout := epollTimeout s now } fds :=
    ⟨h.good.timeout _, h.length, h.results, h.pending⟩
  have hhandled : ∀ e ∈ events, ∀ t pre post, Carries cfg sent t (pre ++ e.1 :: post) →
      Carries cfg sent (handleEvent cfg t e) (pre ++ post) :=
    fun e _ t pre post hinv => hinv.ends (handleEvent_ends cfg t e.1 e.2) And.left (handleEvent_queues cfg t e)
  obtain ⟨fds', hcarries, -⟩ := events_handled hhandled hnodup hstart h.good.list.nodup
    fun e he => (h.good.registered _).mp (hmem e he)
  have hsweptOut : ∀ u fd post, (u.sockets.entries fd).timeout ≤ later →
      Carries cfg sent u (fd :: post) → Carries cfg sent (sweepOut cfg u fd).2 post := by
    intro u fd post _ hinv
    have hfirst : Carries cfg sent u ([] ++ fd :: post) := hinv
    have hends := sweepOut_ends cfg u fd
    refine hfirst.ends hends False.elim (Or.inl ?_)
    exact (hends.results.resolve_right fun h => h.1).2.1
  have hclock := hcarries.clock later
  obtain ⟨fds'', hswept, -⟩ := swept (fun _ _ h => h.good.list) hsweptOut hclock hclock.good.list.toNat_count.ge
  exact ⟨fds'', hswept⟩

/-! ### Whole runs -/

theorem Carries.step {t t' : Tracked} {i : Input} (h : Carries cfg t.sent t.scanner fds)
    (hanswers : Answers t.scanner i) (hstep : t.step cfg i = some t') :
    ∃ fds', Carries cfg t'.sent t'.scanner fds' := by
  obtain ⟨s', hscan, rfl⟩ := Option.map_eq_some_iff.mp hstep
  rcases step_cases hanswers hscan with
    ⟨a, rfl, hroom, hlow, hfresh, u, ⟨hresolved, rfl⟩ | ⟨hwaits, rfl⟩⟩ | ⟨now, events, later, rfl, -, rfl⟩
  · have hqueues := step_queues hscan
    exact ⟨fds, (h.resolved hfresh hresolved hqueues).clock a.now⟩
  · exact ⟨fds ++ [a.sock], (h.waits hfresh hlow hroom hwaits).clock a.now⟩
  · exact h.polled hanswers.2.2.1 hanswers.2.2.2

/-- In every run the results and the pending sockets have the destinations of their probes. -/
theorem run_carries {guard : Tracked → Input → Prop} {entries : Int → SocketListEntry} {size : Int} {t : Tracked}
    (hguard : ∀ t i, guard t i → Answers t.scanner i)
    (h : Reaches (Tracked.step cfg) guard (.start entries size) t) : ∃ fds, Carries cfg t.sent t.scanner fds := by
  have hstart : Carries cfg [] (.start entries size) [] :=
    ⟨start_good cfg entries size, rfl, List.forall_mem_nil _, List.forall_mem_nil _⟩
  exact h.invariant (fun t => ∃ fds, Carries cfg t.sent t.scanner fds) ⟨[], hstart⟩
    fun t i t' ⟨fds, hcarries⟩ hi hstep => hcarries.step (hguard t i hi) hstep

/-- A tracked run is a run. -/
theorem reaches_of_tracked {guard : Tracked → Input → Prop} {guard' : Scanner → Input → Prop}
    (hguard : ∀ t i, guard t i → guard' t.scanner i) {entries : Int → SocketListEntry} {size : Int} {t : Tracked}
    (h : Reaches (Tracked.step cfg) guard (.start entries size) t) :
    Reaches (step cfg) guard' (.start entries size) t.scanner := by
  refine h.lift Tracked.scanner id .start fun t i t' hi hstep => ⟨hguard t i hi, ?_⟩
  obtain ⟨s', hscan, rfl⟩ := Option.map_eq_some_iff.mp hstep
  exact hscan

end Cscan.Scan
