import Cscan.Scan.ConnThread
import Mathlib.Data.List.Perm.Basic
import Mathlib.Data.List.Nodup

/-! What a turn of each loop of `conn_thread` does: a probe is sent and ends at once or is pending on its
socket, and a pending one ends with an event or is swept. -/

namespace Cscan.Scan

open Cscan.Lib SocketList

/-- The probes for which `log_canary_fail` was called. -/
def canaryFails (logs : List Log) : List Nat :=
  logs.filterMap fun
    | .canaryFail probe _ => some probe
    | _ => none

@[simp] theorem canaryFails_append (l l' : List Log) :
    canaryFails (l ++ l') = canaryFails l ++ canaryFails l' := List.filterMap_append

section Count

variable (cfg : Config) (s : Scanner) (hasEnded : Prop) [Decidable hasEnded]

@[simp] theorem count_sockets : (s.count cfg hasEnded).sockets = s.sockets := by
  unfold Scanner.count; dsimp only; split_ifs <;> rfl

@[simp] theorem count_registered : (s.count cfg hasEnded).registered = s.registered := by
  unfold Scanner.count; dsimp only; split_ifs <;> rfl

@[simp] theorem count_opened : (s.count cfg hasEnded).opened = s.opened := by
  unfold Scanner.count; dsimp only; split_ifs <;> rfl

@[simp] theorem count_closes : (s.count cfg hasEnded).closes = s.closes := by
  unfold Scanner.count; dsimp only; split_ifs <;> rfl

@[simp] theorem count_probe : (s.count cfg hasEnded).probe = s.probe := by
  unfold Scanner.count; dsimp only; split_ifs <;> rfl

@[simp] theorem count_packetsSent : (s.count cfg hasEnded).packetsSent = s.packetsSent + 1 := by
  unfold Scanner.count; dsimp only; split_ifs <;> rfl

@[simp] theorem count_probes : (s.count cfg hasEnded).probes = s.probes + 1 := by
  unfold Scanner.count; dsimp only; split_ifs <;> rfl

@[simp] theorem count_eventCount :
    (s.count cfg hasEnded).eventCount = if hasEnded then s.eventCount + 1 else s.eventCount := by
  unfold Scanner.count; dsimp only; split_ifs <;> rfl

@[simp] theorem count_events :
    (s.count cfg hasEnded).events = if hasEnded then s.events + 1 else s.events := by
  unfold Scanner.count; dsimp only; split_ifs <;> rfl

@[simp] theorem count_fates : (s.count cfg hasEnded).fates = s.fates := by
  unfold Scanner.count; dsimp only; split_ifs <;> rfl

@[simp] theorem count_results : (s.count cfg hasEnded).results = s.results := by
  unfold Scanner.count; dsimp only; split_ifs <;> rfl

@[simp] theorem count_resultCount : (s.count cfg hasEnded).resultCount = s.resultCount := by
  unfold Scanner.count; dsimp only; split_ifs <;> rfl

@[simp] theorem count_canaryFails : canaryFails (s.count cfg hasEnded).logs = canaryFails s.logs := by
  unfold Scanner.count; dsimp only
  split_ifs <;> simp [Scanner.printStats, Scanner.log, canaryFails]

end Count

theorem bindLoop_canaryFails {port : Int32} {binds : Int → Option Errno} {retries : Nat} {toBind : Int}
    {logs logs' : List Log} (h : bindLoop port binds retries toBind logs = some logs') :
    canaryFails logs' = canaryFails logs := by
  induction retries generalizing toBind logs with
  | zero =>
    cases h
    rfl
  | succ retries ih =>
    rw [bindLoop] at h
    cases hbind : binds toBind with
    | none =>
      rw [hbind] at h
      cases h
      rfl
    | some e =>
      rw [hbind] at h
      cases e with
      | addrInUse =>
        dsimp only at h
        split_ifs at h
        · rw [ih h]
          simp [canaryFails]
        · cases h
          simp [canaryFails]
      | refused => cases h
      | unreachable => cases h
      | inProgress => cases h
      | addrNotAvail => cases h
      | other => cases h

/-- A result for the probe is queued if the condition holds, and nothing else. -/
def Queues (s s' : Scanner) (probe : Nat) (queued : Prop) : Prop :=
  (¬ queued ∧ s'.results = s.results ∧ s'.resultCount = s.resultCount) ∨
    (queued ∧ (∃ ip port, s'.results = s.results ++ [⟨probe, ip, port⟩]) ∧
      s'.resultCount = s.resultCount + 1)

/-- The probe ended when it was sent. -/
structure Resolved (s s' : Scanner) (a : Attempt) : Prop where
  sockets : s'.sockets = s.sockets
  registered : (∀ fd ∈ s'.registered, fd ∈ s.registered) ∧
    ∀ fd ∈ s.registered, fd ≠ a.sock → fd ∈ s'.registered
  opened : ∀ fd ∈ s.opened, fd ≠ a.sock → fd ∈ s'.opened
  socket : if a.outcome.Leaks then a.sock ∈ s'.opened ∧ s'.closes = s.closes
    else a.sock ∉ s'.opened ∧ s'.closes = s.closes ++ [a.sock]
  probe : s'.probe = s.probe
  packetsSent : s'.packetsSent = s.packetsSent + 1 ∧ s'.probes = s.probes + 1
  eventCount : s'.eventCount = s.eventCount + 1 ∧ s'.events = s.events + 1
  fates : s'.fates = s.fates ++ [(s.probes, .returned a.outcome)]
  results : Queues s s' s.probes a.outcome.Connects
  canaryFails : canaryFails s'.logs = canaryFails s.logs
  outcome : ¬ a.outcome.InProgress

/-- The probe is pending on its socket. -/
structure Waits (cfg : Config) (s s' : Scanner) (a : Attempt) : Prop where
  sockets : a.sock < s.sockets.size ∧ s'.sockets = s.sockets.add a.sock
    (if SendsCanary cfg s.packetsSent then cfg.canaryIp else a.ip)
    (if SendsCanary cfg s.packetsSent then cfg.canaryPort else a.port) (a.now + cfg.connectTimeout)
  registered : s'.registered = s.registered
  opened : s'.opened = a.sock :: s.opened
  closes : s'.closes = s.closes
  probe : s'.probe = Function.update s.probe a.sock s.probes
  packetsSent : s'.packetsSent = s.packetsSent + 1 ∧ s'.probes = s.probes + 1
  eventCount : s'.eventCount = s.eventCount ∧ s'.events = s.events
  fates : s'.fates = s.fates
  results : s'.results = s.results ∧ s'.resultCount = s.resultCount
  canaryFails : canaryFails s'.logs = canaryFails s.logs
  outcome : a.outcome.InProgress

/-- An attempt that fails at once, but for the log of a clash. -/
theorem failed_resolved (cfg : Config) {s : Scanner} {a : Attempt} {logs : List Log} {closed : Bool}
    {hasEnded : Prop} [Decidable hasEnded] (hlogs : canaryFails logs = canaryFails s.logs) (hended : hasEnded)
    (hclosed : closed = true ↔ ¬ a.outcome.Leaks) (hconnects : ¬ a.outcome.Connects)
    (hprogress : ¬ a.outcome.InProgress) :
    let t : Scanner := { s with logs := logs, opened := a.sock :: s.opened }
    Resolved s (((if closed then t.close a.sock else t).count cfg hasEnded).ended s.probes
      (.returned a.outcome)) a := by
  cases closed with
  | false =>
    have hleaks : a.outcome.Leaks := Decidable.not_not.mp (mt hclosed.mpr Bool.false_ne_true)
    exact {
      sockets := count_sockets ..
      registered := by simp +contextual [Scanner.ended]
      opened := by simp +contextual [Scanner.ended]
      socket := by simp [Scanner.ended, hleaks]
      probe := count_probe ..
      packetsSent := ⟨count_packetsSent .., count_probes ..⟩
      eventCount := ⟨(count_eventCount ..).trans (if_pos hended), (count_events ..).trans (if_pos hended)⟩
      fates := by simp [Scanner.ended]
      results := Or.inl ⟨hconnects, count_results .., count_resultCount ..⟩
      canaryFails := (count_canaryFails ..).trans hlogs
      outcome := hprogress }
  | true =>
    have hleaks : ¬ a.outcome.Leaks := hclosed.mp rfl
    exact {
      sockets := count_sockets ..
      registered := by simp +contextual [Scanner.ended, Scanner.close]
      opened := by simp +contextual [Scanner.ended, Scanner.close]
      socket := by simp [Scanner.ended, Scanner.close, hleaks]
      probe := count_probe ..
      packetsSent := ⟨count_packetsSent .., count_probes ..⟩
      eventCount := ⟨(count_eventCount ..).trans (if_pos hended), (count_events ..).trans (if_pos hended)⟩
      fates := by simp [Scanner.ended, Scanner.close]
      results := Or.inl ⟨hconnects, count_results .., count_resultCount ..⟩
      canaryFails := (count_canaryFails ..).trans hlogs
      outcome := hprogress }

theorem Resolved.clash {s s' : Scanner} {a : Attempt} (h : Resolved s s' a) :
    Resolved s (s'.log .possibleClash) a := by
  refine { h with canaryFails := ?_ }
  rw [Scanner.log, canaryFails_append, h.canaryFails]
  exact List.append_nil _

/-- How `try_connect` returns when the attempt failed. -/
theorem failed_cases {s s' t : Scanner} {a : Attempt} {ret tfd : Int} {e : Errno} {probe : Nat}
    {fate : Fate} {rest : Option (Scanner × Int)} (h : Resolved s (t.ended probe fate) a)
    (hret : ret = -1 ∨ ret = -2)
    (hreturns : (if ret = -2 ∧ (e = .addrInUse ∨ e = .addrNotAvail) then
        some ((t.log .possibleClash).ended probe fate, -1)
      else if ret = -2 then none
      else if ret = -1 then some (t.ended probe fate, -1)
      else rest) = some (s', tfd)) : tfd = -1 ∧ Resolved s s' a := by
  split_ifs at hreturns with hclash
  · cases hreturns
    exact ⟨rfl, h.clash⟩
  · cases hreturns
    exact ⟨rfl, h⟩
  · omega

theorem tryConnect_cases {cfg : Config} {s s' : Scanner} {a : Attempt} {tfd : Int}
    (h : tryConnect cfg s a = some (s', tfd)) (hsock : 0 ≤ a.sock) :
    (tfd = -1 ∧ Resolved s s' a) ∨ (tfd = a.sock ∧ Waits cfg s s' a) := by
  unfold tryConnect at h
  dsimp only at h
  rw [if_neg (by omega)] at h
  generalize hip : (if SendsCanary cfg s.packetsSent then cfg.canaryIp else a.ip) = ip at h
  generalize hport : (if SendsCanary cfg s.packetsSent then cfg.canaryPort else a.port) = port at h
  obtain ⟨logs, hbound, h⟩ := Option.bind_eq_some_iff.mp h
  have hlogs : canaryFails logs = canaryFails s.logs := by
    split_ifs at hbound
    · exact bindLoop_canaryFails hbound
    · cases hbound
      rfl
  by_cases hconnects : a.outcome.Connects
  · rw [hconnects.returns hsock] at h
    simp only [Bool.false_eq_true, if_false] at h
    have hleaks : ¬ a.outcome.Leaks := fun h => h.2.2 hconnects.2.2
    have hprogress : ¬ a.outcome.InProgress := fun h => nomatch hconnects.2.1.symm.trans h.2
    have hended : a.sock ≥ -2 := by omega
    rw [if_neg (by omega), if_neg (by omega), if_neg (by omega), if_pos (by omega)] at h
    cases h
    refine Or.inl ⟨rfl, ?_⟩
    exact {
      sockets := count_sockets ..
      registered := by simp +contextual [Scanner.ended, Scanner.close, Scanner.queueResult]
      opened := by simp +contextual [Scanner.ended, Scanner.close, Scanner.queueResult]
      socket := by simp [Scanner.ended, Scanner.close, Scanner.queueResult, hleaks]
      probe := count_probe ..
      packetsSent := ⟨count_packetsSent .., count_probes ..⟩
      eventCount := ⟨(count_eventCount ..).trans (if_pos hended), (count_events ..).trans (if_pos hended)⟩
      fates := by simp [Scanner.ended, Scanner.close, Scanner.queueResult]
      results := Or.inr ⟨hconnects,
        ⟨ip, port, by simp [Scanner.ended, Scanner.close, Scanner.queueResult]⟩,
        by simp [Scanner.ended, Scanner.close, Scanner.queueResult]⟩
      canaryFails := (count_canaryFails ..).trans hlogs
      outcome := hprogress }
  by_cases hprogress : a.outcome.InProgress
  · rw [hprogress.returns hsock] at h
    simp only [Bool.false_eq_true, if_false] at h
    rw [if_neg (by simp)] at h
    by_cases hzero : -a.sock - 2 = -2
    · rw [if_pos hzero] at h
      cases h
    have hback : -(-a.sock - 2) - 2 = a.sock := by omega
    rw [if_neg hzero, if_neg (by omega), if_neg (by omega), hback] at h
    rw [count_sockets] at h
    split_ifs at h with hbig
    cases h
    exact Or.inr ⟨rfl, {
      sockets := ⟨Int.not_le.mp hbig, by rw [hip, hport]⟩
      registered := count_registered ..
      opened := count_opened ..
      closes := count_closes ..
      probe := by rw [count_probe]
      packetsSent := ⟨count_packetsSent .., count_probes ..⟩
      eventCount := ⟨(count_eventCount ..).trans (if_neg (by omega)), (count_events ..).trans (if_neg (by omega))⟩
      fates := count_fates ..
      results := ⟨count_results .., count_resultCount ..⟩
      canaryFails := (count_canaryFails ..).trans hlogs
      outcome := hprogress }⟩
  by_cases hleaks : a.outcome.Leaks
  · have hret : setSocketBlocking a.sock a.outcome.blocking = -1 ∨
        setSocketBlocking a.sock a.outcome.blocking = -2 := setSocketBlocking_fails hleaks.2.2
    have hended : setSocketBlocking a.sock a.outcome.blocking ≥ -2 := by omega
    rw [hleaks.returns hsock] at h
    have hclosed : false = true ↔ ¬ a.outcome.Leaks :=
      iff_of_false Bool.false_ne_true (not_not_intro hleaks)
    have hresolved := failed_resolved cfg hlogs hended hclosed hconnects hprogress
    exact Or.inl (failed_cases hresolved hret h)
  · obtain ⟨ret, e, hr, hret⟩ := socket4TryConnect_closes hsock hconnects hprogress hleaks
    have hended : ret ≥ -2 := by omega
    rw [hr] at h
    have hclosed : true = true ↔ ¬ a.outcome.Leaks := iff_of_true rfl hleaks
    have hresolved := failed_resolved cfg hlogs hended hclosed hconnects hprogress
    exact Or.inl (failed_cases hresolved hret h)

/-! ### The loops over the pending sockets -/

/-- The entry of `fd` has the address of the canary. -/
def SocketList.AtCanary (l : SocketList) (cfg : Config) (fd : Int) : Prop :=
  (l.entries fd).ip = cfg.canaryIp ∧ (l.entries fd).port = cfg.canaryPort

instance (l : SocketList) (cfg : Config) (fd : Int) : Decidable (l.AtCanary cfg fd) :=
  inferInstanceAs (Decidable (_ ∧ _))

/-- The probe on the socket `fd` ended. -/
structure Ends (s s' : Scanner) (fd : Int) (fate : Fate) (queued fails : Prop) : Prop where
  sockets : s'.sockets = (s.sockets.del fd).2
  registered : s'.registered = s.registered.filter (· ≠ fd)
  opened : s'.opened = s.opened.filter (· ≠ fd)
  closes : s'.closes = s.closes ++ [fd]
  probe : s'.probe = s.probe
  packetsSent : s'.packetsSent = s.packetsSent ∧ s'.probes = s.probes
  eventCount : if fate = .timedOut then s'.eventCount = s.eventCount ∧ s'.events = s.events else
    s'.eventCount = s.eventCount + 1 ∧ s'.events = s.events + 1
  fates : s'.fates = s.fates ++ [(s.probe fd, fate)]
  results : Queues s s' (s.probe fd) queued
  canaryFails : (¬ fails ∧ canaryFails s'.logs = canaryFails s.logs) ∨
    (fails ∧ canaryFails s'.logs = canaryFails s.logs ++ [s.probe fd])

theorem handleEvent_ends (cfg : Config) (s : Scanner) (fd : Int) (e : Events) :
    Ends s (handleEvent cfg s (fd, e)) fd (.event e)
      (e.ok ∧ ¬ (cfg.canaryIp ≠ 0 ∧ s.sockets.AtCanary cfg fd))
      (cfg.canaryIp ≠ 0 ∧ s.sockets.AtCanary cfg fd ∧ ¬ e.ok) := by
  unfold handleEvent
  dsimp only
  split_ifs with hcanary hok hok
  · exact ⟨rfl, rfl, rfl, rfl, rfl, ⟨rfl, rfl⟩, ⟨rfl, rfl⟩, rfl, Or.inl ⟨fun h => h.2 hcanary, rfl, rfl⟩,
      Or.inl ⟨fun h => h.2.2 hok, rfl⟩⟩
  · exact ⟨rfl, rfl, rfl, rfl, rfl, ⟨rfl, rfl⟩, ⟨rfl, rfl⟩, rfl, Or.inl ⟨fun h => hok h.1, rfl, rfl⟩,
      Or.inr ⟨⟨hcanary.1, hcanary.2, hok⟩, canaryFails_append ..⟩⟩
  · exact ⟨rfl, rfl, rfl, rfl, rfl, ⟨rfl, rfl⟩, ⟨rfl, rfl⟩, rfl, Or.inr ⟨⟨hok, hcanary⟩, ⟨_, _, rfl⟩, rfl⟩,
      Or.inl ⟨fun h => hcanary ⟨h.1, h.2.1⟩, rfl⟩⟩
  · exact ⟨rfl, rfl, rfl, rfl, rfl, ⟨rfl, rfl⟩, ⟨rfl, rfl⟩, rfl, Or.inl ⟨fun h => hok h.1, rfl, rfl⟩,
      Or.inl ⟨fun h => hcanary ⟨h.1, h.2.1⟩, rfl⟩⟩

theorem sweepOut_ends (cfg : Config) (s : Scanner) (fd : Int) :
    Ends s (sweepOut cfg s fd).2 fd .timedOut False (s.sockets.AtCanary cfg fd) := by
  unfold sweepOut
  dsimp only
  split_ifs with hcanary
  · exact ⟨rfl, rfl, rfl, rfl, rfl, ⟨rfl, rfl⟩, ⟨rfl, rfl⟩, rfl, Or.inl ⟨id, rfl, rfl⟩,
      Or.inr ⟨hcanary, canaryFails_append ..⟩⟩
  · exact ⟨rfl, rfl, rfl, rfl, rfl, ⟨rfl, rfl⟩, ⟨rfl, rfl⟩, rfl, Or.inl ⟨id, rfl, rfl⟩, Or.inl ⟨hcanary, rfl⟩⟩

theorem sweepOut_next (cfg : Config) (s : Scanner) (fd : Int) :
    (sweepOut cfg s fd).1 = (s.sockets.del fd).1 := by
  unfold sweepOut
  dsimp only
  split_ifs <;> rfl

section Loops

variable {cfg : Config} {Inv : Scanner → List Int → Prop} {s : Scanner} {fds : List Int}

/-- What the body of the loop over the events keeps, the loop keeps. -/
theorem events_handled {events : List (Int × Events)}
    (hkeep : ∀ e ∈ events, ∀ s pre post, Inv s (pre ++ e.1 :: post) →
      Inv (handleEvent cfg s e) (pre ++ post))
    (hnodup : (events.map Prod.fst).Nodup) (hinv : Inv s fds) (hfds : fds.Nodup)
    (hmem : ∀ e ∈ events, e.1 ∈ fds) :
    ∃ fds', Inv (events.foldl (handleEvent cfg) s) fds' ∧
      ∀ fd ∈ fds', fd ∈ fds ∧ fd ∉ events.map Prod.fst := by
  induction events generalizing s fds with
  | nil => exact ⟨fds, hinv, fun fd hfd => ⟨hfd, List.not_mem_nil⟩⟩
  | cons e events ih =>
    obtain ⟨pre, post, rfl⟩ := List.mem_iff_append.mp (hmem e List.mem_cons_self)
    obtain ⟨hfresh, hnodup⟩ := List.nodup_cons.mp hnodup
    obtain ⟨hgone, hfds⟩ := List.nodup_cons.mp (List.nodup_middle.mp hfds)
    have hrest : ∀ e' ∈ events, e'.1 ∈ pre ++ post := by
      intro e' he'
      have hne : e'.1 ≠ e.1 := fun heq => hfresh (heq ▸ List.mem_map_of_mem he')
      have hpending := hmem e' (List.mem_cons_of_mem _ he')
      rw [List.perm_middle.mem_iff, List.mem_cons] at hpending
      exact hpending.resolve_left hne
    obtain ⟨fds', hinv', hfds'⟩ := ih (fun e' he' => hkeep e' (List.mem_cons_of_mem _ he')) hnodup
      (hkeep e List.mem_cons_self s pre post hinv) hfds hrest
    refine ⟨fds', hinv', fun fd hfd => ⟨?_, ?_⟩⟩
    · rw [List.perm_middle.mem_iff]
      exact List.mem_cons_of_mem _ (hfds' fd hfd).1
    · rw [List.map_cons, List.mem_cons, not_or]
      exact ⟨fun heq => hgone (heq ▸ (hfds' fd hfd).1), (hfds' fd hfd).2⟩

/-- What the body of the sweep keeps, the sweep keeps. It ends at the first socket that is not due, or
when no socket is left. -/
theorem swept {now fuel : Nat} (hlist : ∀ s fds, Inv s fds → s.sockets.Represents fds)
    (hkeep : ∀ s fd post, (s.sockets.entries fd).timeout ≤ now → Inv s (fd :: post) →
      Inv (sweepOut cfg s fd).2 post)
    (hinv : Inv s fds) (hfuel : fds.length ≤ fuel) :
    ∃ fds', Inv (sweep cfg now fuel s.sockets.firstFd s) fds' ∧
      ∀ fd ∈ fds'.head?, now < ((sweep cfg now fuel s.sockets.firstFd s).sockets.entries fd).timeout := by
  induction fuel generalizing s fds with
  | zero =>
    obtain rfl : fds = [] := List.length_eq_zero_iff.mp (Nat.le_zero.mp hfuel)
    exact ⟨[], hinv, by simp⟩
  | succ fuel ih =>
    have hrep := hlist s fds hinv
    rw [sweep]
    cases fds with
    | nil =>
      rw [if_neg (fun h => h.1 hrep.first)]
      exact ⟨[], hinv, by simp⟩
    | cons fd fds =>
      have hfirst : s.sockets.firstFd = fd := hrep.first
      have hfd : fd ≠ -1 := fun heq => hrep.noSentinel (heq ▸ List.mem_cons_self)
      rw [hfirst]
      by_cases hdue : (s.sockets.entries fd).timeout ≤ now
      · rw [if_pos ⟨hfd, hdue⟩]
        have hkept := hkeep s fd fds hdue hinv
        have hnext : (sweepOut cfg s fd).1 = (sweepOut cfg s fd).2.sockets.firstFd := by
          rw [sweepOut_next, (hlist _ _ hkept).first]
          have hrep : s.sockets.Represents ([] ++ fd :: fds) := hrep
          exact hrep.del.2
        have hrest := ih hkept (Nat.le_of_succ_le_succ hfuel)
        rw [← hnext] at hrest
        exact hrest
      · rw [if_neg (fun h => hdue h.2)]
        refine ⟨fd :: fds, hinv, ?_⟩
        intro g hg
        obtain rfl : fd = g := Option.some.inj hg
        exact Nat.lt_of_not_le hdue

end Loops

/-! ### The steps of a run -/

/-- A step sends a probe, which ends at once or is pending then, or it is the rest of an iteration. -/
theorem step_cases {cfg : Config} {s s' : Scanner} {i : Input} (hanswers : Answers s i)
    (hstep : step cfg s i = some s') :
    (∃ a, i = .attempt a ∧ s.sockets.numSockets < cfg.maxPendingSockets ∧ 0 ≤ a.sock ∧
      a.sock ∉ s.opened ∧ ∃ t, (Resolved s t a ∧ s' = { t with clock := a.now }) ∨
        (Waits cfg s t a ∧ s' = { t with registered := t.registered ++ [a.sock], clock := a.now })) ∨
    ∃ now events later, i = .poll now events later ∧
      ¬ s.sockets.numSockets < cfg.maxPendingSockets ∧ s' = poll cfg s now events later := by
  cases i with
  | poll now events later =>
    simp only [step] at hstep
    split_ifs at hstep with hroom
    cases hstep
    exact Or.inr ⟨now, events, later, rfl, hroom, rfl⟩
  | attempt a =>
    simp only [step] at hstep
    by_cases hroom : s.sockets.numSockets < cfg.maxPendingSockets
    · rw [if_pos hroom] at hstep
      obtain ⟨⟨t, tfd⟩, htry, hstep⟩ := Option.bind_eq_some_iff.mp hstep
      dsimp only at hstep
      rcases hanswers.2 with hfail | ⟨hlow, hfresh⟩
      · simp [tryConnect, hfail] at htry
      refine Or.inl ⟨a, rfl, hroom, hlow, hfresh, t, ?_⟩
      rcases tryConnect_cases htry hlow with ⟨rfl, hresolved⟩ | ⟨rfl, hwaits⟩
      · rw [if_neg (by decide)] at hstep
        cases hstep
        exact Or.inl ⟨hresolved, rfl⟩
      · rw [if_pos hlow] at hstep
        split_ifs at hstep
        cases hstep
        exact Or.inr ⟨hwaits, rfl⟩
    · rw [if_neg hroom] at hstep
      cases hstep

end Cscan.Scan
