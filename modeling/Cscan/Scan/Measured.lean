import Cscan.Metrics.Log
import Cscan.Scan.Timeouts

/-! `conn_thread` in a build with `METRICS`, which logs what happens to the probes with the calls of `metrics.c`. -/

namespace Cscan.Scan

open Cscan.Lib SocketList
open Metrics (Call)

/-- What `get_ms` returns. -/
def ms (now : Nat) : UInt64 := .ofNat now

/-- The variables of `conn_thread` in such a build, and the calls. The last three fields are for proofs: the last time
that was read, when the probes were sent, by their numbers, and when they ended, in the order of the fates. -/
structure Measured where
  scanner : Scanner
  sendStart : Nat
  sendCount : Nat
  calls : List Call
  clock : Nat
  sent : List Nat
  ended : List Nat

/-- An input of `step`, with the times that are read in such a build: for `mev_packet`; for `mev_epoll`, for each
event, for `mev_delinfo`, and at the start of the next iteration. `epoll_wait` may have failed. -/
inductive MeasuredInput
  | attempt (now : Nat) (a : Attempt)
  | poll (now woken : Nat) (failed : Bool) (events : List ((Int × Events) × Nat)) (later deleted next : Nat)

def MeasuredInput.input : MeasuredInput → Input
  | attempt _ a => .attempt a
  | poll now _ _ events later _ _ => .poll now (events.map Prod.fst) later

/-- The calls of `try_connect`; `sock` is what `socket4_try_connect` returns. -/
def attemptCalls (now : Nat) (sock : Int) : List Call :=
  .packet (ms now) (.ofInt (if sock < -2 then -2 - sock else sock)) ::
    if sock ≥ -2 then [.ret (ms now) (ms now) ((if sock ≥ 0 then 1 else 0 : Int8) <<< 1 ||| 1)] else []

namespace Measured

def start (entries : Int → SocketListEntry) (size : Int) (sendStart : Nat) : Measured where
  scanner := .start entries size
  sendStart := sendStart
  sendCount := 0
  calls := []
  clock := sendStart
  sent := []
  ended := []

/-- The body of the loop over the events. -/
def handleEvent (cfg : Config) (m : Measured) (event : (Int × Events) × Nat) : Measured :=
  let entry := m.scanner.sockets.entries event.1.1
  { m with
    scanner := Scan.handleEvent cfg m.scanner event.1
    calls := m.calls ++ [.ret (ms event.2) (ms entry.timeout - ms cfg.connectTimeout) (if event.1.2.ok then 2 else 0)]
    clock := event.2
    ended := m.ended ++ [event.2] }

/-- The body of the loop that sweeps, and the next fd. -/
def sweepOut (cfg : Config) (now : Nat) (m : Measured) (fd : Int) : Int × Measured :=
  let entry := m.scanner.sockets.entries fd
  let r := Scan.sweepOut cfg m.scanner fd
  (r.1, { m with
    scanner := r.2
    calls := m.calls ++ [.delta (ms now) (ms entry.timeout - ms cfg.connectTimeout)]
    clock := now
    ended := m.ended ++ [now] })

/-- The sweep from `fd` on, with `del_count`. -/
def sweep (cfg : Config) (now : Nat) : Nat → Int → Measured × Nat → Measured × Nat
  | 0, _, r => r
  | fuel + 1, fd, (m, delCount) =>
    if fd ≠ -1 ∧ (m.scanner.sockets.entries fd).timeout ≤ now then
      let r := m.sweepOut cfg now fd
      sweep cfg now fuel r.1 (r.2, delCount + 1)
    else (m, delCount)

/-- `mev_sendinfo` and `mev_epoll`. -/
def wait (m : Measured) (now woken : Nat) (failed : Bool) (events : Nat) : Measured :=
  let timeout := epollTimeout m.scanner now
  { m with
    scanner := { m.scanner with timeout := timeout }
    calls := m.calls ++ [.sendinfo (ms now) (ms m.sendStart) (.ofNat m.sendCount),
      .epoll (ms woken) (if failed then -1 else .ofNat events) (.ofNat timeout)]
    clock := woken }

/-- `mev_delinfo`, and the start of the next iteration. -/
def finish (m : Measured) (later deleted next delCount : Nat) : Measured :=
  { m with
    calls := m.calls ++ [.delinfo (ms deleted) (ms later) (.ofNat delCount)]
    sendStart := next
    sendCount := 0
    clock := next }

/-- From the end of the loop that sends to the next iteration. -/
def poll (cfg : Config) (m : Measured) (now woken : Nat) (failed : Bool) (events : List ((Int × Events) × Nat))
    (later deleted next : Nat) : Measured :=
  let m := events.foldl (handleEvent cfg) (m.wait now woken failed events.length)
  let r := sweep cfg later m.scanner.sockets.numSockets.toNat m.scanner.sockets.firstFd
    ({ m with scanner := { m.scanner with clock := later }, clock := later }, 0)
  r.1.finish later deleted next r.2

def step (cfg : Config) (m : Measured) : MeasuredInput → Option Measured
  | .attempt now a =>
    if m.scanner.sockets.numSockets < cfg.maxPendingSockets then
      (tryConnect cfg m.scanner a).bind fun (s, tfd) =>
        let calls := m.calls ++ attemptCalls now (socket4TryConnect a.sock a.outcome).1
        if tfd ≥ 0 then
          if a.epollAdd then
            some { m with
              scanner := { s with registered := s.registered ++ [tfd], clock := a.now }
              sendCount := m.sendCount + 1
              calls := calls
              clock := a.now
              sent := m.sent ++ [a.now] }
          else none
        else
          some { m with
            scanner := { s with clock := a.now }
            calls := calls
            clock := a.now
            sent := m.sent ++ [now]
            ended := m.ended ++ [now] }
    else none
  | .poll now woken failed events later deleted next =>
    if m.scanner.sockets.numSockets < cfg.maxPendingSockets then none
    else some (m.poll cfg now woken failed events later deleted next)

end Measured

/-- What holds of the answers and of the times: the clock does not go back, and no probe is pending for 2^31 ms. -/
def Reads (cfg : Config) (m : Measured) : MeasuredInput → Prop
  | .attempt now a => Answers m.scanner (.attempt a) ∧ m.clock ≤ now ∧ now ≤ a.now ∧ a.now < 2 ^ 64
  | .poll now woken failed events later deleted next =>
    Answers m.scanner (.poll now (events.map Prod.fst) later) ∧ (failed → events = []) ∧
      (m.clock :: now :: woken :: (events.map Prod.snd ++ [later, deleted, next])).Pairwise (· ≤ ·) ∧
      next < 2 ^ 64 ∧
      ∀ fd ∈ m.scanner.registered, later + cfg.connectTimeout < m.scanner.sockets.timeout fd + 2 ^ 31

instance (cfg : Config) (m : Measured) : ∀ i, Decidable (Reads cfg m i)
  | .attempt _ _ => inferInstanceAs (Decidable (_ ∧ _))
  | .poll _ _ _ _ _ _ _ => inferInstanceAs (Decidable (_ ∧ _))

/-! ### What is measured makes no difference -/

section Erase

variable {cfg : Config} {m m' : Measured}

theorem handleEvent_scanner (events : List ((Int × Events) × Nat)) (m : Measured) :
    (events.foldl (Measured.handleEvent cfg) m).scanner =
      (events.map Prod.fst).foldl (handleEvent cfg) m.scanner := by
  induction events generalizing m with
  | nil => rfl
  | cons e events ih => exact ih _

theorem sweep_scanner (now fuel : Nat) (fd : Int) (m : Measured) (delCount : Nat) :
    (Measured.sweep cfg now fuel fd (m, delCount)).1.scanner = sweep cfg now fuel fd m.scanner := by
  induction fuel generalizing fd m delCount with
  | zero => rfl
  | succ fuel ih =>
    rw [Measured.sweep, sweep]
    split_ifs
    · exact ih ..
    · rfl

theorem poll_scanner (m : Measured) (now woken : Nat) (failed : Bool) (events : List ((Int × Events) × Nat))
    (later deleted next : Nat) : (m.poll cfg now woken failed events later deleted next).scanner =
      poll cfg m.scanner now (events.map Prod.fst) later := by
  have hevents : (events.foldl (Measured.handleEvent cfg) (m.wait now woken failed events.length)).scanner = _ :=
    handleEvent_scanner events _
  show (Measured.sweep ..).1.scanner = _
  rw [sweep_scanner, hevents]
  rfl

/-- The scanner does what it does in a build without `METRICS`. -/
theorem step_scanner (m : Measured) (i : MeasuredInput) :
    (m.step cfg i).map Measured.scanner = step cfg m.scanner i.input := by
  cases i with
  | attempt now a =>
    simp only [Measured.step, step, MeasuredInput.input]
    by_cases hroom : m.scanner.sockets.numSockets < cfg.maxPendingSockets
    · rw [if_pos hroom, if_pos hroom, Option.map_bind]
      congr 1
      funext r
      simp only [Function.comp]
      split_ifs <;> rfl
    · rw [if_neg hroom, if_neg hroom]
      rfl
  | poll now woken failed events later deleted next =>
    simp only [Measured.step, step, MeasuredInput.input]
    split_ifs
    · rfl
    · exact congrArg some (poll_scanner ..)

theorem Reads.answers {i : MeasuredInput} (h : Reads cfg m i) : Answers m.scanner i.input := by
  cases i with
  | attempt now a => exact h.1
  | poll now woken failed events later deleted next => exact h.1

/-- A run of such a build is a run. -/
theorem reaches_of_measured {entries : Int → SocketListEntry} {size : Int} {sendStart : Nat}
    (h : Reaches (Measured.step cfg) (Reads cfg) (.start entries size sendStart) m) :
    Reaches (step cfg) Answers (.start entries size) m.scanner := by
  refine h.lift Measured.scanner MeasuredInput.input .start fun m i m' hi hstep => ⟨hi.answers, ?_⟩
  rw [← step_scanner, hstep, Option.map_some]

end Erase

end Cscan.Scan
