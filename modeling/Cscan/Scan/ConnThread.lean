import Cscan.Scan.SocketList
import Cscan.Scan.SocketUtils

/-! `conn_thread` and `try_connect` of `cscan.c`. What the kernel answers is the input of a step. A step
that has no result ends the process. -/

namespace Cscan.Scan

/-! ### The state -/

structure Config where
  maxPendingSockets : Nat
  connectTimeout : Nat
  bindIpN : UInt32
  bindPort : Int
  bindMaxRetries : Nat
  canaryIp : UInt32
  canaryPort : Int32
  canaryAfter : Int
  statsEvery : Nat

/-- What is logged: statistics, two kinds of events, and `log_canary_fail(got_reply)` with the number of
the probe that it is about. -/
inductive Log
  | stats (packets results newEvents newResults : Int32)
  | cantBind (port : Int32)
  | possibleClash
  | canaryFail (probe : Nat) (gotReply : Bool)
deriving DecidableEq, Repr

/-- The bits of an event that the code looks at. -/
structure Events where
  out : Bool
  err : Bool
  hup : Bool
deriving DecidableEq, Repr

def Events.ok (e : Events) : Bool := e.out && !(e.err || e.hup)

/-- How a probe ended: with what the kernel answered when it was sent, with an event, or by the sweep. -/
inductive Fate
  | returned (o : ConnectOutcome)
  | event (e : Events)
  | timedOut
deriving DecidableEq, Repr

/-- A call of `queue_result`, with the number of the probe that it is about. -/
structure Result where
  probe : Nat
  ip : UInt32
  port : Int32
deriving DecidableEq, Repr

/-- The variables of `conn_thread` and the globals that it changes; then what the kernel sees, the
sockets of the epoll set, the open sockets, the calls of `close` and the time. The last four fields are
for proofs: how often `packets_sent` and `event_count`, which wrap around, were incremented, the number of
the probe that a pending socket carries, and how the others ended. -/
structure Scanner where
  sockets : SocketList
  packetsSent : Int32
  resultCount : Int32
  eventCount : Int32
  lastEventCount : Int32
  lastResultCount : Int32
  results : List Result
  logs : List Log
  timeout : Nat
  registered : List Int
  opened : List Int
  closes : List Int
  clock : Nat
  probes : Nat
  events : Nat
  probe : Int → Nat
  fates : List (Nat × Fate)

namespace Scanner

def start (entries : Int → SocketListEntry) (size : Int) : Scanner where
  sockets := initSocketList entries size
  packetsSent := 0
  resultCount := 0
  eventCount := 0
  lastEventCount := 0
  lastResultCount := 0
  results := []
  logs := []
  timeout := 0
  registered := []
  opened := []
  closes := []
  clock := 0
  probes := 0
  events := 0
  probe := fun _ => 0
  fates := []

def log (s : Scanner) (entry : Log) : Scanner := { s with logs := s.logs ++ [entry] }

def printStats (s : Scanner) : Scanner :=
  { s.log (.stats s.packetsSent s.resultCount (s.eventCount - s.lastEventCount)
      (s.resultCount - s.lastResultCount)) with
    lastEventCount := s.eventCount
    lastResultCount := s.resultCount }

def queueResult (s : Scanner) (probe : Nat) (ip : UInt32) (port : Int32) : Scanner :=
  { s with results := s.results ++ [⟨probe, ip, port⟩], resultCount := s.resultCount + 1 }

/-- `close(fd)`, which removes the socket from the epoll set too. -/
def close (s : Scanner) (fd : Int) : Scanner :=
  { s with
    registered := s.registered.filter (· ≠ fd)
    opened := s.opened.filter (· ≠ fd)
    closes := s.closes ++ [fd] }

def ended (s : Scanner) (probe : Nat) (fate : Fate) : Scanner :=
  { s with fates := s.fates ++ [(probe, fate)] }

end Scanner

/-! ### `try_connect` -/

/-- What the kernel answers to `try_connect`, and the target and the time that it reads. -/
structure Attempt where
  ip : UInt32
  port : Int32
  sock : Int
  binds : Int → Option Errno
  outcome : ConnectOutcome
  now : Nat
  epollAdd : Bool

/-- The loop over the ports to bind to, from `toBind` on. -/
def bindLoop (port : Int32) (binds : Int → Option Errno) : Nat → Int → List Log → Option (List Log)
  | 0, _, logs => some logs
  | retries + 1, toBind, logs =>
    match binds toBind with
    | none => some logs
    | some .addrInUse =>
      if toBind ≠ 0 then bindLoop port binds retries (toBind + 1) (logs ++ [.cantBind port])
      else some (logs ++ [.cantBind port])
    | some _ => none

/-- `packets_sent++`, `event_count++` if the attempt is over, and the statistics when they are due. -/
@[irreducible] def Scanner.count (cfg : Config) (s : Scanner) (hasEnded : Prop) [Decidable hasEnded] : Scanner :=
  let s := { s with
    packetsSent := s.packetsSent + 1
    probes := s.probes + 1
    eventCount := if hasEnded then s.eventCount + 1 else s.eventCount
    events := if hasEnded then s.events + 1 else s.events }
  if s.packetsSent.toInt.tmod cfg.statsEvery = 0 then s.printStats else s

/-- `canary_ip && packets_sent == canary_after`. -/
def SendsCanary (cfg : Config) (packetsSent : Int32) : Prop :=
  cfg.canaryIp ≠ 0 ∧ packetsSent.toInt = cfg.canaryAfter

instance (cfg : Config) (packetsSent : Int32) : Decidable (SendsCanary cfg packetsSent) :=
  inferInstanceAs (Decidable (_ ∧ _))

def tryConnect (cfg : Config) (s : Scanner) (a : Attempt) : Option (Scanner × Int) :=
  let ip := if SendsCanary cfg s.packetsSent then cfg.canaryIp else a.ip
  let port := if SendsCanary cfg s.packetsSent then cfg.canaryPort else a.port
  if a.sock = -1 then none
  else
    let bound := if cfg.bindIpN ≠ 0 ∨ cfg.bindPort ≠ 0 then
      bindLoop port a.binds cfg.bindMaxRetries cfg.bindPort s.logs else some s.logs
    bound.bind fun logs =>
      let (sock, errno, closed) := socket4TryConnect a.sock a.outcome
      let probe := s.probes
      let s := { s with logs := logs, opened := a.sock :: s.opened }
      let s := if closed then s.close a.sock else s
      let s := s.count cfg (sock ≥ -2)
      if sock = -2 ∧ (errno = .addrInUse ∨ errno = .addrNotAvail) then
        some ((s.log .possibleClash).ended probe (.returned a.outcome), -1)
      else if sock = -2 then none
      else if sock = -1 then some (s.ended probe (.returned a.outcome), -1)
      else if sock ≥ 0 then
        some (((s.queueResult probe ip port).close sock).ended probe (.returned a.outcome), -1)
      else
        let sock := -sock - 2
        if sock ≥ s.sockets.size then none
        else some ({ s with
          sockets := s.sockets.add sock ip port (a.now + cfg.connectTimeout)
          probe := Function.update s.probe sock probe }, sock)

/-! ### `conn_thread` -/

/-- The body of the loop over the events. -/
def handleEvent (cfg : Config) (s : Scanner) (event : Int × Events) : Scanner :=
  let fd := event.1
  let entry := s.sockets.entries fd
  let s := if cfg.canaryIp ≠ 0 ∧ entry.ip = cfg.canaryIp ∧ entry.port = cfg.canaryPort then
      if event.2.ok then s else s.log (.canaryFail (s.probe fd) true)
    else if event.2.ok then s.queueResult (s.probe fd) entry.ip entry.port
    else s
  let s := { s with eventCount := s.eventCount + 1, events := s.events + 1 }
  let s := s.close fd
  { s.ended (s.probe fd) (.event event.2) with sockets := (s.sockets.del fd).2 }

/-- The body of the loop that sweeps, and the next fd. -/
def sweepOut (cfg : Config) (s : Scanner) (fd : Int) : Int × Scanner :=
  let entry := s.sockets.entries fd
  let s := if entry.ip = cfg.canaryIp ∧ entry.port = cfg.canaryPort then
      s.log (.canaryFail (s.probe fd) false)
    else s
  let s := s.close fd
  let r := s.sockets.del fd
  (r.1, { s.ended (s.probe fd) .timedOut with sockets := r.2 })

/-- The sweep from `fd` on, of at most the given number of sockets. -/
def sweep (cfg : Config) (now : Nat) : Nat → Int → Scanner → Scanner
  | 0, _, s => s
  | fuel + 1, fd, s =>
    if fd ≠ -1 ∧ (s.sockets.entries fd).timeout ≤ now then
      let r := sweepOut cfg s fd
      sweep cfg now fuel r.1 r.2
    else s

/-- The argument of `epoll_wait` at the time `now`. -/
def epollTimeout (s : Scanner) (now : Nat) : Nat :=
  let first := (s.sockets.entries s.sockets.firstFd).timeout
  if first > now then first - now else 0

/-- From the end of the loop that sends to the next iteration; `now` and `later` are what `get_ms`
returns before and after `epoll_wait`, which has no events when it fails. -/
def poll (cfg : Config) (s : Scanner) (now : Nat) (events : List (Int × Events)) (later : Nat) : Scanner :=
  let s := { s with timeout := epollTimeout s now }
  let s := events.foldl (handleEvent cfg) s
  sweep cfg later s.sockets.numSockets.toNat s.sockets.firstFd { s with clock := later }

/-- What happens next: a turn of the loop that sends, or the rest of the iteration. -/
inductive Input
  | attempt (a : Attempt)
  | poll (now : Nat) (events : List (Int × Events)) (later : Nat)

def step (cfg : Config) (s : Scanner) : Input → Option Scanner
  | .attempt a =>
    if s.sockets.numSockets < cfg.maxPendingSockets then
      (tryConnect cfg s a).bind fun (s, tfd) =>
        if tfd ≥ 0 then
          if a.epollAdd then some { s with registered := s.registered ++ [tfd], clock := a.now }
          else none
        else some { s with clock := a.now }
    else none
  | .poll now events later =>
    if s.sockets.numSockets < cfg.maxPendingSockets then none
    else some (poll cfg s now events later)

/-- What holds of a kernel's answers: time does not go back, a new socket is not one that is open, and
`epoll_wait` lists sockets of the epoll set, each one once. -/
def Answers (s : Scanner) : Input → Prop
  | .attempt a => s.clock ≤ a.now ∧ (a.sock = -1 ∨ (0 ≤ a.sock ∧ a.sock ∉ s.opened))
  | .poll now events later => s.clock ≤ now ∧ now ≤ later ∧ (events.map Prod.fst).Nodup ∧
      ∀ e ∈ events, e.1 ∈ s.registered

instance (s : Scanner) : ∀ i, Decidable (Answers s i)
  | .attempt _ => inferInstanceAs (Decidable (_ ∧ _))
  | .poll _ _ _ => inferInstanceAs (Decidable (_ ∧ _))

end Cscan.Scan
