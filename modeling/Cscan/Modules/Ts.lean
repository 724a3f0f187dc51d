import Cscan.Cba.Writer
import Cscan.Lib.CInt
import Cscan.Scan.SocketUtils

/-! The layer of `ts.c` between the modules and a socket: what it asks of the kernel and of the TLS library, whose
answers are functions of what was asked before. A call of the library does its I/O by the callbacks that
`ts_go_tls` has set. -/

namespace Cscan.Modules

open Cscan.Lib Cscan.Scan

/-! ### The kernel and the library -/

inductive Event
  | fcntl (fd : Int)
  | getMs
  | poll (fd : Int) (wantWrite : Bool) (timeout : Int)
  | read (fd : Int) (size : Nat)
  | write (fd : Int) (bytes : List UInt8)
  | close (fd : Int)
  | sslSetup
  | handshake
  | sslRead (size : Nat)
  | sslWrite (bytes : List UInt8)
deriving DecidableEq

/-- The descriptor of a read, a write, a poll or a close. -/
def Event.fd : Event → Option Int
  | .poll fd _ _ => some fd
  | .read fd _ => some fd
  | .write fd _ => some fd
  | .close fd => some fd
  | _ => none

/-- The values of `errno` that the callbacks tell apart. -/
inductive IoErrno
  | again
  | reset
  | other
deriving DecidableEq

/-- The errors that a callback returns. -/
inductive BioError
  | want
  | connReset
  | errFailed
deriving DecidableEq

inductive TlsResult (α : Type)
  | ok (a : α)
  | wantRead
  | wantWrite
  | failed

/-- A call of the library: the callbacks that it calls, each by what the last one has returned, and its result.
It need not come to an end. -/
inductive TlsCall (α : Type)
  | done (r : TlsResult α)
  | recv (len : Nat) (next : Except BioError (List UInt8) → TlsCall α)
  | send (bytes : List UInt8) (next : Except BioError Nat → TlsCall α)
  | pending

/-- The answers of the kernel and of the library, by all that happened before. A run is followed for `turns` turns
of each loop after the first, and `isSsl` is what the memory of `ts.is_ssl` has in it before. -/
structure World where
  haveTls : Bool
  isSsl : Bool
  turns : Nat
  sock : Int
  outcome : ConnectOutcome
  wait : PollOutcome
  getMs : List Event → Nat
  setsFlags : List Event → Bool
  poll : List Event → Int × Bool
  read : List Event → Except IoErrno (List UInt8)
  write : List Event → Except IoErrno Nat
  sslSetup : List Event → Bool
  handshake : List Event → TlsCall Unit
  sslRead : List Event → TlsCall (List UInt8)
  sslWrite : List Event → TlsCall Nat

/-- A `tsocket`; `ctx` tells whether its context has been set up. -/
structure Tsocket where
  fd : Int
  psFd : Int
  isSsl : Bool
  ctx : Bool
deriving DecidableEq

/-- Why a function does not return. -/
inductive Stop (L : Type)
  | label (l : L)
  /-- The run is not followed any further. -/
  | pending
  /-- The library was called with a context that was never set up. -/
  | wild
  /-- A call went outside of its buffer. -/
  | overrun
deriving DecidableEq

/-- The world, what was asked of it, and what a module has in its variables. -/
structure State where
  world : World
  ts : Tsocket
  trace : List Event
  deadline : Int
  ret : Int
  calls : List Cba.Call

abbrev M (L : Type) := EStateM (Stop L) State

/-- The answer to a `read`: at most `size` bytes, and an error if no memory has room for so many. -/
def World.reads (w : World) (history : List Event) (size : Nat) : Except IoErrno (List UInt8) :=
  if ssizeMax < size then .error .other else (w.read history).map (List.take size)

theorem World.reads_ok {w : World} {history : List Event} {size : Nat} {bytes : List UInt8}
    (h : w.reads history size = .ok bytes) : size ≤ ssizeMax ∧ bytes.length ≤ size := by
  unfold World.reads at h
  split_ifs at h with hsize
  cases hread : w.read history with
  | error e =>
    rw [hread] at h
    cases h
  | ok got =>
    rw [hread] at h
    cases h
    exact ⟨Nat.not_lt.mp hsize, List.length_take_le _ _⟩

def World.start (w : World) : State := ⟨w, ⟨0, 0, w.isSsl, false⟩, [], 0, -1, []⟩

def State.event (s : State) (e : Event) : State := { s with trace := s.trace ++ [e] }

section Calls

variable {L : Type}

/-- A call of the kernel, with its answer. -/
def ask {α : Type} (e : Event) (answer : World → List Event → α) : M L α := fun s =>
  .ok (answer s.world (s.event e).trace) (s.event e)

def getTs : M L Tsocket := fun s => .ok s.ts s

def setTs (f : Tsocket → Tsocket) : M L Unit := fun s => .ok () { s with ts := f s.ts }

def getWorld : M L World := fun s => .ok s.world s

def read (fd : Int) (size : Nat) : M L (Except IoErrno (List UInt8)) :=
  ask (.read fd size) fun w h => w.reads h size

/-- `write`: at most as many bytes as there are. -/
def write (fd : Int) (bytes : List UInt8) : M L (Except IoErrno Nat) :=
  ask (.write fd bytes) fun w h => (w.write h).map (min bytes.length)

/-! ### The functions of `ts.c` -/

def IoErrno.code : IoErrno → BioError
  | .again => .want
  | .reset => .connReset
  | .other => .errFailed

def tsBioRecv (len : Nat) : M L (Except BioError (List UInt8)) := do
  let ts ← getTs
  let ret ← read ts.fd len
  pure (ret.mapError IoErrno.code)

def tsBioSend (bytes : List UInt8) : M L (Except BioError Nat) := do
  let ts ← getTs
  let ret ← write ts.fd bytes
  pure (ret.mapError IoErrno.code)

/-- A call of the library, with the callbacks of `ts_go_tls`. -/
def runTls {α : Type} : TlsCall α → M L (TlsResult α)
  | .done r => pure r
  | .recv len next => do
    let ret ← tsBioRecv len
    runTls (next ret)
  | .send bytes next => do
    let ret ← tsBioSend bytes
    runTls (next ret)
  | .pending => throw .pending

/-- A call of the library for the context of the socket. -/
def mbedtls {α : Type} (e : Event) (call : World → List Event → TlsCall α) : M L (TlsResult α) := do
  let ts ← getTs
  if ts.ctx then
    let todo ← ask e call
    runTls todo
  else throw .wild

/-- `ts_socket`, which leaves `is_ssl` as it was in the memory if the flags cannot be set. -/
def tsSocket (fd : Int) : M L Bool := do
  setTs fun ts => { ts with fd := fd, psFd := fd }
  ask (.fcntl fd) fun _ _ => ()
  let sets ← ask (.fcntl fd) World.setsFlags
  if sets then
    setTs fun ts => { ts with isSsl := false }
    pure true
  else pure false

/-- `long long towait = deadline - get_ms()`, and the `int` that it becomes for `poll`. -/
def towait (deadline now : Int) : Int := (deadline - now).bmod (2 ^ 64)

def tsWait (deadline : Int) (wantWrite : Bool) : M L Bool := do
  let ts ← getTs
  let now ← ask .getMs World.getMs
  if towait deadline now ≤ 0 then pure false
  else
    let (ret, revents) ← ask (.poll ts.psFd wantWrite ((towait deadline now).bmod (2 ^ 32))) World.poll
    pure (ret = 1 && revents)

def handshakeLoop (deadline : Int) : Nat → M L Bool
  | 0 => throw .pending
  | turns + 1 => do
    match ← mbedtls .handshake World.handshake with
    | .ok _ => pure true
    | .failed => pure false
    | .wantRead =>
      if ← tsWait deadline false then handshakeLoop deadline turns else pure false
    | .wantWrite =>
      if ← tsWait deadline true then handshakeLoop deadline turns else pure false

def tsGoTls (deadline : Int) : M L Bool := do
  let w ← getWorld
  if w.haveTls then
    let ready ← ask .sslSetup World.sslSetup
    if ready then
      setTs fun ts => { ts with ctx := true }
      if ← handshakeLoop deadline (w.turns + 1) then
        setTs fun ts => { ts with isSsl := true }
        pure true
      else
        setTs fun ts => { ts with ctx := false }
        pure false
    else pure false
  else pure false

/-- The buffer with more bytes in it. -/
def fill (capacity : Nat) (got bytes : List UInt8) : M L (List UInt8) :=
  if capacity < got.length + bytes.length then throw .overrun else pure (got ++ bytes)

/-- The loop of `ts_read_all`, with what is in the buffer. -/
def readLoop (ssl : Bool) (fd : Int) (capacity size : Nat) (deadline : Int) :
    Nat → List UInt8 → M L (List UInt8)
  | 0, _ => throw .pending
  | turns + 1, got =>
    if size ≤ got.length then pure got
    else if ssl then do
      match ← mbedtls (.sslRead (size - got.length)) World.sslRead with
      | .failed => pure got
      | .wantRead =>
        if ← tsWait deadline false then readLoop ssl fd capacity size deadline turns got else pure got
      | .wantWrite =>
        if ← tsWait deadline true then readLoop ssl fd capacity size deadline turns got else pure got
      | .ok bytes =>
        if bytes.take (size - got.length) = [] then pure got
        else do
          let got ← fill capacity got (bytes.take (size - got.length))
          readLoop ssl fd capacity size deadline turns got
    else do
      if ← tsWait deadline false then
        match ← read fd (size - got.length) with
        | .error _ => pure got
        | .ok bytes =>
          if bytes = [] then pure got
          else do
            let got ← fill capacity got bytes
            readLoop ssl fd capacity size deadline turns got
      else pure got

/-- `ts_read_all` of `size` bytes into a buffer of `capacity` bytes: what is in the buffer then. It succeeds if
these are `size` bytes. -/
def tsReadAll (capacity size : Nat) (deadline : Int) : M L (List UInt8) := do
  let ts ← getTs
  let w ← getWorld
  readLoop (w.haveTls && ts.isSsl) ts.fd capacity size deadline (w.turns + 1) []

/-- The loop of `ts_write_all`, with what is left to write. -/
def writeLoop (ssl : Bool) (fd : Int) (deadline : Int) : Nat → List UInt8 → M L Bool
  | 0, _ => throw .pending
  | turns + 1, left =>
    if left = [] then pure true
    else if ssl then do
      match ← mbedtls (.sslWrite left) World.sslWrite with
      | .failed => pure false
      | .wantRead => if ← tsWait deadline false then writeLoop ssl fd deadline turns left else pure false
      | .wantWrite => if ← tsWait deadline true then writeLoop ssl fd deadline turns left else pure false
      | .ok count =>
        if count = 0 then pure false else writeLoop ssl fd deadline turns (left.drop count)
    else do
      if ← tsWait deadline true then
        match ← write fd left with
        | .error _ => pure false
        | .ok count =>
          if count = 0 then pure false else writeLoop ssl fd deadline turns (left.drop count)
      else pure false

/-- `ts_write_all` of `size` bytes of a buffer. -/
def tsWriteAll (buffer : List UInt8) (size : Nat) (deadline : Int) : M L Bool := do
  let ts ← getTs
  let w ← getWorld
  if buffer.length < size then throw .overrun
  else writeLoop (w.haveTls && ts.isSsl) ts.fd deadline (w.turns + 1) (buffer.take size)

def tsClose : M L Unit := do
  let ts ← getTs
  let w ← getWorld
  ask (.close ts.fd) fun _ _ => ()
  setTs fun ts => { ts with fd := -1 }
  if w.haveTls && ts.isSsl then setTs fun ts => { ts with isSsl := false, ctx := false }

end Calls

end Cscan.Modules
