import Cscan.Cba.Writer
import Cscan.Lib.CInt
import Cscan.Lib.Scanf

/-! `check_vnc` of `rfb.c`. A `goto` is an exception. Of the connection the model knows what the server
sends before it stops, and how many writes come before that: `ts_read_all` and `ts_write_all` fail for
good when a connection stops or the deadline passes, and each of their failures ends the call. -/

namespace Cscan.Rfb

open Cscan.Lib Cscan.Lib.Scanf

def tls : UInt8 := 18
def vencrypt : UInt8 := 19

def connFail : Int32 := 1
def bannerFail : Int32 := 2
def readFail : Int32 := 3
def writeFail : Int32 := 4
def reason : Int32 := 5
def win : Int32 := 6
def onlyTls : Int32 := 7
def tlsFail : Int32 := 8
def hasVencrypt : Int32 := 9

/-- A call that names a buffer: `ts_read_all` of `size` bytes into a buffer of `capacity` bytes,
`ts_write_all` of `size` bytes of a buffer, and `sprintf` of a text into a buffer. -/
inductive Request
  | read (capacity size : Nat)
  | write (buffer : List UInt8) (size : Nat)
  | sprintf (capacity : Nat) (text : List Char)
deriving DecidableEq

inductive Label
  | exit
  | readFail
  | writeFail
  | readReason
  /-- A call went outside of its buffer. -/
  | overrun

/-- A server: the result of `socket4_connect`, what it sends until it stops, what it sends in TLS if a
handshake succeeds, and how many writes to it succeed. -/
structure Server where
  sock : Int
  sent : List UInt8
  tls : Option (List UInt8)
  writes : Nat

structure Session where
  incoming : List UInt8
  tls : Option (List UInt8)
  writes : Nat
  isSsl : Bool
  ret : Int
  requests : List Request
  calls : List Cba.Call

def Server.start (server : Server) : Session := ⟨server.sent, server.tls, server.writes, false, -1, [], []⟩

abbrev M := EStateM Label Session

namespace Session

def request (s : Session) (r : Request) : Session := { s with requests := s.requests ++ [r] }

def call (s : Session) (c : Cba.Call) : Session := { s with calls := s.calls ++ [c] }

end Session

def cba (c : Cba.Call) : M Unit := fun s => .ok () (s.call c)

def cbaBit (code : Int32) : M Unit := cba (.log (.bit code))

def setRet (ret : Int) : M Unit := fun s => .ok () { s with ret := ret }

/-- `if (!ts_read_all(&ts, buffer, size, deadline)) goto label`. Without TLS this is `read`, which fails and
leaves the buffer alone if no memory has room for `size` bytes. -/
def readOr (label : Label) (capacity size : Nat) : M (List UInt8) := fun s =>
  let s := s.request (.read capacity size)
  let bytes := s.incoming.take size
  if ssizeMax < size ∧ s.isSsl = false then .error label s
  else if capacity < bytes.length then .error .overrun s
  else if bytes.length < size then .error label { s with incoming := [] }
  else .ok bytes { s with incoming := s.incoming.drop size }

/-- `if (!ts_write_all(&ts, buffer, size, deadline)) goto label`. -/
def writeOr (label : Label) (buffer : List UInt8) (size : Nat) : M Unit := fun s =>
  let s := s.request (.write buffer size)
  if buffer.length < size then .error .overrun s
  else if s.writes = 0 then .error label s
  else .ok () { s with writes := s.writes - 1 }

/-- The bytes of a text. -/
def ofChars (text : List Char) : List UInt8 := text.map fun c => UInt8.ofNat c.toNat

/-- What a `char *` to the buffer stands for. -/
def cString (buffer : List UInt8) : List UInt8 := buffer.takeWhile (· ≠ 0)

/-- `sprintf` into `buffer`. -/
def sprintf (buffer : List UInt8) (text : List Char) : M (List UInt8) := fun s =>
  let s := s.request (.sprintf buffer.length text)
  match store buffer 0 (ofChars text ++ [0]) with
  | some buffer => .ok buffer s
  | none => .error .overrun s

/-- `ts_go_tls`: what comes after it is read in TLS. -/
def goTls : M Unit := fun s =>
  match s.tls with
  | some plain => .ok () { s with incoming := plain, tls := none, isSsl := true }
  | none => .error .exit (s.call (.log (.bit tlsFail)))

/-- The numbers that `sscanf(version, "RFB %03d.%03d\n", &major, &minor)` reads. -/
def scanVersion (version : List UInt8) : Option (Int × Int) := do
  let text ← literal 'R' ((cString version).map fun b => Char.ofNat b.toNat)
  let text ← literal 'F' text
  let text ← literal 'B' text
  let (major, text) ← decimal 3 (space text)
  let text ← literal '.' text
  let (minor, _) ← decimal 3 text
  pure (major, minor)

/-- The version that `check_vnc` answers with. -/
def remap (major minor : Int) : Int × Int :=
  if major = 3 ∧ (minor = 14 ∨ minor = 16) then (major, minor - 10)
  else if major = 3 ∧ minor > 8 then (major, 8)
  else if major > 3 then (3, 8)
  else (major, minor)

/-- `"RFB %03d.%03d\n"`. -/
def versionLine (major minor : Int) : List Char :=
  ['R', 'F', 'B', ' '] ++ printPadded 3 major ++ ['.'] ++ printPadded 3 minor ++ ['\n']

def winAndExit : M Unit := do
  cbaBit win
  setRet 1
  throw .exit

/-- The loop over the security types, which gives `has_nontls`. -/
def firstTypes : Nat → Bool → M Bool
  | 0, hasNontls => pure hasNontls
  | count + 1, hasNontls => do
    let atype ← readOr .readFail 1 1
    if atype = [1] then winAndExit
    if atype = [vencrypt] then cbaBit hasVencrypt
    firstTypes count (hasNontls || atype ≠ [tls])

/-- The loop over the security types that the server names in TLS. -/
def tlsTypes : Nat → M Unit
  | 0 => pure ()
  | count + 1 => do
    let atype ← readOr .readFail 1 1
    if atype = [1] then winAndExit
    tlsTypes count

/-- The number of security types, which is a reason to come if it is zero. -/
def readCount : M Nat := do
  let count ← readOr .readFail 1 1
  if count = [0] then throw .readReason
  pure (ByteOrder.big.decode count)

/-- The branch for the versions in which the server lists its security types. -/
def listedTypes : M Unit := do
  let count ← readCount
  setRet 0
  let hasNontls ← firstTypes count false
  if hasNontls then pure ()
  else do
    cbaBit onlyTls
    writeOr .writeFail [tls] 1
    goTls
    let count ← readCount
    tlsTypes count

/-- The branch for the versions in which the server chooses the security type. -/
def authMode : M Unit := do
  let bytes ← readOr .readFail 4 4
  let authmode := ByteOrder.big.decodeInt bytes
  setRet 0
  if authmode = 1 then winAndExit
  else if authmode = 0 then throw .readReason
  else pure ()

/-- From the banner in `version` on, given what `sscanf` reads in it. -/
def negotiate (version : List UInt8) : Option (Int × Int) → M Unit
  | none => do
    cba (.code bannerFail)
    cba (.log (.data (version.take 12)))
    throw .exit
  | some (major, minor) => do
    let version ← sprintf version (versionLine (remap major minor).1 (remap major minor).2)
    writeOr .writeFail version 12
    if (remap major minor).1 = 3 ∧ (remap major minor).2 > 6 then listedTypes else authMode

/-- From the first read on to the label `exit`. -/
def body : M Unit := do
  let bytes ← readOr .exit 16 12
  let version := bytes ++ List.replicate 4 0
  negotiate version (scanVersion version)

/-- The value of an `int` where a `size_t` is expected. -/
def sizeT (z : Int) : Nat := (z % 2 ^ 64).toNat

/-- The code at the label `read_reason`. -/
def readReason : M Unit := do
  let len ← readOr .readFail 4 4
  let len := ByteOrder.big.decodeInt len
  let reasonStr ← readOr .readFail 512 (sizeT (if len < 511 then len else 511))
  cba (.code reason)
  cba (.log (.str (ofChars "Error: ".toList ++ cString reasonStr)))

/-- The code at a label. -/
def goto : Label → M Unit
  | .exit => pure ()
  | .readFail => cbaBit readFail
  | .writeFail => cbaBit writeFail
  | .readReason => readReason
  | .overrun => throw .overrun

/-- From `ts_socket` on, with the code at the labels. -/
def connected : M Unit := fun s =>
  match body s with
  | .ok _ s => .ok () s
  | .error label s => match goto label s with
    | .error .readFail s => goto .readFail s
    | r => r

def checkVnc (sock : Int) : M Unit := if sock = -1 then cbaBit connFail else connected

def final : EStateM.Result Label Session Unit → Session
  | .ok _ s => s
  | .error _ s => s

/-- The session when `check_vnc` returns. -/
def Server.session (server : Server) : Session := final (checkVnc server.sock server.start)

end Cscan.Rfb
