import Cscan.Modules.Ts
import Cscan.Rfb.CheckVnc

/-! `check_vnc` of `rfb.c` and `check_x11` of `x11.c`, on the layer of `ts.c`. A `goto` is an exception. -/

namespace Cscan.Modules

open Cscan.Lib Cscan.Scan

section Jumps

variable {L : Type}

def cba (c : Cba.Call) : M L Unit := fun s => .ok () { s with calls := s.calls ++ [c] }

def cbaBit (code : Int32) : M L Unit := cba (.log (.bit code))

def setRet (ret : Int) : M L Unit := fun s => .ok () { s with ret := ret }

def getRet : M L Int := fun s => .ok s.ret s

def getDeadline : M L Int := fun s => .ok s.deadline s

/-- A store to `deadline`, an `unsigned long long`. -/
def setDeadline (deadline : Int) : M L Unit := fun s => .ok () { s with deadline := deadline % 2 ^ 64 }

def jump {α : Type} (l : L) : M L α := throw (.label l)

/-- `if (!ts_read_all(&ts, buffer, size, deadline)) goto label`. -/
def readOr (label : L) (capacity size : Nat) : M L (List UInt8) := do
  let deadline ← getDeadline
  let bytes ← tsReadAll capacity size deadline
  if bytes.length < size then jump label else pure bytes

/-- `if (!ts_write_all(&ts, buffer, size, deadline)) goto label`. -/
def writeOr (label : L) (buffer : List UInt8) (size : Nat) : M L Unit := do
  let deadline ← getDeadline
  if ← tsWriteAll buffer size deadline then pure () else jump label

/-- `body`, with the code at the labels. -/
def labels (goto : L → M L Unit) (body : M L Unit) : M L Unit := fun s =>
  match body s with
  | .ok _ s => .ok () s
  | .error (.label l) s => goto l s
  | .error e s => .error e s

theorem labels_ok {goto : L → M L Unit} {body : M L Unit} {s s' : State} (h : body s = .ok () s') :
    labels goto body s = .ok () s' := by
  unfold labels
  rw [h]

theorem labels_label {goto : L → M L Unit} {body : M L Unit} {s s' : State} {l : L}
    (h : body s = .error (.label l) s') : labels goto body s = goto l s' := by
  unfold labels
  rw [h]

theorem labels_stop {goto : L → M L Unit} {body : M L Unit} {s s' : State} {e : Stop L}
    (h : body s = .error e s') (he : ∀ l, e ≠ .label l) : labels goto body s = .error e s' := by
  unfold labels
  rw [h]
  cases e with
  | label l => exact absurd rfl (he l)
  | pending => rfl
  | wild => rfl
  | overrun => rfl

theorem labels_congr {goto : L → M L Unit} {x y : M L Unit} {s s' : State} (h : x s = y s') :
    labels goto x s = labels goto y s' := by
  unfold labels
  rw [h]

/-- What `socket4_connect` returns. -/
def World.conn (w : World) : Int := (socket4Connect w.sock w.outcome w.wait).1

/-- What the modules have in common once `sock` is taken for a connection: `body` with the code at the labels, and
the way out. The code at a label may jump to another one. -/
def connected (goto : L → M L Unit) (body : M L Unit) (readTimeout sock : Int) : M L Int := do
  let _ ← tsSocket sock
  let now ← ask .getMs World.getMs
  setDeadline (now + readTimeout)
  setRet (-1)
  labels goto (labels goto body)
  tsClose
  getRet

def check (connFail : Int32) (goto : L → M L Unit) (body : M L Unit) (readTimeout : Int) : M L Int := do
  let w ← getWorld
  if w.conn = -1 then do
    cbaBit connFail
    pure (-1)
  else connected goto body readTimeout w.conn

end Jumps

/-! ### `check_vnc` -/

namespace Vnc

open Rfb (Label tls vencrypt ofChars cString scanVersion remap versionLine sizeT)

def sprintf (buffer : List UInt8) (text : List Char) : M Label (List UInt8) :=
  match store buffer 0 (ofChars text ++ [0]) with
  | some buffer => pure buffer
  | none => throw .overrun

def goTls : M Label Unit := do
  let deadline ← getDeadline
  if ← tsGoTls deadline then pure ()
  else
    cbaBit Rfb.tlsFail
    jump .exit

def winAndExit : M Label Unit := do
  cbaBit Rfb.win
  setRet 1
  jump .exit

def firstTypes : Nat → Bool → M Label Bool
  | 0, hasNontls => pure hasNontls
  | count + 1, hasNontls => do
    let atype ← readOr .readFail 1 1
    if atype = [1] then winAndExit
    if atype = [vencrypt] then cbaBit Rfb.hasVencrypt
    firstTypes count (hasNontls || atype ≠ [tls])

def tlsTypes : Nat → M Label Unit
  | 0 => pure ()
  | count + 1 => do
    let atype ← readOr .readFail 1 1
    if atype = [1] then winAndExit
    tlsTypes count

def readCount : M Label Nat := do
  let count ← readOr .readFail 1 1
  if count = [0] then jump .readReason
  pure (ByteOrder.big.decode count)

def listedTypes : M Label Unit := do
  let count ← readCount
  setRet 0
  let hasNontls ← firstTypes count false
  if hasNontls then pure ()
  else do
    cbaBit Rfb.onlyTls
    let deadline ← getDeadline
    setDeadline (deadline + 1000)
    writeOr .writeFail [tls] 1
    goTls
    let count ← readCount
    tlsTypes count

def authMode : M Label Unit := do
  let bytes ← readOr .readFail 4 4
  let authmode := ByteOrder.big.decodeInt bytes
  setRet 0
  if authmode = 1 then winAndExit
  else if authmode = 0 then jump .readReason
  else pure ()

def negotiate (version : List UInt8) : Option (Int × Int) → M Label Unit
  | none => do
    cba (.code Rfb.bannerFail)
    cba (.log (.data (version.take 12)))
    jump .exit
  | some (major, minor) => do
    let version ← sprintf version (versionLine (remap major minor).1 (remap major minor).2)
    writeOr .writeFail version 12
    if (remap major minor).1 = 3 ∧ (remap major minor).2 > 6 then listedTypes else authMode

def body : M Label Unit := do
  let bytes ← readOr .exit 16 12
  let version := bytes ++ List.replicate 4 0
  negotiate version (scanVersion version)

def readReason : M Label Unit := do
  let len ← readOr .readFail 4 4
  let len := ByteOrder.big.decodeInt len
  let reasonStr ← readOr .readFail 512 (sizeT (if len < 511 then len else 511))
  cba (.code Rfb.reason)
  cba (.log (.str (ofChars "Error: ".toList ++ cString reasonStr)))

def goto : Label → M Label Unit
  | .exit => pure ()
  | .readFail => cbaBit Rfb.readFail
  | .writeFail => cbaBit Rfb.writeFail
  | .readReason => readReason
  | .overrun => throw .overrun

end Vnc

def checkVnc (readTimeout : Int) : M Rfb.Label Int := check Rfb.connFail Vnc.goto Vnc.body readTimeout

/-! ### `check_x11` -/

namespace X11

def hello : List UInt8 := [0x6c, 0, 0x0b, 0, 0, 0, 0, 0, 0, 0, 0, 0]

def connFail : Int32 := 1
def readFail : Int32 := 2
def writeFail : Int32 := 3
def good : Int32 := 4
def kindaGood : Int32 := 5

inductive Label
  | exit
  | readFail
  | writeFail

def body : M Label Unit := do
  writeOr .writeFail hello 12
  let state ← readOr .readFail 1 1
  if state ≠ [1] then jump .exit
  let deadline ← getDeadline
  let vbuff ← tsReadAll 5 5 deadline
  if vbuff.length = 5 ∧ vbuff[1]? = some 11 then cbaBit good else cbaBit kindaGood

def goto : Label → M Label Unit
  | .exit => pure ()
  | .readFail => cbaBit readFail
  | .writeFail => cbaBit writeFail

end X11

def checkX11 (readTimeout : Int) : M X11.Label Int := check X11.connFail X11.goto X11.body readTimeout

end Cscan.Modules
