import Cscan.Lib.Inet
import Mathlib.Tactic.SplitIfs

/-! The functions of `socket_utils.c`: `parse_ip4`, and those that connect a socket, with the answers of the
kernel as an argument. -/

namespace Cscan.Scan

open Cscan.Lib

/-- `parse_ip4`: the address stays zero where `inet_aton` does not accept the text. -/
def parseIp4 (ip : List Char) : UInt32 := (Inet.inetAton (Inet.cString ip)).getD 0

/-- `print_ip4`. -/
def printIp4 (ip : UInt32) : List Char := Inet.inetNtop ip

theorem parseIp4_printIp4 (ip : UInt32) : parseIp4 (printIp4 ip) = ip := by
  have hstring : Inet.cString (printIp4 ip) = printIp4 ip := by
    rw [Inet.cString, List.takeWhile_eq_self_iff]
    intro c hc
    rcases Inet.inetNtop_mem hc with hdigit | rfl
    · rw [decide_eq_true_eq]
      rintro rfl
      exact absurd hdigit (by decide)
    · rfl
  rw [parseIp4, hstring, printIp4, Inet.inetAton_inetNtop]
  rfl

theorem parseIp4_ne_zero_iff {ip : List Char} : parseIp4 ip ≠ 0 ↔ Inet.IsAddress (Inet.cString ip) := by
  rw [Inet.isAddress_iff, parseIp4]
  cases Inet.inetAton (Inet.cString ip) with
  | none => simp
  | some ip => simp

/-- The values of `errno` that the code tells apart. -/
inductive Errno
  | refused
  | unreachable
  | inProgress
  | addrInUse
  | addrNotAvail
  | other
deriving DecidableEq, Repr

/-- What the two `fcntl` calls of `set_socket_blocking` return. -/
inductive Fcntl
  | done
  | getFails (e : Errno)
  | setFails (e : Errno)
deriving DecidableEq, Repr

def Fcntl.errno : Fcntl → Errno
  | .done => .other
  | .getFails e => e
  | .setFails e => e

def setSocketBlocking (sock : Int) : Fcntl → Int
  | .done => sock
  | .getFails _ => -1
  | .setFails _ => -2

/-- What the kernel answers to the calls of `socket4_try_connect`; `connect` succeeds or has an error. -/
structure ConnectOutcome where
  nonblocking : Fcntl
  connect : Option Errno
  blocking : Fcntl
deriving DecidableEq, Repr

/-- What `socket4_try_connect` returns, `errno` then, and whether it closed the socket. -/
def socket4TryConnect (sock : Int) (o : ConnectOutcome) : Int × Errno × Bool :=
  if setSocketBlocking sock o.nonblocking < 0 then (-2, o.nonblocking.errno, true)
  else match o.connect with
    | none => (setSocketBlocking sock o.blocking, o.blocking.errno, false)
    | some e =>
      if e = .refused ∨ e = .unreachable then (-1, e, true)
      else if e ≠ .inProgress then (-2, e, true)
      else (-sock - 2, e, false)

/-- What `poll` answers to `socket4_connect`: what it returns, and the bits of `revents` it looks at. -/
structure PollOutcome where
  pres : Int
  out : Bool
  err : Bool
  hup : Bool
deriving DecidableEq, Repr

def PollOutcome.ready (p : PollOutcome) : Bool := p.pres > 0 && p.out && !(p.err || p.hup)

/-- `socket4_connect` for the socket that `socket4_setup` returns: the value returned, and whether the
socket is closed then. -/
def socket4Connect (sock : Int) (o : ConnectOutcome) (p : PollOutcome) : Int × Bool :=
  if sock < 0 then (-2, false)
  else
    let (ret, _, closed) := socket4TryConnect sock o
    if ret ≥ -2 then (ret, closed)
    else
      let sock := -ret - 2
      if p.ready then (setSocketBlocking sock o.blocking, closed) else (-1, true)

/-! ### The outcomes -/

namespace ConnectOutcome

/-- The socket is connected and blocking again. -/
def Connects (o : ConnectOutcome) : Prop :=
  o.nonblocking = .done ∧ o.connect = none ∧ o.blocking = .done

/-- The socket is connected, and it cannot be made blocking again. -/
def Leaks (o : ConnectOutcome) : Prop :=
  o.nonblocking = .done ∧ o.connect = none ∧ o.blocking ≠ .done

def InProgress (o : ConnectOutcome) : Prop :=
  o.nonblocking = .done ∧ o.connect = some .inProgress

instance (o : ConnectOutcome) : Decidable o.Connects := inferInstanceAs (Decidable (_ ∧ _))

instance (o : ConnectOutcome) : Decidable o.Leaks := inferInstanceAs (Decidable (_ ∧ _))

instance (o : ConnectOutcome) : Decidable o.InProgress := inferInstanceAs (Decidable (_ ∧ _))

end ConnectOutcome

variable {sock : Int} {o : ConnectOutcome}

theorem setSocketBlocking_neg {f : Fcntl} (hsock : 0 ≤ sock) :
    setSocketBlocking sock f < 0 ↔ f ≠ .done := by
  cases f with
  | done => simpa [setSocketBlocking] using hsock
  | getFails e => simp [setSocketBlocking]
  | setFails e => simp [setSocketBlocking]

theorem setSocketBlocking_fails {f : Fcntl} (h : f ≠ .done) :
    setSocketBlocking sock f = -1 ∨ setSocketBlocking sock f = -2 := by
  cases f with
  | done => exact absurd rfl h
  | getFails e => exact Or.inl rfl
  | setFails e => exact Or.inr rfl

theorem socket4TryConnect_done (hdone : o.nonblocking = .done) (hsock : 0 ≤ sock) :
    socket4TryConnect sock o = match o.connect with
      | none => (setSocketBlocking sock o.blocking, o.blocking.errno, false)
      | some e =>
        if e = .refused ∨ e = .unreachable then (-1, e, true)
        else if e ≠ .inProgress then (-2, e, true)
        else (-sock - 2, e, false) :=
  if_neg fun h => (setSocketBlocking_neg hsock).mp h hdone

theorem ConnectOutcome.Connects.returns (h : o.Connects) (hsock : 0 ≤ sock) :
    socket4TryConnect sock o = (sock, .other, false) := by
  rw [socket4TryConnect_done h.1 hsock, h.2.1, h.2.2]
  rfl

theorem ConnectOutcome.InProgress.returns (h : o.InProgress) (hsock : 0 ≤ sock) :
    socket4TryConnect sock o = (-sock - 2, .inProgress, false) := by
  rw [socket4TryConnect_done h.1 hsock, h.2]
  rfl

theorem ConnectOutcome.Leaks.returns (h : o.Leaks) (hsock : 0 ≤ sock) :
    socket4TryConnect sock o = (setSocketBlocking sock o.blocking, o.blocking.errno, false) := by
  rw [socket4TryConnect_done h.1 hsock, h.2.1]

/-- The other outcomes close the socket. -/
theorem socket4TryConnect_closes (hsock : 0 ≤ sock) (hconnects : ¬ o.Connects)
    (hprogress : ¬ o.InProgress) (hleaks : ¬ o.Leaks) :
    ∃ ret e, socket4TryConnect sock o = (ret, e, true) ∧ (ret = -1 ∨ ret = -2) := by
  by_cases hdone : o.nonblocking = .done
  · rw [socket4TryConnect_done hdone hsock]
    cases hconnect : o.connect with
    | none =>
      by_cases hblocking : o.blocking = .done
      · exact absurd ⟨hdone, hconnect, hblocking⟩ hconnects
      · exact absurd ⟨hdone, hconnect, hblocking⟩ hleaks
    | some e =>
      have hne : e ≠ .inProgress := fun heq => hprogress ⟨hdone, heq ▸ hconnect⟩
      by_cases hrefused : e = .refused ∨ e = .unreachable
      · exact ⟨-1, e, if_pos hrefused, Or.inl rfl⟩
      · exact ⟨-2, e, (if_neg hrefused).trans (if_pos hne), Or.inr rfl⟩
  · exact ⟨-2, _, if_pos ((setSocketBlocking_neg hsock).mpr hdone), Or.inr rfl⟩

end Cscan.Scan
