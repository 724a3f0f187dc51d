import Cscan.Modules.Check
import Cscan.Results.Replay
import Cscan.Worker.Cookie

/-! `process_thread` of `cscan.c` and `modules_exec` of `modules.c`: the calls of `cba.h` that the worker makes for the
results that it takes from the queue, when there is a CBA file. -/

namespace Cscan.Worker

open Cscan.Lib
open Blocking (Result)
open Scan (printIp4)
open Rfb (ofChars)

/-! ### The modules -/

/-- `rfb_init` and `x11_init`: whether a module is on, and the timeout for its reads. -/
structure Service where
  on : Bool := false
  readTimeout : Int32

def rfbInit (overflow : Int → Int32) (enabled cfg : List Char) (s : Service) : Service :=
  ⟨(strstr "rfb".toList enabled).isSome, intOption overflow "rfb.read_timeout=".toList cfg s.readTimeout⟩

def x11Init (overflow : Int → Int32) (enabled cfg : List Char) (s : Service) : Service :=
  ⟨(strstr "x11".toList enabled).isSome, intOption overflow "x11.read_timeout=".toList cfg s.readTimeout⟩

/-- `print_init`, when there is a CBA file. -/
def printInit (enabled : List Char) : Bool := (strstr "print".toList enabled).isSome

/-- The modules that are compiled in. -/
structure Have where
  print : Bool
  checkcookie : Bool
  rfb : Bool
  x11 : Bool

/-- The variables of the modules. -/
structure Modules where
  print : Bool := false
  cookie : Cookie := {}
  rfb : Service := { readTimeout := 4500 }
  x11 : Service := { readTimeout := 4000 }

def modulesInit (overflow : Int → Int32) (compiled : Have) (enabled cfg : List Char) : Option Modules := do
  let m : Modules := {}
  let cookie ← if compiled.checkcookie then checkcookieInit overflow enabled cfg m.cookie else some m.cookie
  some {
    print := compiled.print && printInit enabled
    cookie := cookie
    rfb := if compiled.rfb then rfbInit overflow enabled cfg m.rfb else m.rfb
    x11 := if compiled.x11 then x11Init overflow enabled cfg m.x11 else m.x11 }

/-! ### One result -/

/-- `"%s:%d"` behind `print_ip4(ip, str)`. -/
def address (r : Result) : List Char := printIp4 r.ip ++ ':' :: Scanf.printInteger r.port.toInt

/-- What the host of a result answers to the modules. -/
structure Host where
  cookie : Nat → Dial
  vnc : Modules.World
  x11 : Modules.World

def printResult (on : Bool) (r : Result) : List Cba.Call :=
  if on then [.head [], .log (.str (ofChars (address r)))] else []

/-- The calls of a module that returns. -/
def returns {L α : Type} : EStateM.Result (Modules.Stop L) Modules.State α → Option (List Cba.Call)
  | .ok _ s => some s.calls
  | .error _ _ => none

/-- `snprintf(url, sizeof(url), scheme "%s:%d", ip_str, port)`. As a format it stands for itself. -/
def url (scheme : List Char) (r : Result) : List Char := (scheme ++ address r).take 63

/-- `rfb_result` and `x11_result`: a head and the address in front of what the check logs. -/
def serviceResult (on : Bool) (name scheme : List Char) (r : Result) (check : Option (List Cba.Call)) :
    Option (List Cba.Call) :=
  if on then check.map fun calls => .head (ofChars name) :: .deferStr (ofChars (url scheme r)) :: calls
  else some []

def rfbResult (m : Service) (r : Result) (w : Modules.World) : Option (List Cba.Call) :=
  serviceResult m.on "rfb".toList "vnc://".toList r (returns (Modules.checkVnc m.readTimeout.toInt w.start))

def x11Result (m : Service) (r : Result) (w : Modules.World) : Option (List Cba.Call) :=
  serviceResult m.on "x11".toList "x11://".toList r (returns (Modules.checkX11 m.readTimeout.toInt w.start))

/-- There is no result if a module does not return. -/
def modulesExec (m : Modules) (r : Result) (h : Host) : Option (List Cba.Call) := do
  let (pass, _) ← checkCookie m.cookie h.cookie r.port
  if pass = 0 then some []
  else do
    let rfb ← rfbResult m.rfb r h.vnc
    let x11 ← x11Result m.x11 r h.x11
    some (printResult m.print r ++ (rfb ++ x11))

/-- `process_thread`, for the results that it takes from the queue and their hosts. -/
def processThread (m : Modules) : List (Result × Host) → Option (List Cba.Call)
  | [] => some []
  | (r, h) :: jobs =>
    if r.ip = 0 then some []
    else do
      let calls ← modulesExec m r h
      let more ← processThread m jobs
      some (calls ++ more)

end Cscan.Worker
