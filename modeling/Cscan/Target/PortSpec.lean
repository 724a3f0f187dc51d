import Cscan.Lib.CInt
import Cscan.Lib.Python
import Cscan.Target.Table

/-! The two compilers of portspecs: `make_port_ranges`, and `compile-targets.py` with `-p`. -/

namespace Cscan.Target

open Cscan.Lib

/-! ### `make_port_ranges` -/

/-- What `sscanf(spec, "%d:%d", &port, &points)` does: it returns `EOF` or 0 and stores nothing, or stores
`port` and maybe `points`. -/
inductive Scanned
  | eof
  | mismatch
  | entry (port : Int) (points : Option Int)
deriving DecidableEq, Repr

/-- One call of `sscanf`. A number that is no `int` has no result. -/
def scanEntry (spec : List Char) : Option Scanned :=
  if Scanf.space spec = [] then some .eof
  else
    match Scanf.integer spec with
    | none => some .mismatch
    | some (port, rest) => do
      let port ← checked port
      match (Scanf.literal ':' rest).bind Scanf.integer with
      | none => some (.entry port none)
      | some (points, _) => (checked points).map fun points => .entry port (some points)

/-- `port` and `points` after the call, where `points` was 1. -/
def Scanned.store (port : Option Int) : Scanned → Option Int × Int
  | .entry port' points => (some port', points.getD 1)
  | _ => (port, 1)

/-- `(spec = strstr(spec, ",")) && spec++`. -/
def nextSpec (spec : List Char) : Option (List Char) :=
  match spec.dropWhile (· ≠ ',') with
  | [] => none
  | _ :: rest => some rest

/-- The first loop: `port`, `num` and `max` behind it. A turn shortens the text, so one turn more than it
is long is enough. An overflow has no result. -/
def countLoop : Nat → List Char → Option Int → Int → Int → Option (Option Int × Int × Int)
  | 0, _, _, _, _ => none
  | fuel + 1, spec, port, num, max => do
    let scanned ← scanEntry spec
    if scanned = .mismatch then some (port, num, max)
    else
      let (port, points) := scanned.store port
      let num ← checked (num + 1)
      let max ← checked (max + points)
      match nextSpec spec with
      | none => some (port, num, max)
      | some spec => countLoop fuel spec port num max

/-- `mask << 1` as it is compiled: the bits that leave the word are lost. -/
def shiftMask (mask : Int) : Int := toInt32 (mask * 2 % 2 ^ 32).toNat

/-- `while(mask<max) mask <<= 1`, if it ends within `fuel` turns. -/
def maskLoop : Nat → Int → Int → Option Int
  | 0, _, _ => none
  | fuel + 1, mask, max => if mask < max then maskLoop fuel (shiftMask mask) max else some mask

def toUInt32 (z : Int) : UInt32 := UInt32.ofNat (z % 2 ^ 32).toNat

/-- The second loop, from the word with index `i` on: the words of `ret->ranges` behind it. An overflow, a
`port` that nothing was stored to and a store outside of the record have no result. -/
def fillLoop : Nat → List Char → Option Int → Int → Nat → List UInt32 → Option (List UInt32)
  | 0, _, _, _, _, _ => none
  | fuel + 1, spec, port, sum, i, words => do
    let scanned ← scanEntry spec
    if scanned = .mismatch then some words
    else
      let (port, points) := scanned.store port
      let sum ← checked (sum + points)
      let value ← port
      let last ← checked (sum - 1)
      if i + 1 < words.length then
        let words := (words.set i (toUInt32 value)).set (i + 1) (toUInt32 last)
        match nextSpec spec with
        | none => some words
        | some spec => fillLoop fuel spec port sum (i + 2) words
      else none

/-- `make_port_ranges`, or `none` if the loop of the mask does not end within `fuel` turns. -/
def makePortRanges (fuel : Nat) (malloc : Nat → Option (Nat → UInt32)) (portspec : List Char) :
    Option Loaded :=
  match countLoop (portspec.length + 1) portspec none 0 0 with
  | none => some .undefined
  | some (port, num, max) =>
    if num * 2 < -2 ^ 31 ∨ 2 ^ 31 ≤ num * 2 then some .undefined
    else
      match malloc (allocSize num) with
      | none => some .null
      | some word =>
        match checked (max - 1) with
        | none => some .undefined
        | some maxIdx =>
          match maskLoop fuel 1 max with
          | none => none
          | some mask =>
            let ret := { freshRecord (allocSize num) word with
              num := num
              maxIdx := toUInt32 maxIdx
              mask := toUInt32 (mask - 1) }
            match fillLoop (portspec.length + 1) portspec port 0 0 ret.ranges with
            | none => some .undefined
            | some words => some (.record { ret with ranges := words })

/-! ### `compile-targets.py -p` -/

/-- An element of `port_weights`, where `map(int, entry.split(':'))` has to give two numbers. -/
def portWeight (entry : List Char) : Option (Int × Int) :=
  if ':' ∈ entry then do
    match ← (entry.splitOn ':').mapM Python.int with
    | [port, pt] => some (port, pt)
    | _ => none
  else (Python.int entry).map fun port => (port, 1)

/-- The loop over `port_weights`: the sum of the weights and `port_data`, which holds each port and the
sum so far less one. -/
def portData : Int → List (Int × Int) → Int × List Int
  | ptSum, [] => (ptSum, [])
  | ptSum, (port, pt) :: weights =>
    let ptSum := ptSum + pt
    let (sum, data) := portData ptSum weights
    (sum, port :: (ptSum - 1) :: data)

def portWords (weights : List (Int × Int)) : List Int :=
  let (ptSum, data) := portData 0 weights
  (weights.length : Int) :: (ptSum - 1) :: getBinmask ptSum :: data

/-- The content of the `.csp` file, unless an exception is raised. -/
def compilePorts (portspec : List Char) : Option (List UInt8) := do
  let weights ← (portspec.splitOn ',').mapM portWeight
  packWords (portWords weights)

end Cscan.Target
