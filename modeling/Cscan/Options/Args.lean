import Cscan.Scan.SocketUtils
import Cscan.Target.PortSpec

/-! `parse_args` of `cscan.c`: the loop over the options, the parameters that are derived from them, and the
tables of targets and ports. What is undefined, such as an overflow of `int`, has no result. -/

namespace Cscan.Options

open Cscan.Lib

/-! ### The variables -/

/-- The globals that `parse_args` sets, and its local variables for the tables and the statistics. -/
structure Settings where
  packetsPerSecond : Int
  maxPendingResults : Int
  maxPendingSockets : Int
  connectTimeout : Int
  socketListExcess : Int
  autoInterval : Int
  connectInterval : Int
  bindIpN : UInt32
  bindPort : Int
  bindMaxRetries : Int
  fromStdin : Bool
  listOnly : Bool
  daemonize : Bool
  canaryIp : UInt32
  canaryPort : Int
  canaryAfter : Int
  statsEvery : Int
  statsEveryCba : Int
  outputCbaFile : Option (List Char)
  outputFilesDir : Option (List Char)
  enabledModules : List Char
  modulesConfig : List Char
  rangesFile : Option (List Char)
  portsFile : Option (List Char)
  portspec : Option (List Char)
  newStatsEvery : Int
deriving DecidableEq, Repr

/-- What the program finds around it: the byte order of the machine, the modules it was built with, the
files, the memory, and the tables that are built in. -/
structure Env where
  order : ByteOrder
  enabledModules : List Char
  modulesConfig : List Char
  files : List Char → Option (List UInt8)
  malloc : Nat → Option (Nat → UInt32)
  builtinRanges : Target.RangeCfg
  builtinPorts : Target.RangeCfg

def defaults (env : Env) : Settings where
  packetsPerSecond := 520
  maxPendingResults := 50
  maxPendingSockets := 0
  connectTimeout := 800
  socketListExcess := 1000
  autoInterval := 90
  connectInterval := 500
  bindIpN := 0
  bindPort := 32005
  bindMaxRetries := 5
  fromStdin := false
  listOnly := false
  daemonize := false
  canaryIp := 0
  canaryPort := 80
  canaryAfter := 5600
  statsEvery := 1000
  statsEveryCba := 10000
  outputCbaFile := none
  outputFilesDir := none
  enabledModules := env.enabledModules
  modulesConfig := env.modulesConfig
  rangesFile := none
  portsFile := none
  portspec := none
  newStatsEvery := 0

/-! ### The loop over the options -/

/-- The number in front of a text, or 0. -/
def number (text : List Char) : Int :=
  match Scanf.integer text with
  | some (z, _) => z
  | none => 0

/-- `atoi`, which is undefined for a number that is no `int`. -/
def atoi (text : List Char) : Option Int := checked (number text)

def htonl (order : ByteOrder) (n : UInt32) : UInt32 :=
  UInt32.ofNat (order.decode (ByteOrder.big.encode 4 n.toNat))

/-- The first chain of tests. -/
def flag (arg : List Char) (s : Settings) : Settings :=
  if arg = ['-', 'x'] then { s with fromStdin := true }
  else if arg = ['-', 'd'] then { s with daemonize := true }
  else if arg = ['-', 'l'] then { s with listOnly := true }
  else s

/-- The branches of the second chain, named after the variables that they set. -/
inductive ValueOption
  | connectTimeout
  | packetsPerSecond
  | maxPendingSockets
  | maxPendingResults
  | bindPort
  | bindIp
  | bindMaxRetries
  | autoInterval
  | connectInterval
  | socketListExcess
  | canaryIp
  | canaryPort
  | canaryAfter
  | enabledModules
  | modulesConfig
  | rangesFile
  | portsFile
  | portspec
  | outputCbaFile
  | outputFilesDir
  | newStatsEvery
deriving DecidableEq, Repr

/-- The tests of the second chain. Both branches for output files test for `-o`. -/
def valueOption (arg : List Char) : Option ValueOption :=
  if arg = ['-', 't'] then some .connectTimeout
  else if arg = ['-', 'r'] then some .packetsPerSecond
  else if arg = ['-', 'm'] then some .maxPendingSockets
  else if arg = ['-', 'p', 'r'] then some .maxPendingResults
  else if arg = ['-', 'b'] then some .bindPort
  else if arg = ['-', 'b', 'i'] then some .bindIp
  else if arg = ['-', 'b', 't'] then some .bindMaxRetries
  else if arg = ['-', 'a'] then some .autoInterval
  else if arg = ['-', 'c', 't'] then some .connectInterval
  else if arg = ['-', 'e'] then some .socketListExcess
  else if arg = ['-', 'c'] then some .canaryIp
  else if arg = ['-', 'c', 'p'] then some .canaryPort
  else if arg = ['-', 'c', 'a'] then some .canaryAfter
  else if arg = ['-', 'm', 'o', 'd'] then some .enabledModules
  else if arg = ['-', 'm', 'c', 'f', 'g'] then some .modulesConfig
  else if arg = ['-', 'f'] then some .rangesFile
  else if arg = ['-', 'p', 'f'] then some .portsFile
  else if arg = ['-', 'p'] then some .portspec
  else if arg = ['-', 'o'] then some .outputCbaFile
  else if arg = ['-', 'o'] then some .outputFilesDir
  else if arg = ['-', 's', 't'] then some .newStatsEvery
  else none

/-- What the branches do with the next argument. -/
def assign (order : ByteOrder) (value : List Char) (s : Settings) : ValueOption → Option Settings
  | .connectTimeout => (atoi value).map fun z => { s with connectTimeout := z }
  | .packetsPerSecond => (atoi value).map fun z => { s with packetsPerSecond := z }
  | .maxPendingSockets => (atoi value).map fun z => { s with packetsPerSecond := 0, maxPendingSockets := z }
  | .maxPendingResults => (atoi value).map fun z => { s with maxPendingResults := z }
  | .bindPort => (atoi value).map fun z => { s with bindPort := z }
  | .bindIp => some { s with bindIpN := htonl order (Scan.parseIp4 value) }
  | .bindMaxRetries => (atoi value).map fun z => { s with bindMaxRetries := z }
  | .autoInterval => (atoi value).map fun z => { s with autoInterval := z }
  | .connectInterval => (atoi value).map fun z => { s with autoInterval := 0, connectInterval := z }
  | .socketListExcess => (atoi value).map fun z => { s with socketListExcess := z }
  | .canaryIp => some { s with canaryIp := Scan.parseIp4 value }
  | .canaryPort => (atoi value).map fun z => { s with canaryPort := z }
  | .canaryAfter => (atoi value).map fun z => { s with canaryAfter := z }
  | .enabledModules => some { s with enabledModules := value }
  | .modulesConfig => some { s with modulesConfig := value }
  | .rangesFile => some { s with rangesFile := some value }
  | .portsFile => some { s with portsFile := some value }
  | .portspec => some { s with portspec := some value }
  | .outputCbaFile => some { s with outputCbaFile := some value }
  | .outputFilesDir => some { s with outputFilesDir := some value }
  | .newStatsEvery => (atoi value).map fun z => { s with newStatsEvery := z }

/-- The loop, from `argv[arg_offset]` on. It ends early with the last argument. -/
def parseLoop (order : ByteOrder) : List (List Char) → Settings → Option Settings
  | [], s => some s
  | [arg], s => some (flag arg s)
  | arg :: value :: args, s =>
    match valueOption arg with
    | some o => (assign order value (flag arg s) o).bind fun s => parseLoop order args s
    | none => parseLoop order (value :: args) (flag arg s)

/-! ### The derived parameters -/

def deriveRate (s : Settings) : Option Settings :=
  if s.packetsPerSecond ≠ 0 then do
    let product ← checked (s.packetsPerSecond * s.connectTimeout)
    let sockets ← divide product 1000
    some { s with maxPendingSockets := sockets }
  else do
    let product ← checked (1000 * s.maxPendingSockets)
    let rate ← divide product s.connectTimeout
    some { s with packetsPerSecond := rate }

def deriveInterval (s : Settings) : Option Settings :=
  if s.autoInterval ≠ 0 then do
    let product ← checked (s.autoInterval * s.connectTimeout)
    let product ← checked (product * 10)
    let interval ← divide product s.maxPendingSockets
    some { s with connectInterval := interval }
  else some s

def deriveStats (s : Settings) : Settings :=
  if s.newStatsEvery ≠ 0 then { s with statsEvery := s.newStatsEvery }
  else if s.outputCbaFile.isSome then { s with statsEvery := s.statsEveryCba }
  else s

/-- The variables when the tables are about to be loaded. -/
def configure (env : Env) (argv : List (List Char)) : Option Settings := do
  let s ← parseLoop env.order argv.tail (defaults env)
  let s ← deriveRate s
  let s ← deriveInterval s
  some (deriveStats s)

/-! ### The tables -/

/-- How `parse_args` ends: it prints the help and exits, fails with a message, or returns with the variables
and the tables; or it is undefined, or it does not end. -/
inductive Outcome
  | help
  | fail (message : String)
  | returns (s : Settings) (ranges ports : Target.RangeCfg)
  | undefined
  | hangs
deriving DecidableEq, Repr

/-- The table of ports, if `make_port_ranges` ends within `fuel` turns, and the message for a table that
there is not. -/
def loadPorts (env : Env) (fuel : Nat) (s : Settings) : Option Target.Loaded × String :=
  match s.portsFile, s.portspec with
  | some file, _ =>
    (some (Target.loadRangeCfg env.order env.malloc (env.files file)), "Can't read ports from file.")
  | none, some portspec => (Target.makePortRanges fuel env.malloc portspec, "Invalid portspec.")
  | none, none => (some (.record env.builtinPorts), "")

def loadTables (env : Env) (fuel : Nat) (s : Settings) : Outcome :=
  let ranges := match s.rangesFile with
    | some file => Target.loadRangeCfg env.order env.malloc (env.files file)
    | none => .record env.builtinRanges
  match ranges with
  | .null => .fail "Can't read ranges from file."
  | .undefined => .undefined
  | .record ranges =>
    match loadPorts env fuel s with
    | (none, _) => .hangs
    | (some .null, message) => .fail message
    | (some .undefined, _) => .undefined
    | (some (.record ports), _) => .returns s ranges ports

/-! ### `parse_args` -/

/-- The first argument begins with `-h` or `--h`. -/
def AsksHelp (argv : List (List Char)) : Prop :=
  ∃ arg ∈ argv.tail.head?, ['-', 'h'] <+: arg ∨ ['-', '-', 'h'] <+: arg

instance (argv : List (List Char)) : Decidable (AsksHelp argv) :=
  inferInstanceAs (Decidable (∃ arg ∈ argv.tail.head?, _))

def parseArgs (env : Env) (fuel : Nat) (argv : List (List Char)) : Outcome :=
  if AsksHelp argv then .help
  else match configure env argv with
    | none => .undefined
    | some s => loadTables env fuel s

end Cscan.Options
