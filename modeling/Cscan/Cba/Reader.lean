import Cscan.Lib.ByteOrder
import Mathlib.Logic.Function.Basic

/-! The reader of CBA files in `cba_reader.py`. A `str` is a list of characters, and the generator's
`yield` appends to the list of entries yielded. -/

namespace Cscan.Cba

open Cscan.Lib

def cbaHead : Nat := 0
def cbaStr : Nat := 1
def cbaFile : Nat := 2
def cbaData : Nat := 3
def cbaInt32 : Nat := 4
def cbaInt64 : Nat := 5
def cbaBit : Nat := 6

/-- The exceptions that reading can raise: `struct.error`, `UnicodeDecodeError`, `AttributeError`. -/
inductive Err
  | struct
  | unicode
  | attribute
deriving DecidableEq, Repr

inductive Value
  | text (s : List Char)
  | bytes (b : List UInt8)
  | int (z : Int)
  | true
deriving DecidableEq, Repr

structure Event where
  kind : Nat
  code : Nat
  val : Value
deriving DecidableEq, Repr

/-- `cur_stream`: `None`, `'ignore'`, an `io.BytesIO`, or an output file with what was written to it. -/
inductive Stream
  | none
  | ignore
  | data (buff : List UInt8)
  | file (path : List Char) (written : List UInt8)
deriving DecidableEq, Repr

/-- `d[code] = val` on a `dict`, in insertion order. -/
def dictSet (d : List (Nat × Value)) (code : Nat) (val : Value) : List (Nat × Value) :=
  if d.any (·.1 = code) then d.map fun p => if p.1 = code then (code, val) else p
  else d ++ [(code, val)]

structure ThreadState where
  module : List Char := []
  dict : List (Nat × Value) := []
  events : List Event := []
  curCode : Nat := 0
  curType : Nat := 0
  curStream : Stream := .none
deriving DecidableEq, Repr

structure Entry where
  module : List Char
  dict : List (Nat × Value)
  events : List Event
deriving DecidableEq, Repr

namespace ThreadState

def addEvent (ts : ThreadState) (kind code : Nat) (val : Value) : ThreadState :=
  { ts with events := ts.events ++ [⟨kind, code, val⟩], dict := dictSet ts.dict code val }

/-- `Entry(ts)`. -/
def entry (ts : ThreadState) : Entry := ⟨ts.module, ts.dict, ts.events⟩

end ThreadState

/-- The arguments of `CBA`, and the outcomes of opening the output files: `opens n` tells whether
`open` succeeds the `n`-th time. -/
structure Config where
  extractDir : List Char
  extractFor : List (List Char)
  overwrite : Bool
  opens : Nat → Bool

/-- A file that was extracted: its path, the mode (`wb` or `xb`) and its bytes. -/
structure Saved where
  path : List Char
  overwrite : Bool
  content : List UInt8
deriving DecidableEq, Repr

/-- A `CBA` object with its file: `data` is the content of the file and `rest` what is left to read.
`tids` is the keys of `state` in insertion order. Entries and extracted files carry the thread that
they are from. -/
structure Reader where
  data : List UInt8
  rest : List UInt8
  order : ByteOrder
  tids : List UInt8
  state : UInt8 → ThreadState
  eof : Bool
  filter : Option (List Char)
  attempts : Nat
  yielded : List (UInt8 × Entry)
  saved : List (UInt8 × Saved)

/-- The object with another state of thread `tid`. -/
def Reader.set (s : Reader) (tid : UInt8) (ts : ThreadState) : Reader :=
  { s with state := Function.update s.state tid ts }

/-- Reading steps: they may raise an exception, and keep the object as it is then. -/
abbrev M := EStateM Err Reader

/-- `self.file.read(n)`. -/
def read (n : Nat) : M (List UInt8) := fun s =>
  .ok (s.rest.take n) { s with rest := s.rest.drop n }

/-- `self.unpack(fmt, bytes)[0]` for an unsigned format of `w` bytes. -/
def unpack (w : Nat) (bytes : List UInt8) : M Nat := fun s =>
  if bytes.length = w then .ok (s.order.decode bytes) s else .error .struct s

/-- `self.unpack(fmt, bytes)[0]` for a signed format of `w` bytes. -/
def unpackInt (w : Nat) (bytes : List UInt8) : M Int := fun s =>
  if bytes.length = w then .ok (s.order.decodeInt bytes) s else .error .struct s

/-- `self.unpack(fmt, self.file.read(w))[0]`. -/
def readWord (w : Nat) : M Nat := read w >>= unpack w

def readInt (w : Nat) : M Int := read w >>= unpackInt w

/-- `bytes.decode('iso-8859-1')`. -/
def latin1 (bytes : List UInt8) : List Char := bytes.map fun b => Char.ofNat b.toNat

/-- `bytes.decode('ascii')`. -/
def decodeAscii (bytes : List UInt8) : M (List Char) := fun s =>
  if bytes.all (· < 128) then .ok (latin1 bytes) s else .error .unicode s

def getThread (tid : UInt8) : M ThreadState := fun s => .ok (s.state tid) s

def setThread (tid : UInt8) (ts : ThreadState) : M Unit := fun s => .ok () (s.set tid ts)

/-- `if tid not in self.state: self.state[tid] = ThreadState()`. -/
def openThread (tid : UInt8) : M Unit := fun s =>
  if tid ∈ s.tids then .ok () s
  else .ok () ({ s with tids := s.tids ++ [tid] }.set tid {})

/-- `len(state.events) and (self.filter is None or state.module == self.filter)`. -/
def wanted (filter : Option (List Char)) (ts : ThreadState) : Bool :=
  !ts.events.isEmpty && (filter.isNone || filter == some ts.module)

/-- `yield from self.result(state)`. -/
def result (tid : UInt8) : M Unit := fun s =>
  if wanted s.filter (s.state tid) then
    .ok () { s with yielded := s.yielded ++ [(tid, (s.state tid).entry)] }
  else .ok () s

/-- `self.add_event(kind, code, val)` of a thread's state. -/
def addEvent (tid : UInt8) (kind code : Nat) (val : Value) : M Unit := do
  let ts ← getThread tid
  setThread tid (ts.addEvent kind code val)

/-! ### The branch of `read_packet` that reads a chunk of a stream -/

/-- `state.cur_stream.write(buff)` unless the stream is `'ignore'`. -/
def Stream.write (buff : List UInt8) : Stream → Stream
  | .data old => .data (old ++ buff)
  | .file path old => .file path (old ++ buff)
  | stream => stream

theorem Stream.write_write (stream : Stream) (b content : List UInt8) :
    (stream.write b).write content = stream.write (b ++ content) := by
  cases stream <;> simp [Stream.write]

@[simp] theorem Stream.write_nil (stream : Stream) : stream.write [] = stream := by
  cases stream <;> simp [Stream.write]

/-- `close` of an output file. -/
def save (tid : UInt8) (file : Saved) : M Unit := fun s =>
  .ok () { s with saved := s.saved ++ [(tid, file)] }

/-- The end of a stream: the event of a `CBA_DATA` packet, and `close` of an output file. -/
def closeStream (cfg : Config) (tid : UInt8) : M Unit := do
  let ts ← getThread tid
  if ts.curType = cbaData then
    match ts.curStream with
    | .data val => addEvent tid ts.curType ts.curCode (.bytes val)
    | _ => throw .attribute
  match ts.curStream with
  | .file path written => save tid ⟨path, cfg.overwrite, written⟩
  | _ => pure ()
  let ts ← getThread tid
  setThread tid { ts with curStream := .none }

def readChunk (cfg : Config) (tid : UInt8) : M Unit := do
  let l ← readWord 2
  if l = 0 then closeStream cfg tid
  else
    let buff ← read l
    let ts ← getThread tid
    setThread tid { ts with curStream := ts.curStream.write buff }

/-! ### The branch of `read_packet` that reads a packet -/

/-- `filename.replace('..', '')`. -/
def replaceDots : List Char → List Char
  | '.' :: '.' :: cs => replaceDots cs
  | c :: cs => c :: replaceDots cs
  | [] => []

/-- The name under which a file is extracted. -/
def safeName (name : List Char) : List Char :=
  match replaceDots name with
  | '/' :: cs => cs
  | cs => cs

/-- `os.path.join(a, b)`. -/
def osPathJoin (a b : List Char) : List Char :=
  if b.head? = some '/' then b
  else if a = [] ∨ a.getLast? = some '/' then a ++ b
  else a ++ '/' :: b

/-- `'*' in self.extract_for or state.module in self.extract_for`. -/
def shouldExtract (cfg : Config) (module : List Char) : Bool :=
  cfg.extractFor.contains ['*'] || cfg.extractFor.contains module

/-- `state.cur_stream = open(os.path.join(self.extract_dir, filename), mode)`, where a failure leaves
the stream as it is. -/
def ThreadState.openOutput (cfg : Config) (ok : Bool) (filename : List Char) (ts : ThreadState) :
    ThreadState :=
  if ok then { ts with curStream := .file (osPathJoin cfg.extractDir filename) [] } else ts

def openOutput (cfg : Config) (tid : UInt8) (filename : List Char) : M Unit := fun s =>
  let ts := (s.state tid).openOutput cfg (cfg.opens s.attempts) filename
  .ok () { s.set tid ts with attempts := s.attempts + 1 }

def readHead (tid : UInt8) : M Unit := do
  result tid
  setThread tid {}
  let l ← readWord 1
  if l = 0 then pure ()
  else
    let name ← decodeAscii (← read l)
    let ts ← getThread tid
    setThread tid { ts with module := name }

/-- `filename`, which stays empty when the file is not extracted. -/
def readFilename (cfg : Config) (module : List Char) (l : Nat) : M (List Char) :=
  if shouldExtract cfg module ∧ l ≠ 0 then do
    let filename ← decodeAscii (← read l)
    pure (safeName filename)
  else pure []

def readFile (cfg : Config) (tid : UInt8) (code : Nat) : M Unit := do
  let l ← readWord 2
  let ts ← getThread tid
  setThread tid { ts with curStream := .ignore }
  let filename ← readFilename cfg ts.module l
  if filename = [] then pure ()
  else
    openOutput cfg tid filename
    addEvent tid cbaFile code (.text filename)

/-- The packet of type `mtype` once its header is read. -/
def readBody (cfg : Config) (tid : UInt8) (mtype code : Nat) : M Unit :=
  if mtype = cbaHead then readHead tid
  else do
    let ts ← getThread tid
    setThread tid { ts with curCode := code, curType := mtype }
    if mtype = cbaStr then
      let l ← readWord 2
      let val ← read l
      addEvent tid mtype code (.text (latin1 val))
    else if mtype = cbaData then
      let ts ← getThread tid
      setThread tid { ts with curStream := .data [] }
    else if mtype = cbaBit then addEvent tid mtype code .true
    else if mtype = cbaInt32 then
      let val ← readInt 4
      addEvent tid mtype code (.int val)
    else if mtype = cbaInt64 then
      let val ← readInt 8
      addEvent tid mtype code (.int val)
    else if mtype = cbaFile then readFile cfg tid code
    else pure ()

def readEvent (cfg : Config) (tid : UInt8) : M Unit := do
  let mtype ← readWord 1
  if mtype &&& 0x80 = 0 then readBody cfg tid mtype 0
  else
    let code ← readWord 4
    readBody cfg tid (mtype ^^^ 0x80) code

/-! ### `read_packet` and `entries` -/

def readPacket (cfg : Config) : M Unit := do
  match ← read 1 with
  | [] => modify fun s => { s with eof := true }
  | tid :: _ =>
    openThread tid
    let ts ← getThread tid
    if ts.curStream = .none then readEvent cfg tid else readChunk cfg tid

/-- `while not self.eof: yield from self.read_packet()`, for at most `fuel` turns. -/
def readLoop (cfg : Config) : Nat → M Unit
  | 0 => pure ()
  | fuel + 1 => fun s =>
    if s.eof then .ok () s
    else match readPacket cfg s with
      | .ok _ s => readLoop cfg fuel s
      | .error e s => .error e s

/-- `yield from self.read_final()`. -/
def readFinal : M Unit := fun s => s.tids.foldlM (fun _ tid => result tid) () s

/-- `reset`. -/
def reset (s : Reader) : Reader := { s with eof := false, rest := s.data }

/-- What the caller of `entries` sees: the entries and the exception that ended them, if one did. -/
structure Pass where
  entries : List (UInt8 × Entry)
  raised : Option Err
deriving DecidableEq, Repr

/-- `entries(module)` run to its end: what it yields, and the object afterwards. Each turn but the
last reads a byte, so one turn more than there are bytes is enough. -/
def entries (cfg : Config) (module : Option (List Char)) (s : Reader) : Pass × Reader :=
  let s := { s with filter := module, yielded := [] }
  let s := if s.eof then reset s else s
  match (do readLoop cfg (s.rest.length + 1); readFinal : M Unit) s with
  | .ok _ s => (⟨s.yielded, none⟩, s)
  | .error e s => (⟨s.yielded, some e⟩, s)

/-- `CBA(f, ...)` on a file with content `data`, whose first byte is the byte-order mark. -/
def newReader (data : List UInt8) : Reader where
  data := data
  rest := data.drop 1
  order := if data.take 1 = [76] then .little else .big
  tids := []
  state _ := {}
  eof := false
  filter := none
  attempts := 0
  yielded := []
  saved := []

end Cscan.Cba
