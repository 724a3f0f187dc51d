import Cscan.Cba.Reader
import Cscan.Lib.Interleave

/-! The format of CBA files as the writer and the reader share it: packets, the chunks of streams, and
the sequences of them that one thread may write. The meaning of such a sequence is what a thread's
state becomes and which entries come out of it, without regard to bytes and to other threads. -/

namespace Cscan.Cba

open Cscan.Lib

inductive Packet
  | head (module : List UInt8)
  | str (text : List UInt8)
  | file (name : List UInt8)
  | data
  | int32 (num : Int32)
  | int64 (num : Int64)
  | bit
deriving DecidableEq, Repr

namespace Packet

def kind : Packet → Nat
  | head _ => cbaHead
  | str _ => cbaStr
  | file _ => cbaFile
  | data => cbaData
  | int32 _ => cbaInt32
  | int64 _ => cbaInt64
  | bit => cbaBit

def payload (order : ByteOrder) : Packet → List UInt8
  | head module => UInt8.ofNat module.length :: module
  | str text => order.encode 2 text.length ++ text
  | file name => order.encode 2 name.length ++ name
  | data => []
  | int32 num => order.encodeInt 4 num.toInt
  | int64 num => order.encodeInt 8 num.toInt
  | bit => []

/-- Whether chunks follow the packet. -/
def opensStream : Packet → Bool
  | file _ => true
  | data => true
  | _ => false

/-- The length field can hold the length. -/
def Fits : Packet → Prop
  | head module => module.length < 256
  | str text => text.length < 65536
  | file name => name.length < 65536
  | _ => True

/-- The reader can decode the names in the packet. -/
def Ascii : Packet → Prop
  | head module => module.all (· < 128) = true
  | file name => name.all (· < 128) = true
  | _ => True

instance : DecidablePred Fits := fun p => by cases p <;> unfold Fits <;> infer_instance
instance : DecidablePred Ascii := fun p => by cases p <;> unfold Ascii <;> infer_instance

end Packet

/-- What a thread appends as a whole: a packet, with a code or without, or a chunk of a stream. -/
inductive Atom
  | packet (code : Option UInt32) (p : Packet)
  | chunk (bytes : List UInt8)
deriving DecidableEq, Repr

namespace Atom

def bytes (order : ByteOrder) (tid : UInt8) : Atom → List UInt8
  | packet none p => tid :: UInt8.ofNat p.kind :: p.payload order
  | packet (some code) p =>
    tid :: UInt8.ofNat (p.kind ||| 0x80) :: (order.encode 4 code.toNat ++ p.payload order)
  | chunk bytes => tid :: (order.encode 2 bytes.length ++ bytes)

/-- The reader can decode the names in the atom. -/
def Ascii : Atom → Prop
  | packet _ p => p.Ascii
  | chunk _ => True

instance : DecidablePred Ascii := fun a => by cases a <;> unfold Ascii <;> infer_instance

/-- The atom may stand where a stream is open or none is, and its length field can hold its length. -/
def Allowed : Bool → Atom → Prop
  | false, packet _ p => p.Fits
  | true, chunk bytes => bytes.length < 65536
  | _, _ => False

/-- Whether a stream is open after the atom. -/
def leavesOpen : Atom → Bool
  | packet _ p => p.opensStream
  | chunk bytes => !bytes.isEmpty

end Atom

/-- What one thread may write while a stream of it is open or while none is: whole packets, and after
a packet that opens a stream its chunks up to an empty one. -/
def Follows : Bool → List Atom → Prop
  | streaming, [] => streaming = false
  | streaming, a :: as => a.Allowed streaming ∧ Follows a.leavesOpen as

/-- Every thread's part of a file is a sequence that the thread may write. -/
def WellFormed (units : List (UInt8 × Atom)) : Prop := ∀ tid, Follows false (proj tid units)

def encodeUnits (order : ByteOrder) (units : List (UInt8 × Atom)) : List UInt8 :=
  units.flatMap fun u => u.2.bytes order u.1

/-- The byte-order mark. -/
def mark : ByteOrder → UInt8
  | .little => 76
  | .big => 66

/-- The content of a CBA file. -/
def fileOf (order : ByteOrder) (units : List (UInt8 × Atom)) : List UInt8 :=
  mark order :: encodeUnits order units

/-! ### The meaning of a thread's atoms -/

def codeOf (code : Option UInt32) : Nat := (code.map UInt32.toNat).getD 0

/-- The name under which the reader opens the file of a `CBA_FILE` packet, empty if it does not. -/
def outputName (cfg : Config) (module : List Char) (name : List UInt8) : List Char :=
  if shouldExtract cfg module ∧ name.length ≠ 0 then safeName (latin1 name) else []

namespace ThreadState

/-- The kind of the last packet says what the open stream is. -/
def Sound (ts : ThreadState) : Prop :=
  match ts.curStream with
  | .none => True
  | .data _ => ts.curType = cbaData
  | _ => ts.curType ≠ cbaData

/-- The reader takes the name in the packet, if there is one. -/
def TakesName (cfg : Config) (ts : ThreadState) : Atom → Prop
  | .packet _ (.file name) => name = [] ∨ shouldExtract cfg ts.module = true
  | _ => True

def streaming (ts : ThreadState) : Bool := ts.curStream ≠ .none

/-- The state after a packet, where `ok` tells whether an output file opens. -/
def receive (cfg : Config) (ok : Bool) (code : Nat) (ts : ThreadState) : Packet → ThreadState
  | .head module => { module := latin1 module }
  | .str text => ts.addEvent cbaStr code (.text (latin1 text))
  | .data => { ts with curStream := .data [] }
  | .bit => ts.addEvent cbaBit code .true
  | .int32 num => ts.addEvent cbaInt32 code (.int num.toInt)
  | .int64 num => ts.addEvent cbaInt64 code (.int num.toInt)
  | .file name =>
    let filename := outputName cfg ts.module name
    let ts := { ts with curStream := .ignore }
    if filename = [] then ts
    else (ts.openOutput cfg ok filename).addEvent cbaFile code (.text filename)

def close (ts : ThreadState) : ThreadState :=
  match ts.curStream with
  | .data val => { ts.addEvent cbaData ts.curCode (.bytes val) with curStream := .none }
  | _ => { ts with curStream := .none }

/-- The state after an atom. -/
def next (cfg : Config) (ok : Bool) (ts : ThreadState) : Atom → ThreadState
  | .packet code p =>
    receive cfg ok (codeOf code) { ts with curCode := codeOf code, curType := p.kind } p
  | .chunk bytes =>
    if bytes = [] then ts.close else { ts with curStream := ts.curStream.write bytes }

/-- The entry that the state stands for, if the reader yields it. -/
def final (filter : Option (List Char)) (ts : ThreadState) : List Entry :=
  if wanted filter ts then [ts.entry] else []

/-- The entries that an atom completes. -/
def yields (filter : Option (List Char)) (ts : ThreadState) : Atom → List Entry
  | .packet _ (.head _) => ts.final filter
  | _ => []

/-- The output file that an atom completes. -/
def saves (cfg : Config) (ts : ThreadState) : Atom → List Saved
  | .chunk [] =>
    match ts.curStream with
    | .file path written => [⟨path, cfg.overwrite, written⟩]
    | _ => []
  | _ => []

/-- Whether the reader tries to open an output file. -/
def opensFile (cfg : Config) (ts : ThreadState) : Atom → Bool
  | .packet _ (.file name) => outputName cfg ts.module name ≠ []
  | _ => false

end ThreadState

/-- In a thread whose module is `module`, every file that has a name is one of a module in `p`. -/
def FilesIn (p : List Char → Prop) : List Char → List Atom → Prop
  | _, [] => True
  | _, .packet _ (.head module) :: as => FilesIn p (latin1 module) as
  | module, .packet _ (.file name) :: as => (name = [] ∨ p module) ∧ FilesIn p module as
  | module, _ :: as => FilesIn p module as

theorem FilesIn.mono {p q : List Char → Prop} (hpq : ∀ module, p module → q module)
    {module : List Char} {as : List Atom} (h : FilesIn p module as) : FilesIn q module as := by
  induction as generalizing module with
  | nil => trivial
  | cons a as ih =>
    rcases a with ⟨code, _ | _ | name | _ | _ | _ | _⟩ | bytes
    case packet.file => exact ⟨h.1.imp_right (hpq module), ih h.2⟩
    all_goals exact ih h

theorem FilesIn.of_noFiles {p : List Char → Prop} (module : List Char) {as : List Atom}
    (h : ∀ code name, Atom.packet code (.file name) ∉ as) : FilesIn p module as := by
  induction as generalizing module with
  | nil => trivial
  | cons a as ih =>
    have htail : ∀ code name, Atom.packet code (.file name) ∉ as := fun code name hmem =>
      h code name (List.mem_cons_of_mem _ hmem)
    rcases a with ⟨code, _ | _ | name | _ | _ | _ | _⟩ | bytes
    case packet.file => exact absurd List.mem_cons_self (h code name)
    all_goals exact ih _ htail

/-- The reader takes the name in every packet that has one. -/
def TakesNames (cfg : Config) : List Char → List Atom → Prop :=
  FilesIn fun module => shouldExtract cfg module = true

namespace ThreadState

/-! ### What an atom changes -/

section Next

variable (cfg : Config) (ok : Bool) (ts : ThreadState)

@[simp] theorem addEvent_curStream (kind code : Nat) (val : Value) :
    (ts.addEvent kind code val).curStream = ts.curStream := rfl

@[simp] theorem addEvent_module (kind code : Nat) (val : Value) :
    (ts.addEvent kind code val).module = ts.module := rfl

@[simp] theorem addEvent_curType (kind code : Nat) (val : Value) :
    (ts.addEvent kind code val).curType = ts.curType := rfl

@[simp] theorem openOutput_module (filename : List Char) :
    (ts.openOutput cfg ok filename).module = ts.module := by
  cases ok <;> rfl

theorem takesName_code (code : Option UInt32) (p : Packet) :
    ts.TakesName cfg (.packet code p) ↔ ts.TakesName cfg (.packet none p) := by
  cases p <;> rfl

theorem opensFile_code (code : Option UInt32) (p : Packet) :
    ts.opensFile cfg (.packet code p) = ts.opensFile cfg (.packet none p) := by
  cases p <;> rfl

theorem yields_code (filter : Option (List Char)) (code : Option UInt32) (p : Packet) :
    ts.yields filter (.packet code p) = ts.yields filter (.packet none p) := by
  cases p <;> rfl

theorem next_streaming {a : Atom} (h : a.Allowed ts.streaming) :
    (ts.next cfg ok a).streaming = a.leavesOpen := by
  cases hstream : ts.streaming with
  | false =>
    rw [hstream] at h
    have hnone : ts.curStream = .none := by simpa [streaming] using hstream
    rcases a with ⟨code, _ | _ | name | _ | _ | _ | _⟩ | bytes
    case packet.file =>
      simp only [next, receive]
      split_ifs with hname
      · rfl
      · cases ok <;> rfl
    case chunk => exact h.elim
    all_goals simp [next, receive, streaming, Atom.leavesOpen, Packet.opensStream, hnone]
  | true =>
    rw [hstream] at h
    cases a with
    | packet code p => exact h.elim
    | chunk bytes =>
      simp only [next]
      split_ifs with hb
      · rw [hb]
        cases hs : ts.curStream <;> simp [close, streaming, hs, Atom.leavesOpen]
      · cases hs : ts.curStream <;> simp_all [streaming, Stream.write, Atom.leavesOpen]

theorem next_sound {a : Atom} (h : a.Allowed ts.streaming) (hsound : ts.Sound) :
    (ts.next cfg ok a).Sound := by
  cases hstream : ts.streaming with
  | false =>
    rw [hstream] at h
    have hnone : ts.curStream = .none := by simpa [streaming] using hstream
    rcases a with ⟨code, _ | _ | name | _ | _ | _ | _⟩ | bytes
    case packet.file =>
      simp only [next, receive]
      split_ifs with hname
      · simp [Sound, Packet.kind, cbaFile, cbaData]
      · cases ok <;> simp [Sound, Packet.kind, cbaFile, cbaData, openOutput]
    case chunk => exact h.elim
    all_goals simp [Sound, next, receive, Packet.kind, hnone]
  | true =>
    rw [hstream] at h
    cases a with
    | packet code p => exact h.elim
    | chunk bytes =>
      simp only [next]
      split_ifs with hb
      · cases hs : ts.curStream <;> simp [Sound, close, hs]
      · cases hs : ts.curStream <;> simp_all [Sound, Stream.write]

theorem next_filesIn {p : List Char → Prop} {a : Atom} {as : List Atom}
    (h : FilesIn p ts.module (a :: as)) : FilesIn p (ts.next cfg ok a).module as := by
  rcases a with ⟨code, _ | _ | name | _ | _ | _ | _⟩ | bytes
  case packet.file =>
    have hmodule : (ts.next cfg ok (.packet code (.file name))).module = ts.module := by
      simp only [next, receive]
      split_ifs with hname <;> simp
    rw [hmodule]
    exact h.2
  case chunk =>
    have hmodule : (ts.next cfg ok (.chunk bytes)).module = ts.module := by
      simp only [next]
      split_ifs with hb
      · cases hs : ts.curStream <;> simp [close, hs]
      · rfl
    rw [hmodule]
    exact h
  all_goals exact h

theorem takesName_of_cons {cfg : Config} {ts : ThreadState} {a : Atom} {as : List Atom}
    (h : TakesNames cfg ts.module (a :: as)) : ts.TakesName cfg a := by
  rcases a with ⟨code, _ | _ | name | _ | _ | _ | _⟩ | bytes
  case packet.file => exact h.1
  all_goals trivial

end Next

end ThreadState

end Cscan.Cba
