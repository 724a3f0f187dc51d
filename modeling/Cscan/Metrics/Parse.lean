import Cscan.Metrics.Log
import Cscan.Metrics.TimeBucket
import Cscan.Lib.Parsing

/-! The first loop of `metrics.py`, which reads the records of a file into tables. -/

namespace Cscan.Metrics

open Cscan.Lib

/-- `TVec`: the lists of the columns. -/
structure TVec (dimensions : Nat) where
  list : List (List Int) := List.replicate dimensions []
deriving DecidableEq

namespace TVec

variable {dimensions : Nat}

def addAll : List (List Int) → List Int → List (List Int)
  | column :: columns, arg :: args => (column ++ [arg]) :: addAll columns args
  | columns, _ => columns

def add (v : TVec dimensions) (args : List Int) : TVec dimensions := ⟨addAll v.list args⟩

/-- The lists that hold these rows. -/
def ofRows (dimensions : Nat) (rows : List (List Int)) : TVec dimensions :=
  ⟨(List.range dimensions).map fun i => rows.map fun row => row.getD i 0⟩

theorem getElem?_addAll (columns : List (List Int)) (args : List Int) (i : Nat) :
    (addAll columns args)[i]? = columns[i]?.map fun column => column ++ args[i]?.toList := by
  fun_induction addAll columns args generalizing i with
  | case1 column columns arg args ih =>
    cases i with
    | zero => rfl
    | succ i => exact ih i
  | case2 columns args hend =>
    cases columns with
    | nil => rfl
    | cons column columns =>
      cases args with
      | nil => simp
      | cons arg args => exact absurd rfl (hend column columns arg args rfl)

theorem ofRows_nil : ofRows dimensions [] = {} := by
  have hnil : (List.range dimensions).map (fun i => ([] : List (List Int)).map fun row => row.getD i 0) =
      List.replicate dimensions [] := by
    rw [List.map_congr_left fun i _ => List.map_nil, List.map_const', List.length_range]
  exact congrArg TVec.mk hnil

theorem ofRows_add {rows : List (List Int)} {row : List Int} (hrow : row.length = dimensions) :
    (ofRows dimensions rows).add row = ofRows dimensions (rows ++ [row]) := by
  refine congrArg TVec.mk (List.ext_getElem? fun i => ?_)
  rw [getElem?_addAll, ofRows, List.getElem?_map, List.getElem?_map]
  by_cases hi : i < dimensions
  · have hget : row[i]? = some (row.getD i 0) := by
      rw [List.getD_eq_getElem?_getD, List.getElem?_eq_getElem (by omega), Option.getD_some]
    rw [List.getElem?_range hi, hget, Option.map_some, Option.map_some, Option.map_some, List.map_append]
    rfl
  · rw [List.getElem?_eq_none (l := List.range dimensions) (by simpa using hi)]
    rfl

end TVec

/-- What the loop prints. -/
inductive Line
  | ct (ct : Int)
  | w00t (mt : UInt8) (tell : Nat)
  | wat
deriving DecidableEq

def markerEvery : Nat := 1000

/-- The variables of the script up to the end of the loop. `size` is the length of the file, and `input` what is left
of it. -/
structure Vars where
  size : Nat
  input : List UInt8
  ct : Int := 400
  mtlog : List (UInt8 × Int) := []
  packetfd : List Int := []
  epoll : TVec 3 := {}
  deltainfo : TVec 2 := {}
  sendinfo : TVec 3 := {}
  delinfo : TVec 3 := {}
  scoreinfo : TVec 3 := {}
  firstPacket : Int := 0
  lastPacket : Int := 0
  tbuckets : TimeBucket 5 := {}
  ebuckets : TimeBucket 5 := {}
  esbuckets : TimeBucket 5 := {}
  markerTimes : List Int := []
  otherSofar : Nat := 0
  scoreSofar : Nat := 0
  printed : List Line := []

abbrev M := EStateM Raised Vars

/-! ### One record -/

/-- `f.read(n)`. -/
def read (n : Nat) : M (List UInt8) := modifyGet fun s => (s.input.take n, { s with input := s.input.drop n })

/-- `struct.unpack` of what is read. -/
def unpack {α : Type} (size : Nat) (decode : List UInt8 → α) : M α := do
  let bytes ← read size
  if bytes.length = size then pure (decode bytes) else throw .struct

def decodeQ (bytes : List UInt8) : Int := ByteOrder.little.decode bytes

def decodeI (bytes : List UInt8) : Int := ByteOrder.little.decodeInt bytes

def decodePair (bytes : List UInt8) : Int × Int := (decodeI (bytes.take 4), decodeI (bytes.drop 4))

/-- `'<Q'`. -/
def unpackQ : M Int := unpack 8 decodeQ

/-- `'<i'`. -/
def unpackI : M Int := unpack 4 decodeI

/-- `'<ii'`. -/
def unpackII : M (Int × Int) := unpack 8 decodePair

/-- `'<ib'`. -/
def unpackIB : M (Int × Int) := unpack 5 decodePair

namespace Vars

/-- `time -= first_packet`, and what is done with the time of every record. -/
def stamp (s : Vars) (mt : UInt8) (time : Int) : Vars :=
  let firstPacket := if s.firstPacket = 0 then time else s.firstPacket
  let time := time - firstPacket
  { s with
    firstPacket := firstPacket
    lastPacket := if s.lastPacket < time then time else s.lastPacket
    mtlog := s.mtlog ++ [(mt, time)] }

/-- The branch of `0xe0`. -/
def packet (time fd : Int) (s : Vars) : Option Vars := do
  let tbuckets ← s.tbuckets.addEvent time 0
  let packetfd := s.packetfd ++ [fd]
  some { s with
    tbuckets := tbuckets
    packetfd := packetfd
    markerTimes := if packetfd.length % markerEvery = 0 then s.markerTimes ++ [time] else s.markerTimes }

/-- The branch of `0xe1`. -/
def epolled (time returned timeout : Int) (s : Vars) : Option Vars :=
  some { s with epoll := s.epoll.add [time, returned, timeout] }

/-- The branch of `0xe2`. -/
def ret (time delta kind : Int) (s : Vars) : Option Vars := do
  let ebuckets ← s.ebuckets.addEvent time kind
  let ebuckets ← ebuckets.addEvent time 4
  let esbuckets ← s.esbuckets.addEvent (time - delta) kind
  let esbuckets ← esbuckets.addEvent (time - delta) 4
  let scoreSofar := if 2 ≤ kind then s.scoreSofar + 1 else s.scoreSofar
  let otherSofar := if 2 ≤ kind then s.otherSofar else s.otherSofar + 1
  some { s with
    ebuckets := ebuckets
    esbuckets := esbuckets
    deltainfo := s.deltainfo.add [time - delta, delta]
    scoreSofar := scoreSofar
    otherSofar := otherSofar
    scoreinfo := s.scoreinfo.add [time, scoreSofar, otherSofar] }

/-- The branch of `0xe3`. -/
def delta (time delta : Int) (s : Vars) : Option Vars :=
  some { s with
    deltainfo := s.deltainfo.add [time - delta, delta]
    printed := if delta < s.ct then s.printed ++ [.wat] else s.printed }

/-- The branch of `0xe4`. -/
def sent (time delta sent : Int) (s : Vars) : Option Vars :=
  some { s with sendinfo := s.sendinfo.add [time - delta, delta, sent] }

/-- The branch of `0xe5`. -/
def deleted (time delta deleted : Int) (s : Vars) : Option Vars :=
  some { s with delinfo := s.delinfo.add [time - delta, delta, deleted] }

end Vars

/-- `f` may raise an `IndexError`. -/
def update (f : Vars → Option Vars) : M Unit := do
  match f (← get) with
  | some s => set s
  | none => throw .index

/-- The time of a record, from the first one on. -/
def stamp (mt : UInt8) : M Int := do
  let time ← unpackQ
  modify fun s => s.stamp mt time
  return time - (← get).firstPacket

/-- The rest of a record. -/
def fields (mt : UInt8) (time : Int) : M Unit := do
  if mt = 0xe0 then
    let fd ← unpackI
    update (Vars.packet time fd)
  else if mt = 0xe1 then
    let (returned, timeout) ← unpackII
    update (Vars.epolled time returned timeout)
  else if mt = 0xe2 then
    let (delta, kind) ← unpackIB
    update (Vars.ret time delta kind)
  else if mt = 0xe3 then
    let delta ← unpackI
    update (Vars.delta time delta)
  else if mt = 0xe4 then
    let (delta, sent) ← unpackII
    update (Vars.sent time delta sent)
  else if mt = 0xe5 then
    let (delta, deleted) ← unpackII
    update (Vars.deleted time delta deleted)

/-- The body of the `try`. -/
def record (mt : UInt8) : M Unit := do
  if mt < 0xe0 ∨ 0xe5 < mt then
    modify fun s => { s with printed := s.printed ++ [.w00t mt (s.size - s.input.length)] }
    throw .exit
  let time ← stamp mt
  fields mt time

/-- A turn of the loop, or `false` for a `break`. -/
def turn : M Bool := do
  match ← read 1 with
  | [] => pure false
  | mt :: _ => tryCatch (do record mt; pure true) fun e => if e = .struct then pure false else throw e

/-- `while True`, for so many turns at most; `true` if the loop has ended. -/
def loop : Nat → M Bool
  | 0 => pure false
  | turns + 1 => do if ← turn then loop turns else pure true

/-- The script up to the end of its first loop. -/
def parse (file : List UInt8) : EStateM.Result Raised Vars Bool :=
  (do
    let ct ← unpackI
    modify fun s => { s with ct := ct, printed := [.ct ct] }
    loop (file.length + 1) : M Bool).run { size := file.length, input := file }

/-! ### What a turn does with a record -/

/-- What a record says behind its time. -/
inductive Fields
  | packet (fd : Int)
  | epoll (returned timeout : Int)
  | ret (delta kind : Int)
  | delta (delta : Int)
  | sendinfo (delta sent : Int)
  | delinfo (delta deleted : Int)
deriving DecidableEq

structure Row where
  time : Int
  fields : Fields
deriving DecidableEq

namespace Fields

def tag : Fields → UInt8
  | packet _ => 0xe0
  | epoll _ _ => 0xe1
  | ret _ _ => 0xe2
  | delta _ => 0xe3
  | sendinfo _ _ => 0xe4
  | delinfo _ _ => 0xe5

/-- The fields with other values of the type `int`. -/
def mapInt (f : Int → Int) : Fields → Fields
  | packet fd => packet (f fd)
  | epoll returned timeout => epoll (f returned) (f timeout)
  | ret d kind => ret (f d) kind
  | .delta d => .delta (f d)
  | sendinfo d sent => sendinfo (f d) (f sent)
  | delinfo d deleted => delinfo (f d) (f deleted)

end Fields

/-- The fields that a call logs. -/
def Call.fields : Call → Fields
  | packet _ fd => .packet fd.toInt
  | epoll _ returned timeout => .epoll returned.toInt timeout.toInt
  | ret time start kind => .ret (elapsed time start).toInt kind.toInt
  | delta time start => .delta (elapsed time start).toInt
  | sendinfo time start sendCount => .sendinfo (elapsed time start).toInt sendCount.toInt
  | delinfo time start delCount => .delinfo (elapsed time start).toInt delCount.toInt

/-- What the script reads where a machine has written an `unsigned long long`. -/
def reread64 (order : ByteOrder) (n : Nat) : Int := decodeQ (order.encode 8 n)

/-- What the script reads where a machine has written an `int`. -/
def reread32 (order : ByteOrder) (n : Int) : Int := decodeI (order.encodeInt 4 n)

/-- The record of a call as the script reads it. -/
def Call.read (order : ByteOrder) (c : Call) : Row :=
  ⟨reread64 order c.time.toNat, c.fields.mapInt (reread32 order)⟩

namespace Vars

def branch (s : Vars) (time : Int) : Fields → Option Vars
  | .packet fd => s.packet time fd
  | .epoll returned timeout => s.epolled time returned timeout
  | .ret delta kind => s.ret time delta kind
  | .delta delta => s.delta time delta
  | .sendinfo delta sent => s.sent time delta sent
  | .delinfo delta deleted => s.deleted time delta deleted

/-- What the script makes of a record. -/
def handle (s : Vars) (r : Row) : Option Vars :=
  let s := s.stamp r.fields.tag r.time
  s.branch (r.time - s.firstPacket) r.fields

end Vars

def putInput (left : List UInt8) (s : Vars) : Vars := { s with input := left }

variable {order : ByteOrder} {s s' : Vars}

theorem Vars.branch_put (left : List UInt8) (s : Vars) (time : Int) (f : Fields) :
    (putInput left s).branch time f = (s.branch time f).map (putInput left) := by
  cases f with
  | packet fd =>
    simp only [branch, packet, Option.bind_eq_bind, Option.map_bind, Function.comp_def]
    rfl
  | epoll returned timeout => rfl
  | ret delta kind =>
    simp only [branch, ret, Option.bind_eq_bind, Option.map_bind, Function.comp_def]
    rfl
  | delta delta => rfl
  | sendinfo delta sent => rfl
  | delinfo delta deleted => rfl

theorem reads_read (bs : List UInt8) (s : Vars) : Reads putInput (read bs.length) s bs bs s := by
  intro tail
  show EStateM.Result.ok ((bs ++ tail).take bs.length) (putInput ((bs ++ tail).drop bs.length) s) = _
  rw [List.take_left', List.drop_left']
  · rfl
  · rfl

theorem reads_unpack {α : Type} {size : Nat} {bs : List UInt8} (hsize : bs.length = size)
    (decode : List UInt8 → α)
    (s : Vars) : Reads putInput (unpack size decode) s bs (decode bs) s := by
  subst hsize
  refine (reads_read bs s).last ?_
  rw [if_pos rfl]
  exact Reads.pure s _

/-- With too few bytes there is a `struct.error`, and nothing is left of them. -/
theorem unpack_short {α : Type} {size : Nat} {bs : List UInt8} (hsize : bs.length < size)
    (decode : List UInt8 → α)
    (s : Vars) : unpack size decode (putInput bs s) = .error .struct (putInput [] s) := by
  have hread : read size (putInput bs s) = .ok bs (putInput [] s) := by
    show EStateM.Result.ok (bs.take size) (putInput (bs.drop size) s) = _
    rw [List.take_of_length_le hsize.le, List.drop_of_length_le hsize.le]
  have hbind : unpack size decode (putInput bs s) = EStateM.bind (read size)
      (fun bytes => if bytes.length = size then pure (decode bytes) else throw .struct) (putInput bs s) := rfl
  rw [hbind, EStateM.bind, hread]
  dsimp only
  rw [if_neg hsize.ne]
  rfl

theorem reads_update {f : Vars → Option Vars} (hput : ∀ left s, f (putInput left s) = (f s).map (putInput left))
    (h : f s = some s') : Reads putInput (update f) s [] () s' := by
  intro tail
  show (match f (putInput tail s) with
    | some s => EStateM.set s
    | none => EStateM.throw Raised.index) (putInput tail s) = _
  rw [hput, h]
  rfl

theorem fails_update {f : Vars → Option Vars} (hput : ∀ left s, f (putInput left s) = (f s).map (putInput left))
    (h : f s = none) : Fails putInput (update f) s [] .index s := by
  intro tail
  refine ⟨tail, ?_⟩
  show (match f (putInput tail s) with
    | some s => EStateM.set s
    | none => EStateM.throw Raised.index) (putInput tail s) = _
  rw [hput, h]
  rfl

/-- What a call writes behind the time. -/
def Call.payload (order : ByteOrder) : Call → List UInt8
  | packet _ fd => word32 order fd
  | epoll _ returned timeout => word32 order returned ++ word32 order timeout
  | ret time start kind => word32 order (elapsed time start) ++ word8 order kind
  | delta time start => word32 order (elapsed time start)
  | sendinfo time start sendCount => word32 order (elapsed time start) ++ word32 order sendCount
  | delinfo time start delCount => word32 order (elapsed time start) ++ word32 order delCount

theorem Call.bytes_eq (order : ByteOrder) (c : Call) :
    c.bytes order = c.fields.tag :: (word64 order c.time ++ c.payload order) := by
  cases c <;> rfl

theorem decodePair_word32 (order : ByteOrder) (n : Int32) (rest : List UInt8) :
    decodePair (word32 order n ++ rest) = (reread32 order n.toInt, decodeI rest) := by
  rw [decodePair, List.take_left' (length_word32 order n), List.drop_left' (length_word32 order n)]
  rfl

/-- One byte is read as it is written. -/
theorem decodeI_word8 (order : ByteOrder) (n : Int8) : decodeI (word8 order n) = n.toInt := by
  have horder : word8 order n = ByteOrder.little.encodeInt 1 n.toInt := by
    cases order <;> rfl
  have hlow := n.le_toInt
  have hhigh := n.toInt_lt
  rw [horder, decodeI, ByteOrder.decodeInt_encodeInt (by omega) (by omega)]

/-- The state that a record leaves. -/
theorem reads_stamp (order : ByteOrder) (mt : UInt8) (time : UInt64) (s : Vars) :
    Reads putInput (stamp mt) s (word64 order time)
      (reread64 order time.toNat - (s.stamp mt (reread64 order time.toNat)).firstPacket)
      (s.stamp mt (reread64 order time.toNat)) := by
  refine (reads_unpack (length_word64 order time) decodeQ s).last fun tail => ?_
  rfl

/-- The program that reads the fields of a call: a step that takes its bytes, and one that may raise an
`IndexError`. -/
theorem fields_eq (order : ByteOrder) (c : Call) (time : Int) (s : Vars) :
    ∃ (α : Type) (x : M α) (f : α → Vars → Option Vars) (a : α),
      fields c.fields.tag time = (do update (f (← x))) ∧
      Reads putInput x s (c.payload order) a s ∧
      (∀ bs, bs.length < (c.payload order).length → x (putInput bs s) = .error .struct (putInput [] s)) ∧
      f a = fun s => s.branch time (c.fields.mapInt (reread32 order)) := by
  have hfour : ∀ bs : List UInt8, bs.length < 4 → unpackI (putInput bs s) = .error .struct (putInput [] s) :=
    fun bs hbs => unpack_short hbs decodeI s
  have height : ∀ bs : List UInt8, bs.length < 8 → unpackII (putInput bs s) = .error .struct (putInput [] s) :=
    fun bs hbs => unpack_short hbs decodePair s
  have hword : ∀ n : Int32, Reads putInput unpackI s (word32 order n) (reread32 order n.toInt) s :=
    fun n => reads_unpack (length_word32 order n) decodeI s
  have hpair : ∀ n m : Int32, Reads putInput unpackII s (word32 order n ++ word32 order m)
      (reread32 order n.toInt, reread32 order m.toInt) s := by
    intro n m
    have h := reads_unpack (show (word32 order n ++ word32 order m).length = 8 by simp) decodePair s
    rwa [decodePair_word32] at h
  cases c with
  | packet t fd =>
    exact ⟨_, unpackI, Vars.packet time, _, rfl, hword fd, by simpa [Call.payload] using hfour, rfl⟩
  | epoll t returned timeout =>
    exact ⟨_, unpackII, fun p => Vars.epolled time p.1 p.2, _, rfl, hpair returned timeout,
      by simpa [Call.payload] using height, rfl⟩
  | ret t start kind =>
    have h := reads_unpack (show (word32 order (elapsed t start) ++ word8 order kind).length = 5 by simp) decodePair s
    rw [decodePair_word32, decodeI_word8] at h
    exact ⟨_, unpackIB, fun p => Vars.ret time p.1 p.2, _, rfl, h,
      fun bs hbs => unpack_short (by simpa [Call.payload] using hbs) decodePair s, rfl⟩
  | delta t start =>
    exact ⟨_, unpackI, Vars.delta time, _, rfl, hword _, by simpa [Call.payload] using hfour, rfl⟩
  | sendinfo t start sendCount =>
    exact ⟨_, unpackII, fun p => Vars.sent time p.1 p.2, _, rfl, hpair _ sendCount,
      by simpa [Call.payload] using height, rfl⟩
  | delinfo t start delCount =>
    exact ⟨_, unpackII, fun p => Vars.deleted time p.1 p.2, _, rfl, hpair _ delCount,
      by simpa [Call.payload] using height, rfl⟩

theorem record_eq (c : Call) :
    record c.fields.tag = (do
      let time ← stamp c.fields.tag
      fields c.fields.tag time) := by
  have htag : ¬ (c.fields.tag < 0xe0 ∨ 0xe5 < c.fields.tag) := by
    cases c <;> simp [Call.fields, Fields.tag]
  rw [record, if_neg htag]

theorem Vars.handle_read (order : ByteOrder) (c : Call) (s : Vars) :
    s.handle (c.read order) = (s.stamp c.fields.tag (reread64 order c.time.toNat)).branch
      (reread64 order c.time.toNat - (s.stamp c.fields.tag (reread64 order c.time.toNat)).firstPacket)
      (c.fields.mapInt (reread32 order)) := by
  have htag : (c.fields.mapInt (reread32 order)).tag = c.fields.tag := by
    cases c <;> rfl
  rw [handle, Call.read, htag]

theorem reads_record {c : Call} (h : s.handle (c.read order) = some s') :
    Reads putInput (record c.fields.tag) s (word64 order c.time ++ c.payload order) () s' := by
  rw [Vars.handle_read] at h
  rw [record_eq]
  refine (reads_stamp order c.fields.tag c.time s).bind ?_
  obtain ⟨α, x, f, a, hfields, hx, -, hf⟩ := fields_eq order c
    (reread64 order c.time.toNat - (s.stamp c.fields.tag (reread64 order c.time.toNat)).firstPacket)
    (s.stamp c.fields.tag (reread64 order c.time.toNat))
  rw [hfields]
  refine hx.last (reads_update (fun left s => ?_) ?_)
  · rw [hf]
    exact s.branch_put left _ _
  · rw [hf]
    exact h

theorem fails_record {c : Call} (h : s.handle (c.read order) = none) :
    ∃ s', Fails putInput (record c.fields.tag) s (word64 order c.time ++ c.payload order) .index s' := by
  rw [Vars.handle_read] at h
  refine ⟨s.stamp c.fields.tag (reread64 order c.time.toNat), ?_⟩
  rw [record_eq]
  refine (reads_stamp order c.fields.tag c.time s).fails ?_
  obtain ⟨α, x, f, a, hfields, hx, -, hf⟩ := fields_eq order c
    (reread64 order c.time.toNat - (s.stamp c.fields.tag (reread64 order c.time.toNat)).firstPacket)
    (s.stamp c.fields.tag (reread64 order c.time.toNat))
  rw [hfields]
  refine hx.fails_last (fails_update (fun left s => ?_) ?_)
  · rw [hf]
    exact s.branch_put left _ _
  · rw [hf]
    exact h

theorem turn_cons (mt : UInt8) (rest : List UInt8) (s : Vars) :
    turn (putInput (mt :: rest) s) =
      match record mt (putInput rest s) with
      | .ok _ s => .ok true s
      | .error e s => if e = .struct then .ok false s else .error e s := by
  show EStateM.tryCatch (EStateM.bind (record mt) fun _ => EStateM.pure true) _ (putInput rest s) = _
  unfold EStateM.tryCatch EStateM.bind
  cases record mt (putInput rest s) with
  | ok _ s => rfl
  | error e s =>
    dsimp only
    split_ifs with he
    · rfl
    · rfl

/-- A complete record. -/
theorem turn_record {c : Call} (h : s.handle (c.read order) = some s') (tail : List UInt8) :
    turn (putInput (c.bytes order ++ tail) s) = .ok true (putInput tail s') := by
  rw [c.bytes_eq, List.cons_append, turn_cons, reads_record h tail]

theorem turn_raises {c : Call} (h : s.handle (c.read order) = none) (tail : List UInt8) :
    ∃ s', turn (putInput (c.bytes order ++ tail) s) = .error .index s' := by
  obtain ⟨s', hfails⟩ := fails_record h
  obtain ⟨left, herror⟩ := hfails tail
  refine ⟨putInput left s', ?_⟩
  rw [c.bytes_eq, List.cons_append, turn_cons, herror]
  rfl

theorem turn_nil (s : Vars) : turn (putInput [] s) = .ok false (putInput [] s) := rfl

/-- A record that ends in its time leaves nothing. -/
theorem turn_torn {c : Call} {n : Nat} (hpos : 0 < n) (hlt : n < 9) (s : Vars) :
    turn (putInput ((c.bytes order).take n) s) = .ok false (putInput [] s) := by
  obtain ⟨n, rfl⟩ : ∃ m, n = m + 1 := ⟨n - 1, by omega⟩
  have hshort : (word64 order c.time ++ c.payload order).take n = (word64 order c.time).take n := by
    rw [List.take_append_of_le_length (by rw [length_word64]; omega)]
  have hstamp : stamp c.fields.tag (putInput ((word64 order c.time).take n) s) =
      .error .struct (putInput [] s) := by
    have hlength : ((word64 order c.time).take n).length < 8 := by
      rw [List.length_take, length_word64]
      omega
    have h := unpack_short hlength decodeQ s
    show EStateM.bind unpackQ _ _ = _
    rw [EStateM.bind, unpackQ, h]
  have hrecord : record c.fields.tag (putInput ((word64 order c.time).take n) s) =
      .error .struct (putInput [] s) := by
    rw [record_eq]
    show EStateM.bind (stamp c.fields.tag) _ _ = _
    rw [EStateM.bind, hstamp]
  rw [c.bytes_eq, List.take_succ_cons, hshort, turn_cons, hrecord]
  rfl

/-- Of a record that ends behind its time there is an entry in `mtlog`. -/
theorem turn_cut {c : Call} {n : Nat} (hle : 9 ≤ n) (hlt : n < c.size) (s : Vars) :
    turn (putInput ((c.bytes order).take n) s) =
      .ok false (putInput [] (s.stamp c.fields.tag (reread64 order c.time.toNat))) := by
  obtain ⟨n, rfl⟩ : ∃ m, n = m + 1 := ⟨n - 1, by omega⟩
  have hlength := c.length_bytes order
  have hpayload : 9 + (c.payload order).length = c.size := by
    rw [c.bytes_eq, List.length_cons, List.length_append, length_word64] at hlength
    omega
  have hlong : (word64 order c.time ++ c.payload order).take n =
      word64 order c.time ++ (c.payload order).take (n - 8) := by
    rw [List.take_append, length_word64, List.take_of_length_le (by rw [length_word64]; omega)]
  obtain ⟨α, x, f, a, hfields, -, hshort, -⟩ := fields_eq order c
    (reread64 order c.time.toNat - (s.stamp c.fields.tag (reread64 order c.time.toNat)).firstPacket)
    (s.stamp c.fields.tag (reread64 order c.time.toNat))
  have hx := hshort ((c.payload order).take (n - 8)) (by rw [List.length_take]; omega)
  have hrecord : record c.fields.tag
      (putInput (word64 order c.time ++ (c.payload order).take (n - 8)) s) =
      .error .struct (putInput [] (s.stamp c.fields.tag (reread64 order c.time.toNat))) := by
    rw [record_eq, (reads_stamp order c.fields.tag c.time s).bind_eq, hfields]
    show EStateM.bind x _ _ = _
    rw [EStateM.bind, hx]
  rw [c.bytes_eq, List.take_succ_cons, hlong, turn_cons, hrecord]
  rfl

/-! ### The whole loop -/

theorem loop_calls {calls : List Call} {s s' : Vars}
    (h : calls.foldlM (fun s c => s.handle (c.read order)) s = some s') (tail : List UInt8) (turns : Nat) :
    loop (calls.length + turns) (putInput (calls.flatMap (Call.bytes order) ++ tail) s) =
      loop turns (putInput tail s') := by
  induction calls generalizing s with
  | nil =>
    cases h
    rw [List.length_nil, Nat.zero_add, List.flatMap_nil, List.nil_append]
  | cons c calls ih =>
    rw [List.foldlM_cons] at h
    obtain ⟨t, ht, hrest⟩ := Option.bind_eq_some_iff.mp h
    rw [List.length_cons, Nat.add_right_comm, List.flatMap_cons, List.append_assoc, ← ih hrest]
    show EStateM.bind turn _ _ = _
    rw [EStateM.bind, turn_record ht]
    rfl

theorem loop_raises {calls : List Call} {s : Vars}
    (h : calls.foldlM (fun s c => s.handle (c.read order)) s = none) (tail : List UInt8) (turns : Nat) :
    ∃ s', loop (calls.length + turns) (putInput (calls.flatMap (Call.bytes order) ++ tail) s) =
      .error .index s' := by
  induction calls generalizing s with
  | nil => cases h
  | cons c calls ih =>
    rw [List.foldlM_cons] at h
    rw [List.length_cons, Nat.add_right_comm, List.flatMap_cons, List.append_assoc]
    cases hc : s.handle (c.read order) with
    | none =>
      obtain ⟨s', hs'⟩ := turn_raises hc (calls.flatMap (Call.bytes order) ++ tail)
      refine ⟨s', ?_⟩
      show EStateM.bind turn _ _ = _
      rw [EStateM.bind, hs']
    | some t =>
      rw [hc] at h
      obtain ⟨s', hs'⟩ := ih h
      refine ⟨s', ?_⟩
      rw [← hs']
      show EStateM.bind turn _ _ = _
      rw [EStateM.bind, turn_record hc]
      rfl

theorem loop_break {turns : Nat} (h : turn s = .ok false s') : loop (turns + 1) s = .ok true s' := by
  show EStateM.bind turn _ _ = _
  rw [EStateM.bind, h]
  rfl

/-- The variables behind the header. -/
def Vars.start (size : Nat) (ct : Int) : Vars := { size := size, input := [], ct := ct, printed := [.ct ct] }

theorem parse_eq (order : ByteOrder) (connectTimeout : Int32) (records : List UInt8) :
    parse (word32 order connectTimeout ++ records) = loop (records.length + 5)
      (putInput records (.start (records.length + 4) (reread32 order connectTimeout.toInt))) := by
  have hlength : (word32 order connectTimeout ++ records).length = records.length + 4 := by
    rw [List.length_append, length_word32, Nat.add_comm]
  have h := (reads_unpack (length_word32 order connectTimeout) decodeI
    { size := records.length + 4, input := [] }).bind_eq (fun ct => do
      modify fun s => { s with ct := ct, printed := [.ct ct] }
      loop (records.length + 5)) records
  rw [parse, hlength]
  exact h

theorem length_le_records (order : ByteOrder) (calls : List Call) :
    calls.length ≤ (calls.flatMap (Call.bytes order)).length := by
  induction calls with
  | nil => exact Nat.zero_le _
  | cons c calls ih =>
    have hpos : 0 < c.size := by
      cases c <;> simp [Call.size]
    rw [List.flatMap_cons, List.length_append, List.length_cons, c.length_bytes]
    omega

/-- How the loop ends on the first bytes of a log, and what of them it has handled then. -/
theorem parse_take (order : ByteOrder) (connectTimeout : Int32) (calls : List Call) {n : Nat} (hn : 4 ≤ n) :
    ∃ size,
      let start := Vars.start size (reread32 order connectTimeout.toInt)
      let handled := (complete calls (n - 4)).foldlM (fun s c => s.handle (c.read order)) start
      let file := (log order connectTimeout calls).take n
      (handled = none ∧ ∃ s', parse file = .error .index s') ∨
        ∃ s', handled = some s' ∧
          ((torn calls (n - 4) < 9 ∧ parse file = .ok true (putInput [] s')) ∨
            (9 ≤ torn calls (n - 4) ∧ ∃ mt time, parse file = .ok true (putInput [] (s'.stamp mt time)))) := by
  obtain ⟨rest, htake, hrest⟩ := take_records order calls (n - 4)
  have hfile : (log order connectTimeout calls).take n = word32 order connectTimeout ++
      ((complete calls (n - 4)).flatMap (Call.bytes order) ++ rest) := by
    rw [log, metricsPrepare, List.take_append, length_word32, List.take_of_length_le (by simpa using hn), htake]
  have hparse := parse_eq order connectTimeout ((complete calls (n - 4)).flatMap (Call.bytes order) ++ rest)
  obtain ⟨turns, hturns⟩ : ∃ turns, ((complete calls (n - 4)).flatMap (Call.bytes order) ++ rest).length + 5 =
      (complete calls (n - 4)).length + (turns + 1) := by
    have hle := length_le_records order (complete calls (n - 4))
    rw [List.length_append]
    exact ⟨((complete calls (n - 4)).flatMap (Call.bytes order)).length + rest.length + 4 -
      (complete calls (n - 4)).length, by omega⟩
  rw [hturns] at hparse
  refine ⟨((complete calls (n - 4)).flatMap (Call.bytes order) ++ rest).length + 4, ?_⟩
  dsimp only
  rw [hfile, hparse]
  generalize Vars.start (((complete calls (n - 4)).flatMap (Call.bytes order) ++ rest).length + 4)
    (reread32 order connectTimeout.toInt) = start
  cases hhandled : (complete calls (n - 4)).foldlM (fun s c => s.handle (c.read order)) start with
  | none => exact Or.inl ⟨rfl, loop_raises hhandled rest _⟩
  | some s' =>
    refine Or.inr ⟨s', rfl, ?_⟩
    rw [loop_calls hhandled]
    rcases hrest with ⟨rfl, htorn⟩ | ⟨c, hlt, rfl⟩
    · exact Or.inl ⟨by omega, loop_break (turn_nil s')⟩
    rcases Nat.eq_zero_or_pos (torn calls (n - 4)) with htorn | hpos
    · rw [htorn, List.take_zero]
      exact Or.inl ⟨by omega, loop_break (turn_nil s')⟩
    rcases Nat.lt_or_ge (torn calls (n - 4)) 9 with hshort | hlong
    · exact Or.inl ⟨hshort, loop_break (turn_torn hpos hshort s')⟩
    · exact Or.inr ⟨hlong, _, _, loop_break (turn_cut hlong hlt s')⟩

end Cscan.Metrics
