import Cscan.Lib.Buffer
import Cscan.Lib.Trace
import Cscan.Modules.Frame

/-! The loops of `ts.c` and `socket_utils.c` that transfer a whole message, on the buffer itself: what a read stores
and a write takes is at the offset that the loop has counted. -/

namespace Cscan.Modules.Transfer

open Cscan.Lib

/-- The variables of a loop, which has ended once it is left. `ret` is what `read` or `write` has returned last. -/
structure Progress where
  buffer : List UInt8
  count : Nat := 0
  ended : Bool := false
  ret : Int := 0
deriving DecidableEq

def Progress.stop (p : Progress) : Progress := { p with ended := true }

/-- `return count<size ? 0 : 1`. -/
def Progress.result (p : Progress) (size : Nat) : Int := if p.count < size then 0 else 1

section Loops

variable {L : Type}

/-- So many turns of a loop at most. -/
def turns (turn : Progress → M L Progress) : Nat → Progress → M L Progress
  | 0, p => pure p
  | n + 1, p => do
    let p ← turn p
    if p.ended then pure p else turns turn n p

/-- The buffer with `bytes` at `offset`. -/
def place (buffer : List UInt8) (offset : Nat) (bytes : List UInt8) : M L (List UInt8) :=
  match store buffer offset bytes with
  | some buffer => pure buffer
  | none => throw .overrun

/-- The bytes of the buffer that are left. -/
def rest (p : Progress) (size : Nat) : M L (List UInt8) :=
  if p.buffer.length < size then throw .overrun else pure ((p.buffer.drop p.count).take (size - p.count))

/-- `ret = read(fd, buffer+count, size-count)`, and what is done with it. -/
def receive (fd : Int) (size : Nat) (p : Progress) : M L Progress := do
  match ← read fd (size - p.count) with
  | .error _ => pure { p with ended := true, ret := -1 }
  | .ok bytes =>
    let buffer ← place p.buffer p.count bytes
    let ret := (bytes.length : Int).bmod (2 ^ 32)
    if ret ≤ 0 then pure { p with buffer := buffer, ended := true, ret := ret }
    else pure { p with buffer := buffer, count := p.count + ret.toNat, ret := ret }

/-- `ret = write(fd, buffer+count, size-count)`, and what is done with it. -/
def transmit (fd : Int) (size : Nat) (p : Progress) : M L Progress := do
  let left ← rest p size
  match ← write fd left with
  | .error _ => pure { p with ended := true, ret := -1 }
  | .ok written =>
    let ret := (written : Int).bmod (2 ^ 32)
    if ret ≤ 0 then pure { p with ended := true, ret := ret }
    else pure { p with count := p.count + ret.toNat, ret := ret }

/-- The loop goes on if the socket gets ready. -/
def waitTurn (deadline : Int) (wantWrite : Bool) (p : Progress) : M L Progress := do
  if ← tsWait deadline wantWrite then pure p else pure p.stop

/-- A turn of the loop of `ts_read_all`. The library returns no more bytes than it is asked for. -/
def tsReadTurn (ssl : Bool) (fd : Int) (size : Nat) (deadline : Int) (p : Progress) : M L Progress := do
  if size ≤ p.count then pure p.stop
  else if ssl then
    match ← mbedtls (.sslRead (size - p.count)) World.sslRead with
    | .failed => pure p.stop
    | .wantRead => waitTurn deadline false p
    | .wantWrite => waitTurn deadline true p
    | .ok bytes =>
      let bytes := bytes.take (size - p.count)
      if bytes = [] then pure p.stop
      else
        let buffer ← place p.buffer p.count bytes
        pure { p with buffer := buffer, count := p.count + bytes.length }
  else if ← tsWait deadline false then receive fd size p
  else pure p.stop

def tsReadAll (n : Nat) (buffer : List UInt8) (size : Nat) (deadline : Int) : M L Progress := do
  let ts ← getTs
  let w ← getWorld
  turns (tsReadTurn (w.haveTls && ts.isSsl) ts.fd size deadline) n { buffer := buffer }

/-- A turn of the loop of `ts_write_all`. -/
def tsWriteTurn (ssl : Bool) (fd : Int) (size : Nat) (deadline : Int) (p : Progress) : M L Progress := do
  if size ≤ p.count then pure p.stop
  else if ssl then
    let left ← rest p size
    match ← mbedtls (.sslWrite left) World.sslWrite with
    | .failed => pure p.stop
    | .wantRead => waitTurn deadline false p
    | .wantWrite => waitTurn deadline true p
    | .ok written =>
      let written := min left.length written
      if written = 0 then pure p.stop else pure { p with count := p.count + written }
  else if ← tsWait deadline true then transmit fd size p
  else pure p.stop

def tsWriteAll (n : Nat) (buffer : List UInt8) (size : Nat) (deadline : Int) : M L Progress := do
  let ts ← getTs
  let w ← getWorld
  turns (tsWriteTurn (w.haveTls && ts.isSsl) ts.fd size deadline) n { buffer := buffer }

/-- A turn of the loop of `read_all`. -/
def readTurn (sock : Int) (size : Nat) (deadline : Int) (p : Progress) : M L Progress := do
  if size ≤ p.count then pure p.stop
  else
    let now ← ask .getMs World.getMs
    if towait deadline now ≤ 0 then pure p.stop
    else
      let (ret, revents) ← ask (.poll sock false ((towait deadline now).bmod (2 ^ 32))) World.poll
      if ret ≠ 1 ∨ ¬ revents then pure p.stop else receive sock size p

def readAll (n : Nat) (sock : Int) (buffer : List UInt8) (size : Nat) (deadline : Int) : M L Progress :=
  turns (readTurn sock size deadline) n { buffer := buffer }

/-- A turn of the loop of `write_all`. -/
def writeTurn (fd : Int) (len : Nat) (p : Progress) : M L Progress :=
  if len ≤ p.count then pure p.stop else transmit fd len p

def writeAll (n : Nat) (fd : Int) (buffer : List UInt8) (len : Nat) : M L Progress :=
  turns (writeTurn fd len) n { buffer := buffer }

/-- What `write_all` returns. -/
def writeAllResult (p : Progress) (len : Nat) : Int := if p.count < len then p.ret else len

end Loops

/-! ### What the kernel and the library answer -/

/-- The result of a call of the library behind `history`, unless it does not come to an end. -/
def callResult {α : Type} (w : World) (fd : Int) : TlsCall α → List Event → Option (TlsResult α)
  | .done r, _ => some r
  | .recv len next, history =>
    let history := history ++ [.read fd len]
    callResult w fd (next ((w.reads history len).mapError IoErrno.code)) history
  | .send bytes next, history =>
    let history := history ++ [.write fd bytes]
    callResult w fd (next (((w.write history).map (min bytes.length)).mapError IoErrno.code)) history
  | .pending, _ => none

/-- What comes of a transfer: bytes that were moved, or that it is too early, or that there will be no more. -/
inductive Answer
  | moved (bytes : List UInt8)
  | want
  | stop
deriving DecidableEq

def Answer.ofBytes (bytes : List UInt8) : Answer := if bytes = [] then .stop else .moved bytes

def Answer.ofResult {α : Type} (moved : α → List UInt8) : TlsResult α → Answer
  | .ok a => .ofBytes (moved a)
  | .wantRead => .want
  | .wantWrite => .want
  | .failed => .stop

/-- The answer to a transfer of the message, on a plain socket by the kernel, and with TLS by the library. -/
def answer (w : World) (fd : Int) (ssl : Bool) (history : List Event) : Event → Option Answer
  | .read _ size =>
    if ssl then none else some (.ofBytes ((w.reads history size).toOption.getD []))
  | .write _ bytes => if ssl then none else some (.ofBytes (bytes.take ((w.write history).toOption.getD 0)))
  | .sslRead size =>
    if ssl then (callResult w fd (w.sslRead history) history).map (.ofResult (List.take size)) else none
  | .sslWrite bytes =>
    if ssl then (callResult w fd (w.sslWrite history) history).map (.ofResult fun n => bytes.take n) else none
  | _ => none

def movedBy : Option Answer → List UInt8
  | some (.moved bytes) => bytes
  | _ => []

def wantedBy : Option Answer → List Unit
  | some .want => [()]
  | _ => []

section Answers

variable (w : World) (ts : Tsocket) (ssl : Bool)

/-- The bytes that were received or transmitted. -/
def moved (before es : List Event) : List UInt8 :=
  along (fun history e => movedBy (answer w ts.fd ssl history e)) before es

/-- The times that the library wanted to be called again. -/
def wants (before es : List Event) : List Unit :=
  along (fun history e => wantedBy (answer w ts.fd ssl history e)) before es

/-- Every transfer moved something or may be tried again. -/
def GoesOn (before es : List Event) : Prop :=
  Each (fun history e => answer w ts.fd ssl history e ≠ some .stop) before es

/-- A reading of the clock or a poll after which a wait does not fail. -/
def Ready (deadline : Int) (history : List Event) : Event → Prop
  | .getMs => 0 < towait deadline (w.getMs history)
  | .poll _ _ _ => w.poll history = (1, true)
  | _ => True

/-- Every wait was successful. -/
def Waits (deadline : Int) (before es : List Event) : Prop := Each (Ready w deadline) before es

/-- The transfers on a plain socket come right behind a reading of the clock that is before the deadline and a
successful poll, since `start`. -/
def Guarded (deadline : Int) (wantWrite : Bool) (start history : List Event) (e : Event) : Prop :=
  (∃ fd size, e = .read fd size) ∨ (∃ fd bytes, e = .write fd bytes) →
    ∃ earlier timeout, start <+: earlier ∧
      history = earlier ++ [.getMs, .poll ts.psFd wantWrite timeout, e] ∧
      (w.getMs (earlier ++ [.getMs]) : Int) < deadline ∧
      w.poll (earlier ++ [.getMs, .poll ts.psFd wantWrite timeout]) = (1, true)

end Answers

/-! ### Runs of the loops -/

section Runs

variable {L : Type} {w : World} {ts : Tsocket} {ssl : Bool} {size : Nat} {deadline : Int}
  {effect : Progress → List UInt8 → Progress → Prop} {guard : List Event → List Event → Event → Prop}
  {wait : List Event → Event → Prop} {before es es' : List Event} {p p' p'' : Progress} {n : Nat}

/-- What `n` turns do: `effect` is what the bytes that were moved are for the buffer, and the loop ends only with all
bytes, by an answer, or because of a wait. -/
structure Transferred (w : World) (ts : Tsocket) (ssl : Bool) (size : Nat)
    (effect : Progress → List UInt8 → Progress → Prop) (guard : List Event → List Event → Event → Prop)
    (wait : List Event → Event → Prop) (n : Nat) (before es : List Event) (p p' : Progress) : Prop where
  effect : effect p (moved w ts ssl before es) p'
  going : p'.ended = false → n ≤ (moved w ts ssl before es).length + (wants w ts ssl before es).length
  ended : p'.ended = true → size ≤ p'.count ∨ ¬ GoesOn w ts ssl before es ∨ ¬ Each wait before es
  guarded : Each (guard before) before es

/-- Effects of one turn after the other, on a buffer that has room for the message. -/
structure Composes (size : Nat) (effect : Progress → List UInt8 → Progress → Prop) : Prop where
  refl : ∀ {p}, p.ended = false → p.count ≤ size → effect p [] p
  trans : ∀ {p p' p'' bytes bytes'}, effect p bytes p' → effect p' bytes' p'' → effect p (bytes ++ bytes') p''
  le : ∀ {p p' bytes}, effect p bytes p' → p'.count ≤ size
  length : ∀ {p p' bytes}, effect p bytes p' → p'.buffer.length = p.buffer.length

/-- A guard that looks no further back than to the start. -/
def Extends (guard : List Event → List Event → Event → Prop) : Prop :=
  ∀ {start start' history e}, start <+: start' → guard start' history e → guard start history e

/-- A program that transfers in `n` turns, unless the library does not return. -/
def Transfers (w : World) (ts : Tsocket) (ssl : Bool) (size : Nat)
    (effect : Progress → List UInt8 → Progress → Prop) (guard : List Event → List Event → Event → Prop)
    (wait : List Event → Event → Prop) (n : Nat) (x : Progress → M L Progress) : Prop :=
  ∀ s p, s.world = w → s.ts = ts → p.ended = false → p.count ≤ size → size ≤ p.buffer.length →
    (∃ es p', x p s = .ok p' { s with trace := s.trace ++ es } ∧
      Transferred w ts ssl size effect guard wait n s.trace es p p') ∨
    (ssl = true ∧ ∃ es, x p s = .error .pending { s with trace := s.trace ++ es })

theorem Transferred.append (h : Transferred w ts ssl size effect guard wait 1 before es p p')
    (h' : Transferred w ts ssl size effect guard wait n (before ++ es) es' p' p'')
    (hcomposes : Composes size effect)
    (hextends : Extends guard) (hgoing : p'.ended = false) :
    Transferred w ts ssl size effect guard wait (n + 1) before (es ++ es') p p'' where
  effect := by
    rw [moved, along_append]
    exact hcomposes.trans h.effect h'.effect
  going := by
    intro hended
    have hfirst := h.going hgoing
    have hrest := h'.going hended
    rw [moved, wants, along_append, along_append, List.length_append, List.length_append]
    unfold moved wants at hfirst hrest
    omega
  ended := by
    intro hended
    rcases h'.ended hended with hall | hstop | hfails
    · exact Or.inl hall
    · exact Or.inr (Or.inl fun h => hstop (each_append.mp h).2)
    · exact Or.inr (Or.inr fun h => hfails (each_append.mp h).2)
  guarded := each_append.mpr
    ⟨h.guarded, h'.guarded.imp fun _ _ => hextends (List.prefix_append before es)⟩

/-- Turns that transfer make a loop that does. -/
theorem Transfers.turns {turn : Progress → M L Progress} (h : Transfers w ts ssl size effect guard wait 1 turn)
    (hcomposes : Composes size effect) (hextends : Extends guard) (n : Nat) :
    Transfers w ts ssl size effect guard wait n (turns turn n) := by
  induction n with
  | zero =>
    intro s p hw hts hended hle _
    refine Or.inl ⟨[], p, by rw [List.append_nil]; rfl, hcomposes.refl hended hle,
      fun _ => Nat.zero_le _, ?_, trivial⟩
    rw [hended]
    exact fun h => absurd h Bool.false_ne_true
  | succ n ih =>
    intro s p hw hts hended hle hroom
    rcases h s p hw hts hended hle hroom with ⟨es, p', hturn, hone⟩ | ⟨hssl, es, hturn⟩
    · cases hended' : p'.ended with
      | true =>
        refine Or.inl ⟨es, p', ?_, hone.effect, ?_, hone.ended, hone.guarded⟩
        · rw [Transfer.turns, bind_ok hturn, if_pos hended']
          rfl
        · rw [hended']
          exact fun h => absurd h.symm Bool.false_ne_true
      | false =>
        have hrun : Transfer.turns turn (n + 1) p s =
            Transfer.turns turn n p' { s with trace := s.trace ++ es } := by
          rw [Transfer.turns, bind_ok hturn, if_neg (by rw [hended']; exact Bool.false_ne_true)]
        rw [hrun]
        rcases ih { s with trace := s.trace ++ es } p' hw hts hended' (hcomposes.le hone.effect)
          (by rw [hcomposes.length hone.effect]; exact hroom) with ⟨es', p'', hloop, hmore⟩ | ⟨hssl, es', hloop⟩
        · refine Or.inl ⟨es ++ es', p'', ?_, hone.append hmore hcomposes hextends hended'⟩
          rw [hloop, List.append_assoc]
        · refine Or.inr ⟨hssl, es ++ es', ?_⟩
          rw [hloop, List.append_assoc]
    · refine Or.inr ⟨hssl, es, ?_⟩
      rw [Transfer.turns, bind_error hturn]

end Runs

/-! ### What is asked between the transfers -/

section Quiet

variable {L : Type} {w : World} {ts : Tsocket} {ssl : Bool} {deadline : Int} {before es : List Event} {e : Event}

/-- Events that transfer nothing of the message. -/
def Quiet (ssl : Bool) (es : List Event) : Prop := ∀ e ∈ es, ∀ w fd history, answer w fd ssl history e = none

theorem quiet_nil : Quiet ssl [] := fun _ he => by cases he

theorem moved_quiet (hes : Quiet ssl es) : moved w ts ssl before es = [] :=
  along_eq_nil fun e he history => congrArg movedBy (hes e he w ts.fd history)

theorem wants_quiet (hes : Quiet ssl es) : wants w ts ssl before es = [] :=
  along_eq_nil fun e he history => congrArg wantedBy (hes e he w ts.fd history)

theorem moved_cons (hes : Quiet ssl es) :
    moved w ts ssl before (e :: es) = movedBy (answer w ts.fd ssl (before ++ [e]) e) := by
  have hnil : moved w ts ssl (before ++ [e]) es = [] := moved_quiet hes
  exact (congrArg _ hnil).trans (List.append_nil _)

theorem wants_cons (hes : Quiet ssl es) :
    wants w ts ssl before (e :: es) = wantedBy (answer w ts.fd ssl (before ++ [e]) e) := by
  have hnil : wants w ts ssl (before ++ [e]) es = [] := wants_quiet hes
  exact (congrArg _ hnil).trans (List.append_nil _)

/-- A call of the library ends with its result, and asks for no transfers of the message in between. -/
theorem runTls_eq {α : Type} (call : TlsCall α) (s : State) : ∃ es, Quiet true es ∧
    (runTls call : M L (TlsResult α)) s =
      match callResult s.world s.ts.fd call s.trace with
      | some r => .ok r { s with trace := s.trace ++ es }
      | none => .error .pending { s with trace := s.trace ++ es } := by
  induction call generalizing s with
  | done r => exact ⟨[], quiet_nil, by rw [List.append_nil]; rfl⟩
  | recv len next ih =>
    obtain ⟨es, hes, hrun⟩ := ih ((s.world.reads (s.trace ++ [.read s.ts.fd len]) len).mapError IoErrno.code)
      (s.event (.read s.ts.fd len))
    refine ⟨.read s.ts.fd len :: es, ?_, ?_⟩
    · exact List.forall_mem_cons.mpr ⟨fun _ _ _ => rfl, hes⟩
    · rw [List.append_cons]
      exact hrun
  | send bytes next ih =>
    obtain ⟨es, hes, hrun⟩ := ih (((s.world.write (s.trace ++ [.write s.ts.fd bytes])).map
      (min bytes.length)).mapError IoErrno.code) (s.event (.write s.ts.fd bytes))
    refine ⟨.write s.ts.fd bytes :: es, ?_, ?_⟩
    · exact List.forall_mem_cons.mpr ⟨fun _ _ _ => rfl, hes⟩
    · rw [List.append_cons]
      exact hrun
  | pending => exact ⟨[], quiet_nil, by rw [List.append_nil]; rfl⟩

theorem mbedtls_eq {α : Type} (e : Event) (call : World → List Event → TlsCall α) {s : State}
    (hctx : s.ts.ctx = true) : ∃ es, Quiet true es ∧
    (mbedtls e call : M L (TlsResult α)) s =
      match callResult s.world s.ts.fd (call s.world (s.trace ++ [e])) (s.trace ++ [e]) with
      | some r => .ok r { s with trace := s.trace ++ e :: es }
      | none => .error .pending { s with trace := s.trace ++ e :: es } := by
  obtain ⟨es, hes, hrun⟩ := runTls_eq (call s.world (s.trace ++ [e])) (s.event e)
  refine ⟨es, hes, ?_⟩
  have hask : (mbedtls e call : M L (TlsResult α)) s = runTls (call s.world (s.trace ++ [e])) (s.event e) := by
    show (if s.ts.ctx = true then _ else _ : M L (TlsResult α)) s = _
    rw [if_pos hctx]
    rfl
  have hcons : s.trace ++ e :: es = s.trace ++ [e] ++ es := List.append_cons s.trace e es
  rw [hask, hrun, hcons]
  rfl

/-- The events of a wait, and whether it was successful. -/
theorem tsWait_eq (ssl : Bool) (deadline : Int) (wantWrite : Bool) (s : State) : ∃ ready es, Quiet ssl es ∧
    (tsWait deadline wantWrite : M L Bool) s = .ok ready { s with trace := s.trace ++ es } ∧
    (ready = false → ¬ Waits s.world deadline s.trace es) ∧
    (ready = true → ∃ timeout, es = [.getMs, .poll s.ts.psFd wantWrite timeout] ∧
      0 < towait deadline (s.world.getMs (s.trace ++ [.getMs])) ∧
      s.world.poll (s.trace ++ es) = (1, true)) := by
  obtain ⟨left, hleft⟩ : ∃ left, left = towait deadline (s.world.getMs (s.trace ++ [.getMs])) := ⟨_, rfl⟩
  have hrun : (tsWait deadline wantWrite : M L Bool) s =
      (if left ≤ 0 then pure false else do
        let (ret, revents) ← ask (.poll s.ts.psFd wantWrite (left.bmod (2 ^ 32))) World.poll
        pure (ret = 1 && revents)) (s.event .getMs) := by
    rw [hleft]
    rfl
  rw [← hleft]
  by_cases hlate : left ≤ 0
  · rw [if_pos hlate] at hrun
    refine ⟨false, [.getMs], by simp [Quiet, answer], hrun, fun _ h => ?_, by simp⟩
    have hready : 0 < towait deadline (s.world.getMs (s.trace ++ [.getMs])) := h.1
    omega
  · rw [if_neg hlate] at hrun
    generalize left.bmod (2 ^ 32) = timeout at hrun
    have hready : (tsWait deadline wantWrite : M L Bool) s =
        .ok ((s.world.poll (s.trace ++ [.getMs, .poll s.ts.psFd wantWrite timeout])).1 = 1 &&
            (s.world.poll (s.trace ++ [.getMs, .poll s.ts.psFd wantWrite timeout])).2)
          { s with trace := s.trace ++ [.getMs, .poll s.ts.psFd wantWrite timeout] } := by
      rw [hrun, List.append_cons]
      rfl
    refine ⟨_, _, ?_, hready, fun hnot hwaits => ?_, fun hpolled => ⟨timeout, rfl, not_le.mp hlate, ?_⟩⟩
    · simp [Quiet, answer]
    · have hpoll : s.world.poll (s.trace ++ [.getMs] ++ [.poll s.ts.psFd wantWrite timeout]) =
          (1, true) := hwaits.2.1
      rw [List.append_assoc] at hpoll
      rw [show s.trace ++ [Event.getMs, .poll s.ts.psFd wantWrite timeout] =
        s.trace ++ ([.getMs] ++ [.poll s.ts.psFd wantWrite timeout]) from rfl, hpoll] at hnot
      cases hnot
    · obtain ⟨hone, hrevents⟩ := (Bool.and_eq_true _ _).mp hpolled
      exact Prod.ext (of_decide_eq_true hone) hrevents

end Quiet

end Cscan.Modules.Transfer
