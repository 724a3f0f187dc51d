import Cscan.Modules.Turns

/-! Whole messages: the loops from their beginning on, and the loops of the modules, which are these. -/

namespace Cscan.Modules.Transfer

open Cscan.Lib

section Messages

variable {L : Type} {s s' : State} {w : World} {ts : Tsocket} {ssl : Bool} {size n n' : Nat}
  {deadline deadline' : Int} {buffer bytes data : List UInt8} {before es es' : List Event} {p p' : Progress}

def tls (s : State) : Bool := s.world.haveTls && s.ts.isSsl

/-- The deadline is an `unsigned long long`, the times are those of a `long`, and a socket with TLS has its context. -/
structure Fit (s : State) (deadline : Int) : Prop where
  deadline : 0 ≤ deadline ∧ deadline < 2 ^ 64
  clock : ∀ history, s.world.getMs history < 2 ^ 63
  ctx : tls s = true → s.ts.ctx = true

/-- The buffer has `bytes` in it, and is as it was behind them. -/
structure Received (buffer : List UInt8) (size : Nat) (bytes : List UInt8) (p : Progress) : Prop where
  filled : p.buffer.take p.count = bytes
  back : p.buffer.drop p.count = buffer.drop p.count
  length : p.buffer.length = buffer.length
  count : p.count = bytes.length
  le : bytes.length ≤ size
  result : p.result size = 1 ↔ bytes.length = size

/-- The message begins with `bytes`, and they are all of it if `succeeds`. -/
structure Transmitted (buffer : List UInt8) (size : Nat) (succeeds : Progress → Prop) (bytes : List UInt8)
    (p : Progress) : Prop where
  kept : p.buffer = buffer
  count : p.count = bytes.length
  front : bytes <+: buffer.take size
  all : p.ended = true → (succeeds p ↔ bytes = buffer.take size)

/-- What comes of `n` turns: an outcome for the bytes that were moved, in a loop that ends when there were more turns
than bytes and answers to wait, that ends only with the whole message, by an answer that there is no more, or because
of a wait, and that waits first on a plain socket. The library need not return. -/
def Exact (ssl : Bool) (size : Nat) (guard wait : List Event → Event → Prop) (n : Nat)
    (outcome : List UInt8 → Progress → Prop) (s : State) (r : EStateM.Result (Stop L) State Progress) : Prop :=
  (∃ es p, r = .ok p { s with trace := s.trace ++ es } ∧ outcome (moved s.world s.ts ssl s.trace es) p ∧
    (size + (wants s.world s.ts ssl s.trace es).length < n → p.ended = true) ∧
    (p.ended = true → size ≤ p.count ∨ ¬ GoesOn s.world s.ts ssl s.trace es ∨ ¬ Each wait s.trace es) ∧
    Each guard s.trace es) ∨
  (ssl = true ∧ ∃ es, r = .error .pending { s with trace := s.trace ++ es })

theorem Stored.received (h : Stored size { buffer := buffer } bytes p) : Received buffer size bytes p := by
  have hcount : p.count = bytes.length := h.count.trans (Nat.zero_add _)
  have hle := h.le
  refine ⟨h.front, h.back, h.length, hcount, hcount ▸ hle, ?_⟩
  rw [Progress.result, hcount]
  split_ifs with hshort
  · exact ⟨fun h => absurd h (by decide), fun h => absurd h hshort.ne⟩
  · exact ⟨fun _ => by omega, fun _ => rfl⟩

theorem Taken.front (h : Taken size { buffer := buffer } bytes p) : bytes <+: buffer.take size := by
  have hcount : p.count = bytes.length := h.count.trans (Nat.zero_add _)
  have hbytes : bytes = buffer.take bytes.length := h.bytes
  rw [hbytes]
  exact List.take_prefix_take_left (hcount ▸ h.le)

/-- All of the message was taken iff there is nothing left of it. -/
theorem Taken.all (h : Taken size { buffer := buffer } bytes p) (hroom : size ≤ buffer.length) :
    bytes = buffer.take size ↔ ¬ p.count < size := by
  have hcount : p.count = bytes.length := h.count.trans (Nat.zero_add _)
  have hbytes : bytes = buffer.take bytes.length := h.bytes
  have hle := h.le
  constructor
  · intro hall
    have hlength := congrArg List.length hall
    rw [List.length_take] at hlength
    omega
  · intro hnone
    rw [hbytes, ← hcount, show p.count = size by omega]

theorem Taken.transmitted (h : Taken size { buffer := buffer } bytes p) (hroom : size ≤ buffer.length) :
    Transmitted buffer size (fun p => p.result size = 1) bytes p := by
  refine ⟨h.buffer, h.count.trans (Nat.zero_add _), h.front, fun _ => ?_⟩
  rw [h.all hroom, Progress.result]
  split_ifs with hshort
  · exact ⟨fun h => absurd h (by decide), fun h => absurd hshort h⟩
  · exact ⟨fun _ => hshort, fun _ => rfl⟩

theorem Sent.transmitted (h : Sent size { buffer := buffer } bytes p) (hroom : size ≤ buffer.length) :
    Transmitted buffer size (fun p => writeAllResult p size = size) bytes p := by
  refine ⟨h.1.buffer, h.1.count.trans (Nat.zero_add _), h.1.front, fun hended => ?_⟩
  rw [h.1.all hroom, writeAllResult]
  split_ifs with hshort
  · have hret := h.2 hended hshort
    exact ⟨fun h => by omega, fun h => absurd hshort h⟩
  · exact ⟨fun _ => hshort, fun _ => rfl⟩

/-- Turns that transfer, from the beginning of the message. -/
theorem Transfers.exact {x : Progress → M L Progress} {effect : Progress → List UInt8 → Progress → Prop}
    {guard : List Event → List Event → Event → Prop} {wait : List Event → Event → Prop}
    {outcome : List UInt8 → Progress → Prop} (h : Transfers s.world s.ts ssl size effect guard wait n x)
    (hroom : size ≤ buffer.length)
    (hcount : ∀ {bytes p}, effect { buffer := buffer } bytes p → p.count = bytes.length)
    (hcomposes : Composes size effect)
    (houtcome : ∀ {bytes p}, effect { buffer := buffer } bytes p → outcome bytes p) :
    Exact ssl size (guard s.trace) wait n outcome s (x { buffer := buffer } s) := by
  refine (h s { buffer := buffer } rfl rfl rfl (Nat.zero_le _) hroom).imp_left ?_
  rintro ⟨es, p, hrun, htransferred⟩
  refine ⟨es, p, hrun, houtcome htransferred.effect, fun hturns => ?_, htransferred.ended, htransferred.guarded⟩
  have hle := hcomposes.le htransferred.effect
  rw [hcount htransferred.effect] at hle
  by_contra hgoing
  have hmore := htransferred.going (Bool.eq_false_of_not_eq_true hgoing)
  omega

theorem tsReadAll_transfers (hsize : size < 2 ^ 31) (hfit : Fit s deadline) :
    Transfers s.world s.ts (tls s) size (Stored size) (WaitsFirst s.world s.ts (tls s) deadline false)
      (Ready s.world deadline) n (turns (tsReadTurn (tls s) s.ts.fd size deadline) n : Progress → M L Progress) :=
  (tsReadTurn_transfers hsize hfit.deadline hfit.clock hfit.ctx).turns (stored_composes size)
    (waitsFirst_extends _ _ _ _ _) n

theorem tsReadAll_exact (hsize : size < 2 ^ 31) (hroom : size ≤ buffer.length) (hfit : Fit s deadline) :
    Exact (tls s) size (WaitsFirst s.world s.ts (tls s) deadline false s.trace) (Ready s.world deadline) n
      (Received buffer size) s
      (tsReadAll n buffer size deadline s : EStateM.Result (Stop L) State Progress) :=
  (tsReadAll_transfers hsize hfit).exact hroom (fun h => h.received.count) (stored_composes size)
    Stored.received

theorem tsWriteAll_exact (hsize : size < 2 ^ 31) (hroom : size ≤ buffer.length) (hfit : Fit s deadline) :
    Exact (tls s) size (WaitsFirst s.world s.ts (tls s) deadline true s.trace) (Ready s.world deadline) n
      (Transmitted buffer size fun p => p.result size = 1) s
      (tsWriteAll n buffer size deadline s : EStateM.Result (Stop L) State Progress) :=
  ((tsWriteTurn_transfers hsize hfit.deadline hfit.clock hfit.ctx).turns (taken_composes size)
    (waitsFirst_extends _ _ _ _ _) n).exact hroom (fun h => (h.transmitted hroom).count) (taken_composes size)
    fun h => h.transmitted hroom

theorem writeAll_exact (hsize : size < 2 ^ 31) (hroom : size ≤ buffer.length) (fd : Int) (s : State) :
    Exact false size (fun _ _ => True) (fun _ _ => True) n
      (Transmitted buffer size fun p => writeAllResult p size = size) s
      (writeAll n fd buffer size s : EStateM.Result (Stop L) State Progress) :=
  ((writeTurn_transfers hsize fd).turns (sent_composes size) (fun _ _ => trivial) n).exact hroom
    (fun h => (h.transmitted hroom).count) (sent_composes size) fun h => h.transmitted hroom

/-- What was moved is the beginning of `data`, and a transfer fails only behind all of it. -/
structure Delivers (w : World) (ts : Tsocket) (ssl : Bool) (data : List UInt8)
    (before es : List Event) : Prop where
  front : moved w ts ssl before es <+: data
  all : ¬ GoesOn w ts ssl before es → moved w ts ssl before es = data

/-- A run of `ts_read_all` that no wait has ended. -/
structure Completes (s : State) (size : Nat) (deadline : Int) (data : List UInt8) (es : List Event) : Prop where
  delivers : Delivers s.world s.ts (tls s) data s.trace es
  waits : Waits s.world deadline s.trace es

/-- What was delivered decides what is in the buffer. -/
theorem tsReadAll_data (hsize : size < 2 ^ 31) (hroom : size ≤ buffer.length) (hfit : Fit s deadline)
    (hrun : (tsReadAll n buffer size deadline s : EStateM.Result (Stop L) State Progress) =
      .ok p { s with trace := s.trace ++ es })
    (hended : p.ended = true) (h : Completes s size deadline data es) :
    p.buffer = data.take size ++ buffer.drop (data.take size).length ∧ p.count = (data.take size).length := by
  rcases tsReadAll_transfers (L := L) (n := n) hsize hfit s { buffer := buffer } rfl rfl rfl
    (Nat.zero_le _) hroom with
    ⟨es', p', hok, htransferred⟩ | ⟨-, es', herror⟩
  · have hsame := hok.symm.trans hrun
    obtain ⟨rfl, htrace⟩ := EStateM.Result.ok.inj hsame
    obtain rfl : es' = es := List.append_cancel_left (congrArg State.trace htrace)
    have hreceived := htransferred.effect.received
    have hcount := hreceived.count
    have hdata : moved s.world s.ts (tls s) s.trace es' = data.take size := by
      rcases htransferred.ended hended with hall | hstop | hfails
      · have hlength : (moved s.world s.ts (tls s) s.trace es').length = size :=
          le_antisymm hreceived.le (hcount ▸ hall)
        rw [← hlength]
        exact List.prefix_iff_eq_take.mp h.delivers.front
      · have hdata := h.delivers.all hstop
        rw [List.take_of_length_le (hdata ▸ hreceived.le)]
        exact hdata
      · exact absurd h.waits hfails
    have hfilled := hreceived.filled
    rw [hdata] at hfilled hcount
    refine ⟨?_, hcount⟩
    rw [← List.take_append_drop p'.count p'.buffer, hfilled, hreceived.back, hcount]
  · have hnone := herror.symm.trans hrun
    cases hnone

theorem frame (w : World) (ts : Tsocket) :
    Frame (L := L) (fun s => s.world = w ∧ s.ts = ts) (fun _ _ => True) w ts :=
  ⟨fun h _ => h, And.left, And.right, fun _ => trivial⟩

theorem keeps_place (buffer : List UInt8) (offset : Nat) (bytes : List UInt8) {I : State → Prop} :
    Keeps I (fun _ _ => True) (place buffer offset bytes : M L (List UInt8)) := by
  unfold place
  cases store buffer offset bytes with
  | none => exact Triple.throw fun _ _ => trivial
  | some buffer => exact Keeps.pure _

theorem keeps_receive (size : Nat) (p : Progress) :
    Keeps (fun s => s.world = w ∧ s.ts = ts) (fun _ _ => True) (receive ts.fd size p : M L Progress) := by
  unfold receive
  refine Triple.bind ((frame w ts).read_triple _) fun r => ?_
  refine Triple.mono ?_ fun _ hs => hs.1
  cases r with
  | error _ => exact Keeps.pure _
  | ok bytes =>
    refine Keeps.bind (keeps_place p.buffer p.count bytes) fun buffer => ?_
    dsimp only
    generalize (bytes.length : Int).bmod (2 ^ 32) = ret
    exact Triple.ite (fun _ => Keeps.pure _) fun _ => Keeps.pure _

theorem keeps_readTurn (size : Nat) (deadline : Int) (p : Progress) :
    Keeps (fun s => s.world = w ∧ s.ts = ts) (fun _ _ => True)
      (readTurn ts.fd size deadline p : M L Progress) := by
  unfold readTurn
  refine Triple.ite (fun _ => Keeps.pure _) fun _ =>
    Keeps.bind ((frame w ts).keeps_ask (Or.inl rfl)) fun now => ?_
  refine Triple.ite (fun _ => Keeps.pure _) fun _ => ?_
  refine Keeps.bind ((frame w ts).keeps_ask (Or.inr (Or.inl rfl))) fun polled => ?_
  exact Triple.ite (fun _ => Keeps.pure _) fun _ => keeps_receive size p

/-- Loops of turns that do the same in every state that they come to. -/
theorem turns_congr {I : State → Prop} {turn turn' : Progress → M L Progress}
    (hkeeps : ∀ p, Keeps I (fun _ _ => True) (turn p)) (h : ∀ p s, I s → turn p s = turn' p s) (n : Nat) :
    ∀ p s, I s → turns turn n p s = turns turn' n p s := by
  induction n with
  | zero => exact fun _ _ _ => rfl
  | succ n ih =>
    intro p s hs
    have hnext := hkeeps p s hs
    rw [turns, turns]
    cases hturn : turn p s with
    | ok p' s' =>
      rw [hturn] at hnext
      rw [bind_ok hturn, bind_ok ((h p s hs).symm.trans hturn)]
      split_ifs
      · rfl
      · exact ih p' s' hnext
    | error e s' => rw [bind_error hturn, bind_error ((h p s hs).symm.trans hturn)]

/-- A turn of `read_all` waits as `ts_wait` does. -/
theorem readTurn_eq (size : Nat) (deadline : Int) (p : Progress) (s : State) (hfd : s.ts.fd = s.ts.psFd) :
    (readTurn s.ts.fd size deadline p : M L Progress) s = tsReadTurn false s.ts.fd size deadline p s := by
  by_cases hall : size ≤ p.count
  · rw [readTurn, tsReadTurn, if_pos hall, if_pos hall]
  have hnow : (ask .getMs World.getMs : M L Nat) s =
      .ok (s.world.getMs (s.trace ++ [.getMs])) (s.event .getMs) := rfl
  have hts : (getTs : M L Tsocket) s = .ok s.ts s := rfl
  rw [readTurn, if_neg hall, bind_ok hnow, tsReadTurn, if_neg hall, if_neg Bool.false_ne_true, tsWait, bind_assoc,
    bind_ok hts, bind_assoc, bind_ok hnow, ← hfd]
  generalize towait deadline (s.world.getMs (s.trace ++ [.getMs])) = left
  by_cases hlate : left ≤ 0
  · rw [if_pos hlate, if_pos hlate]
    rfl
  · rw [if_neg hlate, if_neg hlate, bind_assoc]
    refine congrFun (bind_congr fun polled => ?_) _
    obtain ⟨ret, revents⟩ := polled
    dsimp only
    rw [pure_bind]
    cases revents <;> by_cases hone : ret = 1 <;> simp [hone]

theorem readAll_eq (n : Nat) (buffer : List UInt8) (size : Nat) (deadline : Int) (s : State)
    (hplain : tls s = false) (hfd : s.ts.fd = s.ts.psFd) :
    (readAll n s.ts.fd buffer size deadline : M L Progress) s = tsReadAll n buffer size deadline s := by
  have hturns : (tsReadAll n buffer size deadline : M L Progress) s =
      turns (tsReadTurn (tls s) s.ts.fd size deadline) n { buffer := buffer } s := rfl
  rw [hturns, hplain]
  refine turns_congr (I := fun s' => s'.world = s.world ∧ s'.ts = s.ts) (keeps_readTurn size deadline) ?_ n _ s
    ⟨rfl, rfl⟩
  intro p s' hs'
  rw [← hs'.2] at hfd ⊢
  exact readTurn_eq size deadline p s' hfd

/-- On a plain socket nothing asks to be called again. -/
theorem wants_plain (w : World) (ts : Tsocket) (before es : List Event) : wants w ts false before es = [] := by
  refine along_eq_nil fun e _ history => ?_
  have hnot : ∀ bytes, wantedBy (some (Answer.ofBytes bytes)) = [] := by
    intro bytes
    unfold Answer.ofBytes
    split_ifs <;> rfl
  cases e <;> first | rfl | exact hnot _

/-- On a plain socket `ts_read_all` returns. -/
theorem tsReadAll_returns (hsize : size < 2 ^ 31) (hroom : size ≤ buffer.length) (hfit : Fit s deadline)
    (hplain : tls s = false) (hturns : size < n) :
    ∃ p s', (tsReadAll n buffer size deadline s : EStateM.Result (Stop L) State Progress) = .ok p s' ∧
      p.ended = true := by
  rcases tsReadAll_exact (L := L) (n := n) hsize hroom hfit with ⟨es, p, hrun, -, hends, -, -⟩ | ⟨htls, -⟩
  · refine ⟨p, _, hrun, hends ?_⟩
    rw [hplain, wants_plain]
    exact hturns
  · rw [hplain] at htls
    cases htls

/-- What is to be said of `ts_read_all`, `read_all`, `ts_write_all` and `write_all`, for a message of `size` bytes in a
buffer. -/
structure WholeMessages (L : Type) (s : State) (buffer : List UInt8) (size : Nat) (deadline : Int) (n : Nat) :
    Prop where
  reads : Exact (tls s) size (WaitsFirst s.world s.ts (tls s) deadline false s.trace) (Ready s.world deadline) n
    (Received buffer size) s
    (tsReadAll n buffer size deadline s : EStateM.Result (Stop L) State Progress)
  agrees : tls s = false → s.ts.fd = s.ts.psFd →
    (readAll n s.ts.fd buffer size deadline : M L Progress) s = tsReadAll n buffer size deadline s
  writes : Exact (tls s) size (WaitsFirst s.world s.ts (tls s) deadline true s.trace) (Ready s.world deadline) n
    (Transmitted buffer size fun p => p.result size = 1) s
    (tsWriteAll n buffer size deadline s : EStateM.Result (Stop L) State Progress)
  writesAll : ∀ fd, Exact false size (fun _ _ => True) (fun _ _ => True) n
    (Transmitted buffer size fun p => writeAllResult p size = size) s
    (writeAll n fd buffer size s : EStateM.Result (Stop L) State Progress)
  /-- With the same data and no wait that fails, a plain socket and one with TLS end alike. -/
  delivered : ∀ {s' : State} {deadline' : Int} {n' : Nat} {data : List UInt8} {es es' : List Event}
    {p p' : Progress},
    Fit s' deadline' → Completes s size deadline data es → Completes s' size deadline' data es' →
    (tsReadAll n buffer size deadline s : EStateM.Result (Stop L) State Progress) =
      .ok p { s with trace := s.trace ++ es } → p.ended = true →
    (tsReadAll n' buffer size deadline' s' : EStateM.Result (Stop L) State Progress) =
      .ok p' { s' with trace := s'.trace ++ es' } → p'.ended = true →
    p.buffer = p'.buffer ∧ p.count = p'.count ∧ p.result size = p'.result size

theorem wholeMessages_exact (hsize : size < 2 ^ 31) (hroom : size ≤ buffer.length)
    (hfit : Fit s deadline) (n : Nat) :
    WholeMessages L s buffer size deadline n where
  reads := tsReadAll_exact hsize hroom hfit
  agrees := readAll_eq n buffer size deadline s
  writes := tsWriteAll_exact hsize hroom hfit
  writesAll fd := writeAll_exact hsize hroom fd s
  delivered hfit' hcompletes hcompletes' hrun hended hrun' hended' := by
    obtain ⟨hbuffer, hcount⟩ := tsReadAll_data hsize hroom hfit hrun hended hcompletes
    obtain ⟨hbuffer', hcount'⟩ := tsReadAll_data hsize hroom hfit' hrun' hended' hcompletes'
    refine ⟨hbuffer.trans hbuffer'.symm, hcount.trans hcount'.symm, ?_⟩
    rw [Progress.result, Progress.result, hcount, hcount']

/-- A library that asks for a wait first, and then has and takes no more than two bytes each time. -/
def pieces : World where
  haveTls := true
  isSsl := true
  turns := 0
  sock := 5
  outcome := ⟨.done, none, .done⟩
  wait := ⟨0, false, false, false⟩
  getMs := fun _ => 1000
  setsFlags := fun _ => true
  poll := fun _ => (1, true)
  read := fun _ => .ok []
  write := fun _ => .ok 2
  sslSetup := fun _ => true
  handshake := fun _ => .done (.ok ())
  sslRead := fun history => if history.length = 1 then .done .wantRead else .done (.ok [7, 8])
  sslWrite := fun _ => .done (.ok 2)

def piecesState : State := ⟨pieces, ⟨5, 5, true, true⟩, [], 0, -1, []⟩

def Progress.ofResult : EStateM.Result (Stop L) State Progress → Option Progress
  | .ok p _ => some p
  | .error _ _ => none

theorem wholeMessages_pieces : WholeMessages Unit piecesState [0, 0, 0, 0] 3 3000 5 ∧
    Progress.ofResult
        (tsReadAll 5 [0, 0, 0, 0] 3 3000 piecesState : EStateM.Result (Stop Unit) State Progress) =
      some { buffer := [7, 8, 7, 0], count := 3, ended := true } ∧
    Progress.ofResult
        (tsWriteAll 5 [0, 0, 0, 0] 3 3000 piecesState : EStateM.Result (Stop Unit) State Progress) =
      some { buffer := [0, 0, 0, 0], count := 3, ended := true } ∧
    Progress.ofResult (writeAll 5 5 [0, 0, 0, 0] 3 piecesState : EStateM.Result (Stop Unit) State Progress) =
      some { buffer := [0, 0, 0, 0], count := 3, ended := true, ret := 1 } := by
  have hclock : ∀ history, piecesState.world.getMs history < 2 ^ 63 := fun _ => show 1000 < 2 ^ 63 by decide
  exact ⟨wholeMessages_exact (by decide) (by decide) ⟨by decide, hclock, fun _ => rfl⟩ 5, by decide +kernel,
    by decide +kernel, by decide +kernel⟩

end Messages

/-! ### The loops of the modules -/

section Modules

variable {L β : Type} {ssl : Bool} {fd : Int} {size n : Nat} {deadline : Int} {buffer bytes left : List UInt8}
  {p : Progress}

/-- What is in the buffer once a loop has ended. -/
def Progress.whole (p : Progress) : M L (List UInt8) :=
  if p.ended then pure (p.buffer.take p.count) else throw .pending

def Progress.success (size : Nat) (p : Progress) : M L Bool :=
  if p.ended then pure (p.result size = 1) else throw .pending

theorem read_bind_congr {f g : Except IoErrno (List UInt8) → M L β} (herror : ∀ c, f (.error c) = g (.error c))
    (hok : ∀ bytes, bytes.length ≤ size → f (.ok bytes) = g (.ok bytes)) :
    (read fd size >>= f : M L β) = read fd size >>= g := by
  funext s
  have hread : (read fd size : M L (Except IoErrno (List UInt8))) s =
      .ok (s.world.reads (s.trace ++ [.read fd size]) size) (s.event (.read fd size)) := rfl
  rw [bind_ok hread, bind_ok hread]
  cases hanswer : s.world.reads (s.trace ++ [.read fd size]) size with
  | error c => exact congrFun (herror c) _
  | ok bytes => exact congrFun (hok _ (World.reads_ok hanswer).2) _

theorem write_bind_congr {left : List UInt8} {f g : Except IoErrno Nat → M L β}
    (herror : ∀ c, f (.error c) = g (.error c))
    (hok : ∀ written ≤ left.length, f (.ok written) = g (.ok written)) :
    (write fd left >>= f : M L β) = write fd left >>= g := by
  funext s
  have hwrite : (write fd left : M L (Except IoErrno Nat)) s =
      .ok ((s.world.write (s.trace ++ [.write fd left])).map (min left.length))
        (s.event (.write fd left)) := rfl
  rw [bind_ok hwrite, bind_ok hwrite]
  cases s.world.write (s.trace ++ [.write fd left]) with
  | error c => exact congrFun (herror c) _
  | ok written => exact congrFun (hok _ (Nat.min_le_left _ _)) _

/-- What comes behind a turn when there are `n` more. -/
def behind (turn : Progress → M L Progress) (n : Nat) (finish : Progress → M L β) (p : Progress) : M L β :=
  if p.ended then finish p else turns turn n p >>= finish

theorem behind_ended {turn : Progress → M L Progress} {finish : Progress → M L β} (h : p.ended = true) :
    behind turn n finish p = finish p := if_pos h

theorem behind_going {turn : Progress → M L Progress} {finish : Progress → M L β} (h : p.ended = false) :
    behind turn n finish p = turns turn n p >>= finish :=
  if_neg fun hended => Bool.false_ne_true (h.symm.trans hended)

theorem turns_bind (turn : Progress → M L Progress) (n : Nat) (finish : Progress → M L β) (p : Progress) :
    turns turn (n + 1) p >>= finish = turn p >>= behind turn n finish := by
  rw [turns, bind_assoc]
  refine bind_congr fun p' => ?_
  cases hended : p'.ended with
  | true => rw [if_pos rfl, pure_bind, behind_ended hended]
  | false => rw [if_neg Bool.false_ne_true, behind_going hended]

theorem waitTurn_bind {k : Progress → M L β} {x y : M L β} (hgo : k p = x) (hstop : k p.stop = y)
    (wantWrite : Bool) :
    (tsWait deadline wantWrite >>= fun ready => if ready = true then x else y) =
      waitTurn deadline wantWrite p >>= k := by
  rw [waitTurn, bind_assoc]
  refine bind_congr fun ready => ?_
  cases ready with
  | false => exact hstop.symm
  | true => exact hgo.symm

/-- Behind a turn from `p` on, `k` does what the loop of the modules does. -/
structure ReadsOn (ssl : Bool) (fd : Int) (size : Nat) (deadline : Int) (n : Nat) (p : Progress)
    (k : Progress → M L (List UInt8)) : Prop where
  ended : ∀ p', p'.ended = true → k p' = pure (p'.buffer.take p'.count)
  going : ∀ p', p'.buffer.length = p.buffer.length → p'.count ≤ size → p'.ended = false →
    k p' = readLoop ssl fd p.buffer.length size deadline n (p'.buffer.take p'.count)

section Reads

variable {k : Progress → M L (List UInt8)}

theorem ReadsOn.place (h : ReadsOn ssl fd size deadline n p k) (hroom : size ≤ p.buffer.length)
    (hcount : p.count ≤ size) (hgoing : p.ended = false) (hbytes : bytes.length ≤ size - p.count) (ret : Int) :
    (fill p.buffer.length (p.buffer.take p.count) bytes >>= readLoop ssl fd p.buffer.length size deadline n) =
      place p.buffer p.count bytes >>= fun buffer =>
        k { p with buffer := buffer, count := p.count + bytes.length, ret := ret } := by
  have hlength : (p.buffer.take p.count).length = p.count := by
    rw [List.length_take]
    omega
  obtain ⟨buffer, hstore⟩ : ∃ buffer, store p.buffer p.count bytes = some buffer := ⟨_, store_eq (by omega)⟩
  have hnext := h.going { p with buffer := buffer, count := p.count + bytes.length, ret := ret }
    (length_store hstore) (show p.count + bytes.length ≤ size by omega) hgoing
  rw [fill, Transfer.place, hlength, if_neg (by omega), hstore]
  dsimp only at hnext ⊢
  rw [pure_bind, pure_bind, hnext, take_store hstore]

theorem ReadsOn.receive (h : ReadsOn ssl fd size deadline n p k) (hsize : size < 2 ^ 31)
    (hroom : size ≤ p.buffer.length) (hcount : p.count ≤ size) (hgoing : p.ended = false) :
    (read fd (size - p.count) >>= fun r => match r with
      | .error _ => pure (p.buffer.take p.count)
      | .ok bytes =>
        if bytes = [] then pure (p.buffer.take p.count)
        else fill p.buffer.length (p.buffer.take p.count) bytes >>=
          readLoop ssl fd p.buffer.length size deadline n) =
      receive fd size p >>= k := by
  rw [Transfer.receive, bind_assoc]
  refine read_bind_congr (fun _ => (h.ended { p with ended := true, ret := -1 } rfl).symm) fun bytes hbytes => ?_
  dsimp only
  by_cases hnil : bytes = []
  · subst hnil
    have hfits : p.count + ([] : List UInt8).length ≤ p.buffer.length := hcount.trans hroom
    obtain ⟨buffer, hstore⟩ : ∃ buffer, store p.buffer p.count [] = some buffer := ⟨_, store_eq hfits⟩
    have htake := take_store hstore
    rw [List.length_nil, Nat.add_zero, List.append_nil] at htake
    rw [if_pos rfl, Transfer.place, hstore]
    dsimp only
    rw [pure_bind, if_pos (by decide), pure_bind, h.ended _ rfl, htake]
  · have hpos : 0 < bytes.length := List.length_pos_of_ne_nil hnil
    rw [if_neg hnil, bind_assoc, bmod_length (by omega)]
    refine (h.place hroom hcount hgoing hbytes bytes.length).trans (bind_congr fun buffer => ?_)
    rw [if_neg (by omega), Int.toNat_natCast, pure_bind]

/-- A turn of both loops. -/
theorem ReadsOn.turn (h : ReadsOn ssl fd size deadline n p k) (hsize : size < 2 ^ 31)
    (hroom : size ≤ p.buffer.length) (hcount : p.count ≤ size) (hgoing : p.ended = false) :
    readLoop ssl fd p.buffer.length size deadline (n + 1) (p.buffer.take p.count) =
      tsReadTurn ssl fd size deadline p >>= k := by
  have hlength : (p.buffer.take p.count).length = p.count := by
    rw [List.length_take]
    omega
  have hgo := h.going p rfl hcount hgoing
  have hstop := h.ended p.stop rfl
  rw [readLoop, hlength, tsReadTurn]
  by_cases hall : size ≤ p.count
  · rw [if_pos hall, if_pos hall, pure_bind, hstop]
    rfl
  rw [if_neg hall, if_neg hall]
  cases ssl with
  | true =>
    rw [if_pos rfl, if_pos rfl, bind_assoc]
    refine bind_congr fun r => ?_
    cases r with
    | failed => exact hstop.symm
    | wantRead => exact waitTurn_bind hgo hstop false
    | wantWrite => exact waitTurn_bind hgo hstop true
    | ok bytes =>
      dsimp only
      by_cases hnil : bytes.take (size - p.count) = []
      · rw [if_pos hnil, if_pos hnil, pure_bind, hstop]
        rfl
      · rw [if_neg hnil, if_neg hnil, bind_assoc]
        refine (h.place hroom hcount hgoing (List.length_take_le _ _) p.ret).trans ?_
        exact bind_congr fun buffer => (pure_bind _ _).symm
  | false =>
    rw [if_neg Bool.false_ne_true, if_neg Bool.false_ne_true, bind_assoc]
    refine bind_congr fun ready => ?_
    cases ready with
    | false => exact hstop.symm
    | true => exact h.receive hsize hroom hcount hgoing

theorem readLoop_eq (hsize : size < 2 ^ 31) (hroom : size ≤ p.buffer.length) (hcount : p.count ≤ size)
    (hgoing : p.ended = false) (n : Nat) :
    (readLoop ssl fd p.buffer.length size deadline n (p.buffer.take p.count) : M L (List UInt8)) =
      turns (tsReadTurn ssl fd size deadline) n p >>= Progress.whole := by
  induction n generalizing p with
  | zero =>
    rw [readLoop, turns, pure_bind, Progress.whole, if_neg (by rw [hgoing]; exact Bool.false_ne_true)]
  | succ n ih =>
    rw [turns_bind]
    refine ReadsOn.turn ⟨fun p' hended => ?_, fun p' hlength hcount' hgoing' => ?_⟩ hsize hroom hcount hgoing
    · rw [behind_ended hended, Progress.whole, if_pos hended]
    · rw [behind_going hgoing', ← hlength, ih (hlength ▸ hroom) hcount' hgoing']

end Reads

/-- The modules read as the loop on their buffer does. -/
theorem modules_tsReadAll_eq (hsize : size < 2 ^ 31) (hroom : size ≤ buffer.length) (s : State) :
    (Modules.tsReadAll buffer.length size deadline : M L (List UInt8)) s =
      (tsReadAll (s.world.turns + 1) buffer size deadline >>= Progress.whole) s :=
  congrFun (readLoop_eq (p := { buffer := buffer }) hsize hroom (Nat.zero_le _) rfl _) s

/-- Behind a turn from `p` on, `k` does what the loop of the modules does. -/
structure WritesOn (ssl : Bool) (fd : Int) (size : Nat) (deadline : Int) (n : Nat) (p : Progress)
    (k : Progress → M L Bool) : Prop where
  ended : ∀ p', p'.ended = true → k p' = pure (decide (size ≤ p'.count))
  going : ∀ p', p'.buffer = p.buffer → p'.count ≤ size → p'.ended = false →
    k p' = writeLoop ssl fd deadline n ((p.buffer.take size).drop p'.count)

section Writes

variable {k : Progress → M L Bool}

theorem WritesOn.stop (h : WritesOn ssl fd size deadline n p k) (hshort : p.count < size) (p' : Progress)
    (hended : p'.ended = true) (hcount : p'.count = p.count) : k p' = pure false := by
  rw [h.ended p' hended, decide_eq_false (by omega)]

theorem WritesOn.drop (h : WritesOn ssl fd size deadline n p k) (hroom : size ≤ p.buffer.length)
    (hgoing : p.ended = false) (hleft : left = (p.buffer.take size).drop p.count) (hcount : p.count ≤ size)
    {written : Nat} (hwritten : written ≤ left.length) (ret : Int) :
    writeLoop ssl fd deadline n (left.drop written) = k { p with count := p.count + written, ret := ret } := by
  have hlength : left.length = size - p.count := by
    rw [hleft, List.length_drop, List.length_take]
    omega
  rw [hleft, List.drop_drop]
  exact (h.going { p with count := p.count + written, ret := ret } rfl
    (show p.count + written ≤ size by omega) hgoing).symm

/-- A turn of both loops. -/
theorem WritesOn.turn (h : WritesOn ssl fd size deadline n p k) (hsize : size < 2 ^ 31)
    (hroom : size ≤ p.buffer.length) (hcount : p.count ≤ size) (hgoing : p.ended = false) :
    writeLoop ssl fd deadline (n + 1) ((p.buffer.take size).drop p.count) =
      tsWriteTurn ssl fd size deadline p >>= k := by
  obtain ⟨left, hleft⟩ : ∃ left, left = (p.buffer.take size).drop p.count := ⟨_, rfl⟩
  have hlength : left.length = size - p.count := by
    rw [hleft, List.length_drop, List.length_take]
    omega
  have hrest : (rest p size : M L (List UInt8)) = pure left := by
    rw [rest, if_neg (by omega), hleft, List.drop_take]
  rw [← hleft, writeLoop, tsWriteTurn, hrest]
  by_cases hall : size ≤ p.count
  · rw [if_pos (List.length_eq_zero_iff.mp (by omega)), if_pos hall, pure_bind, h.ended p.stop rfl]
    exact congrArg pure (decide_eq_true hall).symm
  have hshort : p.count < size := not_le.mp hall
  have hstop := h.stop hshort p.stop rfl rfl
  have hgo : k p = writeLoop ssl fd deadline n left := hleft ▸ h.going p rfl hcount hgoing
  have hne : left ≠ [] := fun hnil => by
    rw [hnil, List.length_nil] at hlength
    omega
  rw [if_neg hne, if_neg hall]
  cases ssl with
  | true =>
    rw [if_pos rfl, if_pos rfl, pure_bind, bind_assoc]
    refine bind_congr fun r => ?_
    cases r with
    | failed => exact hstop.symm
    | wantRead => exact waitTurn_bind hgo hstop false
    | wantWrite => exact waitTurn_bind hgo hstop true
    | ok written =>
      dsimp only
      by_cases hzero : written = 0
      · rw [if_pos hzero, if_pos (by omega), pure_bind, hstop]
      · have hsame : left.drop written = left.drop (min left.length written) :=
          List.drop_eq_drop_iff.mpr (by omega)
        rw [if_neg hzero, if_neg (by omega), pure_bind, hsame]
        exact h.drop hroom hgoing hleft hcount (Nat.min_le_left _ _) p.ret
  | false =>
    rw [if_neg Bool.false_ne_true, if_neg Bool.false_ne_true, bind_assoc]
    refine bind_congr fun ready => ?_
    cases ready with
    | false => exact hstop.symm
    | true =>
      rw [if_pos rfl, if_pos rfl, transmit, hrest, pure_bind, bind_assoc]
      refine write_bind_congr (fun _ => (h.stop hshort { p with ended := true, ret := -1 } rfl rfl).symm)
        fun written hwritten => ?_
      dsimp only
      rw [bmod_length (by omega), Int.toNat_natCast]
      by_cases hzero : written = 0
      · rw [if_pos hzero, if_pos (by omega), pure_bind,
          h.stop hshort { p with ended := true, ret := written } rfl rfl]
      · rw [if_neg hzero, if_neg (by omega), pure_bind]
        exact h.drop hroom hgoing hleft hcount hwritten written

theorem writeLoop_eq (hsize : size < 2 ^ 31) (hroom : size ≤ p.buffer.length) (hcount : p.count ≤ size)
    (hgoing : p.ended = false) (n : Nat) :
    (writeLoop ssl fd deadline n ((p.buffer.take size).drop p.count) : M L Bool) =
      turns (tsWriteTurn ssl fd size deadline) n p >>= Progress.success size := by
  induction n generalizing p with
  | zero =>
    rw [writeLoop, turns, pure_bind, Progress.success, if_neg (by rw [hgoing]; exact Bool.false_ne_true)]
  | succ n ih =>
    rw [turns_bind]
    refine WritesOn.turn ⟨fun p' hended => ?_, fun p' hbuffer hcount' hgoing' => ?_⟩ hsize hroom hcount hgoing
    · rw [behind_ended hended, Progress.success, if_pos hended, Progress.result]
      split_ifs with hshort
      · rw [decide_eq_false (not_le.mpr hshort)]
        rfl
      · rw [decide_eq_true (not_lt.mp hshort)]
        rfl
    · rw [behind_going hgoing', ← hbuffer, ih (hbuffer ▸ hroom) hcount' hgoing']

end Writes

/-- The modules write as the loop on their buffer does. -/
theorem modules_tsWriteAll_eq (hsize : size < 2 ^ 31) (hroom : size ≤ buffer.length) (s : State) :
    (Modules.tsWriteAll buffer size deadline : M L Bool) s =
      (tsWriteAll (s.world.turns + 1) buffer size deadline >>= Progress.success size) s := by
  refine Eq.trans ?_ (congrFun (writeLoop_eq (p := { buffer := buffer }) hsize hroom (Nat.zero_le _) rfl _) s)
  show (if buffer.length < size then _ else _ : M L Bool) s = _
  rw [if_neg (by omega)]
  rfl

end Modules

end Cscan.Modules.Transfer
