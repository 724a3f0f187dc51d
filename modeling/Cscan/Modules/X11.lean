import Cscan.Cba.RoundTrip
import Cscan.Lib.Trace
import Cscan.Modules.Connected

/-! What `check_x11` logs for a host, from what the two have sent each other. -/

namespace Cscan.Modules.X11

open Cscan.Lib Cscan.Scan

/-! ### What was sent -/

/-- What a read of the socket has given. -/
def given (w : World) (history : List Event) : Event → List UInt8
  | .read _ size => match w.reads history size with
    | .ok bytes => bytes
    | .error _ => []
  | _ => []

/-- What a write to the socket has taken. -/
def taken (w : World) (history : List Event) : Event → List UInt8
  | .write _ bytes => match w.write history with
    | .ok count => bytes.take count
    | .error _ => []
  | _ => []

def received (w : World) (trace : List Event) : List UInt8 := along (given w) [] trace

def transmitted (w : World) (trace : List Event) : List UInt8 := along (taken w) [] trace

/-- Nothing was read before the whole of `hello` had been sent. -/
def HelloFirst (w : World) (trace : List Event) : Prop :=
  ∀ before fd size, before ++ [.read fd size] <+: trace → transmitted w before = hello

/-- What is logged for a host that was sent `sent` and has answered `got`. -/
def verdict (sent got : List UInt8) : List Cba.Call :=
  if sent ≠ hello then [.log (.bit writeFail)]
  else if got = [] then [.log (.bit readFail)]
  else if got.head? ≠ some 1 then []
  else if got.length = 6 ∧ got[2]? = some 11 then [.log (.bit good)]
  else [.log (.bit kindaGood)]

/-- The parties take turns: the answer is to the whole of `hello`, and nothing is read behind a refusal. -/
structure Polite (sent got : List UInt8) : Prop where
  hello : sent <+: hello
  first : got ≠ [] → sent = X11.hello
  refused : got.head? ≠ some 1 → got.length ≤ 1
  size : got.length ≤ 6

/-- The module is on the socket `ts`, has sent `sent`, received `got` and logged `calls`. -/
structure Talk (w : World) (ts : Tsocket) (sent got : List UInt8) (calls : List Cba.Call)
  (s : State) : Prop where
  world : s.world = w
  ts : s.ts = ts
  sent : transmitted w s.trace = sent
  got : received w s.trace = got
  calls : s.calls = calls
  ret : s.ret = -1
  order : HelloFirst w s.trace
  keeps : ∀ fd, .close fd ∉ s.trace

def Unfinished {L : Type} (w : World) (e : Stop L) (s : State) : Prop := e = .pending ∧ HelloFirst w s.trace

theorem HelloFirst.add {w : World} {trace : List Event} (h : HelloFirst w trace) {e : Event}
    (he : ∀ fd size, e = .read fd size → transmitted w trace = hello) : HelloFirst w (trace ++ [e]) := by
  intro before fd size hbefore
  rcases List.prefix_concat_iff.mp hbefore with heq | hbefore
  · obtain ⟨rfl, hread⟩ := List.append_inj' heq rfl
    exact he fd size (List.singleton_inj.mp hread).symm
  · exact h before fd size hbefore

section Layer

variable {L : Type} {w : World} {ts : Tsocket} {sent got : List UInt8} {calls : List Cba.Call} {s : State}

theorem Talk.event {e : Event} (h : Talk w ts sent got calls s) (he : ∀ fd, e ≠ .close fd)
    (hread : ∀ fd size, e = .read fd size → sent = hello) :
    Talk w ts (sent ++ taken w (s.trace ++ [e]) e) (got ++ given w (s.trace ++ [e]) e) calls (s.event e) where
  world := h.world
  ts := h.ts
  sent := by
    rw [← h.sent]
    refine along_append.trans (congrArg _ ?_)
    exact List.append_nil _
  got := by
    rw [← h.got]
    refine along_append.trans (congrArg _ ?_)
    exact List.append_nil _
  calls := h.calls
  ret := h.ret
  order := h.order.add fun fd size heq => h.sent.trans (hread fd size heq)
  keeps fd hfd := by
    rcases List.mem_append.mp hfd with hfd | hfd
    · exact h.keeps fd hfd
    · exact he fd (List.mem_singleton.mp hfd).symm

theorem Talk.quiet {e : Event} (h : Talk w ts sent got calls s) (he : ∀ fd, e ≠ .close fd)
    (hread : ∀ fd size, e ≠ .read fd size)
    (htaken : taken w (s.trace ++ [e]) e = []) (hgiven : given w (s.trace ++ [e]) e = []) :
    Talk w ts sent got calls (s.event e) := by
  have hevent := h.event he fun fd size heq => absurd heq (hread fd size)
  rwa [htaken, hgiven, List.append_nil, List.append_nil] at hevent

theorem tsWait_talk (deadline : Int) (wantWrite : Bool) :
    Keeps (Talk w ts sent got calls) (Unfinished w) (tsWait deadline wantWrite : M L Bool) := by
  refine Keeps.bind (fun _ h => h) fun _ => Keeps.bind (fun _ h => h.quiet (by simp) (by simp) rfl rfl) fun now => ?_
  refine Triple.ite (fun _ => Keeps.pure _) fun _ => ?_
  exact Keeps.bind (fun _ h => h.quiet (by simp) (by simp) rfl rfl) fun _ => Keeps.pure _

/-- What the answer to a read has in it. -/
def bytesOf (r : Except IoErrno (List UInt8)) : List UInt8 := r.toOption.getD []

theorem read_talk (fd : Int) (size : Nat) :
    Triple (Talk w ts hello got calls) (read fd size : M L (Except IoErrno (List UInt8)))
      (fun r s => (bytesOf r).length ≤ size ∧ Talk w ts hello (got ++ bytesOf r) calls s) (Unfinished w) := by
  intro s h
  have hevent := h.event (e := .read fd size) (by simp) fun _ _ _ => rfl
  rw [show taken w (s.trace ++ [.read fd size]) (.read fd size) = [] from rfl, List.append_nil] at hevent
  have hgiven : given w (s.trace ++ [.read fd size]) (.read fd size) =
      bytesOf (s.world.reads (s.trace ++ [.read fd size]) size) := by
    rw [h.world]
    cases hread : w.reads (s.trace ++ [.read fd size]) size with
    | error e => simp only [given, hread]; rfl
    | ok bytes => simp only [given, hread]; rfl
  rw [hgiven] at hevent
  refine ⟨?_, hevent⟩
  change (bytesOf (s.world.reads (s.trace ++ [.read fd size]) size)).length ≤ size
  cases hread : s.world.reads (s.trace ++ [.read fd size]) size with
  | error e => exact Nat.zero_le size
  | ok bytes => exact (World.reads_ok hread).2

/-- How many bytes the answer to a write has taken. -/
def countOf (r : Except IoErrno Nat) : Nat := r.toOption.getD 0

theorem write_talk (fd : Int) (left : List UInt8) :
    Triple (Talk w ts sent got calls) (write fd left : M L (Except IoErrno Nat))
      (fun r s => Talk w ts (sent ++ left.take (countOf r)) got calls s) (Unfinished w) := by
  intro s h
  have hevent := h.event (e := .write fd left) (by simp) (by simp)
  rw [show given w (s.trace ++ [.write fd left]) (.write fd left) = [] from rfl, List.append_nil] at hevent
  have htaken : taken w (s.trace ++ [.write fd left]) (.write fd left) =
      left.take (countOf ((s.world.write (s.trace ++ [.write fd left])).map (min left.length))) := by
    rw [h.world]
    cases hwrite : w.write (s.trace ++ [.write fd left]) with
    | error e => simp only [taken, hwrite]; rfl
    | ok count =>
      simp only [taken, hwrite]
      exact (List.take_eq_take_min (l := left)).trans (by rw [Nat.min_comm]; rfl)
  rwa [htaken] at hevent

theorem readLoop_talk {capacity size : Nat} (hroom : size ≤ capacity) (fd deadline : Int) (turns : Nat)
    {buffer : List UInt8} (hbuffer : buffer.length ≤ size) :
    Triple (Talk w ts hello (got ++ buffer) calls)
      (readLoop false fd capacity size deadline turns buffer : M L (List UInt8))
      (fun bytes s => bytes.length ≤ size ∧ Talk w ts hello (got ++ bytes) calls s) (Unfinished w) := by
  induction turns generalizing buffer with
  | zero => exact Triple.throw fun _ hs => ⟨rfl, hs.order⟩
  | succ turns ih =>
    have hstop : Triple (Talk w ts hello (got ++ buffer) calls) (pure buffer : M L (List UInt8))
        (fun bytes s => bytes.length ≤ size ∧ Talk w ts hello (got ++ bytes) calls s) (Unfinished w) :=
      Triple.pure fun _ hs => ⟨hbuffer, hs⟩
    refine Triple.ite (fun _ => hstop) fun hmore => Triple.ite (fun h => absurd h (by simp)) fun _ => ?_
    refine Triple.bind (tsWait_talk deadline false) fun _ => Triple.ite (fun _ => ?_) fun _ => hstop
    refine Triple.bind (read_talk fd _) fun r => ?_
    cases r with
    | error e => exact Triple.mono hstop fun s hs => List.append_nil (got ++ buffer) ▸ hs.2
    | ok bytes =>
      refine Triple.ite (fun hnone => Triple.mono hstop fun s hs => ?_) fun _ s hs => ?_
      · subst hnone
        exact List.append_nil (got ++ buffer) ▸ hs.2
      · obtain ⟨hlength, hs⟩ := hs
        have hlength : bytes.length ≤ size - buffer.length := hlength
        have hfill : (fill capacity buffer bytes : M L (List UInt8)) = pure (buffer ++ bytes) :=
          if_neg (by omega)
        have hsize : (buffer ++ bytes).length ≤ size := by
          rw [List.length_append]
          omega
        rw [hfill]
        exact ih hsize s (List.append_assoc got buffer bytes ▸ hs)

theorem writeLoop_talk (fd deadline : Int) (turns : Nat) (left : List UInt8) :
    Triple (Talk w ts sent got calls) (writeLoop false fd deadline turns left : M L Bool)
      (fun done s => ∃ moved, moved <+: left ∧ (done = true ↔ moved = left) ∧
        Talk w ts (sent ++ moved) got calls s) (Unfinished w) := by
  induction turns generalizing sent left with
  | zero => exact Triple.throw fun _ hs => ⟨rfl, hs.order⟩
  | succ turns ih =>
    refine Triple.ite (fun hnone => Triple.pure fun s hs => ?_) fun hleft => ?_
    · exact ⟨[], List.nil_prefix, by rw [hnone]; simp, by rwa [List.append_nil]⟩
    have hstop : Triple (Talk w ts sent got calls) (pure false : M L Bool)
        (fun done s => ∃ moved, moved <+: left ∧ (done = true ↔ moved = left) ∧
          Talk w ts (sent ++ moved) got calls s) (Unfinished w) :=
      Triple.pure fun s hs => ⟨[], List.nil_prefix, by simpa using Ne.symm hleft, by rwa [List.append_nil]⟩
    refine Triple.ite (fun h => absurd h (by simp)) fun _ => ?_
    refine Triple.bind (tsWait_talk deadline true) fun _ => Triple.ite (fun _ => ?_) fun _ => hstop
    refine Triple.bind (write_talk fd left) fun r => ?_
    cases r with
    | error e => exact Triple.mono hstop fun s hs => List.append_nil sent ▸ hs
    | ok count =>
      refine Triple.ite (fun hnone => Triple.mono hstop fun s hs => ?_) fun _ => ?_
      · subst hnone
        exact List.append_nil sent ▸ hs
      · refine (ih (left.drop count)).post ?_
        rintro done s ⟨moved, hmoved, hdone, hs⟩
        have hsplit := List.take_append_drop count left
        refine ⟨left.take count ++ moved, ?_, ?_, by rwa [← List.append_assoc]⟩
        · exact ((List.prefix_append_right_inj _).mpr hmoved).trans (by rw [hsplit])
        · rw [hdone, ← List.append_right_inj (left.take count), hsplit]

section Messages

variable (hplain : (w.haveTls && ts.isSsl) = false)

include hplain

theorem tsReadAll_talk {capacity size : Nat} (hroom : size ≤ capacity) (deadline : Int) :
    Triple (Talk w ts hello got calls) (tsReadAll capacity size deadline : M L (List UInt8))
      (fun bytes s => bytes.length ≤ size ∧ Talk w ts hello (got ++ bytes) calls s) (Unfinished w) := by
  intro s hs
  have hrun : (tsReadAll capacity size deadline : M L (List UInt8)) s =
      readLoop (s.world.haveTls && s.ts.isSsl) s.ts.fd capacity size deadline (s.world.turns + 1) [] s := rfl
  have hnone : ([] : List UInt8).length ≤ size := Nat.zero_le size
  rw [hrun, hs.world, hs.ts, hplain]
  exact readLoop_talk hroom ts.fd deadline _ hnone s ((List.append_nil got).symm ▸ hs)

theorem tsWriteAll_talk {buffer : List UInt8} {size : Nat} (hroom : size ≤ buffer.length) (deadline : Int) :
    Triple (Talk w ts sent got calls) (tsWriteAll buffer size deadline : M L Bool)
      (fun done s => ∃ moved, moved <+: buffer.take size ∧ (done = true ↔ moved = buffer.take size) ∧
        Talk w ts (sent ++ moved) got calls s) (Unfinished w) := by
  intro s hs
  have hrun : (tsWriteAll buffer size deadline : M L Bool) s =
      writeLoop (s.world.haveTls && s.ts.isSsl) s.ts.fd deadline (s.world.turns + 1) (buffer.take size) s :=
    congrFun (if_neg (Nat.not_lt.mpr hroom)) s
  rw [hrun, hs.world, hs.ts, hplain]
  exact writeLoop_talk ts.fd deadline _ _ s hs

end Messages

end Layer

/-! ### The function -/

/-- What was logged is what the talk has come to. -/
def Judged (w : World) (ts : Tsocket) (s : State) : Prop :=
  ∃ sent got, Polite sent got ∧ Talk w ts sent got (verdict sent got) s

/-- What is still to be logged at a label. -/
def Label.calls : Label → List Cba.Call
  | .exit => []
  | .readFail => [.log (.bit X11.readFail)]
  | .writeFail => [.log (.bit X11.writeFail)]

/-- Where a function of the module jumps to, or is not followed any further. -/
def Jumps (w : World) (ts : Tsocket) : Stop Label → State → Prop
  | .label l, s => ∃ sent got, Polite sent got ∧ verdict sent got = l.calls ∧ Talk w ts sent got [] s
  | e, s => Unfinished w e s

section Function

variable {w : World} {ts : Tsocket} {sent got : List UInt8} {calls : List Cba.Call}

theorem Unfinished.jumps {e : Stop Label} {s : State} (h : Unfinished w e s) : Jumps w ts e s := by
  obtain ⟨rfl, horder⟩ := h
  exact ⟨rfl, horder⟩

theorem triple_jumps {α : Type} {P : State → Prop} {Q : α → State → Prop} {x : M Label α}
    (hx : Triple P x Q (Unfinished w)) : Triple P x Q (Jumps w ts) := by
  intro s hs
  have hrun := hx s hs
  cases hxs : x s with
  | ok a s' =>
    rw [hxs] at hrun
    exact hrun
  | error e s' =>
    rw [hxs] at hrun
    exact Unfinished.jumps hrun

theorem cba_talk (c : Cba.Call) :
    Triple (Talk w ts sent got calls) (cba c : M Label Unit) (fun _ => Talk w ts sent got (calls ++ [c]))
      (Jumps w ts) :=
  fun _ hs => ⟨hs.world, hs.ts, hs.sent, hs.got, congrArg (· ++ [c]) hs.calls, hs.ret, hs.order, hs.keeps⟩

theorem polite_hello {moved : List UInt8} (h : moved <+: hello) : Polite moved [] :=
  ⟨h, fun hnone => absurd rfl hnone, fun _ => Nat.zero_le 1, Nat.zero_le 6⟩

variable (hplain : (w.haveTls && ts.isSsl) = false)

include hplain

theorem hello_talk :
    Triple (Talk w ts [] [] []) (writeOr .writeFail hello 12) (fun _ => Talk w ts hello [] [])
      (Jumps w ts) := by
  refine Triple.bind (Q := fun _ => Talk w ts [] [] []) (fun _ hs => hs) fun deadline => ?_
  refine Triple.bind (triple_jumps (tsWriteAll_talk hplain (Nat.le_refl 12) deadline)) fun done => ?_
  rintro s ⟨moved, hmoved, hdone, hs⟩
  rw [List.nil_append] at hs
  cases done with
  | true =>
    obtain rfl : moved = hello := hdone.mp rfl
    exact hs
  | false =>
    have hshort : moved ≠ hello := fun h => absurd (hdone.mpr h) (by decide)
    exact ⟨moved, [], polite_hello hmoved, if_pos hshort, hs⟩

theorem state_talk :
    Triple (Talk w ts hello [] []) (readOr .readFail 1 1)
      (fun state s => state.length = 1 ∧ Talk w ts hello state [] s) (Jumps w ts) := by
  refine Triple.bind (Q := fun _ => Talk w ts hello [] []) (fun _ hs => hs) fun deadline => ?_
  refine Triple.bind (triple_jumps (tsReadAll_talk hplain (Nat.le_refl 1) deadline)) fun state => ?_
  refine Triple.ite (fun hshort s hs => ?_) fun hlong => Triple.pure fun s hs => ⟨by omega, hs.2⟩
  obtain ⟨-, hs⟩ := hs
  obtain rfl : state = [] := List.eq_nil_of_length_eq_zero (by omega)
  exact ⟨hello, [], polite_hello List.prefix_rfl, rfl, hs⟩

theorem version_talk :
    Triple (Talk w ts hello [1] [])
      (do
        let deadline ← getDeadline
        let vbuff ← tsReadAll 5 5 deadline
        if vbuff.length = 5 ∧ vbuff[1]? = some 11 then cbaBit good else cbaBit kindaGood : M Label Unit)
      (fun _ => Judged w ts) (Jumps w ts) := by
  refine Triple.bind (Q := fun _ => Talk w ts hello [1] []) (fun _ hs => hs) fun deadline => ?_
  refine Triple.bind (triple_jumps (tsReadAll_talk hplain (Nat.le_refl 5) deadline)) fun vbuff => ?_
  have hpolite : vbuff.length ≤ 5 → Polite hello ([1] ++ vbuff) := fun hlength =>
    ⟨List.prefix_rfl, fun _ => rfl, fun h => absurd rfl h,
      by rw [List.length_append, List.length_singleton]; omega⟩
  have hverdict : verdict hello ([1] ++ vbuff) =
      if vbuff.length = 5 ∧ vbuff[1]? = some 11 then [.log (.bit good)] else [.log (.bit kindaGood)] := by
    simp [verdict]
  refine Triple.ite (fun hgood => ?_) fun hbad => ?_
  all_goals
    rintro s ⟨hlength, hs⟩
    refine ⟨hello, [1] ++ vbuff, hpolite hlength, ?_⟩
    rw [hverdict]
  · rw [if_pos hgood]
    exact cba_talk _ s hs
  · rw [if_neg hbad]
    exact cba_talk _ s hs

theorem body_talk : Triple (Talk w ts [] [] []) body (fun _ => Judged w ts) (Jumps w ts) := by
  refine Triple.bind (hello_talk hplain) fun _ => Triple.bind (state_talk hplain) fun state => ?_
  refine Triple.ite (fun hstate => Triple.stop ?_) fun hstate => ?_
  · rintro s ⟨hlength, hs⟩
    obtain ⟨b, rfl⟩ := List.length_eq_one_iff.mp hlength
    have hb : b ≠ 1 := fun h => hstate (by rw [h])
    refine ⟨hello, [b], ⟨List.prefix_rfl, fun _ => rfl, fun _ => Nat.le_refl 1, Nat.le_add_left 1 5⟩, ?_, hs⟩
    simp [verdict, Label.calls, hb]
  · obtain rfl : state = [1] := not_not.mp hstate
    exact Triple.mono (version_talk hplain) fun _ hs => hs.2

theorem labels_talk :
    Triple (Talk w ts [] [] []) (labels goto (labels goto body)) (fun _ => Judged w ts) (Unfinished w) := by
  intro s hs
  have hbody := body_talk hplain s hs
  cases hrun : body s with
  | ok a s' =>
    rw [hrun] at hbody
    rw [labels_ok (labels_ok hrun)]
    exact hbody
  | error e s' =>
    rw [hrun] at hbody
    cases e with
    | label l =>
      obtain ⟨sent, got, hpolite, hverdict, hs'⟩ := hbody
      have hgoto : labels goto (labels goto body) s = .ok () { s' with calls := s'.calls ++ l.calls } := by
        rw [labels_congr (labels_label hrun)]
        cases l with
        | exit => exact (labels_ok rfl).trans (by rw [Label.calls, List.append_nil])
        | readFail => exact labels_ok rfl
        | writeFail => exact labels_ok rfl
      rw [hgoto]
      refine ⟨sent, got, hpolite, ⟨hs'.world, hs'.ts, hs'.sent, hs'.got, ?_, hs'.ret, hs'.order, hs'.keeps⟩⟩
      rw [hverdict]
      exact congrArg (· ++ l.calls) hs'.calls
    | pending =>
      rw [labels_stop (labels_stop hrun (by simp)) (by simp)]
      exact hbody
    | wild => cases hbody.1
    | overrun => cases hbody.1

end Function

/-- A host that `check_x11` has returned for: what the two have sent each other, and how it was logged. -/
structure Answered (w : World) (s : State) : Prop where
  polite : Polite (transmitted w s.trace) (received w s.trace)
  order : HelloFirst w s.trace
  calls : s.calls = verdict (transmitted w s.trace) (received w s.trace)
  closed : ∃ before, s.trace = before ++ [.close w.conn] ∧ ∀ fd, .close fd ∉ before

theorem Judged.answered {w : World} {ts : Tsocket} {s : State} (h : Judged w ts s) (hfd : ts.fd = w.conn) :
    ∃ s', (tsClose >>= fun _ => getRet : M Label Int) s = .ok (-1) s' ∧ Answered w s' := by
  obtain ⟨sent, got, hpolite, hs⟩ := h
  have hquiet : along (taken w) s.trace [.close ts.fd] = [] ∧
    along (given w) s.trace [.close ts.fd] = [] := ⟨rfl, rfl⟩
  have hsent : transmitted w (s.trace ++ [.close ts.fd]) = sent := by
    rw [transmitted, along_append, List.nil_append, hquiet.1, List.append_nil]
    exact hs.sent
  have hgot : received w (s.trace ++ [.close ts.fd]) = got := by
    rw [received, along_append, List.nil_append, hquiet.2, List.append_nil]
    exact hs.got
  have hanswered : ∀ s' : State, s'.trace = s.trace ++ [.close ts.fd] → s'.calls = s.calls → Answered w s' := by
    intro s' htrace hcalls
    refine ⟨?_, ?_, ?_, s.trace, by rw [htrace, hfd], hs.keeps⟩
    · rw [htrace, hsent, hgot]
      exact hpolite
    · rw [htrace]
      exact hs.order.add (by simp)
    · rw [htrace, hsent, hgot]
      exact hcalls.trans hs.calls
  have hrun : (tsClose : M Label Unit) s = (if s.world.haveTls && s.ts.isSsl then
      setTs fun ts => { ts with isSsl := false, ctx := false } else pure ())
        { s.event (.close s.ts.fd) with ts := { s.ts with fd := -1 } } := rfl
  obtain ⟨s', hclose, hret, htrace, hcalls⟩ : ∃ s' : State, (tsClose : M Label Unit) s = .ok () s' ∧
      s'.ret = s.ret ∧ s'.trace = s.trace ++ [.close s.ts.fd] ∧ s'.calls = s.calls := by
    rw [hrun]
    cases s.world.haveTls && s.ts.isSsl with
    | true => exact ⟨_, rfl, rfl, rfl, rfl⟩
    | false => exact ⟨_, rfl, rfl, rfl, rfl⟩
  refine ⟨s', ?_, hanswered s' (by rw [htrace, hs.ts]) hcalls⟩
  rw [bind_ok hclose, ← hs.ret, ← hret]
  rfl

theorem helloFirst_quiet {w : World} {trace : List Event} (h : ∀ fd size, .read fd size ∉ trace) :
    HelloFirst w trace := fun before fd size hbefore =>
  absurd (hbefore.subset (List.mem_append_right before (List.mem_singleton_self _))) (h fd size)

/-- `ts_socket` leaves a socket that is not in TLS, unless it fails. -/
theorem tsSocket_talk (w : World) (htame : ¬ w.Garbled w.conn) : ∃ ts b s, (w.haveTls && ts.isSsl) = false ∧
    ts.fd = w.conn ∧ (tsSocket w.conn : M Label Bool) w.start = .ok b s ∧
    ∀ deadline, Talk w ts [] [] [] { s.event .getMs with deadline := deadline, ret := -1 } := by
  rw [tsSocket_start]
  cases hsets : w.setsFlags [.fcntl w.conn, .fcntl w.conn] with
  | true =>
    refine ⟨⟨w.conn, w.conn, false, false⟩, true, _, Bool.and_false _, rfl, rfl, fun deadline => ?_⟩
    exact ⟨rfl, rfl, rfl, rfl, rfl, rfl, helloFirst_quiet (by simp [State.event]), by simp [State.event]⟩
  | false =>
    refine ⟨⟨w.conn, w.conn, w.isSsl, false⟩, false, _, ?_, rfl, rfl, fun deadline => ?_⟩
    · rw [← Bool.not_eq_true, Bool.and_eq_true]
      exact fun h => htame ⟨h.1, h.2, hsets⟩
    · exact ⟨rfl, rfl, rfl, rfl, rfl, rfl, helloFirst_quiet (by simp [State.event]), by simp [State.event]⟩

section Runs

variable {w : World} (readTimeout : Int)

theorem checkX11_wild (hconn : w.conn ≠ -1) (hgarbled : w.Garbled w.conn) :
    ∃ s, checkX11 readTimeout w.start = .error .wild s := by
  have hsize : 11 + 1 ≤ hello.length := Nat.le_refl 12
  have hwild : Wild Untamed body := Triple.stop (writeOr_wild Label.writeFail hsize)
  have hstop : Wild (fun s => s = w.start) (checkX11 readTimeout) :=
    check_wild readTimeout hconn hgarbled hwild
  have hstop := hstop w.start rfl
  cases hrun : checkX11 readTimeout w.start with
  | ok ret s =>
    rw [hrun] at hstop
    exact hstop.elim
  | error e s =>
    rw [hrun] at hstop
    obtain rfl : e = .wild := hstop
    exact ⟨s, rfl⟩

theorem checkX11_tame (hconn : w.conn ≠ -1) (htame : ¬ w.Garbled w.conn) :
    (∃ s, checkX11 readTimeout w.start = .ok (-1) s ∧ Answered w s) ∨
      ∃ s, checkX11 readTimeout w.start = .error .pending s ∧ HelloFirst w s.trace := by
  obtain ⟨ts, b, s₁, hplain, hfd, hsocket, htalk⟩ := tsSocket_talk w htame
  obtain ⟨deadline, hdeadline⟩ : ∃ deadline, deadline =
      (s₁.world.getMs (s₁.event .getMs).trace + readTimeout) % 2 ^ 64 := ⟨_, rfl⟩
  have hrun : checkX11 readTimeout w.start = (labels goto (labels goto body) >>= fun _ => tsClose >>= fun _ =>
      getRet : M Label Int) { s₁.event .getMs with deadline := deadline, ret := -1 } := by
    rw [hdeadline]
    exact (congrFun (if_neg hconn) w.start).trans (bind_ok hsocket)
  have hlabels := labels_talk hplain _ (htalk deadline)
  rw [hrun]
  cases hend : labels goto (labels goto body) { s₁.event .getMs with deadline := deadline, ret := -1 } with
  | ok a s =>
    rw [hend] at hlabels
    obtain ⟨s', hclose, hanswered⟩ := Judged.answered hlabels hfd
    exact Or.inl ⟨s', (bind_ok hend).trans hclose, hanswered⟩
  | error e s =>
    rw [hend] at hlabels
    obtain ⟨rfl, horder⟩ := hlabels
    exact Or.inr ⟨s, bind_error hend, horder⟩

end Runs

/-- What a run of `check_x11` comes to. -/
def Outcome (w : World) : EStateM.Result (Stop Label) State Int → Prop
  | .ok ret s => ret = -1 ∧
    if w.conn = -1 then s.trace = [] ∧ s.calls = [.log (.bit connFail)] else Answered w s
  | .error .pending s => HelloFirst w s.trace
  | .error .wild _ => w.Garbled w.conn
  | .error _ _ => False

/-- Whatever a host does, `check_x11` stays in its buffers and reads nothing before it has sent all of `hello`, and if
it returns then it has closed the socket once, as the last thing, and logs what the two have sent each other comes
to. -/
theorem checkX11_outcome (w : World) (readTimeout : Int) : Outcome w (checkX11 readTimeout w.start) := by
  by_cases hconn : w.conn = -1
  · have hrun : checkX11 readTimeout w.start = _ := check_refused readTimeout hconn
    rw [hrun]
    exact ⟨rfl, (if_pos hconn).symm ▸ ⟨rfl, rfl⟩⟩
  by_cases hgarbled : w.Garbled w.conn
  · obtain ⟨s, hrun⟩ := checkX11_wild readTimeout hconn hgarbled
    rw [hrun]
    exact hgarbled
  · rcases checkX11_tame readTimeout hconn hgarbled with ⟨s, hrun, hanswered⟩ | ⟨s, hrun, horder⟩
    · rw [hrun]
      exact ⟨rfl, (if_neg hconn).symm ▸ hanswered⟩
    · rw [hrun]
      exact horder

/-- One bit at the most is logged, and its code is not 0. -/
theorem checkX11_bits {w : World} {readTimeout ret : Int} {s : State}
    (hrun : checkX11 readTimeout w.start = .ok ret s) :
    s.calls = [] ∨ ∃ c, Cba.codeNumber c ≠ 0 ∧ s.calls = [.log (.bit c)] := by
  by_cases hconn : w.conn = -1
  · have hrefused : checkX11 readTimeout w.start = _ := check_refused readTimeout hconn
    rw [hrefused] at hrun
    cases hrun
    exact Or.inr ⟨connFail, by decide, rfl⟩
  by_cases hgarbled : w.Garbled w.conn
  · obtain ⟨s', hwild⟩ := checkX11_wild readTimeout hconn hgarbled
    rw [hwild] at hrun
    cases hrun
  · rcases checkX11_tame readTimeout hconn hgarbled with ⟨s', htame, hanswered⟩ | ⟨s', hpending, -⟩
    · rw [htame] at hrun
      cases hrun
      rw [hanswered.calls]
      unfold verdict
      split_ifs
      · exact Or.inr ⟨writeFail, by decide, rfl⟩
      · exact Or.inr ⟨readFail, by decide, rfl⟩
      · exact Or.inl rfl
      · exact Or.inr ⟨good, by decide, rfl⟩
      · exact Or.inr ⟨kindaGood, by decide, rfl⟩
    · rw [hpending] at hrun
      cases hrun

end Cscan.Modules.X11
