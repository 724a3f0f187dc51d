import Cscan.Modules.Transfer

/-! One turn of each loop: what it makes of the answer that it gets. -/

namespace Cscan.Modules.Transfer

open Cscan.Lib

section Turns

variable {L : Type} {w : World} {ts : Tsocket} {ssl : Bool} {size : Nat} {deadline : Int}
  {effect : Progress → List UInt8 → Progress → Prop} {guard : List Event → List Event → Event → Prop}
  {wait : List Event → Event → Prop} {before pre post es : List Event} {e : Event} {p p' : Progress}
  {bytes bytes' : List UInt8}

/-- What a loop does with an answer. `waits` tells that no wait has failed. -/
def Follows (effect : Progress → List UInt8 → Progress → Prop) (waits : Prop) (p p' : Progress) : Answer → Prop
  | .moved bytes => bytes ≠ [] ∧ p'.ended = false ∧ effect p bytes p'
  | .want => (p'.ended = true → ¬ waits) ∧ effect p [] p'
  | .stop => p'.ended = true ∧ effect p [] p'

theorem Follows.imp {effect' : Progress → List UInt8 → Progress → Prop} {waits : Prop} {a : Answer}
    (h : Follows effect waits p p' a) (heffect : ∀ {bytes}, effect p bytes p' → effect' p bytes p') :
    Follows effect' waits p p' a := by
  cases a with
  | moved bytes => exact ⟨h.1, h.2.1, heffect h.2.2⟩
  | want => exact ⟨h.1, heffect h.2⟩
  | stop => exact ⟨h.1, heffect h.2⟩

theorem Transferred.of_answer (hpre : Quiet ssl pre) (hpost : Quiet ssl post) {a : Answer}
    (ha : answer w ts.fd ssl (before ++ pre ++ [e]) e = some a)
    (hguard : Each (guard before) before (pre ++ e :: post))
    (h : Follows effect (Each wait before (pre ++ e :: post)) p p' a) :
    Transferred w ts ssl size effect guard wait 1 before (pre ++ e :: post) p p' := by
  have hmoved : moved w ts ssl before (pre ++ e :: post) = movedBy (some a) := by
    rw [moved, along_append]
    refine (congrArg₂ _ (moved_quiet hpre) (moved_cons hpost)).trans ?_
    rw [ha]
    rfl
  have hwants : wants w ts ssl before (pre ++ e :: post) = wantedBy (some a) := by
    rw [wants, along_append]
    refine (congrArg₂ _ (wants_quiet hpre) (wants_cons hpost)).trans ?_
    rw [ha]
    rfl
  cases a with
  | moved bytes =>
    obtain ⟨hne, hgoing, heffect⟩ := h
    refine ⟨by rw [hmoved]; exact heffect, fun _ => ?_, fun hended => ?_, hguard⟩
    · rw [hmoved]
      exact Nat.le_add_right_of_le (List.length_pos_of_ne_nil hne)
    · rw [hgoing] at hended
      cases hended
  | want =>
    refine ⟨by rw [hmoved]; exact h.2, fun _ => ?_, fun hended => Or.inr (Or.inr (h.1 hended)), hguard⟩
    rw [hwants]
    exact Nat.le_add_left _ _
  | stop =>
    obtain ⟨hended, heffect⟩ := h
    refine ⟨by rw [hmoved]; exact heffect, fun hgoing => ?_, fun _ => Or.inr (Or.inl fun hgoes => ?_), hguard⟩
    · rw [hended] at hgoing
      cases hgoing
    · exact (each_append.mp hgoes).2.1 ha

/-- The loop ends because of a wait, or because it has everything. -/
theorem Transferred.of_quiet (hes : Quiet ssl es) (hguard : Each (guard before) before es)
    (hended : p'.ended = true) (hwhy : size ≤ p'.count ∨ ¬ Each wait before es)
    (heffect : effect p [] p') :
    Transferred w ts ssl size effect guard wait 1 before es p p' := by
  refine ⟨by rw [moved_quiet hes]; exact heffect, fun hgoing => ?_, fun _ => hwhy.imp_right Or.inr, hguard⟩
  rw [hended] at hgoing
  cases hgoing

/-- The bytes are in the buffer behind those that were there, and the rest of the buffer is as it was. -/
structure Stored (size : Nat) (p : Progress) (bytes : List UInt8) (p' : Progress) : Prop where
  count : p'.count = p.count + bytes.length
  le : p'.count ≤ size
  length : p'.buffer.length = p.buffer.length
  front : p'.buffer.take p'.count = p.buffer.take p.count ++ bytes
  back : p'.buffer.drop p'.count = p.buffer.drop p'.count

/-- The bytes are those of the buffer behind the ones that were taken before. -/
structure Taken (size : Nat) (p : Progress) (bytes : List UInt8) (p' : Progress) : Prop where
  count : p'.count = p.count + bytes.length
  le : p'.count ≤ size
  buffer : p'.buffer = p.buffer
  bytes : bytes = (p.buffer.drop p.count).take bytes.length

theorem stored_composes (size : Nat) : Composes size (Stored size) where
  refl _ hle := ⟨rfl, hle, rfl, (List.append_nil _).symm, rfl⟩
  trans h h' := by
    refine ⟨?_, h'.le, h'.length.trans h.length, ?_, ?_⟩
    · rw [h'.count, h.count, List.length_append, Nat.add_assoc]
    · rw [h'.front, h.front, List.append_assoc]
    · have hle := h'.count
      rw [h'.back]
      obtain ⟨k, hk⟩ := Nat.exists_eq_add_of_le (show _ ≤ _ from hle ▸ Nat.le_add_right _ _)
      rw [hk, ← List.drop_drop, h.back, List.drop_drop]
  le h := h.le
  length h := h.length

theorem taken_composes (size : Nat) : Composes size (Taken size) where
  refl _ hle := ⟨rfl, hle, rfl, List.take_zero.symm⟩
  trans h h' := by
    refine ⟨?_, h'.le, h'.buffer.trans h.buffer, ?_⟩
    · rw [h'.count, h.count, List.length_append, Nat.add_assoc]
    · rw [List.length_append, List.take_add, ← h.bytes, List.drop_drop, ← h.count, ← h.buffer, ← h'.bytes]
  le h := h.le
  length h := congrArg List.length h.buffer

theorem bmod_length {n : Nat} (hn : n < 2 ^ 31) : (n : Int).bmod (2 ^ 32) = n :=
  Int.bmod_eq_of_le (by omega) (by omega)

theorem Stored.of_store {buffer : List UInt8} (hstore : store p.buffer p.count bytes = some buffer)
    (hle : p.count + bytes.length ≤ size) (hbuffer : p'.buffer = buffer)
    (hcount : p'.count = p.count + bytes.length) : Stored size p bytes p' where
  count := hcount
  le := hcount ▸ hle
  length := by rw [hbuffer, length_store hstore]
  front := by rw [hbuffer, hcount, take_store hstore]
  back := by rw [hbuffer, hcount, drop_store le_rfl hstore]

/-- A store of what was received. -/
theorem place_eq (p : Progress) (bytes : List UInt8)
    (hroom : p.count + bytes.length ≤ p.buffer.length) (s : State) :
    ∃ buffer, store p.buffer p.count bytes = some buffer ∧
      (place p.buffer p.count bytes : M L (List UInt8)) s = .ok buffer s := by
  refine ⟨_, store_eq hroom, ?_⟩
  rw [place, store_eq hroom]
  rfl

theorem receive_follows (hsize : size < 2 ^ 31) (hgoing : p.ended = false) (hcount : p.count < size)
    (hroom : size ≤ p.buffer.length) (fd : Int) (s : State) :
    ∃ p' a, (receive fd size p : M L Progress) s = .ok p' (s.event (.read fd (size - p.count))) ∧
      answer s.world fd false (s.trace ++ [.read fd (size - p.count)]) (.read fd (size - p.count)) = some a ∧
      ∀ waits, Follows (Stored size) waits p p' a := by
  have hask : (read fd (size - p.count) : M L (Except IoErrno (List UInt8))) s =
      .ok (s.world.reads (s.trace ++ [.read fd (size - p.count)]) (size - p.count))
        (s.event (.read fd (size - p.count))) := rfl
  rw [receive, bind_ok hask]
  simp only [answer, Bool.false_eq_true, if_false]
  cases hread : s.world.reads (s.trace ++ [.read fd (size - p.count)]) (size - p.count) with
  | error c =>
    exact ⟨_, _, rfl, rfl, fun _ => ⟨rfl, rfl, hcount.le, rfl, (List.append_nil _).symm, rfl⟩⟩
  | ok bytes =>
    have hlength : bytes.length ≤ size - p.count := (World.reads_ok hread).2
    obtain ⟨buffer, hstore, hplace⟩ :=
      place_eq (L := L) p bytes (by omega) (s.event (.read fd (size - p.count)))
    simp only [Except.toOption, Option.getD_some]
    rw [bind_ok hplace, bmod_length (by omega)]
    by_cases hnil : bytes = []
    · subst hnil
      exact ⟨_, .stop, rfl, rfl, fun _ => ⟨rfl, Stored.of_store hstore hcount.le rfl rfl⟩⟩
    · have hpos : 0 < bytes.length := List.length_pos_of_ne_nil hnil
      rw [if_neg (by omega), Int.toNat_natCast]
      refine ⟨_, .moved bytes, rfl, congrArg some (if_neg hnil), fun _ => ⟨hnil, hgoing, ?_⟩⟩
      exact Stored.of_store hstore (by omega) rfl rfl

/-- What is left in the buffer of a message that it has room for. -/
theorem rest_eq (hroom : size ≤ p.buffer.length) (s : State) :
    (rest p size : M L (List UInt8)) s = .ok ((p.buffer.drop p.count).take (size - p.count)) s := by
  rw [rest, if_neg (by omega)]
  rfl

theorem length_rest (hroom : size ≤ p.buffer.length) :
    ((p.buffer.drop p.count).take (size - p.count)).length = size - p.count := by
  rw [List.length_take, List.length_drop]
  omega

theorem Taken.of_take {k : Nat} (hk : p.count + k ≤ size) (hroom : size ≤ p.buffer.length)
    (hbuffer : p'.buffer = p.buffer) (hcount : p'.count = p.count + k) :
    Taken size p (((p.buffer.drop p.count).take (size - p.count)).take k) p' := by
  have hlength : (((p.buffer.drop p.count).take (size - p.count)).take k).length = k := by
    rw [List.length_take, length_rest hroom]
    omega
  refine ⟨by rw [hlength, hcount], by omega, hbuffer, ?_⟩
  rw [hlength, List.take_take, Nat.min_eq_left (by omega)]

/-- The bytes that were taken, and that `ret` tells why there are no more. -/
def Sent (size : Nat) (p : Progress) (bytes : List UInt8) (p' : Progress) : Prop :=
  Taken size p bytes p' ∧ (p'.ended = true → p'.count < size → p'.ret ≤ 0)

theorem sent_composes (size : Nat) : Composes size (Sent size) where
  refl hgoing hle := by
    refine ⟨(taken_composes size).refl hgoing hle, ?_⟩
    rw [hgoing]
    exact fun h => absurd h Bool.false_ne_true
  trans h h' := ⟨(taken_composes size).trans h.1 h'.1, h'.2⟩
  le h := h.1.le
  length h := (taken_composes size).length h.1

theorem transmit_follows (hsize : size < 2 ^ 31) (hgoing : p.ended = false) (hcount : p.count < size)
    (hroom : size ≤ p.buffer.length) (fd : Int) (s : State) :
    ∃ e p' a, (transmit fd size p : M L Progress) s = .ok p' (s.event e) ∧
      e = .write fd ((p.buffer.drop p.count).take (size - p.count)) ∧
      answer s.world fd false (s.trace ++ [e]) e = some a ∧ ∀ waits, Follows (Sent size) waits p p' a := by
  obtain ⟨left, hleft⟩ : ∃ left, left = (p.buffer.drop p.count).take (size - p.count) := ⟨_, rfl⟩
  have hlength : left.length = size - p.count := hleft ▸ length_rest hroom
  have hask : (write fd left : M L (Except IoErrno Nat)) s =
      .ok ((s.world.write (s.trace ++ [.write fd left])).map (min left.length)) (s.event (.write fd left)) := rfl
  rw [transmit, bind_ok (rest_eq hroom s), ← hleft, bind_ok hask]
  refine ⟨.write fd left, ?_⟩
  simp only [answer, Bool.false_eq_true, if_false]
  have htaken : ∀ {p' : Progress} {k}, k ≤ size - p.count → p'.buffer = p.buffer → p'.count = p.count + k →
      Taken size p (left.take k) p' := by
    intro p' k hk hbuffer hcount'
    rw [hleft]
    exact Taken.of_take (by omega) hroom hbuffer hcount'
  cases hwrite : s.world.write (s.trace ++ [.write fd left]) with
  | error c =>
    have hnone : Taken size p [] { p with ended := true, ret := -1 } := htaken (Nat.zero_le _) rfl rfl
    exact ⟨_, _, rfl, trivial, rfl, fun _ => ⟨rfl, hnone, fun _ _ => (by decide : (-1 : Int) ≤ 0)⟩⟩
  | ok written =>
    obtain ⟨k, hk⟩ : ∃ k, k = min left.length written := ⟨_, rfl⟩
    have hle : k ≤ size - p.count := by omega
    have htake : left.take written = left.take k := by
      rw [hk, Nat.min_comm, ← List.take_eq_take_min]
    simp only [Except.map, Except.toOption, Option.getD_some, ← hk, htake]
    rw [bmod_length (by omega)]
    by_cases hzero : k = 0
    · subst hzero
      have hnone : Taken size p [] { p with ended := true, ret := 0 } := htaken (Nat.zero_le _) rfl rfl
      exact ⟨_, .stop, rfl, trivial, rfl, fun _ => ⟨rfl, hnone, fun _ _ => le_rfl⟩⟩
    · have hne : left.take k ≠ [] := by
        rw [ne_eq, List.take_eq_nil_iff, ← List.length_eq_zero_iff]
        omega
      rw [if_neg (by omega), Int.toNat_natCast]
      refine ⟨_, .moved (left.take k), rfl, trivial, congrArg some (if_neg hne), fun _ => ⟨hne, hgoing, ?_, ?_⟩⟩
      · exact htaken hle rfl rfl
      · rw [hgoing]
        exact fun h => absurd h Bool.false_ne_true

/-- The guard of a loop that waits before each transfer, unless it leaves that to the library. -/
def WaitsFirst (w : World) (ts : Tsocket) (ssl : Bool) (deadline : Int) (wantWrite : Bool)
    (start history : List Event) (e : Event) : Prop :=
  ssl = false → Guarded w ts deadline wantWrite start history e

theorem waitsFirst_extends (w : World) (ts : Tsocket) (ssl : Bool) (deadline : Int) (wantWrite : Bool) :
    Extends (WaitsFirst w ts ssl deadline wantWrite) := by
  intro start start' history e hstart hguard hplain htransfer
  obtain ⟨earlier, timeout, hearlier, hrest⟩ := hguard hplain htransfer
  exact ⟨earlier, timeout, hstart.trans hearlier, hrest⟩

theorem waitsFirst_quiet {wantWrite : Bool} {start : List Event} (hes : Quiet ssl es) :
    Each (WaitsFirst w ts ssl deadline wantWrite start) before es := by
  refine each_of_forall fun e he history hplain htransfer => ?_
  have hnone := hes e he w ts.fd history
  subst hplain
  rcases htransfer with ⟨fd, size, rfl⟩ | ⟨fd, bytes, rfl⟩ <;> cases hnone

/-- A difference that is positive tells which time comes first, for the times that `get_ms` returns. -/
theorem lt_of_towait {now : Nat} (hdeadline : 0 ≤ deadline ∧ deadline < 2 ^ 64) (hnow : now < 2 ^ 63)
    (hpos : 0 < towait deadline now) : (now : Int) < deadline := by
  unfold towait at hpos
  by_contra hlate
  rw [Int.bmod_eq_of_le (by omega) (by omega)] at hpos
  omega

/-- A turn on a plain socket. -/
theorem plain_transferred {x : M L Progress} {s : State} {wantWrite : Bool}
    (hdeadline : 0 ≤ deadline ∧ deadline < 2 ^ 64) (hclock : ∀ history, s.world.getMs history < 2 ^ 63)
    (hx : ∀ s' : State, s'.world = s.world → ∃ e p' a, x s' = .ok p' (s'.event e) ∧
      answer s.world s.ts.fd false (s'.trace ++ [e]) e = some a ∧ ∀ waits, Follows effect waits p p' a)
    (hstop : effect p [] p.stop) :
    ∃ es p',
      (tsWait deadline wantWrite >>= fun ready => if ready = true then x else pure p.stop : M L Progress) s =
        .ok p' { s with trace := s.trace ++ es } ∧
      Transferred s.world s.ts false size effect (WaitsFirst s.world s.ts false deadline wantWrite)
        (Ready s.world deadline) 1 s.trace es p p' := by
  obtain ⟨ready, es, hquiet, hrun, hlate, hready⟩ := tsWait_eq (L := L) false deadline wantWrite s
  rw [bind_ok hrun]
  cases ready with
  | false =>
    refine ⟨es, p.stop, rfl, ?_⟩
    exact Transferred.of_quiet hquiet (waitsFirst_quiet hquiet) rfl (Or.inr (hlate rfl)) hstop
  | true =>
    obtain ⟨timeout, rfl, hpos, hpoll⟩ := hready rfl
    obtain ⟨e, p', a, hturn, ha, hfollows⟩ := hx { s with trace := s.trace ++ _ } rfl
    refine ⟨_ ++ [e], p', hturn.trans ?_, Transferred.of_answer hquiet quiet_nil ha ?_ (hfollows _)⟩
    · rw [State.event, List.append_assoc]
    · refine each_append.mpr ⟨waitsFirst_quiet hquiet, fun _ _ => ?_, trivial⟩
      refine ⟨s.trace, timeout, List.prefix_refl _, ?_, lt_of_towait hdeadline (hclock _) hpos, hpoll⟩
      rw [List.append_assoc]
      rfl

/-- A wait that the library has asked for. -/
theorem waitTurn_follows (ssl : Bool) (deadline : Int) (wantWrite : Bool) (s : State)
    (hgoing : p.ended = false) (hrefl : effect p [] p) (hstop : effect p [] p.stop) :
    ∃ es p', Quiet ssl es ∧ (waitTurn deadline wantWrite p : M L Progress) s =
        .ok p' { s with trace := s.trace ++ es } ∧
      Follows effect (Waits s.world deadline s.trace es) p p' .want := by
  obtain ⟨ready, es, hquiet, hrun, hlate, -⟩ := tsWait_eq (L := L) ssl deadline wantWrite s
  cases ready with
  | false => exact ⟨es, p.stop, hquiet, by rw [waitTurn, bind_ok hrun]; rfl, fun _ => hlate rfl, hstop⟩
  | true =>
    refine ⟨es, p, hquiet, by rw [waitTurn, bind_ok hrun]; rfl, fun hended => ?_, hrefl⟩
    rw [hgoing] at hended
    cases hended

/-- A turn that calls the library, of which `f` does the rest when it has moved something. -/
theorem tls_transferred {α : Type} (e : Event) (call : World → List Event → TlsCall α)
    (bytesOf : α → List UInt8) (f : α → M L Progress) {s : State} (hctx : s.ts.ctx = true)
    (hgoing : p.ended = false)
    (hanswer : answer s.world s.ts.fd true (s.trace ++ [e]) e =
      (callResult s.world s.ts.fd (call s.world (s.trace ++ [e])) (s.trace ++ [e])).map (.ofResult bytesOf))
    (hf : ∀ a s', ∃ p', f a s' = .ok p' s' ∧ ∀ waits, Follows effect waits p p' (.ofBytes (bytesOf a)))
    (hrefl : effect p [] p) (hstop : effect p [] p.stop) {x : M L Progress}
    (hx : x s = (mbedtls e call >>= fun
      | .failed => pure p.stop
      | .wantRead => waitTurn deadline false p
      | .wantWrite => waitTurn deadline true p
      | .ok a => f a : M L Progress) s) (hguard : ∀ start history e, guard start history e) :
    (∃ es p', x s = .ok p' { s with trace := s.trace ++ es } ∧
      Transferred s.world s.ts true size effect guard (Ready s.world deadline) 1 s.trace es p p') ∨
    ∃ es, x s = .error .pending { s with trace := s.trace ++ es } := by
  rw [hx]
  obtain ⟨es, hquiet, hrun⟩ := mbedtls_eq (L := L) e call hctx
  have hguards : ∀ post, Each (guard s.trace) s.trace ([] ++ e :: post) :=
    fun post => each_of_forall fun _ _ _ => hguard _ _ _
  cases hresult : callResult s.world s.ts.fd (call s.world (s.trace ++ [e])) (s.trace ++ [e]) with
  | none =>
    rw [hresult] at hrun
    exact Or.inr ⟨e :: es, bind_error hrun⟩
  | some r =>
    rw [hresult] at hrun hanswer
    have hfirst : s.trace ++ [] ++ [e] = s.trace ++ [e] := by rw [List.append_nil]
    rw [← hfirst] at hanswer
    refine Or.inl ?_
    rw [bind_ok hrun]
    -- the wait comes behind the call, so that its events are the last ones of the turn
    have hwait : ∀ wantWrite, answer s.world s.ts.fd true (s.trace ++ [] ++ [e]) e = some .want →
        ∃ es' p', (waitTurn deadline wantWrite p : M L Progress) { s with trace := s.trace ++ e :: es } =
            .ok p' { s with trace := s.trace ++ es' } ∧
          Transferred s.world s.ts true size effect guard (Ready s.world deadline) 1 s.trace es' p p' := by
      intro wantWrite hwant
      obtain ⟨es', p', hquiet', hturn, hended, heffect⟩ := waitTurn_follows (L := L) true deadline
        wantWrite { s with trace := s.trace ++ e :: es } hgoing hrefl hstop
      have hrest : Quiet true (es ++ es') := List.forall_mem_append.mpr ⟨hquiet, hquiet'⟩
      refine ⟨e :: (es ++ es'), p', hturn.trans ?_, ?_⟩
      · rw [List.append_assoc, List.cons_append]
      · refine Transferred.of_answer quiet_nil hrest hwant (hguards _) ⟨fun h hwaits => hended h ?_, heffect⟩
        exact (each_append.mp (show Each _ s.trace ((e :: es) ++ es') from hwaits)).2
    cases r with
    | failed =>
      exact ⟨e :: es, p.stop, rfl, Transferred.of_answer quiet_nil hquiet hanswer (hguards es) ⟨rfl, hstop⟩⟩
    | wantRead => exact hwait false hanswer
    | wantWrite => exact hwait true hanswer
    | ok a =>
      obtain ⟨p', hmove, hfollows⟩ := hf a { s with trace := s.trace ++ e :: es }
      exact ⟨e :: es, p', hmove, Transferred.of_answer quiet_nil hquiet hanswer (hguards es) (hfollows _)⟩

/-- A turn that finds that everything is there. -/
theorem whole_transferred {s : State} {x : M L Progress} (hx : x = pure p.stop) (hall : size ≤ p.count)
    (hstop : effect p [] p.stop) :
    ∃ es p', x s = .ok p' { s with trace := s.trace ++ es } ∧
      Transferred w ts ssl size effect guard wait 1 s.trace es p p' := by
  subst hx
  refine ⟨[], p.stop, by rw [List.append_nil]; rfl, ?_⟩
  exact Transferred.of_quiet quiet_nil trivial rfl (Or.inl hall) hstop

theorem tsReadTurn_transfers (hsize : size < 2 ^ 31) (hdeadline : 0 ≤ deadline ∧ deadline < 2 ^ 64)
    (hclock : ∀ history, w.getMs history < 2 ^ 63) (hctx : ssl = true → ts.ctx = true) :
    Transfers w ts ssl size (Stored size) (WaitsFirst w ts ssl deadline false) (Ready w deadline) 1
      (tsReadTurn ssl ts.fd size deadline : Progress → M L Progress) := by
  intro s p hw hts hgoing hle hroom
  subst hw hts
  have hrefl : Stored size p [] p := (stored_composes size).refl hgoing hle
  have hstop : Stored size p [] p.stop := ⟨rfl, hle, rfl, (List.append_nil _).symm, rfl⟩
  by_cases hall : size ≤ p.count
  · exact Or.inl (whole_transferred (if_pos hall) hall hstop)
  · have hcount : p.count < size := not_le.mp hall
    cases ssl with
    | false =>
      refine Or.inl ?_
      have hturn : (tsReadTurn false s.ts.fd size deadline p : M L Progress) =
          tsWait deadline false >>= fun ready => if ready = true then receive s.ts.fd size p else pure p.stop :=
        if_neg hall
      rw [hturn]
      refine plain_transferred hdeadline hclock (fun s' hworld => ?_) hstop
      obtain ⟨p', a, hreceive, ha, hfollows⟩ := receive_follows (L := L) hsize hgoing hcount hroom s.ts.fd s'
      rw [hworld] at ha
      exact ⟨_, p', a, hreceive, ha, hfollows⟩
    | true =>
      refine (tls_transferred (.sslRead (size - p.count)) World.sslRead (List.take (size - p.count))
        (fun bytes => if bytes.take (size - p.count) = [] then pure p.stop else do
          let buffer ← place p.buffer p.count (bytes.take (size - p.count))
          pure { p with buffer := buffer, count := p.count + (bytes.take (size - p.count)).length })
        (hctx rfl) hgoing rfl ?_ hrefl hstop ?_ ?_).imp_right fun hpending => ⟨rfl, hpending⟩
      · intro got s'
        obtain ⟨bytes, hbytes⟩ : ∃ bytes, bytes = got.take (size - p.count) := ⟨_, rfl⟩
        have hlength : bytes.length ≤ size - p.count := hbytes ▸ List.length_take_le _ _
        rw [← hbytes]
        by_cases hnil : bytes = []
        · rw [if_pos hnil, Answer.ofBytes, if_pos hnil]
          exact ⟨_, rfl, fun _ => ⟨rfl, hstop⟩⟩
        · obtain ⟨buffer, hstore, hplace⟩ := place_eq (L := L) p bytes (by omega) s'
          rw [if_neg hnil, Answer.ofBytes, if_neg hnil, bind_ok hplace]
          exact ⟨_, rfl, fun _ => ⟨hnil, hgoing, Stored.of_store hstore (by omega) rfl rfl⟩⟩
      · refine congrFun ((if_neg hall).trans ((if_pos rfl).trans (bind_congr fun r => ?_))) s
        cases r <;> rfl
      · intro _ _ _ hplain
        cases hplain

theorem tsWriteTurn_transfers (hsize : size < 2 ^ 31) (hdeadline : 0 ≤ deadline ∧ deadline < 2 ^ 64)
    (hclock : ∀ history, w.getMs history < 2 ^ 63) (hctx : ssl = true → ts.ctx = true) :
    Transfers w ts ssl size (Taken size) (WaitsFirst w ts ssl deadline true) (Ready w deadline) 1
      (tsWriteTurn ssl ts.fd size deadline : Progress → M L Progress) := by
  intro s p hw hts hgoing hle hroom
  subst hw hts
  have hrefl : Taken size p [] p := (taken_composes size).refl hgoing hle
  have hstop : Taken size p [] p.stop := ⟨rfl, hle, rfl, List.take_zero.symm⟩
  by_cases hall : size ≤ p.count
  · exact Or.inl (whole_transferred (if_pos hall) hall hstop)
  · have hcount : p.count < size := not_le.mp hall
    cases ssl with
    | false =>
      refine Or.inl ?_
      have hturn : (tsWriteTurn false s.ts.fd size deadline p : M L Progress) =
          tsWait deadline true >>= fun ready => if ready = true then transmit s.ts.fd size p else pure p.stop :=
        if_neg hall
      rw [hturn]
      refine plain_transferred hdeadline hclock (fun s' hworld => ?_) hstop
      obtain ⟨e, p', a, htransmit, -, ha, hfollows⟩ :=
        transmit_follows (L := L) hsize hgoing hcount hroom s.ts.fd s'
      rw [hworld] at ha
      exact ⟨e, p', a, htransmit, ha, fun waits => (hfollows waits).imp fun h => h.1⟩
    | true =>
      obtain ⟨left, hleft⟩ : ∃ left, left = (p.buffer.drop p.count).take (size - p.count) := ⟨_, rfl⟩
      have hlength : left.length = size - p.count := hleft ▸ length_rest hroom
      refine (tls_transferred (.sslWrite left) World.sslWrite (fun n => left.take n)
        (fun written => if min left.length written = 0 then pure p.stop
          else pure { p with count := p.count + min left.length written })
        (hctx rfl) hgoing rfl ?_ hrefl hstop ?_ ?_).imp_right fun hpending => ⟨rfl, hpending⟩
      · intro written s'
        obtain ⟨k, hk⟩ : ∃ k, k = min left.length written := ⟨_, rfl⟩
        have htake : left.take written = left.take k := by
          rw [hk, Nat.min_comm, ← List.take_eq_take_min]
        rw [← hk, htake, Answer.ofBytes]
        by_cases hzero : k = 0
        · subst hzero
          exact ⟨_, rfl, fun _ => ⟨rfl, hstop⟩⟩
        · have hne : left.take k ≠ [] := by
            rw [ne_eq, List.take_eq_nil_iff, ← List.length_eq_zero_iff]
            omega
          rw [if_neg hzero, if_neg hne]
          refine ⟨_, rfl, fun _ => ⟨hne, hgoing, ?_⟩⟩
          rw [hleft]
          exact Taken.of_take (by omega) hroom rfl rfl
      · refine (congrFun ((if_neg hall).trans (if_pos rfl)) s).trans ((bind_ok (rest_eq hroom s)).trans ?_)
        rw [← hleft]
        refine congrFun (bind_congr fun r => ?_) s
        cases r <;> rfl
      · intro _ _ _ hplain
        cases hplain

theorem writeTurn_transfers (hsize : size < 2 ^ 31) (fd : Int) :
    Transfers w ts false size (Sent size) (fun _ _ _ => True) (fun _ _ => True) 1
      (writeTurn fd size : Progress → M L Progress) := by
  intro s p hw hts hgoing hle hroom
  subst hw hts
  refine Or.inl ?_
  by_cases hall : size ≤ p.count
  · have hstop : Sent size p [] p.stop := ⟨⟨rfl, hle, rfl, List.take_zero.symm⟩, fun _ hshort => by
      have hcount : p.count < size := hshort
      omega⟩
    exact whole_transferred (if_pos hall) hall hstop
  · obtain ⟨e, p', a, htransmit, he, ha, hfollows⟩ :=
      transmit_follows (L := L) hsize hgoing (not_le.mp hall) hroom fd s
    subst he
    have hturn : (writeTurn fd size p : M L Progress) = transmit fd size p := if_neg hall
    have hfirst : ∀ e, s.trace ++ [] ++ [e] = s.trace ++ [e] := fun e => by rw [List.append_nil]
    rw [← hfirst] at ha
    refine ⟨_, p', by rw [hturn]; exact htransmit, ?_⟩
    exact Transferred.of_answer quiet_nil quiet_nil ha
      (each_of_forall fun _ _ _ => trivial) (hfollows _)

end Turns

end Cscan.Modules.Transfer
