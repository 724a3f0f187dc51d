import Cscan.Rfb.Bounds

/-! What `check_vnc` returns and logs in the end, as a function of what the server sends. -/

namespace Cscan.Rfb

open Cscan.Lib Cscan.Lib.Scanf

/-! ### The events that end a negotiation -/

/-- The code of an event that tells how the negotiation ended. -/
def endMark : Cba.Call → Option Int32
  | .code c => some c
  | .log (.bit c) => if c = win ∨ c = readFail ∨ c = writeFail ∨ c = tlsFail then some c else none
  | _ => none

def Session.marks (s : Session) : List Int32 := s.calls.filterMap endMark

/-- How a call ends. -/
inductive Ending
  /-- There is no connection or no banner. -/
  | silent
  | win
  | auth
  | failed (ret : Int) (c : Int32)
  | overrun
deriving DecidableEq

/-- The session when `check_vnc` returns. -/
def Ended : Ending → Session → Prop
  | .silent, s => s.ret = -1 ∧ s.marks = []
  | .win, s => s.ret = 1 ∧ s.marks = [win]
  | .auth, s => s.ret = 0 ∧ s.marks = []
  | .failed ret c, s => s.ret = ret ∧ s.marks = [c]
  | .overrun, _ => False

/-! ### The ending as a function of the stream -/

/-- Where a reason comes. A long one fills the buffer only in TLS. -/
def endReason (ssl : Bool) (ret : Int) (incoming : List UInt8) : Ending :=
  if incoming.length < 4 then .failed ret readFail
  else
    let size := reasonSize (incoming.take 4)
    if ssizeMax < size ∧ ssl = false then .failed ret readFail
    else if 512 < ((incoming.drop 4).take size).length then .overrun
    else if (incoming.drop 4).length < size then .failed ret readFail
    else .failed ret reason

/-- With `count` types to come, where `later` is the ending once they are there and none of them is 1. -/
def endTypes (later : List UInt8 → Ending) (count : Nat) (incoming : List UInt8) : Ending :=
  if 1 ∈ incoming.take count then .win
  else if incoming.length < count then .failed 0 readFail
  else later (incoming.take count)

/-- With a list of types to come, before which `ret` is what is returned on failure. -/
def endList (ssl : Bool) (later : List UInt8 → Ending) (ret : Int) : List UInt8 → Ending
  | [] => .failed ret readFail
  | count :: rest => if count = 0 then endReason ssl ret rest else endTypes later count.toNat rest

/-- Behind a list that has nothing but TLS. -/
def endTls (writes : Nat) (plain : Option (List UInt8)) : Ending :=
  if writes = 0 then .failed 0 writeFail
  else match plain with
    | none => .failed 0 tlsFail
    | some plain => endList true (fun _ => .auth) 0 plain

/-- Behind the types of the first list. -/
def endFirst (writes : Nat) (plain : Option (List UInt8)) (hasNontls : Bool) (types : List UInt8) : Ending :=
  if hasNontls = true ∨ ∃ t ∈ types, t ≠ tls then .auth else endTls writes plain

def endAuth (incoming : List UInt8) : Ending :=
  if incoming.length < 4 then .failed (-1) readFail
  else
    let authmode := ByteOrder.big.decodeInt (incoming.take 4)
    if authmode = 1 then .win
    else if authmode = 0 then endReason false 0 (incoming.drop 4)
    else .auth

def endVersion (writes : Nat) (plain : Option (List UInt8)) (rest : List UInt8) : Option (Int × Int) → Ending
  | none => .failed (-1) bannerFail
  | some (major, minor) =>
    if writes = 0 then .failed (-1) writeFail
    else if (remap major minor).1 = 3 ∧ (remap major minor).2 > 6 then
      endList false (endFirst (writes - 1) plain false) (-1) rest
    else endAuth rest

def Server.ending (server : Server) : Ending :=
  if server.sock = -1 ∨ server.sent.length < 12 then .silent
  else endVersion server.writes server.tls (server.sent.drop 12)
    (scanVersion (server.sent.take 12 ++ List.replicate 4 0))

/-! ### The steps -/

@[simp] theorem marks_call (s : Session) (c : Cba.Call) : (s.call c).marks = s.marks ++ (endMark c).toList := by
  cases h : endMark c <;> simp [Session.marks, Session.call, h]

/-- The ending at a label. -/
def Lands (e : Ending) : Label → Session → Prop
  | .exit, s => Ended e s
  | .readFail, s => s.marks = [] ∧ e = .failed s.ret readFail
  | .writeFail, s => s.marks = [] ∧ e = .failed s.ret writeFail
  | .readReason, s => s.marks = [] ∧ e = endReason s.isSsl s.ret s.incoming
  | .overrun, _ => e = .overrun

/-- Nothing is decided yet. -/
structure Undecided (ret : Int) (writes : Nat) (plain : Option (List UInt8)) (ssl : Bool) (s : Session) : Prop where
  marks : s.marks = []
  ret : s.ret = ret
  writes : s.writes = writes
  tls : s.tls = plain
  isSsl : s.isSsl = ssl

section Steps

variable {e : Ending} {ret : Int} {writes : Nat} {plain : Option (List UInt8)} {ssl : Bool}

theorem Undecided.read {s : Session} (h : Undecided ret writes plain ssl s) (r : Request) (rest : List UInt8) :
    Undecided ret writes plain ssl { s.request r with incoming := rest } :=
  ⟨h.marks, h.ret, h.writes, h.tls, h.isSsl⟩

theorem winAndExit_ends {Q : Unit → Session → Prop} :
    Triple (fun s => s.marks = [] ∧ e = .win) winAndExit Q (Lands e) := by
  rintro s ⟨hs, rfl⟩
  refine ⟨rfl, ?_⟩
  show (s.call (.log (.bit win))).marks = [win]
  rw [marks_call, hs]
  rfl

theorem endTypes_cons (later : List UInt8 → Ending) (count : Nat) (b : UInt8) (rest : List UInt8) :
    endTypes later (count + 1) (b :: rest) =
      if b = 1 then .win else endTypes (fun types => later (b :: types)) count rest := by
  unfold endTypes
  rw [List.take_succ_cons, List.length_cons]
  by_cases hb : b = 1
  · simp [hb]
  · simp [hb, Ne.symm hb]

/-- A list of types from its first type on. -/
theorem readType_ends {Q : List UInt8 → Session → Prop} {later : List UInt8 → Ending} {count : Nat}
    (hread : ∀ s b rest, Undecided 0 writes plain ssl s → s.incoming = b :: rest →
      e = (if b = 1 then .win else endTypes (fun types => later (b :: types)) count rest) →
      Q [b] { s.request (.read 1 1) with incoming := rest }) :
    Triple (fun s => Undecided 0 writes plain ssl s ∧ e = endTypes later (count + 1) s.incoming)
      (readOr .readFail 1 1) Q (Lands e) := by
  refine readOr_triple (Nat.le_refl 1) (by decide) ?_ ?_
  · rintro s ⟨hs, rfl⟩ hshort
    have hnil : s.incoming = [] := List.eq_nil_of_length_eq_zero (by omega)
    refine ⟨hs.marks, ?_⟩
    rw [hnil]
    simp [endTypes, Session.request, hs.ret]
  · rintro s bytes rest ⟨hs, he⟩ hincoming hlength
    obtain ⟨b, rfl⟩ := List.length_eq_one_iff.mp hlength
    rw [hincoming, List.singleton_append, endTypes_cons] at he
    exact hread s b rest hs hincoming he

theorem tlsTypes_ends (count : Nat) :
    Triple (fun s => Undecided 0 writes plain ssl s ∧ e = endTypes (fun _ => .auth) count s.incoming)
      (tlsTypes count) (fun _ s => Ended e s) (Lands e) := by
  induction count with
  | zero =>
    refine Triple.pure ?_
    rintro s ⟨hs, rfl⟩
    exact ⟨hs.ret, hs.marks⟩
  | succ count ih =>
    refine Triple.bind (Q := fun atype s => ∃ b, atype = [b] ∧ Undecided 0 writes plain ssl s ∧
      e = if b = 1 then .win else endTypes (fun _ => .auth) count s.incoming)
      (readType_ends fun s b rest hs _ he => ⟨b, rfl, hs.read _ rest, he⟩) fun atype => ?_
    refine Triple.ite (fun hone => ?_) fun hother => ?_
    · refine Triple.stop (Triple.mono winAndExit_ends ?_)
      rintro s ⟨b, hb, hs, he⟩
      obtain rfl : b = 1 := by simpa [hb] using hone
      exact ⟨hs.marks, he⟩
    · refine Triple.mono ih ?_
      rintro s ⟨b, hb, hs, he⟩
      have hne : b ≠ 1 := by simpa [hb] using hother
      rw [if_neg hne] at he
      exact ⟨hs, he⟩

theorem endFirst_cons (hasNontls : Bool) (b : UInt8) (types : List UInt8) :
    endFirst writes plain hasNontls (b :: types) = endFirst writes plain (hasNontls || [b] ≠ [tls]) types := by
  unfold endFirst
  by_cases hb : b = tls
  · simp [hb]
  · simp [hb]

theorem firstTypes_ends (count : Nat) (hasNontls : Bool) :
    Triple (fun s => Undecided 0 writes plain ssl s ∧ e = endTypes (endFirst writes plain hasNontls) count s.incoming)
      (firstTypes count hasNontls)
      (fun hasNontls s => Undecided 0 writes plain ssl s ∧ e = endFirst writes plain hasNontls []) (Lands e) := by
  induction count generalizing hasNontls with
  | zero =>
    refine Triple.pure ?_
    rintro s ⟨hs, rfl⟩
    exact ⟨hs, by simp [endTypes]⟩
  | succ count ih =>
    refine Triple.bind (Q := fun atype s => ∃ b, atype = [b] ∧ Undecided 0 writes plain ssl s ∧
      e = if b = 1 then .win
        else endTypes (fun types => endFirst writes plain hasNontls (b :: types)) count s.incoming)
      (readType_ends fun s b rest hs _ he => ⟨b, rfl, hs.read _ rest, he⟩) fun atype => ?_
    refine Triple.ite (fun hone => ?_) fun hother => ?_
    · refine Triple.stop (Triple.mono winAndExit_ends ?_)
      rintro s ⟨b, hb, hs, he⟩
      obtain rfl : b = 1 := by simpa [hb] using hone
      exact ⟨hs.marks, he⟩
    have hnext : ∀ s, (∃ b, atype = [b] ∧ Undecided 0 writes plain ssl s ∧ e = if b = 1 then .win
        else endTypes (fun types => endFirst writes plain hasNontls (b :: types)) count s.incoming) →
        Undecided 0 writes plain ssl s ∧
          e = endTypes (endFirst writes plain (hasNontls || atype ≠ [tls])) count s.incoming := by
      rintro s ⟨b, rfl, hs, he⟩
      have hne : b ≠ 1 := by simpa using hother
      rw [if_neg hne] at he
      exact ⟨hs, by rw [he]; simp only [endFirst_cons]⟩
    refine Triple.ite (fun _ => ?_) fun _ => Triple.mono (ih _) hnext
    refine Triple.bind (Q := fun _ s => Undecided 0 writes plain ssl s ∧
      e = endTypes (endFirst writes plain (hasNontls || atype ≠ [tls])) count s.incoming)
      (Triple.step (fun s => rfl) fun s hs => ?_) fun _ => ih _
    obtain ⟨hs, he⟩ := hnext s hs
    refine ⟨⟨?_, hs.ret, hs.writes, hs.tls, hs.isSsl⟩, he⟩
    rw [marks_call, hs.marks]
    rfl

theorem readCount_ends (later : List UInt8 → Ending) :
    Triple (fun s => Undecided ret writes plain ssl s ∧ e = endList ssl later ret s.incoming) readCount
      (fun count s => Undecided ret writes plain ssl s ∧ e = endTypes later count s.incoming) (Lands e) := by
  refine Triple.bind (Q := fun count s => ∃ b, count = [b] ∧ Undecided ret writes plain ssl s ∧
    e = if b = 0 then endReason ssl ret s.incoming else endTypes later b.toNat s.incoming)
    (readOr_triple (Nat.le_refl 1) (by decide) ?_ ?_) fun count => ?_
  · rintro s ⟨hs, rfl⟩ hshort
    have hnil : s.incoming = [] := List.eq_nil_of_length_eq_zero (by omega)
    refine ⟨hs.marks, ?_⟩
    rw [hnil]
    simp [endList, Session.request, hs.ret]
  · rintro s bytes rest ⟨hs, rfl⟩ hincoming hlength
    obtain ⟨b, rfl⟩ := List.length_eq_one_iff.mp hlength
    refine ⟨b, rfl, hs.read _ rest, ?_⟩
    rw [hincoming]
    rfl
  · refine Triple.ite (fun h0 => Triple.stop (Triple.throw ?_)) fun h0 => Triple.pure ?_
    · rintro s ⟨b, rfl, hs, rfl⟩
      have hzero : b = 0 := by simpa using h0
      refine ⟨hs.marks, ?_⟩
      rw [if_pos hzero, hs.ret, hs.isSsl]
    · rintro s ⟨b, rfl, hs, rfl⟩
      have hne : b ≠ 0 := by simpa using h0
      have hdecode : ByteOrder.big.decode [b] = b.toNat := by simp [ByteOrder.decode, fromLow]
      rw [hdecode, if_neg hne]
      exact ⟨hs, rfl⟩

theorem endFirst_nil (hasNontls : Bool) :
    endFirst writes plain hasNontls [] = if hasNontls = true then .auth else endTls writes plain := by
  simp [endFirst]

/-- Behind a list that has nothing but TLS. -/
theorem chooseTls_ends :
    Triple (fun s => Undecided 0 writes plain false s ∧ e = endTls writes plain)
      (do
        cbaBit onlyTls
        writeOr .writeFail [tls] 1
        goTls
        let count ← readCount
        tlsTypes count)
      (fun _ s => Ended e s) (Lands e) := by
  refine Triple.bind (Q := fun _ s => Undecided 0 writes plain false s ∧ e = endTls writes plain)
    (Triple.step (fun s => rfl) ?_) fun _ => ?_
  · rintro s ⟨hs, he⟩
    refine ⟨⟨?_, hs.ret, hs.writes, hs.tls, hs.isSsl⟩, he⟩
    rw [marks_call, hs.marks]
    rfl
  refine Triple.bind (Q := fun _ s => Undecided 0 (writes - 1) plain false s ∧ writes ≠ 0 ∧ e = endTls writes plain)
    (writeOr_triple (Nat.le_refl 1) ?_ ?_) fun _ => ?_
  · rintro s ⟨hs, rfl⟩ hzero
    refine ⟨hs.marks, ?_⟩
    unfold endTls
    rw [if_pos (hs.writes.symm.trans hzero)]
    exact congrArg (Ending.failed · writeFail) hs.ret.symm
  · rintro s ⟨hs, he⟩ hwrites
    have hwrites' : s.writes - 1 = writes - 1 := congrArg (· - 1) hs.writes
    exact ⟨⟨hs.marks, hs.ret, hwrites', hs.tls, hs.isSsl⟩, hs.writes ▸ hwrites, he⟩
  refine Triple.bind (Q := fun _ s =>
    Undecided 0 (writes - 1) none true s ∧ e = endList true (fun _ => .auth) 0 s.incoming)
    ?_ fun _ => Triple.bind (readCount_ends _) tlsTypes_ends
  rintro s ⟨hs, hwrites, he⟩
  unfold endTls at he
  rw [if_neg hwrites] at he
  unfold goTls
  cases hplain : s.tls with
  | none =>
    rw [← hs.tls, hplain] at he
    refine he ▸ ⟨hs.ret, ?_⟩
    rw [marks_call, hs.marks]
    rfl
  | some incoming =>
    rw [← hs.tls, hplain] at he
    exact ⟨⟨hs.marks, hs.ret, hs.writes, rfl, rfl⟩, he⟩

theorem listedTypes_ends :
    Triple (fun s => Undecided (-1) writes plain false s ∧
        e = endList false (endFirst writes plain false) (-1) s.incoming)
      listedTypes (fun _ s => Ended e s) (Lands e) := by
  refine Triple.bind (readCount_ends _) fun count => ?_
  refine Triple.bind (Q := fun _ s => Undecided 0 writes plain false s ∧
    e = endTypes (endFirst writes plain false) count s.incoming) (Triple.step (fun s => rfl) ?_) fun _ => ?_
  · rintro s ⟨hs, he⟩
    exact ⟨⟨hs.marks, rfl, hs.writes, hs.tls, hs.isSsl⟩, he⟩
  refine Triple.bind (firstTypes_ends count false) fun hasNontls => ?_
  refine Triple.ite (fun hnontls => Triple.pure ?_) fun htls =>
    Triple.mono (@chooseTls_ends e writes plain) ?_
  · rintro s ⟨hs, rfl⟩
    rw [endFirst_nil, if_pos hnontls]
    exact ⟨hs.ret, hs.marks⟩
  · rintro s ⟨hs, he⟩
    rw [endFirst_nil, if_neg htls] at he
    exact ⟨hs, he⟩

theorem authMode_ends :
    Triple (fun s => Undecided (-1) writes plain false s ∧ e = endAuth s.incoming) authMode
      (fun _ s => Ended e s) (Lands e) := by
  refine Triple.bind (Q := fun bytes s => s.marks = [] ∧ s.isSsl = false ∧
    e = if ByteOrder.big.decodeInt bytes = 1 then .win
      else if ByteOrder.big.decodeInt bytes = 0 then endReason false 0 s.incoming else .auth)
    (readOr_triple (Nat.le_refl 4) (by decide) ?_ ?_) fun bytes => ?_
  · rintro s ⟨hs, rfl⟩ hshort
    refine ⟨hs.marks, ?_⟩
    rw [endAuth, if_pos hshort]
    exact congrArg (Ending.failed · readFail) hs.ret.symm
  · rintro s bytes rest ⟨hs, rfl⟩ hincoming hlength
    refine ⟨hs.marks, hs.isSsl, ?_⟩
    have hlong : ¬ s.incoming.length < 4 := by
      rw [hincoming, List.length_append]
      omega
    rw [endAuth, if_neg hlong, hincoming, List.take_left' hlength, List.drop_left' hlength]
  refine Triple.bind (Q := fun _ s => s.marks = [] ∧ s.ret = 0 ∧ s.isSsl = false ∧
    e = if ByteOrder.big.decodeInt bytes = 1 then .win
      else if ByteOrder.big.decodeInt bytes = 0 then endReason false 0 s.incoming else .auth)
    (Triple.step (fun s => rfl) fun s hs => ⟨hs.1, rfl, hs.2⟩) fun _ => ?_
  refine Triple.ite (fun hone => Triple.mono winAndExit_ends ?_) fun hone =>
    Triple.ite (fun hzero => Triple.throw ?_) fun hzero => Triple.pure ?_
  · rintro s ⟨hs, -, -, rfl⟩
    exact ⟨hs, if_pos hone⟩
  · rintro s ⟨hs, hret, hplain, rfl⟩
    rw [if_neg hone, if_pos hzero]
    exact ⟨hs, by rw [hret, hplain]⟩
  · rintro s ⟨hs, hret, -, rfl⟩
    rw [if_neg hone, if_neg hzero]
    exact ⟨hret, hs⟩

theorem negotiate_ends {version : List UInt8} (hversion : version.length = 16) (v : Option (Int × Int))
    (hscan : scanVersion version = v) :
    Triple (fun s => Undecided (-1) writes plain false s ∧ e = endVersion writes plain s.incoming v)
      (negotiate version v) (fun _ s => Ended e s) (Lands e) := by
  cases v with
  | none =>
    refine Triple.bind (Q := fun _ s => s.ret = -1 ∧ s.marks = [bannerFail] ∧ e = .failed (-1) bannerFail)
      (Triple.step (fun s => rfl) ?_) fun _ => ?_
    · rintro s ⟨hs, he⟩
      refine ⟨hs.ret, ?_, he⟩
      rw [marks_call, hs.marks]
      rfl
    refine Triple.bind (Q := fun _ s => s.ret = -1 ∧ s.marks = [bannerFail] ∧ e = .failed (-1) bannerFail)
      (Triple.step (fun s => rfl) ?_) fun _ => Triple.throw ?_
    · rintro s ⟨hret, hmarks, he⟩
      refine ⟨hret, ?_, he⟩
      rw [marks_call, hmarks]
      rfl
    · rintro s ⟨hret, hmarks, rfl⟩
      exact ⟨hret, hmarks⟩
  | some v =>
    obtain ⟨major, minor⟩ := v
    obtain ⟨hmajor, hminor⟩ := scanVersion_inWidth hscan
    obtain ⟨hmajor', hminor'⟩ := remap_inWidth hmajor hminor
    have htext := length_versionLine hmajor' hminor'
    refine Triple.bind (Q := fun buffer s => buffer.length = 16 ∧ Undecided (-1) writes plain false s ∧
      e = endVersion writes plain s.incoming (some (major, minor))) ?_ fun buffer => ?_
    · rintro s ⟨hs, he⟩
      obtain ⟨buffer, hrun, hlength, -⟩ := sprintf_eq hversion htext s
      rw [hrun]
      exact ⟨hlength, ⟨hs.marks, hs.ret, hs.writes, hs.tls, hs.isSsl⟩, he⟩
    by_cases hlength : buffer.length = 16
    · refine Triple.bind (Q := fun _ s => Undecided (-1) (writes - 1) plain false s ∧
        e = if (remap major minor).1 = 3 ∧ (remap major minor).2 > 6 then
          endList false (endFirst (writes - 1) plain false) (-1) s.incoming else endAuth s.incoming)
        (writeOr_triple (by omega) ?_ ?_) fun _ => ?_
      · rintro s ⟨-, hs, rfl⟩ hzero
        refine ⟨hs.marks, ?_⟩
        rw [endVersion, if_pos (hs.writes.symm.trans hzero)]
        exact congrArg (Ending.failed · writeFail) hs.ret.symm
      · rintro s ⟨-, hs, he⟩ hwrites
        have hwrites' : s.writes - 1 = writes - 1 := congrArg (· - 1) hs.writes
        rw [endVersion, if_neg (hs.writes ▸ hwrites)] at he
        exact ⟨⟨hs.marks, hs.ret, hwrites', hs.tls, hs.isSsl⟩, he⟩
      · refine Triple.ite (fun hlisted => Triple.mono (@listedTypes_ends e (writes - 1) plain) ?_)
          fun hauth => Triple.mono (@authMode_ends e (writes - 1) plain) ?_
        · rintro s ⟨hs, he⟩
          rw [if_pos hlisted] at he
          exact ⟨hs, he⟩
        · rintro s ⟨hs, he⟩
          rw [if_neg hauth] at he
          exact ⟨hs, he⟩
    · exact fun s hs => absurd hs.1 hlength

theorem body_ends {server : Server} (hsock : server.sock ≠ -1) :
    Triple (fun s => s = server.start) body (fun _ s => Ended server.ending s) (Lands server.ending) := by
  refine Triple.bind (Q := fun bytes s => bytes.length = 12 ∧ Undecided (-1) server.writes server.tls false s ∧
    server.ending = endVersion server.writes server.tls s.incoming
      (scanVersion (bytes ++ List.replicate 4 0))) (readOr_triple (by omega) (by decide) ?_ ?_) fun bytes => ?_
  · rintro s rfl hshort
    have hending : server.ending = .silent := if_pos (Or.inr hshort)
    rw [hending]
    exact ⟨rfl, rfl⟩
  · rintro s bytes rest rfl hincoming hlength
    have hsent : server.sent = bytes ++ rest := hincoming
    refine ⟨hlength, ⟨rfl, rfl, rfl, rfl, rfl⟩, ?_⟩
    have hlong : ¬ server.sent.length < 12 := by
      rw [hsent, List.length_append]
      omega
    have htake : server.sent.take 12 = bytes := by rw [hsent, List.take_left' hlength]
    have hdrop : server.sent.drop 12 = rest := by rw [hsent, List.drop_left' hlength]
    rw [Server.ending, htake, hdrop, if_neg (by simp [hsock, hlong])]
  · by_cases hlength : bytes.length = 12
    · refine Triple.mono (@negotiate_ends _ server.writes server.tls _ (by simp [hlength]) _ rfl) ?_
      rintro s ⟨-, hs⟩
      exact hs
    · exact fun s hs => absurd hs.1 hlength

/-- What the code at `read_reason` jumps to. -/
def LandsReason (e : Ending) : Label → Session → Prop
  | .readFail, s => s.marks = [] ∧ e = .failed s.ret readFail
  | .overrun, _ => e = .overrun
  | _, _ => False

theorem readReason_ends :
    Triple (fun s => s.marks = [] ∧ e = endReason s.isSsl s.ret s.incoming) readReason
      (fun _ s => Ended e s) (LandsReason e) := by
  refine Triple.bind (Q := fun bytes s => s.marks = [] ∧
    e = if ssizeMax < reasonSize bytes ∧ s.isSsl = false then .failed s.ret readFail
      else if 512 < (s.incoming.take (reasonSize bytes)).length then .overrun
      else if s.incoming.length < reasonSize bytes then .failed s.ret readFail else .failed s.ret reason)
    (readOr_triple (Nat.le_refl 4) (by decide) ?_ ?_) fun bytes => ?_
  · rintro s ⟨hs, rfl⟩ hshort
    refine ⟨hs, ?_⟩
    rw [endReason, if_pos hshort]
    rfl
  · rintro s bytes rest ⟨hs, rfl⟩ hincoming hlength
    refine ⟨hs, ?_⟩
    have hlong : ¬ s.incoming.length < 4 := by
      rw [hincoming, List.length_append]
      omega
    rw [endReason, if_neg hlong, hincoming, List.take_left' hlength, List.drop_left' hlength]
    rfl
  change Triple _ (readOr .readFail 512 (reasonSize bytes) >>= _) _ _
  refine Triple.bind (Q := fun _ s => s.marks = [] ∧ e = .failed s.ret reason)
    (readOr_cases ?_ ?_ ?_ ?_) fun text => ?_
  · rintro s ⟨hs, rfl⟩ hfault
    exact ⟨hs, if_pos hfault⟩
  · rintro s ⟨-, rfl⟩ hsize hroom
    exact (if_neg hsize).trans (if_pos hroom)
  · rintro s ⟨hs, rfl⟩ hsize hroom hshort
    refine ⟨hs, ?_⟩
    rw [if_neg hsize, if_neg (Nat.not_lt.mpr hroom), if_pos hshort]
    rfl
  · rintro s text rest ⟨hs, rfl⟩ hsize hroom hincoming hlength
    refine ⟨hs, ?_⟩
    have hlong : ¬ s.incoming.length < reasonSize bytes := by
      rw [hincoming, List.length_append]
      omega
    rw [if_neg hsize, if_neg hlong, hincoming, List.take_left' hlength, if_neg (Nat.not_lt.mpr hroom)]
    rfl
  refine Triple.bind (Q := fun _ s => s.marks = [reason] ∧ e = .failed s.ret reason)
    (Triple.step (fun s => rfl) ?_) fun _ => Triple.step (fun s => rfl) ?_
  · rintro s ⟨hs, rfl⟩
    refine ⟨?_, rfl⟩
    rw [marks_call, hs]
    rfl
  · rintro s ⟨hs, rfl⟩
    refine ⟨rfl, ?_⟩
    rw [marks_call, hs]
    rfl

theorem fail_ends {s : Session} {c : Int32} (hc : endMark (.log (.bit c)) = some c) (hs : s.marks = [])
    (he : e = .failed s.ret c) : Ended e (s.call (.log (.bit c))) := by
  rw [he]
  refine ⟨rfl, ?_⟩
  rw [marks_call, hs, hc]
  rfl

theorem connected_ends {server : Server} (hsock : server.sock ≠ -1) :
    Triple (fun s => s = server.start) connected (fun _ s => Ended server.ending s)
      (fun _ _ => server.ending = .overrun) := by
  intro s hs
  have hbody := body_ends hsock s hs
  unfold connected
  cases hstop : body s with
  | ok _ s =>
    rw [hstop] at hbody
    exact hbody
  | error label s =>
    rw [hstop] at hbody
    cases label with
    | exit => exact hbody
    | readFail => exact fail_ends rfl hbody.1 hbody.2
    | writeFail => exact fail_ends rfl hbody.1 hbody.2
    | overrun => exact hbody
    | readReason =>
      have hends := readReason_ends s hbody
      have hgoto : goto .readReason s = readReason s := rfl
      dsimp only
      rw [hgoto]
      cases hreason : readReason s with
      | ok _ s =>
        rw [hreason] at hends
        exact hends
      | error label s =>
        rw [hreason] at hends
        cases label with
        | readFail => exact fail_ends rfl hends.1 hends.2
        | overrun => exact hends
        | exit => exact hends.elim
        | writeFail => exact hends.elim
        | readReason => exact hends.elim

end Steps

/-- `check_vnc` ends as the stream says, if it returns. -/
theorem checkVnc_ends (server : Server) :
    Triple (fun s => s = server.start) (checkVnc server.sock) (fun _ s => Ended server.ending s)
      (fun _ _ => server.ending = .overrun) := by
  refine Triple.ite (fun hsock => Triple.step (fun s => rfl) ?_) connected_ends
  rintro s rfl
  have hending : server.ending = .silent := if_pos (Or.inl hsock)
  rw [hending]
  refine ⟨rfl, ?_⟩
  rw [marks_call]
  rfl

end Cscan.Rfb
