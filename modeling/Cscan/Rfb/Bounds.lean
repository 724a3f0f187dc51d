import Cscan.Lib.Triple
import Cscan.Rfb.CheckVnc

/-! How far a server can drive `check_vnc` outside of its buffers: no call but the read of a reason can
leave its buffer, and that one does when the length of the reason is negative as an `int`. -/

namespace Cscan.Rfb

open Cscan.Lib Cscan.Lib.Scanf

def Request.InBounds : Request → Prop
  | read capacity size => size ≤ capacity
  | write buffer size => size ≤ buffer.length
  | sprintf capacity text => text.length + 1 ≤ capacity

/-- Every call stays inside of its buffer, and the version line is the 12 bytes that are sent. -/
structure Fine (requests : List Request) : Prop where
  inBounds : ∀ r ∈ requests, r.InBounds
  version : ∀ capacity text, .sprintf capacity text ∈ requests → text.length = 12 ∧
    ∃ buffer, .write buffer 12 ∈ requests ∧ buffer.take 12 = ofChars text

/-! ### Where a reason comes -/

/-- What comes behind an empty list of security types in TLS. -/
def reasonInTls : Option (List UInt8) → Option (List UInt8)
  | some (0 :: rest) => some rest
  | _ => none

/-- What comes behind an empty list of security types, or in TLS behind a list that has nothing but TLS. -/
def reasonOfTypes (writes : Nat) (plain : Option (List UInt8)) : List UInt8 → Option (List UInt8)
  | [] => none
  | 0 :: rest => some rest
  | count :: rest =>
    if rest.take count.toNat = List.replicate count.toNat tls ∧ writes ≠ 0 then reasonInTls plain
    else none

/-- What comes behind the security type 0. -/
def reasonOfAuth : List UInt8 → Option (List UInt8)
  | 0 :: 0 :: 0 :: 0 :: rest => some rest
  | _ => none

/-- What comes behind a banner with this version. -/
def reasonOfVersion (writes : Nat) (plain : Option (List UInt8)) (rest : List UInt8) :
    Option (Int × Int) → Option (List UInt8)
  | none => none
  | some (major, minor) =>
    if writes = 0 then none
    else if (remap major minor).1 = 3 ∧ (remap major minor).2 > 6 then
      reasonOfTypes (writes - 1) plain rest
    else reasonOfAuth rest

/-- What the server sends where the protocol has a reason: its length and its text. -/
def Server.reason (server : Server) : Option (List UInt8) :=
  if server.sock = -1 ∨ server.sent.length < 12 then none
  else reasonOfVersion server.writes server.tls (server.sent.drop 12)
    (scanVersion (server.sent.take 12 ++ List.replicate 4 0))

/-! ### The version line -/

theorem scanVersion_inWidth {version : List UInt8} {major minor : Int}
    (h : scanVersion version = some (major, minor)) : InWidth 3 major ∧ InWidth 3 minor := by
  obtain ⟨_, _, h⟩ := Option.bind_eq_some_iff.mp h
  obtain ⟨_, _, h⟩ := Option.bind_eq_some_iff.mp h
  obtain ⟨_, _, h⟩ := Option.bind_eq_some_iff.mp h
  obtain ⟨⟨major', text⟩, hmajor, h⟩ := Option.bind_eq_some_iff.mp h
  obtain ⟨_, _, h⟩ := Option.bind_eq_some_iff.mp h
  obtain ⟨⟨minor', text'⟩, hminor, h⟩ := Option.bind_eq_some_iff.mp h
  cases h
  exact ⟨decimal_inWidth hmajor, decimal_inWidth hminor⟩

theorem remap_inWidth {major minor : Int} (hmajor : InWidth 3 major) (hminor : InWidth 3 minor) :
    InWidth 3 (remap major minor).1 ∧ InWidth 3 (remap major minor).2 := by
  simp only [InWidth, remap] at *
  split_ifs <;> omega

theorem length_versionLine {major minor : Int} (hmajor : InWidth 3 major) (hminor : InWidth 3 minor) :
    (versionLine major minor).length = 12 := by
  simp [versionLine, length_printPadded (Nat.le_succ 2) hmajor,
    length_printPadded (Nat.le_succ 2) hminor]

theorem Fine.nil : Fine [] := ⟨by simp, by simp⟩

theorem Fine.append {requests : List Request} (h : Fine requests) {r : Request} (hr : r.InBounds)
    (hprint : ∀ capacity text, r ≠ .sprintf capacity text) : Fine (requests ++ [r]) := by
  constructor
  · intro r' hr'
    rcases List.mem_append.mp hr' with hr' | hr'
    · exact h.inBounds r' hr'
    · rw [List.mem_singleton.mp hr']
      exact hr
  · intro capacity text hmem
    rcases List.mem_append.mp hmem with hmem | hmem
    · obtain ⟨hlength, buffer, hbuffer, htake⟩ := h.version capacity text hmem
      exact ⟨hlength, buffer, List.mem_append_left _ hbuffer, htake⟩
    · exact absurd (List.mem_singleton.mp hmem).symm (hprint capacity text)

/-! ### The steps -/

/-- With `r` to come as a reason, a jump to `read_reason` is where it comes, and any other jump is one
where none comes. -/
def Arrives (r : Option (List UInt8)) : Label → Session → Prop
  | .readReason, s => Fine s.requests ∧ r = some s.incoming
  | .overrun, _ => False
  | _, s => Fine s.requests ∧ r = none

/-- No reason is to come. -/
def Quiet (r : Option (List UInt8)) (s : Session) : Prop := Fine s.requests ∧ r = none

section Steps

variable {P : Session → Prop} {E : Label → Session → Prop} {r : Option (List UInt8)}

theorem readOr_fault {s : Session} {label : Label} {capacity size : Nat}
    (h : ssizeMax < size ∧ s.isSsl = false) :
    readOr label capacity size s = .error label (s.request (.read capacity size)) := if_pos h

theorem readOr_over {s : Session} {label : Label} {capacity size : Nat}
    (hsize : ¬ (ssizeMax < size ∧ s.isSsl = false)) (h : capacity < (s.incoming.take size).length) :
    readOr label capacity size s = .error .overrun (s.request (.read capacity size)) :=
  (if_neg hsize).trans (if_pos h)

theorem readOr_short {s : Session} {label : Label} {capacity size : Nat}
    (hsize : ¬ (ssizeMax < size ∧ s.isSsl = false))
    (hroom : (s.incoming.take size).length ≤ capacity) (h : s.incoming.length < size) :
    readOr label capacity size s = .error label { s.request (.read capacity size) with incoming := [] } := by
  have htake : (s.incoming.take size).length < size := by
    rw [List.length_take]
    omega
  exact (if_neg hsize).trans ((if_neg (Nat.not_lt.mpr hroom)).trans (if_pos htake))

theorem readOr_full {s : Session} {label : Label} {capacity size : Nat}
    (hsize : ¬ (ssizeMax < size ∧ s.isSsl = false))
    (hroom : (s.incoming.take size).length ≤ capacity) (h : size ≤ s.incoming.length) :
    readOr label capacity size s = .ok (s.incoming.take size)
      { s.request (.read capacity size) with incoming := s.incoming.drop size } := by
  have htake : ¬ (s.incoming.take size).length < size := by
    rw [List.length_take]
    omega
  exact (if_neg hsize).trans ((if_neg (Nat.not_lt.mpr hroom)).trans (if_neg htake))

/-- A read, into a buffer of any size. -/
theorem readOr_cases {Q : List UInt8 → Session → Prop} {label : Label} {capacity size : Nat}
    (hfault : ∀ s, P s → ssizeMax < size ∧ s.isSsl = false → E label (s.request (.read capacity size)))
    (hover : ∀ s, P s → ¬ (ssizeMax < size ∧ s.isSsl = false) → capacity < (s.incoming.take size).length →
      E .overrun (s.request (.read capacity size)))
    (hshort : ∀ s, P s → ¬ (ssizeMax < size ∧ s.isSsl = false) → (s.incoming.take size).length ≤ capacity →
      s.incoming.length < size → E label { s.request (.read capacity size) with incoming := [] })
    (hread : ∀ s bytes rest, P s → ¬ (ssizeMax < size ∧ s.isSsl = false) → bytes.length ≤ capacity →
      s.incoming = bytes ++ rest → bytes.length = size →
      Q bytes { s.request (.read capacity size) with incoming := rest }) :
    Triple P (readOr label capacity size) Q E := by
  intro s hs
  by_cases hsize : ssizeMax < size ∧ s.isSsl = false
  · rw [readOr_fault hsize]
    exact hfault s hs hsize
  by_cases hroom : capacity < (s.incoming.take size).length
  · rw [readOr_over hsize hroom]
    exact hover s hs hsize hroom
  have hroom : (s.incoming.take size).length ≤ capacity := Nat.not_lt.mp hroom
  by_cases hlt : s.incoming.length < size
  · rw [readOr_short hsize hroom hlt]
    exact hshort s hs hsize hroom hlt
  · have hlong : size ≤ s.incoming.length := Nat.not_lt.mp hlt
    rw [readOr_full hsize hroom hlong]
    exact hread s _ _ hs hsize hroom (List.take_append_drop _ _).symm (List.length_take_of_le hlong)

/-- A read that its buffer has room for; the buffers are on the stack. -/
theorem readOr_triple {Q : List UInt8 → Session → Prop} {label : Label} {capacity size : Nat}
    (hsize : size ≤ capacity) (hcapacity : capacity ≤ ssizeMax)
    (hshort : ∀ s, P s → s.incoming.length < size →
      E label { s.request (.read capacity size) with incoming := [] })
    (hread : ∀ s bytes rest, P s → s.incoming = bytes ++ rest → bytes.length = size →
      Q bytes { s.request (.read capacity size) with incoming := rest }) :
    Triple P (readOr label capacity size) Q E := by
  refine readOr_cases (fun s _ hfault => absurd hfault.1 (Nat.not_lt.mpr (hsize.trans hcapacity))) ?_
    (fun s hs _ _ => hshort s hs) fun s bytes rest hs _ _ => hread s bytes rest hs
  intro s _ _ hroom
  have hlength : (s.incoming.take size).length = min size s.incoming.length := List.length_take
  omega

theorem Quiet.read {s : Session} (h : Quiet r s) {capacity size : Nat} (hsize : size ≤ capacity)
    (rest : List UInt8) : Quiet r { s.request (.read capacity size) with incoming := rest } :=
  ⟨h.1.append hsize (fun _ _ h => by cases h), h.2⟩

theorem winAndExit_triple :
    Triple (Quiet r) winAndExit (fun _ _ => False) (Arrives r) := fun _ hs => hs

theorem tlsTypes_triple (count : Nat) :
    Triple (Quiet r) (tlsTypes count) (fun _ => Quiet r) (Arrives r) := by
  induction count with
  | zero => exact Triple.pure fun _ hs => hs
  | succ count ih =>
    refine Triple.bind (Q := fun _ => Quiet r) (readOr_triple (Nat.le_refl 1) (by decide) ?_ ?_) fun atype => ?_
    · exact fun s hs _ => hs.read (Nat.le_refl 1) []
    · exact fun s bytes rest hs _ _ => hs.read (Nat.le_refl 1) rest
    · exact Triple.ite (fun _ => winAndExit_triple.stop) fun _ => ih

/-- With `count` types left, a reason comes in TLS if all types are TLS. -/
def AllTls (r : Option (List UInt8)) (count : Nat) (hasNontls : Bool) (s : Session) : Prop :=
  Fine s.requests ∧ r = if hasNontls = false ∧ s.incoming.take count = List.replicate count tls ∧
    s.writes ≠ 0 then reasonInTls s.tls else none

theorem firstTypes_triple (count : Nat) (hasNontls : Bool) :
    Triple (AllTls r count hasNontls) (firstTypes count hasNontls) (AllTls r 0) (Arrives r) := by
  induction count generalizing hasNontls with
  | zero => exact Triple.pure fun _ hs => hs
  | succ count ih =>
    refine Triple.bind (Q := fun atype s => ∃ b, atype = [b] ∧ Fine s.requests ∧
      r = if hasNontls = false ∧ b :: s.incoming.take count = List.replicate (count + 1) tls ∧
        s.writes ≠ 0 then reasonInTls s.tls else none) (readOr_triple (Nat.le_refl 1) (by decide) ?_ ?_) ?_
    · rintro s ⟨hfine, hr⟩ hshort
      have hnil : s.incoming = [] := List.eq_nil_of_length_eq_zero (by omega)
      refine Quiet.read ⟨hfine, ?_⟩ (Nat.le_refl 1) []
      rw [hr, hnil]
      simp [List.replicate_succ]
    · rintro s bytes rest ⟨hfine, hr⟩ hincoming hlength
      obtain ⟨b, rfl⟩ := List.length_eq_one_iff.mp hlength
      refine ⟨b, rfl, hfine.append (Nat.le_refl 1) (fun _ _ h => by cases h), ?_⟩
      rw [hr, hincoming]
      rfl
    · intro atype
      refine Triple.ite (fun hnone => ?_) fun _ => ?_
      · refine Triple.stop (Triple.mono winAndExit_triple ?_)
        rintro s ⟨b, hb, hfine, hr⟩
        obtain rfl : b = 1 := by simpa [hb] using hnone
        refine ⟨hfine, ?_⟩
        rw [hr, List.replicate_succ]
        simp [tls]
      · have hloop : Triple (fun s => ∃ b, atype = [b] ∧ Fine s.requests ∧
            r = if hasNontls = false ∧ b :: s.incoming.take count = List.replicate (count + 1) tls ∧
              s.writes ≠ 0 then reasonInTls s.tls else none)
            (firstTypes count (hasNontls || atype ≠ [tls])) (AllTls r 0) (Arrives r) := by
          refine Triple.mono (ih _) ?_
          rintro s ⟨b, rfl, hfine, hr⟩
          refine ⟨hfine, ?_⟩
          rw [hr, List.replicate_succ]
          by_cases hb : b = tls
          · simp [hb]
          · simp [hb]
        refine Triple.ite (fun _ => ?_) fun _ => hloop
        exact Triple.bind (Triple.step (fun s => rfl) fun s hs => hs) fun _ => hloop

theorem readCount_triple {P : Session → Prop} {Q : Nat → Session → Prop}
    (hfine : ∀ s, P s → Fine s.requests) (hnone : ∀ s, P s → s.incoming = [] → r = none)
    (hzero : ∀ s rest, P s → s.incoming = 0 :: rest → r = some rest)
    (hcount : ∀ s b rest, P s → s.incoming = b :: rest → b ≠ 0 → Q b.toNat
      { s.request (.read 1 1) with incoming := rest }) :
    Triple P readCount Q (Arrives r) := by
  refine Triple.bind (Q := fun count s => ∃ b, count = [b] ∧ (b = 0 → Fine s.requests ∧
    r = some s.incoming) ∧ (b ≠ 0 → Q b.toNat s)) (readOr_triple (Nat.le_refl 1) (by decide) ?_ ?_) ?_
  · intro s hs hshort
    have hnil : s.incoming = [] := List.eq_nil_of_length_eq_zero (by omega)
    exact Quiet.read ⟨hfine s hs, hnone s hs hnil⟩ (Nat.le_refl 1) []
  · intro s bytes rest hs hincoming hlength
    obtain ⟨b, rfl⟩ := List.length_eq_one_iff.mp hlength
    refine ⟨b, rfl, fun hb => ⟨?_, ?_⟩, fun hb => hcount s b rest hs hincoming hb⟩
    · exact (hfine s hs).append (Nat.le_refl 1) fun _ _ h => by cases h
    · rw [hb] at hincoming
      exact hzero s rest hs hincoming
  · intro count
    refine Triple.ite (fun h0 => Triple.stop (Triple.throw ?_)) fun h0 => Triple.pure ?_
    · rintro s ⟨b, rfl, hb, -⟩
      exact hb (by simpa using h0)
    · rintro s ⟨b, rfl, -, hb⟩
      have hdecode : ByteOrder.big.decode [b] = b.toNat := by simp [ByteOrder.decode, fromLow]
      rw [hdecode]
      exact hb (by simpa using h0)

theorem writeOr_stop {s : Session} {label : Label} {buffer : List UInt8} {size : Nat}
    (hsize : size ≤ buffer.length) (h : s.writes = 0) :
    writeOr label buffer size s = .error label (s.request (.write buffer size)) :=
  (if_neg (Nat.not_lt.mpr hsize)).trans (if_pos h)

theorem writeOr_go {s : Session} {label : Label} {buffer : List UInt8} {size : Nat}
    (hsize : size ≤ buffer.length) (h : s.writes ≠ 0) :
    writeOr label buffer size s = .ok () { s.request (.write buffer size) with writes := s.writes - 1 } :=
  (if_neg (Nat.not_lt.mpr hsize)).trans (if_neg h)

theorem writeOr_triple {P : Session → Prop} {Q : Unit → Session → Prop} {E : Label → Session → Prop}
    {label : Label} {buffer : List UInt8} {size : Nat} (hsize : size ≤ buffer.length)
    (hstop : ∀ s, P s → s.writes = 0 → E label (s.request (.write buffer size)))
    (hgo : ∀ s, P s → s.writes ≠ 0 →
      Q () { s.request (.write buffer size) with writes := s.writes - 1 }) :
    Triple P (writeOr label buffer size) Q E := by
  intro s hs
  by_cases hwrites : s.writes = 0
  · rw [writeOr_stop hsize hwrites]
    exact hstop s hs hwrites
  · rw [writeOr_go hsize hwrites]
    exact hgo s hs hwrites

theorem goTls_triple : Triple (fun s => Fine s.requests ∧ r = reasonInTls s.tls) goTls
    (fun _ s => Fine s.requests ∧ r = reasonInTls (some s.incoming)) (Arrives r) := by
  rintro s ⟨hfine, hr⟩
  unfold goTls
  cases hplain : s.tls with
  | none =>
    rw [hplain] at hr
    exact ⟨hfine, hr⟩
  | some plain =>
    rw [hplain] at hr
    exact ⟨hfine, hr⟩

theorem listedTypes_triple :
    Triple (fun s => Fine s.requests ∧ r = reasonOfTypes s.writes s.tls s.incoming) listedTypes
      (fun _ => Quiet r) (Arrives r) := by
  refine Triple.bind (Q := fun count => AllTls r count false) (readCount_triple ?_ ?_ ?_ ?_)
    fun count => ?_
  · exact fun s hs => hs.1
  · rintro s ⟨-, hr⟩ hnil
    rw [hr, hnil]
    rfl
  · rintro s rest ⟨-, hr⟩ hzero
    rw [hr, hzero]
    rfl
  · rintro s b rest ⟨hfine, hr⟩ hincoming hb
    refine ⟨hfine.append (Nat.le_refl 1) (fun _ _ h => by cases h), ?_⟩
    rw [hr, hincoming]
    unfold reasonOfTypes
    split
    · simp_all
    · simp_all
    · simp_all [Session.request]
  refine Triple.bind (Q := fun _ => AllTls r count false) (Triple.step (fun s => rfl) fun s hs => hs)
    fun _ => ?_
  refine Triple.bind (firstTypes_triple count false) fun hasNontls => ?_
  refine Triple.ite (fun hnontls => Triple.pure ?_) fun hnontls => ?_
  · rintro s ⟨hfine, hr⟩
    refine ⟨hfine, ?_⟩
    rw [hr]
    simp [hnontls]
  have hall : ∀ s, AllTls r 0 hasNontls s →
      Fine s.requests ∧ r = if s.writes ≠ 0 then reasonInTls s.tls else none := by
    rintro s ⟨hfine, hr⟩
    refine ⟨hfine, ?_⟩
    rw [hr]
    simp [hnontls]
  refine Triple.bind (Q := fun _ s => Fine s.requests ∧
    r = if s.writes ≠ 0 then reasonInTls s.tls else none) (Triple.step (fun s => rfl) hall) fun _ => ?_
  refine Triple.bind (Q := fun _ s => Fine s.requests ∧ r = reasonInTls s.tls)
    (writeOr_triple (Nat.le_refl 1) ?_ ?_) fun _ => Triple.bind goTls_triple fun _ => ?_
  · rintro s ⟨hfine, hr⟩ hwrites
    refine ⟨hfine.append (Nat.le_refl 1) (fun _ _ h => by cases h), ?_⟩
    rw [hr]
    simp [hwrites]
  · rintro s ⟨hfine, hr⟩ hwrites
    refine ⟨hfine.append (Nat.le_refl 1) (fun _ _ h => by cases h), ?_⟩
    rw [hr, if_pos hwrites]
    rfl
  refine Triple.bind (Q := fun _ => Quiet r) (readCount_triple ?_ ?_ ?_ ?_) tlsTypes_triple
  · exact fun s hs => hs.1
  · rintro s ⟨-, hr⟩ hnil
    rw [hr, hnil]
    rfl
  · rintro s rest ⟨-, hr⟩ hzero
    rw [hr, hzero]
    rfl
  · rintro s b rest ⟨hfine, hr⟩ hincoming hb
    refine Quiet.read ⟨hfine, ?_⟩ (Nat.le_refl 1) rest
    rw [hr, hincoming]
    unfold reasonInTls
    split
    · simp_all
    · rfl

theorem authMode_triple :
    Triple (fun s => Fine s.requests ∧ r = reasonOfAuth s.incoming) authMode
      (fun _ => Quiet r) (Arrives r) := by
  refine Triple.bind (Q := fun bytes s => Fine s.requests ∧ r = reasonOfAuth (bytes ++ s.incoming) ∧
    bytes.length = 4) (readOr_triple (Nat.le_refl 4) (by decide) ?_ ?_) fun bytes => ?_
  · rintro s ⟨hfine, hr⟩ hshort
    refine Quiet.read ⟨hfine, ?_⟩ (Nat.le_refl 4) []
    rw [hr]
    unfold reasonOfAuth
    split
    · simp_all
      omega
    · rfl
  · rintro s bytes rest ⟨hfine, hr⟩ hincoming hlength
    refine ⟨hfine.append (Nat.le_refl 4) (fun _ _ h => by cases h), ?_, hlength⟩
    rw [hr, hincoming]
  have hother : ∀ s, (Fine s.requests ∧ r = reasonOfAuth (bytes ++ s.incoming) ∧ bytes.length = 4) →
      ByteOrder.big.decodeInt bytes ≠ 0 → Quiet r s := by
    rintro s ⟨hfine, hr, hlength⟩ hne
    refine ⟨hfine, ?_⟩
    obtain ⟨a, b, c, d, rfl⟩ := List.length_eq_four.mp hlength
    rw [hr, List.cons_append, List.cons_append, List.cons_append, List.cons_append, List.nil_append]
    unfold reasonOfAuth
    split
    · rename_i heq
      cases heq
      exact absurd rfl hne
    · rfl
  refine Triple.bind (Q := fun _ s => Fine s.requests ∧ r = reasonOfAuth (bytes ++ s.incoming) ∧
    bytes.length = 4) (Triple.step (fun s => rfl) fun s hs => hs) fun _ => ?_
  refine Triple.ite (fun hone => Triple.mono ?_ fun s hs => hother s hs (by omega)) fun _ => ?_
  · exact fun s hs => hs
  refine Triple.ite (fun hzero => Triple.throw ?_) fun hne => Triple.pure fun s hs => hother s hs hne
  rintro s ⟨hfine, hr, hlength⟩
  have hbytes := ByteOrder.eq_encode_of_decodeInt (n := 0) hzero
  rw [hlength] at hbytes
  rw [hbytes] at hr
  exact ⟨hfine, hr⟩

end Steps

theorem Fine.send {requests : List Request} (h : Fine requests) {text : List Char}
    {buffer : List UInt8} (htext : text.length = 12) (hbuffer : buffer.length = 16)
    (htake : buffer.take 12 = ofChars text) :
    Fine (requests ++ [.sprintf 16 text] ++ [.write buffer 12]) := by
  constructor
  · intro r hr
    simp only [List.append_assoc, List.mem_append, List.cons_append, List.nil_append, List.mem_cons,
      List.not_mem_nil, or_false] at hr
    rcases hr with hr | rfl | rfl
    · exact h.inBounds r hr
    · show text.length + 1 ≤ 16
      omega
    · show 12 ≤ buffer.length
      omega
  · intro capacity text' hmem
    simp only [List.append_assoc, List.mem_append, List.cons_append, List.nil_append, List.mem_cons,
      List.not_mem_nil, or_false, reduceCtorEq, Request.sprintf.injEq] at hmem ⊢
    rcases hmem with hmem | ⟨-, rfl⟩
    · obtain ⟨hlength, buffer', hbuffer', htake'⟩ := h.version capacity text' hmem
      exact ⟨hlength, buffer', Or.inl hbuffer', htake'⟩
    · exact ⟨htext, buffer, Or.inr (by simp), htake⟩

/-- What `sprintf` leaves in the buffer. -/
theorem sprintf_eq {version : List UInt8} {text : List Char} (hversion : version.length = 16)
    (htext : text.length = 12) (s : Session) :
    ∃ buffer, sprintf version text s = .ok buffer (s.request (.sprintf 16 text)) ∧
      buffer.length = 16 ∧ buffer.take 12 = ofChars text := by
  have hchars : (ofChars text).length = 12 := by simp [ofChars, htext]
  obtain ⟨buffer, hbuffer⟩ : ∃ buffer, store version 0 (ofChars text ++ [0]) = some buffer :=
    ⟨_, store_eq (by simp [hchars, hversion])⟩
  refine ⟨buffer, ?_, (length_store hbuffer).trans hversion, ?_⟩
  · simp only [sprintf, hversion, hbuffer]
  · have htake := congrArg (List.take 12) (take_store hbuffer)
    simpa [List.take_take, hchars] using htake

theorem negotiate_triple {r : Option (List UInt8)} {version : List UInt8}
    (hversion : version.length = 16) (v : Option (Int × Int)) (hscan : scanVersion version = v) :
    Triple (fun s => Fine s.requests ∧ r = reasonOfVersion s.writes s.tls s.incoming v)
      (negotiate version v) (fun _ => Quiet r) (Arrives r) := by
  cases v with
  | none =>
    refine Triple.bind (Q := fun _ => Quiet r) (Triple.step (fun s => rfl) fun s hs => hs) fun _ => ?_
    refine Triple.bind (Q := fun _ => Quiet r) (Triple.step (fun s => rfl) fun s hs => hs) fun _ => ?_
    exact Triple.throw fun s hs => hs
  | some v =>
    obtain ⟨major, minor⟩ := v
    obtain ⟨hmajor, hminor⟩ := scanVersion_inWidth hscan
    obtain ⟨hmajor', hminor'⟩ := remap_inWidth hmajor hminor
    have htext := length_versionLine hmajor' hminor'
    refine Triple.bind (Q := fun buffer s => buffer.length = 16 ∧
      Fine (s.requests ++ [.write buffer 12]) ∧
      r = reasonOfVersion s.writes s.tls s.incoming (some (major, minor))) ?_ fun buffer => ?_
    · rintro s ⟨hfine, hr⟩
      obtain ⟨buffer, hrun, hlength, htake⟩ := sprintf_eq hversion htext s
      rw [hrun]
      exact ⟨hlength, hfine.send htext hlength htake, hr⟩
    by_cases hlength : buffer.length = 16
    · refine Triple.bind (Q := fun _ s => Fine s.requests ∧
        r = if (remap major minor).1 = 3 ∧ (remap major minor).2 > 6 then
          reasonOfTypes s.writes s.tls s.incoming else reasonOfAuth s.incoming)
        (writeOr_triple (by omega) ?_ ?_) fun _ => ?_
      · rintro s ⟨-, hfine, hr⟩ hwrites
        rw [reasonOfVersion, if_pos hwrites] at hr
        exact ⟨hfine, hr⟩
      · rintro s ⟨-, hfine, hr⟩ hwrites
        rw [reasonOfVersion, if_neg hwrites] at hr
        exact ⟨hfine, hr⟩
      · refine Triple.ite (fun hlisted => ?_) fun hauth => ?_
        · refine Triple.mono listedTypes_triple ?_
          rintro s ⟨hfine, hr⟩
          rw [if_pos hlisted] at hr
          exact ⟨hfine, hr⟩
        · refine Triple.mono authMode_triple ?_
          rintro s ⟨hfine, hr⟩
          rw [if_neg hauth] at hr
          exact ⟨hfine, hr⟩
    · exact fun s hs => absurd hs.1 hlength

theorem body_triple (server : Server) (hsock : server.sock ≠ -1) :
    Triple (fun s => s = server.start) body (fun _ => Quiet server.reason)
      (Arrives server.reason) := by
  refine Triple.bind (Q := fun bytes s => bytes.length = 12 ∧ Fine s.requests ∧
    server.reason = reasonOfVersion s.writes s.tls s.incoming
      (scanVersion (bytes ++ List.replicate 4 0))) (readOr_triple (by omega) (by decide) ?_ ?_) fun bytes => ?_
  · rintro s rfl hshort
    refine Quiet.read ⟨Fine.nil, ?_⟩ (by omega) []
    exact if_pos (Or.inr hshort)
  · rintro s bytes rest rfl hincoming hlength
    have hsent : server.sent = bytes ++ rest := hincoming
    refine ⟨hlength, Fine.nil.append (Nat.le_add_left 12 4) (fun _ _ h => by cases h), ?_⟩
    have hlong : ¬ server.sent.length < 12 := by
      rw [hsent, List.length_append]
      omega
    have htake : server.sent.take 12 = bytes := by rw [hsent, List.take_left' hlength]
    have hdrop : server.sent.drop 12 = rest := by rw [hsent, List.drop_left' hlength]
    rw [Server.reason, htake, hdrop, if_neg (by simp [hsock, hlong])]
    rfl
  · by_cases hlength : bytes.length = 12
    · refine Triple.mono (negotiate_triple (by simp [hlength]) _ rfl) ?_
      rintro s ⟨-, hs⟩
      exact hs
    · exact fun s hs => absurd hs.1 hlength

/-! ### The reason -/

/-- The number of bytes that `MIN(len, 511)` asks for. -/
def reasonSize (bytes : List UInt8) : Nat :=
  let len := ByteOrder.big.decodeInt bytes
  sizeT (if len < 511 then len else 511)

/-- What the code at `read_reason` asks for when `incoming` is to come. -/
def Asks (incoming : List UInt8) (before after : List Request) : Prop :=
  (incoming.length < 4 ∧ after = before ++ [.read 4 4]) ∨
    ∃ bytes rest, incoming = bytes ++ rest ∧ bytes.length = 4 ∧
      after = before ++ [.read 4 4] ++ [.read 512 (reasonSize bytes)]

theorem readOr_requests (requests : List Request) (label : Label) (capacity size : Nat) :
    Triple (fun s => s.requests = requests) (readOr label capacity size)
      (fun _ s => s.requests = requests ++ [.read capacity size])
      (fun l s => (l = label ∨ l = .overrun) ∧ s.requests = requests ++ [.read capacity size]) := by
  refine readOr_cases ?_ ?_ ?_ ?_
  · rintro s rfl _
    exact ⟨Or.inl rfl, rfl⟩
  · rintro s rfl _ _
    exact ⟨Or.inr rfl, rfl⟩
  · rintro s rfl _ _ _
    exact ⟨Or.inl rfl, rfl⟩
  · rintro s bytes rest rfl _ _ _ _
    rfl

theorem readReason_triple (s₀ : Session) :
    Triple (fun s => s = s₀) readReason (fun _ s => Asks s₀.incoming s₀.requests s.requests)
      (fun l s => (l = .readFail ∨ l = .overrun) ∧ Asks s₀.incoming s₀.requests s.requests) := by
  refine Triple.bind (Q := fun bytes s => s.requests = s₀.requests ++ [.read 4 4] ∧
    bytes.length = 4 ∧ ∃ rest, s₀.incoming = bytes ++ rest)
    (readOr_triple (Nat.le_refl 4) (by decide) ?_ ?_) fun bytes => ?_
  · rintro s rfl hshort
    exact ⟨Or.inl rfl, Or.inl ⟨hshort, rfl⟩⟩
  · rintro s bytes rest rfl hincoming hlength
    exact ⟨rfl, hlength, rest, hincoming⟩
  intro s ⟨hrequests, hlength, rest, hincoming⟩
  have hasks : ∀ after, after = s₀.requests ++ [.read 4 4] ++ [.read 512 (reasonSize bytes)] →
      Asks s₀.incoming s₀.requests after := fun after hafter =>
    Or.inr ⟨bytes, rest, hincoming, hlength, hafter⟩
  have hread : Triple (fun s => s.requests = s₀.requests ++ [.read 4 4])
      (do
        let reasonStr ← readOr .readFail 512 (reasonSize bytes)
        cba (.code reason)
        cba (.log (.str (ofChars "Error: ".toList ++ cString reasonStr))))
      (fun _ s => Asks s₀.incoming s₀.requests s.requests)
      (fun l s => (l = .readFail ∨ l = .overrun) ∧ Asks s₀.incoming s₀.requests s.requests) := by
    refine Triple.bind (Q := fun _ s => Asks s₀.incoming s₀.requests s.requests) ?_ fun _ => ?_
    · intro s hs
      have hrun := readOr_requests _ .readFail 512 (reasonSize bytes) s hs
      split at hrun
      · exact hasks _ hrun
      · exact ⟨hrun.1, hasks _ hrun.2⟩
    · refine Triple.bind (Q := fun _ s => Asks s₀.incoming s₀.requests s.requests)
        (Triple.step (fun s => rfl) fun s hs => hs) fun _ => ?_
      exact Triple.step (fun s => rfl) fun s hs => hs
  exact hread s hrequests

theorem session_requests {server : Server} (hsock : server.sock ≠ -1) :
    (Fine server.session.requests ∧ server.reason = none) ∨
      ∃ before incoming, Fine before ∧ server.reason = some incoming ∧
        Asks incoming before server.session.requests := by
  have hbody := body_triple server hsock server.start rfl
  have hrun : checkVnc server.sock = connected := if_neg hsock
  rw [Server.session, hrun, connected]
  cases hstop : body server.start with
  | ok _ s =>
    rw [hstop] at hbody
    exact Or.inl hbody
  | error label s =>
    rw [hstop] at hbody
    cases label with
    | exit => exact Or.inl hbody
    | readFail => exact Or.inl hbody
    | writeFail => exact Or.inl hbody
    | overrun => exact hbody.elim
    | readReason =>
      refine Or.inr ⟨s.requests, s.incoming, hbody.1, hbody.2, ?_⟩
      have hasks := readReason_triple s s rfl
      have hgoto : goto .readReason s = readReason s := rfl
      dsimp only
      rw [hgoto]
      cases hreason : readReason s with
      | ok _ s' =>
        rw [hreason] at hasks
        exact hasks
      | error l s' =>
        rw [hreason] at hasks
        obtain ⟨rfl | rfl, hasks⟩ := hasks
        · exact hasks
        · exact hasks

theorem reasonSize_le_iff {len : Nat} (hlen : len < 2 ^ 32) :
    reasonSize (ByteOrder.big.encode 4 len) ≤ 512 ↔ len < 2 ^ 31 := by
  have hint := @ByteOrder.decodeInt_encode .big 4 len (by omega)
  simp only [reasonSize, hint, sizeT]
  split_ifs <;> omega

/-- A size that a memory has room for is one that the buffer has room for. -/
theorem reasonSize_le {bytes : List UInt8} (hsize : reasonSize bytes ≤ ssizeMax) (hlength : bytes.length = 4) :
    reasonSize bytes ≤ 512 := by
  obtain ⟨len, hlen, rfl⟩ := ByteOrder.big.exists_encode hlength
  have hint := @ByteOrder.decodeInt_encode .big 4 len (by omega)
  simp only [reasonSize, hint, sizeT, ssizeMax] at hsize ⊢
  split_ifs at hsize ⊢ <;> omega

/-- Every call of `check_vnc` stays inside of its buffer, and the version line is the 12 bytes that are
sent, unless the server announces a reason of 2³¹ bytes or more. -/
theorem checkVnc_inBounds_iff (server : Server) :
    Fine server.session.requests ↔ ∀ len < 2 ^ 32, ∀ text,
      server.reason = some (ByteOrder.big.encode 4 len ++ text) → len < 2 ^ 31 := by
  by_cases hsock : server.sock = -1
  · have hreason : server.reason = none := if_pos (Or.inl hsock)
    have hrun : checkVnc server.sock = cbaBit connFail := if_pos hsock
    have hrequests : server.session.requests = [] := by
      rw [Server.session, hrun]
      rfl
    rw [hrequests, hreason]
    exact ⟨fun _ _ _ _ h => (by cases h), fun _ => Fine.nil⟩
  rcases session_requests hsock with ⟨hfine, hreason⟩ | ⟨before, incoming, hfine, hreason, hasks⟩
  · rw [hreason]
    exact ⟨fun _ _ _ _ h => (by cases h), fun _ => hfine⟩
  rw [hreason]
  rcases hasks with ⟨hshort, hafter⟩ | ⟨bytes, rest, hincoming, hlength, hafter⟩
  · rw [hafter]
    refine ⟨fun _ len _ text htext => ?_, fun _ =>
      hfine.append (Nat.le_refl 4) fun _ _ h => by cases h⟩
    have hincoming := Option.some.inj htext
    rw [hincoming, List.length_append, ByteOrder.length_encode] at hshort
    omega
  · obtain ⟨len, hlen, rfl⟩ := ByteOrder.big.exists_encode hlength
    have hsize := reasonSize_le_iff hlen
    rw [hafter, hincoming]
    constructor
    · intro hfine' len' hlen' text htext
      have hencode := (List.append_inj (Option.some.inj htext) (by simp)).1
      have hdecode := congrArg ByteOrder.big.decode hencode
      rw [ByteOrder.decode_encode (by omega), ByteOrder.decode_encode (by omega)] at hdecode
      rw [← hdecode, ← hsize]
      exact hfine'.inBounds _ (List.mem_append_right _ List.mem_cons_self)
    · intro hsmall
      have hread := hfine.append (r := .read 4 4) (Nat.le_refl 4) fun _ _ h => by cases h
      exact hread.append (hsize.mpr (hsmall len hlen rest rfl)) fun _ _ h => by cases h

/-- A server that names no security type, and announces a reason of 2³² - 1 bytes. -/
def longReason : Server where
  sock := 3
  sent := ofChars "RFB 003.008\n".toList ++ [0, 255, 255, 255, 255]
  tls := none
  writes := 1

theorem longReason_overruns :
    .read 512 (2 ^ 64 - 1) ∈ longReason.session.requests ∧ ¬ Fine longReason.session.requests := by
  have hmem : .read 512 (2 ^ 64 - 1) ∈ longReason.session.requests := by
    have hrequests : longReason.session.requests.getLast? = some (.read 512 (2 ^ 64 - 1)) := by
      decide +kernel
    exact List.mem_of_getLast? hrequests
  refine ⟨hmem, fun hfine => ?_⟩
  have hbound : 2 ^ 64 - 1 ≤ 512 := hfine.inBounds _ hmem
  omega

end Cscan.Rfb
