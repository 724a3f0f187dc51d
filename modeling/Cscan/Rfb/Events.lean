import Cscan.Cba.RoundTrip
import Cscan.Rfb.Ending

/-! The events that `check_vnc` logs. Each has a code that is not 0 and reads back from a CBA file as it was logged. -/

namespace Cscan.Rfb

open Cscan.Lib Cscan.Lib.Scanf
open Cba (Labelled)

/-- An event that is read back, under a code that is not the one of the address in front of it. -/
structure Coded (l : Labelled) : Prop where
  plain : l.Plain
  code : l.logged.code ≠ 0
  /-- A bit has its own code. -/
  alone : l.code = none ∨ ∀ c, l.event ≠ .bit c
  noFile : ∀ name reads, l.event ≠ .file name reads

/-- The calls log events, one after the other. -/
def Reports (calls : List Cba.Call) : Prop :=
  ∃ events : List Labelled, calls = events.flatMap Labelled.calls ∧ ∀ l ∈ events, Coded l

theorem Reports.add {calls : List Cba.Call} (h : Reports calls) {l : Labelled} (hl : Coded l) :
    Reports (calls ++ l.calls) := by
  obtain ⟨events, rfl, hevents⟩ := h
  refine ⟨events ++ [l], by rw [List.flatMap_append, List.flatMap_singleton], fun l' hl' => ?_⟩
  rcases List.mem_append.mp hl' with hl' | hl'
  · exact hevents l' hl'
  · exact List.mem_singleton.mp hl' ▸ hl

/-- The code is set by a call of its own. -/
theorem Reports.addUnder {calls : List Cba.Call} (h : Reports calls) {c : Int32} {event : Cba.Logged}
    (hl : Coded ⟨some c, event⟩) : Reports (calls ++ [.code c] ++ [.log event]) := by
  rw [List.append_assoc]
  exact h.add hl

theorem coded_bit {c : Int32} (hc : Cba.codeNumber c ≠ 0) : Coded ⟨none, .bit c⟩ :=
  ⟨trivial, hc, Or.inl rfl, fun _ _ h => by cases h⟩

theorem coded_banner (version : List UInt8) : Coded ⟨some bannerFail, .data version⟩ :=
  ⟨trivial, show Cba.codeNumber bannerFail ≠ 0 by decide, Or.inr (fun _ h => by cases h), fun _ _ h => by cases h⟩

/-- What is left of the buffer for the reason, up to its `NUL`. -/
theorem coded_reason {buffer : List UInt8} (hlength : buffer.length ≤ 512) :
    Coded ⟨some reason, .str (ofChars "Error: ".toList ++ cString buffer)⟩ := by
  refine ⟨⟨?_, ?_⟩, show Cba.codeNumber reason ≠ 0 by decide, Or.inr (fun _ h => by cases h),
    fun _ _ h => by cases h⟩
  · rw [List.mem_append]
    rintro (h | h)
    · exact absurd h (by decide)
    · simpa using List.mem_takeWhile_imp h
  · have htaken : (cString buffer).length ≤ buffer.length := (List.takeWhile_sublist _).length_le
    have herror : (ofChars "Error: ".toList).length = 7 := by decide
    rw [List.length_append, herror]
    show 7 + (cString buffer).length < 32768
    omega

/-! ### What each function keeps -/

/-- Whether the program returns or jumps, only events are logged. -/
def KeepsReport {α : Type} (x : M α) : Prop :=
  Triple (fun s => Reports s.calls) x (fun _ s => Reports s.calls) (fun _ s => Reports s.calls)

section Keeps

variable {α β : Type}

theorem KeepsReport.pure (a : α) : KeepsReport (Pure.pure a : M α) := fun _ hs => hs

theorem KeepsReport.throw (l : Label) : KeepsReport (throw l : M α) := fun _ hs => hs

theorem KeepsReport.bind {x : M α} {f : α → M β} (hx : KeepsReport x) (hf : ∀ a, KeepsReport (f a)) :
    KeepsReport (x >>= f) := Triple.bind hx hf

theorem KeepsReport.ite {c : Prop} [Decidable c] {x y : M α} (hx : KeepsReport x) (hy : KeepsReport y) :
    KeepsReport (if c then x else y) := Triple.ite (fun _ => hx) fun _ => hy

theorem keeps_cbaBit {c : Int32} (hc : Cba.codeNumber c ≠ 0) : KeepsReport (cbaBit c) :=
  fun _ hs => hs.add (coded_bit hc)

theorem keeps_setRet (ret : Int) : KeepsReport (setRet ret) := fun _ hs => hs

/-- A read gives no more than there is room for. -/
theorem readOr_fits (label : Label) (capacity size : Nat) :
    Triple (fun s => Reports s.calls) (readOr label capacity size)
      (fun bytes s => bytes.length ≤ capacity ∧ Reports s.calls) (fun _ s => Reports s.calls) := by
  intro s hs
  unfold readOr
  dsimp only
  split_ifs with hfault hover hshort
  · exact hs
  · exact hs
  · exact hs
  · exact ⟨Nat.not_lt.mp hover, hs⟩

theorem keeps_readOr (label : Label) (capacity size : Nat) : KeepsReport (readOr label capacity size) :=
  (readOr_fits label capacity size).post fun _ _ h => h.2

theorem keeps_writeOr (label : Label) (buffer : List UInt8) (size : Nat) :
    KeepsReport (writeOr label buffer size) := by
  intro s hs
  unfold writeOr
  dsimp only
  split_ifs <;> exact hs

theorem keeps_sprintf (buffer : List UInt8) (text : List Char) : KeepsReport (sprintf buffer text) := by
  intro s hs
  unfold sprintf
  dsimp only
  cases store buffer 0 (ofChars text ++ [0]) with
  | none => exact hs
  | some stored => exact hs

theorem keeps_goTls : KeepsReport goTls := by
  intro s hs
  unfold goTls
  cases s.tls with
  | none => exact hs.add (coded_bit (by decide))
  | some plain => exact hs

theorem keeps_winAndExit : KeepsReport winAndExit :=
  (keeps_cbaBit (by decide)).bind fun _ => (keeps_setRet 1).bind fun _ => .throw .exit

theorem keeps_firstTypes (count : Nat) (hasNontls : Bool) : KeepsReport (firstTypes count hasNontls) := by
  induction count generalizing hasNontls with
  | zero => exact .pure hasNontls
  | succ count ih =>
    refine (keeps_readOr .readFail 1 1).bind fun atype => .ite (keeps_winAndExit.bind fun _ => ?_) ?_
    all_goals exact .ite ((keeps_cbaBit (by decide)).bind fun _ => ih _) (ih _)

theorem keeps_tlsTypes (count : Nat) : KeepsReport (tlsTypes count) := by
  induction count with
  | zero => exact .pure ()
  | succ count ih =>
    exact (keeps_readOr .readFail 1 1).bind fun atype => .ite (keeps_winAndExit.bind fun _ => ih) ih

theorem keeps_readCount : KeepsReport readCount :=
  (keeps_readOr .readFail 1 1).bind fun _ => .ite (.bind (.throw .readReason) fun _ => .pure _) (.pure _)

theorem keeps_listedTypes : KeepsReport listedTypes := by
  refine keeps_readCount.bind fun count => (keeps_setRet 0).bind fun _ => ?_
  refine (keeps_firstTypes count false).bind fun hasNontls => .ite (.pure _) ?_
  refine (keeps_cbaBit (by decide)).bind fun _ => (keeps_writeOr .writeFail [tls] 1).bind fun _ => ?_
  exact keeps_goTls.bind fun _ => keeps_readCount.bind fun count => keeps_tlsTypes count

theorem keeps_authMode : KeepsReport authMode := by
  refine (keeps_readOr .readFail 4 4).bind fun bytes => (keeps_setRet 0).bind fun _ => ?_
  exact .ite keeps_winAndExit (.ite (.throw .readReason) (.pure _))

theorem keeps_negotiate (version : List UInt8) (v : Option (Int × Int)) :
    KeepsReport (negotiate version v) := by
  cases v with
  | none => exact fun s hs => hs.addUnder (coded_banner (version.take 12))
  | some v =>
    refine (keeps_sprintf version _).bind fun version => (keeps_writeOr .writeFail version 12).bind fun _ => ?_
    exact .ite keeps_listedTypes keeps_authMode

theorem keeps_body : KeepsReport body :=
  (keeps_readOr .exit 16 12).bind fun _ => keeps_negotiate _ _

theorem keeps_readReason : KeepsReport readReason := by
  refine (keeps_readOr .readFail 4 4).bind fun len => ?_
  exact (readOr_fits .readFail 512 _).bind fun reasonStr s hs => hs.2.addUnder (coded_reason hs.1)

theorem keeps_goto (label : Label) : KeepsReport (goto label) := by
  cases label with
  | exit => exact .pure ()
  | readFail => exact keeps_cbaBit (by decide)
  | writeFail => exact keeps_cbaBit (by decide)
  | readReason => exact keeps_readReason
  | overrun => exact .throw .overrun

end Keeps

theorem keeps_connected : KeepsReport connected := by
  intro s hs
  have hbody := keeps_body s hs
  unfold connected
  cases hrun : body s with
  | ok _ t =>
    rw [hrun] at hbody
    exact hbody
  | error label t =>
    rw [hrun] at hbody
    have hgoto := keeps_goto label t hbody
    dsimp only
    cases hcode : goto label t with
    | ok _ u =>
      rw [hcode] at hgoto
      exact hgoto
    | error label' u =>
      rw [hcode] at hgoto
      cases label' with
      | readFail => exact keeps_goto .readFail u hgoto
      | _ => exact hgoto

/-! ### What `check_vnc` logs -/

theorem checkVnc_reports (server : Server) {t : Session}
    (hrun : checkVnc server.sock server.start = .ok () t) : Reports t.calls := by
  have hstart : Reports server.start.calls := ⟨[], rfl, by simp⟩
  have hkeeps : KeepsReport (checkVnc server.sock) := .ite (keeps_cbaBit (by decide)) keeps_connected
  have h := hkeeps server.start hstart
  rw [hrun] at h
  exact h

theorem codeNumber_injective : Function.Injective Cba.codeNumber := by
  intro c d h
  have hc := c.toInt_lt
  have hc' := c.le_toInt
  have hd := d.toInt_lt
  have hd' := d.le_toInt
  unfold Cba.codeNumber at h
  exact Int32.toInt_inj.mp (by omega)

/-- No failure is taken for a success. -/
def Ending.Honest : Ending → Prop
  | .failed ret c => ret ≠ 1 ∧ c ≠ Rfb.win
  | _ => True

theorem endReason_honest {ret : Int} (hret : ret ≠ 1) (ssl : Bool) (incoming : List UInt8) :
    (endReason ssl ret incoming).Honest := by
  unfold endReason
  dsimp only
  split_ifs
  · exact ⟨hret, by decide⟩
  · exact ⟨hret, by decide⟩
  · trivial
  · exact ⟨hret, by decide⟩
  · exact ⟨hret, by decide⟩

theorem endList_honest {later : List UInt8 → Ending} (hlater : ∀ types, (later types).Honest) {ret : Int}
    (hret : ret ≠ 1) (ssl : Bool) (list : List UInt8) : (endList ssl later ret list).Honest := by
  cases list with
  | nil => exact ⟨hret, by decide⟩
  | cons count rest =>
    by_cases hzero : count = 0
    · rw [endList, if_pos hzero]
      exact endReason_honest hret ssl rest
    · rw [endList, if_neg hzero, endTypes]
      split_ifs
      · trivial
      · exact ⟨by decide, by decide⟩
      · exact hlater _

theorem endTls_honest (writes : Nat) (plain : Option (List UInt8)) : (endTls writes plain).Honest := by
  unfold endTls
  split_ifs
  · exact ⟨by decide, by decide⟩
  · cases plain with
    | none => exact ⟨by decide, by decide⟩
    | some plain => exact @endList_honest (fun _ => .auth) (fun _ => trivial) 0 (by decide) true plain

theorem endFirst_honest (writes : Nat) (plain : Option (List UInt8)) (hasNontls : Bool) (types : List UInt8) :
    (endFirst writes plain hasNontls types).Honest := by
  by_cases hauth : hasNontls = true ∨ ∃ t ∈ types, t ≠ tls
  · rw [endFirst, if_pos hauth]
    trivial
  · rw [endFirst, if_neg hauth]
    exact endTls_honest writes plain

theorem endAuth_honest (incoming : List UInt8) : (endAuth incoming).Honest := by
  unfold endAuth
  dsimp only
  split_ifs
  · exact ⟨by decide, by decide⟩
  · trivial
  · exact endReason_honest (by decide) false _
  · trivial

theorem ending_honest (server : Server) : server.ending.Honest := by
  unfold Server.ending
  split_ifs
  · trivial
  · cases scanVersion (server.sent.take 12 ++ List.replicate 4 0) with
    | none => exact ⟨show (-1 : Int) ≠ 1 by decide, show bannerFail ≠ win by decide⟩
    | some v =>
      obtain ⟨major, minor⟩ := v
      rw [endVersion]
      split_ifs
      · exact ⟨by decide, by decide⟩
      · exact endList_honest (endFirst_honest _ _ false) (by decide) false _
      · exact endAuth_honest _

/-- An event has the code of a success only if it is one. -/
theorem endMark_win_iff {l : Labelled} (hl : Coded l) :
    (∃ c ∈ l.calls, endMark c = some win) ↔ l.logged.code = Cba.codeNumber win := by
  obtain ⟨code, event⟩ := l
  have hbit : ∀ c : Int32, endMark (.log (.bit c)) = some win ↔ c = win := by
    intro c
    by_cases h : c = win ∨ c = readFail ∨ c = writeFail ∨ c = tlsFail
    · rw [endMark, if_pos h, Option.some_inj]
    · rw [endMark, if_neg h]
      constructor
      · intro hnone
        cases hnone
      · exact fun heq => absurd (Or.inl heq) h
  cases code with
  | none =>
    cases event with
    | bit c =>
      have hlogged : (⟨none, .bit c⟩ : Labelled).logged.code = Cba.codeNumber c := rfl
      simp [Labelled.calls, Cba.codeCalls, hbit, hlogged, codeNumber_injective.eq_iff]
    | _ => exact absurd rfl hl.code
  | some c =>
    have hnobit : ∀ d, event ≠ .bit d := hl.alone.resolve_left (by simp)
    have hlogged : (⟨some c, event⟩ : Labelled).logged.code = Cba.codeNumber c := by
      cases event with
      | bit d => exact absurd rfl (hnobit d)
      | _ => rfl
    have hevent : endMark (.log event) ≠ some win := by
      cases event with
      | bit d => exact absurd rfl (hnobit d)
      | _ => simp [endMark]
    have hcode : endMark (.code c) = some win ↔ c = win := Option.some_inj
    simp [Labelled.calls, Cba.codeCalls, hevent, hcode, hlogged, codeNumber_injective.eq_iff]

/-- A success is logged just when `check_vnc` returns 1. -/
theorem win_reported_iff (server : Server) {t : Session}
    (hrun : checkVnc server.sock server.start = .ok () t) {events : List Labelled}
    (hcalls : t.calls = events.flatMap Labelled.calls) (hevents : ∀ l ∈ events, Coded l) :
    (∃ l ∈ events, l.logged.code = Cba.codeNumber win) ↔ t.ret = 1 := by
  have hends := checkVnc_ends server server.start rfl
  rw [hrun] at hends
  have hmarks : (∃ l ∈ events, l.logged.code = Cba.codeNumber win) ↔ win ∈ t.marks := by
    rw [Session.marks, hcalls, List.mem_filterMap]
    constructor
    · rintro ⟨l, hl, hcode⟩
      obtain ⟨c, hc, hmark⟩ := (endMark_win_iff (hevents l hl)).mpr hcode
      exact ⟨c, List.mem_flatMap.mpr ⟨l, hl, hc⟩, hmark⟩
    · rintro ⟨c, hc, hmark⟩
      obtain ⟨l, hl, hc⟩ := List.mem_flatMap.mp hc
      exact ⟨l, hl, (endMark_win_iff (hevents l hl)).mp ⟨c, hc, hmark⟩⟩
  rw [hmarks]
  cases hending : server.ending with
  | silent =>
    rw [hending] at hends
    simp [hends.1, hends.2]
  | win =>
    rw [hending] at hends
    simp [hends.1, hends.2]
  | auth =>
    rw [hending] at hends
    simp [hends.1, hends.2]
  | failed ret c =>
    have hhonest := ending_honest server
    rw [hending] at hends hhonest
    simp [hends.1, hends.2, hhonest.1, hhonest.2.symm]
  | overrun =>
    rw [hending] at hends
    exact hends.elim

end Cscan.Rfb
