import Cscan.Modules.Refine
import Cscan.Modules.X11
import Cscan.Rfb.Events
import Cscan.Worker.Exec

/-! The calls of the worker as sections: for each result that passes the check, one of each module that is on. -/

namespace Cscan.Worker

open Cscan.Lib
open Blocking (Result)
open Scan (printIp4)
open Cba (Labelled Section)
open Rfb (ofChars Coded)

/-! ### The texts -/

/-- The characters that are one byte of a text, and no `NUL`. -/
def Ascii (c : Char) : Prop := 0 < c.toNat ∧ c.toNat < 128

instance : DecidablePred Ascii := fun _ => inferInstanceAs (Decidable (_ ∧ _))

theorem ascii_of_isDigit {c : Char} (h : c.isDigit = true) : Ascii c := by
  obtain ⟨hlow, hhigh⟩ := Scanf.isDigit_bounds h
  have hlow : 48 ≤ c.toNat := hlow
  have hhigh : c.toNat ≤ 57 := hhigh
  exact ⟨by omega, by omega⟩

theorem ascii_address {r : Result} {c : Char} (hc : c ∈ address r) : Ascii c := by
  rcases List.mem_append.mp hc with hc | hc
  · rcases Inet.inetNtop_mem hc with h | rfl
    · exact ascii_of_isDigit h
    · decide
  · rcases List.mem_cons.mp hc with rfl | hc
    · decide
    · rcases (Scanf.isNumber_printInteger _).1.mem hc with h | rfl | rfl
      · exact ascii_of_isDigit h
      · decide
      · decide

theorem toNat_ofChars {c : Char} (h : Ascii c) : (UInt8.ofNat c.toNat).toNat = c.toNat := by
  rw [UInt8.toNat_ofNat']
  exact Nat.mod_eq_of_lt (Nat.lt_trans h.2 (by decide))

theorem ofChars_plain {text : List Char} (h : ∀ c ∈ text, Ascii c) : 0 ∉ ofChars text := by
  intro hzero
  obtain ⟨c, hc, hbyte⟩ := List.mem_map.mp hzero
  have hnat := toNat_ofChars (h c hc)
  rw [hbyte] at hnat
  exact Nat.ne_of_lt (h c hc).1 hnat

theorem latin1_ofChars {text : List Char} (h : ∀ c ∈ text, Ascii c) : Cba.latin1 (ofChars text) = text := by
  rw [Cba.latin1, ofChars, List.map_map]
  refine (List.map_congr_left fun c hc => ?_).trans (List.map_id text)
  show Char.ofNat (UInt8.ofNat c.toNat).toNat = c
  rw [toNat_ofChars (h c hc), Char.ofNat_toNat]

theorem length_printInteger (z : Int32) : (Scanf.printInteger z.toInt).length ≤ 11 := by
  have hlow := z.le_toInt
  have hhigh := z.toInt_lt
  have hdigits : (Nat.toDigits 10 z.toInt.natAbs).length ≤ 10 :=
    (Nat.length_toDigits_le_iff (by decide) (by decide)).mpr (by omega)
  unfold Scanf.printInteger Scanf.printPadded
  dsimp only
  split_ifs <;> simp only [List.length_append, List.length_replicate, List.length_singleton, List.length_nil] <;>
    omega

theorem length_address (r : Result) : (address r).length ≤ 27 := by
  have hip : (printIp4 r.ip).length ≤ 15 := Inet.length_inetNtop r.ip
  have hport := length_printInteger r.port
  rw [address, List.length_append, List.length_cons]
  omega

/-- The name of a module and the scheme of its addresses. -/
structure Named (name scheme : List Char) : Prop where
  nameAscii : ∀ c ∈ name, Ascii c
  schemeAscii : ∀ c ∈ scheme, Ascii c
  nameLength : name.length = 3
  schemeLength : scheme.length = 6

theorem ascii_of_all {text : List Char} (h : text.all (fun c => decide (Ascii c)) = true) : ∀ c ∈ text, Ascii c :=
  fun c hc => of_decide_eq_true (List.all_eq_true.mp h c hc)

theorem named_rfb : Named "rfb".toList "vnc://".toList :=
  ⟨ascii_of_all (by decide), ascii_of_all (by decide), by decide, by decide⟩

theorem named_x11 : Named "x11".toList "x11://".toList :=
  ⟨ascii_of_all (by decide), ascii_of_all (by decide), by decide, by decide⟩

section Named

variable {name scheme : List Char} (h : Named name scheme) (r : Result)

include h

/-- There is room for an address. -/
theorem Named.url_eq : url scheme r = scheme ++ address r := by
  have haddress := length_address r
  have hscheme := h.schemeLength
  refine List.take_of_length_le ?_
  rw [List.length_append]
  omega

theorem Named.ascii : ∀ c ∈ url scheme r, Ascii c := by
  rw [h.url_eq]
  intro c hc
  rcases List.mem_append.mp hc with hc | hc
  · exact h.schemeAscii c hc
  · exact ascii_address hc

end Named

/-! ### What the checks log -/

/-- The call sets the code for an event. -/
def sets (c : Nat) : Cba.Call → Bool
  | .code k => Cba.codeNumber k = c
  | .log (.bit k) => Cba.codeNumber k = c
  | _ => false

theorem sets_labelled {l : Labelled} (hl : Coded l) (c : Nat) : l.calls.any (sets c) = true ↔ l.logged.code = c := by
  obtain ⟨code, event⟩ := l
  cases code with
  | none =>
    cases event with
    | bit k => simp [Labelled.calls, Cba.codeCalls, sets, Labelled.logged]
    | _ => exact absurd rfl hl.code
  | some k =>
    have hnobit : ∀ d, event ≠ .bit d := hl.alone.resolve_left (by simp)
    cases event with
    | bit d => exact absurd rfl (hnobit d)
    | _ => simp [Labelled.calls, Cba.codeCalls, sets, Labelled.logged]

theorem sets_events {events : List Labelled} (h : ∀ l ∈ events, Coded l) (c : Nat) :
    (events.flatMap Labelled.calls).any (sets c) = true ↔ ∃ l ∈ events, l.logged.code = c := by
  rw [List.any_flatMap, List.any_eq_true]
  constructor
  · rintro ⟨l, hl, hset⟩
    exact ⟨l, hl, (sets_labelled (h l hl) c).mp hset⟩
  · rintro ⟨l, hl, hcode⟩
    exact ⟨l, hl, (sets_labelled (h l hl) c).mpr hcode⟩

/-- What `check_vnc` logs for a host are events, and one for a success just when it returns 1. -/
theorem checkVnc_events {w : Modules.World} {readTimeout ret : Int} {s : Modules.State}
    (hrun : Modules.checkVnc readTimeout w.start = .ok ret s) :
    Rfb.Reports s.calls ∧ (s.calls.any (sets (Cba.codeNumber Rfb.win)) = true ↔ ret = 1) := by
  obtain ⟨server, -, hexplains⟩ := Modules.checkVnc_refines w readTimeout
  rw [hrun] at hexplains
  obtain ⟨t, hserver, hret, hcalls⟩ := hexplains
  have hreports := Rfb.checkVnc_reports server hserver
  obtain ⟨events, hevents, hcoded⟩ := hreports
  rw [← hcalls, ← hret]
  refine ⟨⟨events, hevents, hcoded⟩, ?_⟩
  rw [← Rfb.win_reported_iff server hserver hevents hcoded, hevents]
  exact sets_events hcoded _

theorem checkX11_events {w : Modules.World} {readTimeout ret : Int} {s : Modules.State}
    (hrun : Modules.checkX11 readTimeout w.start = .ok ret s) : Rfb.Reports s.calls := by
  rcases Modules.X11.checkX11_bits hrun with hnone | ⟨c, hc, hbit⟩
  · exact ⟨[], hnone, by simp⟩
  · exact ⟨[⟨none, .bit c⟩], hbit, by simpa using Rfb.coded_bit hc⟩

/-! ### The sections -/

def printSection (r : Result) : Section := ⟨[], none, [⟨none, .str (ofChars (address r))⟩]⟩

def serviceSection (name scheme : List Char) (r : Result) (events : List Labelled) : Section :=
  ⟨ofChars name, some (none, ofChars (url scheme r)), events⟩

/-- A result and its host. -/
abbrev Job := Result × Host

/-- `check_cookie` lets the result through. -/
def passes (m : Modules) (j : Job) : Bool := (checkCookie m.cookie j.2.cookie j.1.port).any (·.1 ≠ 0)

/-- `check_vnc` sets the code for an event. -/
def reports (m : Modules) (c : Nat) (j : Job) : Bool :=
  (returns (Modules.checkVnc m.rfb.readTimeout.toInt j.2.vnc.start)).any (·.any (sets c))

/-- `check_vnc` returns 1: no password is needed. -/
def opens (m : Modules) (j : Job) : Bool :=
  match Modules.checkVnc m.rfb.readTimeout.toInt j.2.vnc.start with
  | .ok ret _ => ret = 1
  | .error _ _ => false

/-- What was done for a result: the modules that were called and the events that they have logged. -/
structure Work where
  result : Result
  print : Bool
  vnc : Option (List Labelled)
  x11 : Option (List Labelled)

def Work.sections (w : Work) : List Section :=
  (if w.print then [printSection w.result] else []) ++
    ((w.vnc.map (serviceSection "rfb".toList "vnc://".toList w.result)).toList ++
      (w.x11.map (serviceSection "x11".toList "x11://".toList w.result)).toList)

structure Did (m : Modules) (j : Job) (w : Work) : Prop where
  result : w.result = j.1
  print : w.print = (passes m j && m.print)
  vnc : w.vnc.isSome = (passes m j && m.rfb.on)
  events : ∀ events ∈ w.vnc, ∀ l ∈ events, Coded l
  reports : ∀ events ∈ w.vnc, ∀ c, (∃ l ∈ events, l.logged.code = c) ↔ reports m c j = true
  opens : ∀ events ∈ w.vnc, (∃ l ∈ events, l.logged.code = Cba.codeNumber Rfb.win) ↔ opens m j = true
  x11 : ∀ events ∈ w.x11, ∀ l ∈ events, Coded l

theorem returns_ok {L α : Type} {r : EStateM.Result (Modules.Stop L) Modules.State α} {calls : List Cba.Call}
    (h : returns r = some calls) : ∃ a s, r = .ok a s ∧ s.calls = calls := by
  cases r with
  | ok a s => exact ⟨a, s, rfl, Option.some.inj h⟩
  | error e s => cases h

theorem printResult_calls (on : Bool) (r : Result) :
    printResult on r = (if on then [printSection r] else []).flatMap Section.calls := by
  cases on <;> rfl

/-- The calls of a module that is on are a section. -/
theorem serviceResult_calls {on : Bool} {name scheme : List Char} {r : Result}
    {check : Option (List Cba.Call)} {calls : List Cba.Call}
    (hevents : ∀ logged ∈ check, Rfb.Reports logged) (h : serviceResult on name scheme r check = some calls) :
    ∃ events : Option (List Labelled), events.isSome = on ∧
      (∀ e ∈ events, check = some (e.flatMap Labelled.calls) ∧ ∀ l ∈ e, Coded l) ∧
      calls = (events.map (serviceSection name scheme r)).toList.flatMap Section.calls := by
  unfold serviceResult at h
  cases on with
  | false =>
    cases h
    exact ⟨none, rfl, by simp, rfl⟩
  | true =>
    rw [if_pos rfl] at h
    obtain ⟨logged, hcheck, rfl⟩ := Option.map_eq_some_iff.mp h
    obtain ⟨events, rfl, hcoded⟩ := hevents logged hcheck
    refine ⟨some events, rfl, ?_, ?_⟩
    · rintro e he
      obtain rfl := Option.some.inj he
      exact ⟨hcheck, hcoded⟩
    · simp [serviceSection, Section.calls, Cba.codeCalls]

theorem modulesExec_did {m : Modules} {j : Job} {calls : List Cba.Call}
    (h : modulesExec m j.1 j.2 = some calls) :
    ∃ w, Did m j w ∧ calls = w.sections.flatMap Section.calls := by
  rw [modulesExec] at h
  obtain ⟨⟨pass, visits⟩, hcookie, h⟩ := Option.bind_eq_some_iff.mp h
  have hpasses : passes m j = decide (pass ≠ 0) := by
    rw [passes, hcookie]
    rfl
  dsimp only at h
  by_cases hpass : pass = 0
  · rw [if_pos hpass] at h
    cases h
    have hstops : passes m j = false := by simpa [hpasses] using hpass
    refine ⟨⟨j.1, false, none, none⟩, ⟨rfl, ?_, ?_, by simp, by simp, by simp, by simp⟩, rfl⟩
    all_goals simp [hstops]
  · rw [if_neg hpass] at h
    have hgoes : passes m j = true := by simpa [hpasses] using hpass
    obtain ⟨rfb, hrfb, h⟩ := Option.bind_eq_some_iff.mp h
    obtain ⟨x11, hx11, h⟩ := Option.bind_eq_some_iff.mp h
    cases h
    obtain ⟨vncEvents, hvnc, hvncEvents, rfl⟩ := serviceResult_calls (fun logged hlogged => by
      obtain ⟨ret, s, hrun, rfl⟩ := returns_ok hlogged
      exact (checkVnc_events hrun).1) hrfb
    obtain ⟨x11Events, -, hx11Events, rfl⟩ := serviceResult_calls (fun logged hlogged => by
      obtain ⟨ret, s, hrun, rfl⟩ := returns_ok hlogged
      exact checkX11_events hrun) hx11
    refine ⟨⟨j.1, m.print, vncEvents, x11Events⟩, ⟨rfl, by simp [hgoes], by simp [hgoes, hvnc], ?_, ?_, ?_, ?_⟩, ?_⟩
    · exact fun events he => (hvncEvents events he).2
    · intro events he c
      obtain ⟨hcalls, hcoded⟩ := hvncEvents events he
      rw [reports, hcalls]
      exact (sets_events hcoded c).symm
    · intro events he
      obtain ⟨hcalls, hcoded⟩ := hvncEvents events he
      obtain ⟨ret, s, hrun, hs⟩ := returns_ok hcalls
      rw [opens, hrun, ← sets_events hcoded, ← hs, decide_eq_true_iff]
      exact (checkVnc_events hrun).2
    · exact fun events he => (hx11Events events he).2
    · rw [Work.sections, List.flatMap_append, List.flatMap_append, printResult_calls]

/-- The results in front of the end marker. -/
def handled (jobs : List Job) : List Job := jobs.takeWhile (·.1.ip ≠ 0)

theorem processThread_did {m : Modules} {jobs : List Job} {calls : List Cba.Call}
    (h : processThread m jobs = some calls) :
    ∃ works, List.Forall₂ (Did m) (handled jobs) works ∧
      calls = (works.flatMap Work.sections).flatMap Section.calls := by
  induction jobs generalizing calls with
  | nil =>
    cases h
    exact ⟨[], .nil, rfl⟩
  | cons j jobs ih =>
    obtain ⟨r, host⟩ := j
    rw [processThread] at h
    by_cases hip : r.ip = 0
    · rw [if_pos hip] at h
      cases h
      refine ⟨[], ?_, rfl⟩
      rw [handled, List.takeWhile_cons_of_neg (by simpa using hip)]
      exact .nil
    · rw [if_neg hip] at h
      obtain ⟨first, hfirst, h⟩ := Option.bind_eq_some_iff.mp h
      obtain ⟨more, hmore, h⟩ := Option.bind_eq_some_iff.mp h
      cases h
      obtain ⟨w, hdid, rfl⟩ := modulesExec_did (j := (r, host)) hfirst
      obtain ⟨works, hworks, rfl⟩ := ih hmore
      refine ⟨w :: works, ?_, ?_⟩
      · rw [handled, List.takeWhile_cons_of_pos (by simpa using hip)]
        exact .cons hdid hworks
      · rw [List.flatMap_cons, List.flatMap_append]

/-! ### The modules that are set up -/

/-- The modules that are called for a result return. -/
def ModulesReturn (m : Modules) (j : Job) : Prop :=
  passes m j = true →
    (m.rfb.on = true → (returns (Modules.checkVnc m.rfb.readTimeout.toInt j.2.vnc.start)).isSome) ∧
    (m.x11.on = true → (returns (Modules.checkX11 m.x11.readTimeout.toInt j.2.x11.start)).isSome)

/-- Two steps that may not return, one behind the other. -/
theorem isSome_both {α β γ : Type*} {f : α → β → γ} (x : Option α) (y : Option β) :
    (x.bind fun a => y.bind fun b => some (f a b)).isSome ↔ x.isSome ∧ y.isSome := by
  cases x <;> cases y <;> simp

theorem serviceResult_isSome (on : Bool) (name scheme : List Char) (r : Result) (check : Option (List Cba.Call)) :
    (serviceResult on name scheme r check).isSome ↔ (on = true → check.isSome) := by
  cases on with
  | false => simp [serviceResult]
  | true => simp [serviceResult]

/-- With a 0 in the array of the ports, only `check_vnc` and `check_x11` may not return. -/
theorem modulesExec_isSome {m : Modules} (hends : m.cookie.Ends) (j : Job) :
    (modulesExec m j.1 j.2).isSome ↔ ModulesReturn m j := by
  obtain ⟨pass, visits, hcookie, -⟩ := checkCookie_checks hends j.2.cookie j.1.port
  have hpasses : passes m j = decide (pass ≠ 0) := by
    rw [passes, hcookie]
    rfl
  have hexec : modulesExec m j.1 j.2 = if pass = 0 then some [] else
      (rfbResult m.rfb j.1 j.2.vnc).bind fun rfb => (x11Result m.x11 j.1 j.2.x11).bind fun x11 =>
        some (printResult m.print j.1 ++ (rfb ++ x11)) := by
    rw [modulesExec, hcookie]
    rfl
  rw [hexec, ModulesReturn, hpasses]
  by_cases hpass : pass = 0
  · simp [hpass]
  · have hvnc := serviceResult_isSome m.rfb.on "rfb".toList "vnc://".toList j.1
      (returns (Modules.checkVnc m.rfb.readTimeout.toInt j.2.vnc.start))
    have hx11 := serviceResult_isSome m.x11.on "x11".toList "x11://".toList j.1
      (returns (Modules.checkX11 m.x11.readTimeout.toInt j.2.x11.start))
    rw [if_neg hpass, isSome_both, ← hvnc, ← hx11]
    simp [rfbResult, x11Result, hpass]

theorem processThread_isSome {m : Modules} (hends : m.cookie.Ends) (jobs : List Job) :
    (processThread m jobs).isSome ↔ ∀ j ∈ handled jobs, ModulesReturn m j := by
  induction jobs with
  | nil => simp [processThread, handled]
  | cons j jobs ih =>
    obtain ⟨r, host⟩ := j
    rw [processThread]
    by_cases hip : r.ip = 0
    · simp [hip, handled]
    · have hhandled : handled ((r, host) :: jobs) = (r, host) :: handled jobs :=
        List.takeWhile_cons_of_pos (by simpa using hip)
      rw [if_neg hip, hhandled, List.forall_mem_cons, ← ih, ← modulesExec_isSome hends (r, host)]
      exact isSome_both _ _

/-- `modules_init` leaves an array just when `check_cookie` is compiled in and its option has no ports. The worker
with the modules that it sets up comes to its end just when no call of `check_vnc` or `check_x11` fails to return. -/
theorem modulesInit_runs (overflow : Int → Int32) (compiled : Have) (enabled cfg : List Char) :
    (modulesInit overflow compiled enabled cfg = none ↔ compiled.checkcookie = true ∧ PortsMissing cfg) ∧
      ∀ m, modulesInit overflow compiled enabled cfg = some m → ∀ jobs : List Job,
        (processThread m jobs).isSome ↔ ∀ j ∈ handled jobs, ModulesReturn m j := by
  have hstart : ({} : Cookie).Ends := ⟨rfl, by decide⟩
  unfold modulesInit
  by_cases hcompiled : compiled.checkcookie = true
  · simp only [hcompiled, if_true, true_and]
    rcases checkcookieInit_cases overflow enabled cfg hstart with ⟨hmissing, hnone⟩ | ⟨hpresent, c, hc, hends, -⟩
    · rw [hnone]
      exact ⟨iff_of_true rfl hmissing, fun m hm => by cases hm⟩
    · rw [hc]
      refine ⟨iff_of_false (Option.some_ne_none _) hpresent, fun m hm jobs => ?_⟩
      cases hm
      exact processThread_isSome hends jobs
  · rw [if_neg hcompiled]
    refine ⟨iff_of_false (Option.some_ne_none _) fun h => hcompiled h.1, fun m hm jobs => ?_⟩
    cases hm
    exact processThread_isSome hstart jobs

/-! ### The sections read back -/

theorem printSection_plain (r : Result) : (printSection r).Plain where
  short := Nat.zero_lt_succ 255
  ascii := rfl
  events l hl := by
    have hlength := length_address r
    obtain rfl := List.mem_singleton.mp hl
    refine ⟨ofChars_plain fun c => ascii_address, ?_⟩
    rw [ofChars, List.length_map]
    exact Nat.lt_of_le_of_lt hlength (by decide)
  deferred _ _ h := by cases h

theorem serviceSection_plain {name scheme : List Char} (h : Named name scheme) (r : Result) {events : List Labelled}
    (hevents : ∀ l ∈ events, Coded l) : (serviceSection name scheme r events).Plain where
  short := by
    show (ofChars name).length < 256
    rw [ofChars, List.length_map, h.nameLength]
    decide
  ascii := by
    refine List.all_eq_true.mpr fun b hb => ?_
    obtain ⟨c, hc, rfl⟩ := List.mem_map.mp hb
    have hbyte := toNat_ofChars (h.nameAscii c hc)
    have hc := (h.nameAscii c hc).2
    rw [decide_eq_true_iff, UInt8.lt_iff_toNat_lt, hbyte]
    exact hc
  events l hl := (hevents l hl).plain
  deferred code text hdeferred := by
    obtain ⟨rfl, rfl⟩ : none = code ∧ ofChars (url scheme r) = text := by
      simpa [serviceSection] using hdeferred
    have haddress := length_address r
    have hlength : (url scheme r).length = 6 + (address r).length := by
      rw [h.url_eq, List.length_append, h.schemeLength]
    refine ⟨?_, ofChars_plain (h.ascii r), ?_⟩
    · intro hnil
      rw [List.map_eq_nil_iff.mp hnil, List.length_nil] at hlength
      omega
    · show 3 + (ofChars name).length + Cba.hdrLength 0 + (ofChars (url scheme r)).length + 6 < 2048
      have hhdr : Cba.hdrLength 0 = 2 := rfl
      rw [hhdr, ofChars, ofChars, List.length_map, List.length_map, h.nameLength, hlength]
      omega

/-- The sections of the worker are read back as they are, from a file of a little-endian machine. -/
structure Readable (s : Section) : Prop where
  plain : s.Plain
  sent : ∀ l ∈ s.events, l.Sent .little
  extracted : ∀ cfg, s.Extracted cfg

theorem sent_little (l : Labelled) : l.Sent .little := by
  unfold Cba.Labelled.Sent
  cases l.event with
  | data buffer => exact Or.inl rfl
  | _ => trivial

theorem Did.readable {m : Modules} {j : Job} {w : Work} (h : Did m j w) : ∀ s ∈ w.sections, Readable s := by
  intro s hs
  have hcoded : ∀ name scheme events, s = serviceSection name scheme w.result events →
      (∀ l ∈ events, Coded l) → ∀ cfg, s.Extracted cfg := by
    rintro name scheme events rfl hevents cfg l hl fileName reads hfile
    exact absurd hfile ((hevents l hl).noFile fileName reads)
  simp only [Work.sections, List.mem_append, Option.mem_toList, Option.map_eq_some_iff] at hs
  rcases hs with hs | ⟨events, hevents, rfl⟩ | ⟨events, hevents, rfl⟩
  · split_ifs at hs
    · obtain rfl := List.mem_singleton.mp hs
      refine ⟨printSection_plain w.result, fun l _ => sent_little l, fun cfg l hl name reads hfile => ?_⟩
      obtain rfl := List.mem_singleton.mp hl
      cases hfile
    · cases hs
  · exact ⟨serviceSection_plain named_rfb _ (h.events events hevents),
      fun l _ => sent_little l, hcoded _ _ _ rfl (h.events events hevents)⟩
  · exact ⟨serviceSection_plain named_x11 _ (h.x11 events hevents),
      fun l _ => sent_little l, hcoded _ _ _ rfl (h.x11 events hevents)⟩

theorem readable_works {m : Modules} {jobs : List Job} {works : List Work} (h : List.Forall₂ (Did m) jobs works) :
    ∀ s ∈ works.flatMap Work.sections, Readable s := by
  induction h with
  | nil => simp
  | cons hdid _ ih =>
    intro s hs
    rw [List.flatMap_cons, List.mem_append] at hs
    rcases hs with hs | hs
    · exact hdid.readable s hs
    · exact ih s hs

end Cscan.Worker
