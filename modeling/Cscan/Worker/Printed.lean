import Cscan.Cba.Scripts
import Cscan.Cba.Together
import Cscan.Worker.Sections

/-! What the scripts print of a file that the main thread and the worker have written together: the addresses of the
results for which the modules have logged what is asked for. -/

namespace Cscan.Worker

open Cscan.Lib
open Blocking (Result)
open Cba (Labelled Section Entry)
open Rfb (ofChars Coded)

/-! ### The two threads -/

inductive Role
  | main
  | worker
deriving DecidableEq

/-- The arguments of `cba_thread_init`. -/
def Role.tid : Role → UInt8
  | .main => 0
  | .worker => 1

def program (log : List Cba.LogCall) (calls : List Cba.Call) : Role → List Cba.Call
  | .main => Cba.mainCalls log
  | .worker => calls

def sections (log : List Cba.LogCall) (works : List Work) : Role → List Section
  | .main => [Cba.mainSection log]
  | .worker => works.flatMap Work.sections

theorem tid_injective : Function.Injective Role.tid := by
  intro i j h
  cases i <;> cases j
  · rfl
  · exact absurd h (by decide)
  · exact absurd h (by decide)
  · rfl

/-- All calls have returned. -/
def Finished (s : Cba.Sys Role) : Prop := ∀ i, (s.thread i).todo = [] ∧ (s.thread i).program = []

/-- All calls have returned, as a test. -/
def allReturned (s : Cba.Sys Role) : Bool :=
  [Role.main, Role.worker].all fun i => (s.thread i).todo.isEmpty && (s.thread i).program.isEmpty

theorem finished_of_allReturned {s : Cba.Sys Role} (h : allReturned s = true) : Finished s := by
  have hboth := List.all_eq_true.mp h
  simp only [Bool.and_eq_true, List.isEmpty_iff] at hboth
  intro i
  exact hboth i (by cases i <;> simp)

/-- The two threads write a file. -/
abbrev Writing (log : List Cba.LogCall) (calls : List Cba.Call) : Cba.Sys Role → Prop :=
  Reaches (Cba.Sys.step .little) Cba.Sys.Alone (Cba.Sys.start .little Role.tid (program log calls))

/-! ### The entries of a module -/

theorem entry_module {s : Section} {e : Entry} (h : s.entry = some e) : e.module = Cba.latin1 s.name := by
  unfold Cba.Section.entry at h
  split_ifs at h
  cases h
  rfl

theorem filter_entries (module : List Char) (sections : List Section) :
    (sections.filterMap Section.entry).filter (Cba.Passes (some module)) =
      (sections.filter fun s => Cba.latin1 s.name = module).filterMap Section.entry := by
  induction sections with
  | nil => rfl
  | cons s sections ih =>
    cases hentry : s.entry with
    | none =>
      by_cases hname : Cba.latin1 s.name = module <;> simp [hentry, hname, ih]
    | some e =>
      have hmodule := entry_module hentry
      by_cases hname : Cba.latin1 s.name = module <;> simp [hentry, hname, ih, Cba.Passes, hmodule]

/-- The calls of the two threads are sections. -/
theorem program_writes {m : Modules} {jobs : List Job} {calls : List Cba.Call} (log : List Cba.LogCall)
    (hcalls : processThread m jobs = some calls) :
    ∃ works, List.Forall₂ (Did m) (handled jobs) works ∧
      ∀ i, Cba.Writes .little i.tid (program log calls i) (sections log works i) := by
  obtain ⟨works, hworks, rfl⟩ := processThread_did hcalls
  have hreadable := readable_works hworks
  refine ⟨works, hworks, fun i => ?_⟩
  cases i with
  | main => exact Cba.writes_mainCalls .little 0 log
  | worker =>
    exact Cba.writes_sections 1 (fun s hs => (hreadable s hs).plain) (fun s hs => (hreadable s hs).sent)
      fun cfg s hs => (hreadable s hs).extracted cfg

/-- The entries that the worker has for a module. -/
def moduleEntries (works : List Work) (module : List Char) : List Entry :=
  works.flatMap fun w => (w.sections.filter fun s => Cba.latin1 s.name = module).filterMap Section.entry

theorem worker_entries (log : List Cba.LogCall) (works : List Work) (module : List Char) :
    ((sections log works .worker).filterMap Section.entry).filter (Cba.Passes (some module)) =
      moduleEntries works module := by
  rw [filter_entries, sections, List.filter_flatMap, List.filterMap_flatMap]
  rfl

theorem main_entries (log : List Cba.LogCall) (works : List Work) {module : List Char}
    (hmodule : module ≠ Cba.latin1 Cba.cscanName) :
    ((sections log works .main).filterMap Section.entry).filter (Cba.Passes (some module)) = [] := by
  have hname : ¬ Cba.latin1 (Cba.mainSection log).name = module := fun h => hmodule h.symm
  rw [filter_entries]
  simp [sections, hname]

/-- The entries of a module that is not the log's are those of the worker. -/
theorem worker_pass {m : Modules} {jobs : List Job} {calls : List Cba.Call} {log : List Cba.LogCall}
    {s : Cba.Sys Role} (hcalls : processThread m jobs = some calls) (hrun : Writing log calls s)
    (hdone : Finished s) :
    ∃ works, List.Forall₂ (Did m) (handled jobs) works ∧
      ∀ cfg module, module ≠ Cba.latin1 Cba.cscanName →
        (Cba.entries cfg (some module) (Cba.newReader s.file)).1 =
          ⟨(moduleEntries works module).map (Prod.mk 1), none⟩ := by
  obtain ⟨works, hworks, hwrites⟩ := program_writes log hcalls
  refine ⟨works, hworks, fun cfg module hmodule => ?_⟩
  have hread := Cba.finished_readBack tid_injective hwrites hrun hdone cfg (some module)
  rw [← worker_entries log works]
  refine hread.alone .worker fun i hi => ?_
  cases i with
  | main => exact main_entries log works hmodule
  | worker => exact absurd rfl hi

/-! ### The lines -/

theorem flatMap_if {α β : Type*} (p : α → Bool) (f : α → β) (as : List α) :
    (as.flatMap fun a => if p a = true then [f a] else []) = (as.filter p).map f := by
  induction as with
  | nil => rfl
  | cons a as ih => cases hp : p a <;> simp [hp, ih]

theorem printSections (w : Work) : (w.sections.filter fun s => Cba.latin1 s.name = []) =
    if w.print then [printSection w.result] else [] := by
  obtain ⟨r, print, vnc, x11⟩ := w
  cases print <;> cases vnc <;> cases x11 <;> rfl

theorem vncSections (w : Work) : (w.sections.filter fun s => Cba.latin1 s.name = "rfb".toList) =
    (w.vnc.map (serviceSection "rfb".toList "vnc://".toList w.result)).toList := by
  obtain ⟨r, print, vnc, x11⟩ := w
  cases print <;> cases vnc <;> cases x11 <;> rfl

/-- The line for the entry of a printed result. -/
theorem printSection_line (r : Result) : ∃ e, (printSection r).entry = some e ∧
    Cba.resultLine e = .ok [.text (address r)] := by
  refine ⟨_, rfl, ?_⟩
  have haddress := @latin1_ofChars (address r) fun c => ascii_address
  show Except.ok [Cba.Value.text (Cba.latin1 (ofChars (address r)))] = _
  rw [haddress]

/-- The entry of a check that has logged events. -/
def serviceEntry (name scheme : List Char) (r : Result) (events : List Labelled) : Entry :=
  .ofEvents name (⟨Cba.cbaStr, 0, .text (scheme ++ address r)⟩ :: events.map Labelled.logged)

theorem serviceSection_entry {name scheme : List Char} (h : Named name scheme) (r : Result) (events : List Labelled) :
    (serviceSection name scheme r events).entry =
      if events = [] then none else some (serviceEntry name scheme r events) := by
  have hname : Cba.latin1 (ofChars name) = name := latin1_ofChars h.nameAscii
  have htext : Cba.latin1 (ofChars (url scheme r)) = scheme ++ address r := by
    rw [latin1_ofChars (h.ascii r), h.url_eq]
  show (if events = [] then none else some (Entry.ofEvents (Cba.latin1 (ofChars name))
    (⟨Cba.cbaStr, 0, .text (Cba.latin1 (ofChars (url scheme r)))⟩ :: events.map Labelled.logged))) = _
  rw [hname, htext]
  rfl

/-- The line for the entry of a check: the address, if the code was set. -/
theorem serviceEntry_line {name scheme : List Char} (h : Named name scheme) (r : Result) {events : List Labelled}
    (hcoded : ∀ l ∈ events, Coded l) {n : Nat} (hn : 0 < n) {p : Bool}
    (hp : (∃ l ∈ events, l.logged.code = n) ↔ p = true) :
    Cba.rfbLine (.code n) (serviceEntry name scheme r events) =
      .ok (if p = true then [.ip (.text (address r))] else []) := by
  have hcodes : ∀ e ∈ events.map Labelled.logged, e.code ≠ 0 := by
    intro e he
    obtain ⟨l, hl, rfl⟩ := List.mem_map.mp he
    exact (hcoded l hl).code
  have hset : n ∈ (events.map Labelled.logged).map Cba.Event.code ↔ p = true := by
    rw [← hp]
    simp
  have haddress : (scheme ++ address r).drop 6 = address r := List.drop_left' h.schemeLength
  have hline := @Cba.rfbLine_events name ⟨Cba.cbaStr, 0, .text (scheme ++ address r)⟩ _ rfl _ rfl hcodes n hn
  rw [haddress] at hline
  refine hline.trans ?_
  by_cases hmem : p = true
  · rw [if_pos (hset.mpr hmem), if_pos hmem]
  · rw [if_neg (mt hset.mp hmem), if_neg hmem]

section Printed

variable {m : Modules} {jobs : List Job} {works : List Work}

/-- The results that are printed are those that have passed the check. -/
theorem resultEntries_lines (hworks : List.Forall₂ (Did m) jobs works) :
    Cba.printPass Cba.resultLine ⟨(moduleEntries works []).map (Prod.mk 1), none⟩ =
      ⟨(jobs.filter fun j => passes m j && m.print).map fun j => .text (address j.1), none⟩ := by
  rw [← flatMap_if]
  refine Cba.printPass_flatMap hworks fun j w hdid => ?_
  rw [printSections, hdid.print, hdid.result]
  cases passes m j && m.print with
  | false => rfl
  | true =>
    obtain ⟨e, hentry, hline⟩ := printSection_line j.1
    rw [if_pos rfl, if_pos rfl, List.filterMap_cons, hentry]
    exact Cba.printPass_singleton hline

theorem vncEntries_lines (hworks : List.Forall₂ (Did m) jobs works) {n : Nat} (hn : 0 < n) {p : Job → Bool}
    (hp : ∀ j w, Did m j w → ∀ events ∈ w.vnc, (∃ l ∈ events, l.logged.code = n) ↔ p j = true) :
    Cba.printPass (Cba.rfbLine (.code n)) ⟨(moduleEntries works "rfb".toList).map (Prod.mk 1), none⟩ =
      ⟨(jobs.filter fun j => passes m j && m.rfb.on && p j).map fun j => .ip (.text (address j.1)), none⟩ := by
  rw [← flatMap_if]
  refine Cba.printPass_flatMap hworks fun j w hdid => ?_
  rw [vncSections]
  have hvnc := hdid.vnc
  cases hevents : w.vnc with
  | none =>
    rw [hevents] at hvnc
    have hoff : (passes m j && m.rfb.on) = false := hvnc.symm
    rw [hoff]
    rfl
  | some events =>
    rw [hevents] at hvnc
    have hon : (passes m j && m.rfb.on) = true := hvnc.symm
    have hset := hp j w hdid events hevents
    rw [hon, Bool.true_and]
    by_cases hnone : events = []
    · subst hnone
      have hunset : p j = false := by
        rw [← Bool.not_eq_true, ← hset]
        simp
      rw [hunset]
      rfl
    · have hentry := serviceSection_entry named_rfb w.result events
      rw [if_neg hnone] at hentry
      rw [Option.map_some, Option.toList_some, List.filterMap_cons, hentry, ← hdid.result]
      exact Cba.printPass_singleton (serviceEntry_line named_rfb w.result (hdid.events events hevents) hn hset)

end Printed

section Lines

variable {m : Modules} {jobs : List Job} {calls : List Cba.Call} {log : List Cba.LogCall} {s : Cba.Sys Role}

/-- The results that `cba_reader_cscan.py` prints are those that have passed the check. -/
theorem printResults_eq (hcalls : processThread m jobs = some calls) (hrun : Writing log calls s)
    (hdone : Finished s) (opens : Nat → Bool) :
    Cba.printResults opens s.file =
      ⟨((handled jobs).filter fun j => passes m j && m.print).map fun j => .text (address j.1), none⟩ := by
  obtain ⟨works, hworks, hpass⟩ := worker_pass hcalls hrun hdone
  rw [Cba.printResults, hpass _ [] (by decide +kernel)]
  exact resultEntries_lines hworks

theorem rfbQuery_code {what : List Char} {n : Nat} (h : Cba.codes.idxOf? what = some n) :
    Cba.rfbQuery false what = .ok (.code n) := by
  rw [Cba.rfbQuery, if_neg Bool.false_ne_true, h]

theorem printRfb_eq (hcalls : processThread m jobs = some calls) (hrun : Writing log calls s)
    (hdone : Finished s) (opens : Nat → Bool) {what : Option (List Char)} {n : Nat} (hn : 0 < n)
    (hwhat : Cba.codes.idxOf? (what.getD "WIN".toList) = some n) {p : Job → Bool}
    (hp : ∀ j w, Did m j w → ∀ events ∈ w.vnc, (∃ l ∈ events, l.logged.code = n) ↔ p j = true) :
    Cba.printRfb opens false what s.file =
      ⟨((handled jobs).filter fun j => passes m j && m.rfb.on && p j).map fun j => .ip (.text (address j.1)),
        none⟩ := by
  obtain ⟨works, hworks, hpass⟩ := worker_pass hcalls hrun hdone
  rw [Cba.printRfb, rfbQuery_code hwhat]
  dsimp only
  rw [hpass _ "rfb".toList (by decide +kernel)]
  exact vncEntries_lines hworks hn hp

/-- The script for `check_vnc` prints the addresses for which it has set a code, in the order of the results; and
those where it has returned 1, if it is asked for nothing. -/
theorem printRfb_lines (hcalls : processThread m jobs = some calls) (hrun : Writing log calls s)
    (hdone : Finished s) (opened : Nat → Bool) :
    (∀ n what, 0 < n → Cba.codes.idxOf? what = some n → Cba.printRfb opened false (some what) s.file =
      ⟨((handled jobs).filter fun j => passes m j && m.rfb.on && reports m n j).map fun j =>
        .ip (.text (address j.1)), none⟩) ∧
    Cba.printRfb opened false none s.file =
      ⟨((handled jobs).filter fun j => passes m j && m.rfb.on && opens m j).map fun j =>
        .ip (.text (address j.1)), none⟩ := by
  constructor
  · intro n what hn hwhat
    exact @printRfb_eq m jobs calls log s hcalls hrun hdone opened (some what) n hn hwhat (reports m n)
      fun j w hdid events hevents => hdid.reports events hevents n
  · exact @printRfb_eq m jobs calls log s hcalls hrun hdone opened none 6 (by decide) (by decide +kernel) (opens m)
      fun j w hdid => hdid.opens

end Lines

/-- A server that wants no password: it sends its version, and then a list with the type 1 alone. -/
def openServer : Modules.World :=
  { Modules.noSocket with
    turns := 1
    sock := 3
    setsFlags := fun _ => true
    poll := fun _ => (1, true)
    read := fun history => .ok (if history.any (fun e => e matches .write _ _) then [1] else
      ofChars "RFB 003.008\n".toList)
    write := fun _ => .ok 12 }

/-- A server that closes the connection. -/
def closedServer : Modules.World :=
  { openServer with read := fun _ => .ok [] }

def twoJobs : List Job :=
  [(⟨0x01020304, 5900⟩, ⟨fun _ => ⟨3, ⟨.done, none, .done⟩, ⟨0, false, false, false⟩⟩, closedServer, closedServer⟩),
    (⟨0x01020305, 5901⟩, ⟨fun _ => ⟨3, ⟨.done, none, .done⟩, ⟨0, false, false, false⟩⟩, openServer, closedServer⟩)]

def rfbOnly : Modules := { rfb := ⟨true, 4500⟩ }

def printOnly : Modules := { print := true }

/-- The flush of the worker is behind the one of the main thread, and in front of its packet. -/
def twoTurns : List Role :=
  List.replicate 4 .main ++ List.replicate 6 .worker ++ List.replicate 4 .main ++ List.replicate 3 .worker

theorem printRfb_lines_open : ∃ calls s, processThread rfbOnly twoJobs = some calls ∧
    Writing [.statsEvery 10] calls s ∧ Finished s ∧
    Cba.printRfb (fun _ => true) false none s.file = ⟨[.ip (.text "1.2.3.5:5901".toList)], none⟩ := by
  have hview : ((processThread rfbOnly twoJobs).bind fun calls =>
      runSchedule (fun s i => if Cba.Sys.Alone s i then Cba.Sys.step .little s i else none)
        (Cba.Sys.start .little Role.tid (program [.statsEvery 10] calls)) twoTurns).map
      (fun s => ((s.thread .main).todo.isEmpty, (s.thread .main).program.isEmpty,
        (s.thread .worker).todo.isEmpty, (s.thread .worker).program.isEmpty)) =
          some (true, true, true, true) := by
    decide +kernel
  obtain ⟨s, hrun, hs⟩ := Option.map_eq_some_iff.mp hview
  obtain ⟨calls, hcalls, hrun⟩ := Option.bind_eq_some_iff.mp hrun
  simp only [Prod.mk.injEq, List.isEmpty_iff] at hs
  obtain ⟨hmain, hmainDone, hworker, hworkerDone⟩ := hs
  have hreaches : Writing [.statsEvery 10] calls s := reaches_of_runSchedule .start hrun
  have hdone : Finished s := fun i => by
    cases i with
    | main => exact ⟨hmain, hmainDone⟩
    | worker => exact ⟨hworker, hworkerDone⟩
  refine ⟨calls, s, hcalls, hreaches, hdone, ((printRfb_lines hcalls hreaches hdone _).2).trans ?_⟩
  decide +kernel

end Cscan.Worker
