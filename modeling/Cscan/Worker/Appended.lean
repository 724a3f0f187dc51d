import Cscan.Cba.Appended
import Cscan.Worker.Printed

/-! What the scripts print of a file that several scans have written, one after the other: the lines of each scan, in
their order. -/

namespace Cscan.Worker

open Cscan.Lib
open Cba (Section Entry)

/-- A file that scans have written to their end, with the modules of each and the results that its worker took. -/
inductive Scans : List (Modules × List Job) → List UInt8 → Prop
  | nothing : Scans [] []
  | scan {scans : List (Modules × List Job)} {file : List UInt8} {m : Modules} {jobs : List Job}
      {calls : List Cba.Call} {log : List Cba.LogCall} {s : Cba.Sys Role} (h : Scans scans file)
      (hcalls : processThread m jobs = some calls)
      (hrun : Reaches (Cba.Sys.step .little) Cba.Sys.Alone
        (Cba.Sys.startOn .little file Role.tid (program log calls)) s) (hdone : Finished s) :
      Scans (scans ++ [(m, jobs)]) s.file

/-- The results of a scan that pass the check and have the property. -/
def found (p : Modules → Job → Bool) (scan : Modules × List Job) : List Job :=
  (handled scan.2).filter fun j => passes scan.1 j && p scan.1 j

/-- What the scans have written: the log of each main thread, and the sections of the workers. -/
structure Wrote (scans : List (Modules × List Job)) (sections : Role → List Section) (works : List Work) : Prop where
  main : ∀ s ∈ sections .main, Cba.latin1 s.name = Cba.latin1 Cba.cscanName
  worker : sections .worker = works.flatMap Work.sections
  results : Cba.printPass Cba.resultLine ⟨(moduleEntries works []).map (Prod.mk 1), none⟩ =
    ⟨scans.flatMap fun scan => (found (fun m _ => m.print) scan).map fun j => .text (address j.1), none⟩
  vnc : ∀ c, 0 < c →
    Cba.printPass (Cba.rfbLine (.code c)) ⟨(moduleEntries works "rfb".toList).map (Prod.mk 1), none⟩ =
      ⟨scans.flatMap fun scan => (found (fun m j => m.rfb.on && reports m c j) scan).map fun j =>
        .ip (.text (address j.1)), none⟩

theorem moduleEntries_append (works more : List Work) (module : List Char) :
    moduleEntries (works ++ more) module = moduleEntries works module ++ moduleEntries more module :=
  List.flatMap_append

theorem Scans.wrote {scans : List (Modules × List Job)} {file : List UInt8} (h : Scans scans file) :
    ∃ sections works, Cba.Appended .little Role.tid sections file ∧ Wrote scans sections works := by
  induction h with
  | nothing => exact ⟨_, [], .nothing, by simp, rfl, rfl, fun _ _ => rfl⟩
  | @scan scans file m jobs calls log s _ hcalls hrun hdone ih =>
    obtain ⟨before, works, happended, hwrote⟩ := ih
    obtain ⟨more, hmore, hwrites⟩ := program_writes log hcalls
    refine ⟨_, works ++ more, happended.scan hwrites hrun hdone, ?_, ?_, ?_, fun c hc => ?_⟩
    · refine List.forall_mem_append.mpr ⟨hwrote.main, fun s hs => ?_⟩
      rw [List.mem_singleton.mp hs]
      rfl
    · rw [hwrote.worker, List.flatMap_append]
      rfl
    · rw [moduleEntries_append, List.map_append, List.flatMap_append, List.flatMap_singleton]
      exact Cba.printPass_append hwrote.results (resultEntries_lines hmore)
    · rw [moduleEntries_append, List.map_append, List.flatMap_append, List.flatMap_singleton]
      have hlines := vncEntries_lines hmore hc fun j w hdid events hevents => hdid.reports events hevents c
      simp only [Bool.and_assoc] at hlines
      exact Cba.printPass_append (hwrote.vnc c hc) hlines

/-- The entries of a module that is not the log's. -/
theorem Wrote.pass {scans : List (Modules × List Job)} {sections : Role → List Section} {works : List Work}
    (h : Wrote scans sections works) {file : List UInt8} (happended : Cba.Appended .little Role.tid sections file)
    (hne : file ≠ []) (cfg : Cba.Config) {module : List Char} (hmodule : module ≠ Cba.latin1 Cba.cscanName) :
    (Cba.entries cfg (some module) (Cba.newReader file)).1 =
      ⟨(moduleEntries works module).map (Prod.mk 1), none⟩ := by
  have hread := happended.readBack tid_injective hne cfg (some module)
  have hworker : ((sections .worker).filterMap Section.entry).filter (Cba.Passes (some module)) =
      moduleEntries works module := by
    rw [h.worker]
    exact worker_entries [] works module
  rw [← hworker]
  refine hread.alone .worker fun i hi => ?_
  cases i with
  | main =>
    rw [filter_entries, List.filter_eq_nil_iff.mpr fun s hs => ?_]
    · rfl
    · rw [h.main s hs]
      simpa using Ne.symm hmodule
  | worker => exact absurd rfl hi

/-- Each scan appends its lines to those of the scans before it. -/
theorem appended_prints {scans : List (Modules × List Job)} {file : List UInt8} (h : Scans scans file)
    (hne : file ≠ []) (opened : Nat → Bool) :
    Cba.printResults opened file =
      ⟨scans.flatMap fun scan => (found (fun m _ => m.print) scan).map fun j => .text (address j.1), none⟩ ∧
    ∀ c what, 0 < c → Cba.codes.idxOf? what = some c →
      Cba.printRfb opened false (some what) file =
        ⟨scans.flatMap fun scan => (found (fun m j => m.rfb.on && reports m c j) scan).map fun j =>
          .ip (.text (address j.1)), none⟩ := by
  obtain ⟨sections, works, happended, hwrote⟩ := h.wrote
  constructor
  · rw [Cba.printResults, hwrote.pass happended hne _ (by decide +kernel)]
    exact hwrote.results
  · intro c what hc hwhat
    rw [Cba.printRfb, Option.getD_some, rfbQuery_code hwhat]
    dsimp only
    rw [hwrote.pass happended hne _ (by decide +kernel)]
    exact hwrote.vnc c hc

/-- A scan that appends to a file: the main thread writes its log when the worker is done. -/
def runOn (file : List UInt8) : Option (Cba.Sys Role) :=
  (processThread printOnly twoJobs).bind fun calls =>
    runSchedule (fun s i => if Cba.Sys.Alone s i then Cba.Sys.step .little s i else none)
      (Cba.Sys.startOn .little file Role.tid (program [.statsEvery 10] calls))
      (List.replicate 16 .worker ++ List.replicate 8 .main)

theorem Scans.runOn {scans : List (Modules × List Job)} {file : List UInt8} (h : Scans scans file)
    {s : Cba.Sys Role} (hrun : runOn file = some s) (hreturned : allReturned s = true) :
    Scans (scans ++ [(printOnly, twoJobs)]) s.file := by
  obtain ⟨calls, hcalls, hsteps⟩ := Option.bind_eq_some_iff.mp hrun
  exact h.scan hcalls (reaches_of_runSchedule .start hsteps) (finished_of_allReturned hreturned)

theorem appended_prints_twice : ∃ file, Scans [(printOnly, twoJobs), (printOnly, twoJobs)] file ∧
    Cba.printResults (fun _ => true) file =
      ⟨[.text "1.2.3.4:5900".toList, .text "1.2.3.5:5901".toList, .text "1.2.3.4:5900".toList,
        .text "1.2.3.5:5901".toList], none⟩ := by
  have hview : ((runOn []).bind fun s => (runOn s.file).map fun t =>
      (allReturned s, allReturned t, t.file.isEmpty)) = some (true, true, false) := by
    decide +kernel
  obtain ⟨s, hs, hview⟩ := Option.bind_eq_some_iff.mp hview
  obtain ⟨t, ht, hview⟩ := Option.map_eq_some_iff.mp hview
  simp only [Prod.mk.injEq, List.isEmpty_eq_false_iff] at hview
  obtain ⟨hfirst, hsecond, hne⟩ := hview
  have hscans := (Scans.nothing.runOn hs hfirst).runOn ht hsecond
  refine ⟨t.file, hscans, ((appended_prints hscans hne _).1).trans ?_⟩
  decide +kernel

end Cscan.Worker
