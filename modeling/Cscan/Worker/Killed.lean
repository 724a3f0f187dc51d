import Cscan.Cba.Killed
import Cscan.Worker.Printed

/-! What the scripts print of the file of a scan that was killed: the first of the lines that they would have printed
in the end, but that an address may be cut off. -/

namespace Cscan.Worker

open Cscan.Lib
open Blocking (Result)
open Cba (Labelled Section Entry Event Value ScriptErr)
open Rfb (ofChars Coded)

/-! ### The lines of an entry that is not complete -/

/-- A text of which the end may be missing. -/
def Shorter (v v' : Value) : Prop := ∃ text text', v = .text text ∧ v' = .text text' ∧ text <+: text'

theorem resultLine_begins {r : Result} {e e' : Entry} (hentry : (printSection r).entry = some e')
    (hproper : e.Proper) (h : e.Begins e') {own' : List Value} (hline : Cba.resultLine e' = .ok own') :
    ∃ own, Cba.resultLine e = .ok own ∧ Begins Shorter own own' := by
  obtain rfl := Option.some.inj hentry
  rcases Cba.begins_cases hproper h rfl with ⟨more, rfl, hmore⟩ | ⟨x, rfl, hcut⟩
  · have hnil : more = [] := by
      by_contra hne
      exact hmore.ne_nil hne rfl
    subst hnil
    exact ⟨own', hline, .refl _ _⟩
  · obtain ⟨text, text', hval, hval', hfront⟩ := hcut.text
    have hlookup : (Entry.ofEvents [] [x]).dict.lookup 0 = some (.text text) := by
      have hzero : x.code = 0 := hcut.code
      rw [← hval, ← hzero]
      exact Cba.lookup_ofEvents_first [] (by simp)
    have hown : [Value.text text'] = own' := by
      rw [← hval']
      exact Except.ok.inj hline
    refine ⟨[.text text], ?_, ?_⟩
    · show Cba.resultLine (Entry.ofEvents [] [x]) = _
      rw [Cba.resultLine, hlookup]
    · rw [← hown]
      exact @Begins.cut _ Shorter [] _ _ _ (List.prefix_refl _) ⟨text, text', rfl, rfl, hfront⟩

theorem rfbLine_begins {name scheme : List Char} {r : Result} {events : List Labelled} {n : Nat} (hn : 0 < n)
    (hcoded : ∀ l ∈ events, Coded l) {e : Entry} (hproper : e.Proper)
    (h : e.Begins (serviceEntry name scheme r events)) {own' : List Cba.RfbLine}
    (hline : Cba.rfbLine (.code n) (serviceEntry name scheme r events) = .ok own') :
    ∃ own, Cba.rfbLine (.code n) e = .ok own ∧ Begins (· = ·) own own' := by
  have hcodes : ∀ e ∈ events.map Labelled.logged, e.code ≠ 0 := by
    intro e he
    obtain ⟨l, hl, rfl⟩ := List.mem_map.mp he
    exact (hcoded l hl).code
  have hwhole := @Cba.rfbLine_events name ⟨Cba.cbaStr, 0, .text (scheme ++ address r)⟩ _ rfl _ rfl hcodes n hn
  obtain rfl := Except.ok.inj (hwhole.symm.trans hline)
  rcases Cba.begins_cases hproper h rfl with ⟨more, rfl, hmore⟩ | ⟨x, rfl, hcut⟩
  · have hfront := hmore.map_front fun _ _ hcut => hcut.code
    have hmoreCodes : ∀ e ∈ more, e.code ≠ 0 := by
      intro e he hzero
      have hmem := hfront.subset (List.mem_map_of_mem he)
      rw [hzero] at hmem
      obtain ⟨e', he', hzero'⟩ := List.mem_map.mp hmem
      exact hcodes e' he' hzero'
    refine ⟨_, Cba.rfbLine_events name rfl rfl hmoreCodes hn, .whole ?_⟩
    by_cases hmem : n ∈ more.map Event.code
    · rw [if_pos hmem, if_pos (hfront.subset hmem)]
    · rw [if_neg hmem]
      exact List.nil_prefix
  · obtain ⟨text, text', hval, -, -⟩ := hcut.text
    exact ⟨[], Cba.rfbLine_events name hcut.code hval (by simp) hn, .whole List.nil_prefix⟩

/-! ### A scan that was killed -/

theorem mem_roles (i : Role) : i ∈ ({.main, .worker} : Finset Role) := by
  cases i <;> simp

instance : Fintype Role := ⟨{.main, .worker}, mem_roles⟩

theorem did_of_mem {m : Modules} {jobs : List Job} {works : List Work} (h : List.Forall₂ (Did m) jobs works)
    {w : Work} (hw : w ∈ works) : ∃ j, Did m j w := by
  induction h with
  | nil => cases hw
  | cons hdid _ ih =>
    rcases List.mem_cons.mp hw with rfl | hw
    · exact ⟨_, hdid⟩
    · exact ih hw

theorem mem_resultEntries {works : List Work} {e : Entry} (h : e ∈ moduleEntries works []) :
    ∃ r, (printSection r).entry = some e := by
  obtain ⟨w, -, hw⟩ := List.mem_flatMap.mp h
  rw [printSections, List.mem_filterMap] at hw
  obtain ⟨s, hs, hentry⟩ := hw
  split_ifs at hs
  · exact ⟨w.result, List.mem_singleton.mp hs ▸ hentry⟩
  · cases hs

theorem mem_vncEntries {m : Modules} {jobs : List Job} {works : List Work} (hworks : List.Forall₂ (Did m) jobs works)
    {e : Entry} (h : e ∈ moduleEntries works "rfb".toList) :
    ∃ r events, (∀ l ∈ events, Coded l) ∧ e = serviceEntry "rfb".toList "vnc://".toList r events := by
  obtain ⟨w, hmem, hw⟩ := List.mem_flatMap.mp h
  obtain ⟨j, hdid⟩ := did_of_mem hworks hmem
  rw [vncSections, List.mem_filterMap] at hw
  obtain ⟨s, hs, hentry⟩ := hw
  obtain ⟨events, hevents, rfl⟩ := Option.map_eq_some_iff.mp (Option.mem_toList.mp hs)
  rw [serviceSection_entry named_rfb] at hentry
  split_ifs at hentry
  exact ⟨w.result, events, hdid.events events hevents, (Option.some.inj hentry).symm⟩

/-- The script has printed its lines, and at most found that the file ends too soon. -/
def ReachesEnd (raised : Option ScriptErr) : Prop := raised = none ∨ raised = some (.read .struct)

theorem reachesEnd {raised : Option Cba.Err} (h : raised = none ∨ raised = some .struct) :
    ReachesEnd (raised.map .read) := h.imp (congrArg _) (congrArg _)

/-- The two threads after the turns, if they all could go on. -/
def afterTurns (turns : List Role) : Option (Cba.Sys Role) :=
  (processThread printOnly twoJobs).bind fun calls =>
    runSchedule (fun s i => if Cba.Sys.Alone s i then Cba.Sys.step .little s i else none)
      (Cba.Sys.start .little Role.tid (program [.statsEvery 10] calls)) turns

theorem writing_afterTurns {turns : List Role} {s : Cba.Sys Role} (h : afterTurns turns = some s) :
    ∃ calls, processThread printOnly twoJobs = some calls ∧ Writing [.statsEvery 10] calls s := by
  obtain ⟨calls, hcalls, hrun⟩ := Option.bind_eq_some_iff.mp h
  exact ⟨calls, hcalls, reaches_of_runSchedule .start hrun⟩

section Killed

variable {m : Modules} {jobs : List Job} {calls : List Cba.Call} {log : List Cba.LogCall} {s : Cba.Sys Role}

/-- What is read and printed so far: entries of the worker, and lines that begin all of them. -/
structure SoFar {α : Type} (line : Entry → Except ScriptErr (List α)) (R : α → α → Prop) (all : List α)
    (pass : Cba.Pass) (es : List Entry) (lines : List α) : Prop where
  raised : pass.raised = none ∨ pass.raised = some .struct
  entries : pass.entries = es.map (Prod.mk 1)
  printed : ∀ raised, Cba.printPass line ⟨es.map (Prod.mk 1), raised⟩ = ⟨lines, raised.map .read⟩
  begins : Begins R lines all

theorem SoFar.printPass {α : Type} {line : Entry → Except ScriptErr (List α)} {R : α → α → Prop} {all : List α}
    {pass : Cba.Pass} {es : List Entry} {lines : List α} (h : SoFar line R all pass es lines) :
    Cba.printPass line pass = ⟨lines, pass.raised.map .read⟩ := by
  have hpass : pass = ⟨es.map (Prod.mk 1), pass.raised⟩ := by rw [← h.entries]
  rw [hpass]
  exact h.printed _

/-- The pass over what is left of the file, for one module. -/
def leftPass (opened : Nat → Bool) (module : List Char) (data : List UInt8) : Cba.Pass :=
  (Cba.entries (Cba.plainConfig opened) (some module) (Cba.newReader data)).1

/-- The entries of a module that is not the log's begin those of the worker. -/
theorem soFar {α : Type} {line : Entry → Except ScriptErr (List α)} {R : α → α → Prop} {all : List α}
    {works : List Work} (hwrites : ∀ i, Cba.Writes .little i.tid (program log calls i) (sections log works i))
    (hrun : Writing log calls s) {module : List Char} (hmodule : module ≠ Cba.latin1 Cba.cscanName)
    (hall : Cba.printPass line ⟨(moduleEntries works module).map (Prod.mk 1), none⟩ = ⟨all, none⟩)
    (hcut : ∀ e : Entry, e.Proper → ∀ e' ∈ moduleEntries works module, e.Begins e' → ∀ own', line e' = .ok own' →
      ∃ own, line e = .ok own ∧ Begins R own own') (opened : Nat → Bool) (n : Nat) :
    ∃ es lines, SoFar line R all (leftPass opened module (s.file.take n)) es lines := by
  have hread := Cba.killed_readSoFar tid_injective hwrites hrun opened (some module) n
  have hbegins := hread.thread .worker
  rw [worker_entries] at hbegins
  obtain ⟨lines, hlines, hprinted⟩ := Cba.printPass_begins hbegins hall fun e he => hcut e (hread.proper 1 e he)
  refine ⟨_, lines, hread.raised, Cba.eq_tagged_of_proj fun t ht => ?_, hprinted, hlines⟩
  by_cases hmain : t = 0
  · subst hmain
    have hnone := hread.thread .main
    rw [main_entries log works hmodule] at hnone
    by_contra hne
    exact hnone.ne_nil hne rfl
  · refine hread.other t fun i => ?_
    cases i with
    | main => exact Ne.symm hmain
    | worker => exact Ne.symm ht

theorem results_soFar {works : List Work} (hworks : List.Forall₂ (Did m) (handled jobs) works)
    (hwrites : ∀ i, Cba.Writes .little i.tid (program log calls i) (sections log works i))
    (hrun : Writing log calls s) (opened : Nat → Bool) (n : Nat) :
    ∃ es lines, SoFar Cba.resultLine Shorter
      (((handled jobs).filter fun j => passes m j && m.print).map fun j => .text (address j.1))
      (leftPass opened [] (s.file.take n)) es lines :=
  soFar hwrites hrun (by decide +kernel) (resultEntries_lines hworks) (fun e hproper e' he' hbegins own' hline => by
    obtain ⟨r, hentry⟩ := mem_resultEntries he'
    exact resultLine_begins hentry hproper hbegins hline) opened n

theorem vnc_soFar {works : List Work} (hworks : List.Forall₂ (Did m) (handled jobs) works)
    (hwrites : ∀ i, Cba.Writes .little i.tid (program log calls i) (sections log works i))
    (hrun : Writing log calls s) {c : Nat} (hc : 0 < c) (opened : Nat → Bool) (n : Nat) :
    ∃ es lines, SoFar (Cba.rfbLine (.code c)) (· = ·)
      (((handled jobs).filter fun j => passes m j && m.rfb.on && reports m c j).map fun j => .ip (.text (address j.1)))
      (leftPass opened "rfb".toList (s.file.take n)) es lines :=
  soFar hwrites hrun (by decide +kernel)
    (vncEntries_lines hworks hc fun j w hdid events hevents => hdid.reports events hevents c)
    (fun e hproper e' he' hbegins own' hline => by
      obtain ⟨r, events, hcoded, rfl⟩ := mem_vncEntries hworks he'
      exact rfbLine_begins hc hcoded hproper hbegins hline) opened n

theorem printRfb_soFar {all : List Cba.RfbLine} {es : List Entry} {lines : List Cba.RfbLine} {c : Nat}
    {what : List Char} (hwhat : Cba.codes.idxOf? what = some c) {opened : Nat → Bool} {data : List UInt8}
    (h : SoFar (Cba.rfbLine (.code c)) (· = ·) all (leftPass opened "rfb".toList data) es lines) :
    Cba.printRfb opened false (some what) data = ⟨lines, (leftPass opened "rfb".toList data).raised.map .read⟩ := by
  rw [Cba.printRfb, Option.getD_some, rfbQuery_code hwhat]
  exact h.printPass

/-- Whenever the process is killed, and whatever of the file is kept, the scripts print the first of the lines that
they would have printed in the end, and raise nothing but a `struct.error` behind them. Only the address that
`cba_reader_cscan.py -r` prints last may be cut off. -/
theorem killed_prints (hcalls : processThread m jobs = some calls) (hrun : Writing log calls s)
    (opened : Nat → Bool) (n : Nat) :
    let data := s.file.take n
    (ReachesEnd (Cba.printResults opened data).raised ∧ Begins Shorter (Cba.printResults opened data).lines
      (((handled jobs).filter fun j => passes m j && m.print).map fun j => .text (address j.1))) ∧
    ∀ c what, 0 < c → Cba.codes.idxOf? what = some c →
      ReachesEnd (Cba.printRfb opened false (some what) data).raised ∧
        (Cba.printRfb opened false (some what) data).lines <+:
          ((handled jobs).filter fun j => passes m j && m.rfb.on && reports m c j).map fun j =>
            .ip (.text (address j.1)) := by
  intro data
  obtain ⟨works, hworks, hwrites⟩ := program_writes log hcalls
  constructor
  · obtain ⟨es, lines, hsoFar⟩ := results_soFar hworks hwrites hrun opened n
    have hresults : Cba.printResults opened data = _ := hsoFar.printPass
    rw [hresults]
    exact ⟨reachesEnd hsoFar.raised, hsoFar.begins⟩
  · intro c what hc hwhat
    obtain ⟨es, lines, hsoFar⟩ := vnc_soFar hworks hwrites hrun hc opened n
    have hfront := hsoFar.begins.map_front (f := id) fun _ _ h => h
    rw [List.map_id, List.map_id] at hfront
    rw [printRfb_soFar hwhat hsoFar]
    exact ⟨reachesEnd hsoFar.raised, hfront⟩

/-- The worker is killed in front of its last `unlock`, and the last two bytes are not kept. -/
theorem killed_prints_cut : ∃ calls s, processThread printOnly twoJobs = some calls ∧
    Writing [.statsEvery 10] calls s ∧
    (Cba.printResults (fun _ => true) (s.file.take 37)).lines =
      [.text "1.2.3.4:5900".toList, .text "1.2.3.5:59".toList] ∧
    ReachesEnd (Cba.printResults (fun _ => true) (s.file.take 37)).raised := by
  have hview : (afterTurns (List.replicate 15 .worker)).map (fun s =>
      (Cba.printResults (fun _ => true) (s.file.take 37)).lines) =
        some [.text "1.2.3.4:5900".toList, .text "1.2.3.5:59".toList] := by
    decide +kernel
  obtain ⟨s, hs, hlines⟩ := Option.map_eq_some_iff.mp hview
  obtain ⟨calls, hcalls, hreaches⟩ := writing_afterTurns hs
  exact ⟨calls, s, hcalls, hreaches, hlines, (killed_prints hcalls hreaches _ 37).1.1⟩

/-- The calls for some results, and then those for the results behind them. -/
theorem processThread_append {earlier later : List Job} (hips : ∀ j ∈ earlier, j.1.ip ≠ 0)
    (h : processThread m (earlier ++ later) = some calls) :
    ∃ done rest, processThread m earlier = some done ∧ processThread m later = some rest ∧ calls = done ++ rest := by
  induction earlier generalizing calls with
  | nil => exact ⟨[], calls, rfl, h, rfl⟩
  | cons j earlier ih =>
    obtain ⟨r, host⟩ := j
    have hip : r.ip ≠ 0 := hips (r, host) List.mem_cons_self
    rw [List.cons_append, processThread, if_neg hip] at h
    obtain ⟨first, hfirst, h⟩ := Option.bind_eq_some_iff.mp h
    obtain ⟨more, hmore, h⟩ := Option.bind_eq_some_iff.mp h
    cases h
    obtain ⟨done, rest, hdone, hrest, rfl⟩ := ih (fun j hj => hips j (List.mem_cons_of_mem _ hj)) hmore
    refine ⟨first ++ done, rest, ?_, hrest, (List.append_assoc ..).symm⟩
    rw [processThread, if_neg hip, hfirst, hdone]
    rfl

theorem length_resultLine {e : Entry} {own : List Value} (h : Cba.resultLine e = .ok own) : own.length ≤ 1 := by
  unfold Cba.resultLine at h
  split at h
  · cases h
    exact le_refl 1
  · cases h

theorem length_rfbLine {c : Nat} {e : Entry} {own : List Cba.RfbLine} (h : Cba.rfbLine (.code c) e = .ok own) :
    own.length ≤ 1 := by
  unfold Cba.rfbLine at h
  split at h
  · cases h
  · split at h
    · cases h
    · cases h
      split_ifs
      · exact le_refl 1
      · exact Nat.zero_le 1

/-- All lines but maybe the last for the results that the worker is done with. -/
theorem SoFar.done {α : Type} {line : Entry → Except ScriptErr (List α)} {R : α → α → Prop} {all known : List α}
    {works : List Work} {opened : Nat → Bool} {module : List Char} {es : List Entry} {lines : List α}
    (h : SoFar line R all (leftPass opened module s.file) es lines)
    (hcompleted : (moduleEntries works module).dropLast <+: proj 1 (leftPass opened module s.file).entries)
    (hknown : Cba.printPass line ⟨(moduleEntries works module).map (Prod.mk 1), none⟩ = ⟨known, none⟩)
    (hone : ∀ e own, line e = .ok own → own.length ≤ 1) : known.dropLast <+: lines := by
  rw [h.entries, proj_tagged_self] at hcompleted
  exact Cba.printPass_dropLast hknown hone hcompleted (h.printed none)

/-- Of the results that the worker is done with, the scripts print all lines but maybe the last, whatever the main
thread is doing. -/
theorem done_printed {earlier later : List Job} (hips : ∀ j ∈ earlier, j.1.ip ≠ 0)
    (hcalls : processThread m (earlier ++ later) = some calls) (hrun : Writing log calls s)
    (hidle : (s.thread .worker).todo = []) (hlater : processThread m later = some (s.thread .worker).program)
    (opened : Nat → Bool) :
    ((earlier.filter fun j => passes m j && m.print).map fun j => Value.text (address j.1)).dropLast <+:
        (Cba.printResults opened s.file).lines ∧
      ∀ c what, 0 < c → Cba.codes.idxOf? what = some c →
        ((earlier.filter fun j => passes m j && m.rfb.on && reports m c j).map fun j =>
          Cba.RfbLine.ip (.text (address j.1))).dropLast <+: (Cba.printRfb opened false (some what) s.file).lines := by
  obtain ⟨works, hworks, hwrites⟩ := program_writes log hcalls
  obtain ⟨done, rest, hdone, hrest, rfl⟩ := processThread_append hips hcalls
  obtain rfl := Option.some.inj (hrest.symm.trans hlater)
  obtain ⟨earlierWorks, hearlierWorks, hearlierWrites⟩ := program_writes log hdone
  have hhandled : handled earlier = earlier := List.takeWhile_eq_self_iff.mpr fun j hj => by simpa using hips j hj
  rw [hhandled] at hearlierWorks
  have hcompleted : ∀ module, (moduleEntries earlierWorks module).dropLast <+:
      proj 1 (leftPass opened module s.file).entries := fun module => by
    rw [← worker_entries log]
    exact Cba.killed_completed tid_injective hwrites hrun opened (some module) hidle rfl (hearlierWrites .worker)
  constructor
  · obtain ⟨es, lines, hsoFar⟩ := results_soFar hworks hwrites hrun opened s.file.length
    rw [List.take_length] at hsoFar
    have hresults : Cba.printResults opened s.file = _ := hsoFar.printPass
    rw [hresults]
    exact hsoFar.done (hcompleted []) (resultEntries_lines hearlierWorks) fun _ _ => length_resultLine
  · intro c what hc hwhat
    obtain ⟨es, lines, hsoFar⟩ := vnc_soFar hworks hwrites hrun hc opened s.file.length
    rw [List.take_length] at hsoFar
    rw [printRfb_soFar hwhat hsoFar]
    exact hsoFar.done (hcompleted _) (vncEntries_lines hearlierWorks hc fun j w hdid events hevents =>
      hdid.reports events hevents c) fun _ _ => length_rfbLine

end Killed

/-- The main thread is inside of a packet when the worker has written both results. -/
theorem done_printed_torn : ∃ calls s, processThread printOnly twoJobs = some calls ∧
    Writing [.statsEvery 10] calls s ∧
    Cba.printResults (fun _ => true) s.file = ⟨[.text "1.2.3.4:5900".toList], some (.read .struct)⟩ ∧
    [Value.text "1.2.3.4:5900".toList] <+: (Cba.printResults (fun _ => true) s.file).lines := by
  have hview : (afterTurns (List.replicate 16 .worker ++ List.replicate 6 .main)).map (fun s =>
      ((s.thread .worker).todo.isEmpty, (s.thread .worker).program.isEmpty,
        Cba.printResults (fun _ => true) s.file)) =
          some (true, true, ⟨[.text "1.2.3.4:5900".toList], some (.read .struct)⟩) := by
    decide +kernel
  obtain ⟨s, hs, hview⟩ := Option.map_eq_some_iff.mp hview
  obtain ⟨calls, hcalls, hreaches⟩ := writing_afterTurns hs
  simp only [Prod.mk.injEq, List.isEmpty_iff] at hview
  obtain ⟨htodo, hprogram, hprinted⟩ := hview
  have hlater : processThread printOnly [] = some (s.thread .worker).program := by
    rw [hprogram]
    rfl
  have hknown := (@done_printed printOnly _ _ s twoJobs [] (by decide) hcalls hreaches htodo hlater
    (fun _ => true)).1
  have hfirst : ((twoJobs.filter fun j => passes printOnly j && printOnly.print).map fun j =>
      Value.text (address j.1)).dropLast = [.text "1.2.3.4:5900".toList] := by
    decide +kernel
  exact ⟨calls, s, hcalls, hreaches, hprinted, hfirst ▸ hknown⟩

end Cscan.Worker
