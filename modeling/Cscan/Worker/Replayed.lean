import Cscan.Worker.Printed

/-! Results that are read from a text, with `-x`, and printed again from the CBA file: the main thread has written its
log before the worker is created, so the flushes of the worker tear nothing. -/

namespace Cscan.Worker

open Cscan.Lib
open Blocking (Result Pipeline)
open Results (Written Apart addFromStdin printLine)

/-! ### The threads, one behind the other -/

/-- The worker takes no step until the main thread has written its log. -/
def Behind (s : Cba.Sys Role) : Role → Prop
  | .main => True
  | .worker => (s.thread .main).todo = [] ∧ (s.thread .main).program = []

instance (s : Cba.Sys Role) : ∀ i, Decidable (Behind s i)
  | .main => isTrue trivial
  | .worker => inferInstanceAs (Decidable (_ ∧ _))

abbrev Replaying (log : List Cba.LogCall) (calls : List Cba.Call) : Cba.Sys Role → Prop :=
  Reaches (Cba.Sys.step .little) Behind (Cba.Sys.start .little Role.tid (program log calls))

section Frame

variable {ι : Type*} [DecidableEq ι] {order : ByteOrder} {s s' : Cba.Sys ι} {i j : ι}

theorem step_thread_ne (hstep : s.step order i = some s') (hj : j ≠ i) : s'.thread j = s.thread j := by
  have hadvance : ∀ t : Cba.Thread, (s.advance i t).thread j = s.thread j := fun _ => Function.update_of_ne hj ..
  unfold Cba.Sys.step at hstep
  rcases hthread : s.thread i with ⟨w, _ | ⟨a, todo⟩, prog⟩
  · cases prog with
    | nil =>
      rw [hthread] at hstep
      cases hstep
    | cons c prog =>
      rw [hthread] at hstep
      obtain ⟨r, -, rfl⟩ := Option.map_eq_some_iff.mp hstep
      exact hadvance _
  · rw [hthread] at hstep
    cases a with
    | write buffer =>
      cases hstep
      exact hadvance _
    | lock =>
      dsimp only at hstep
      split_ifs at hstep
      cases hstep
      exact hadvance _
    | unlock =>
      cases hstep
      exact hadvance _

theorem step_not_done (hstep : s.step order i = some s') : ¬ ((s.thread i).todo = [] ∧ (s.thread i).program = []) := by
  rintro ⟨htodo, hprogram⟩
  unfold Cba.Sys.step at hstep
  rcases hthread : s.thread i with ⟨w, todo, prog⟩
  rw [hthread] at htodo hprogram hstep
  dsimp only at htodo hprogram
  subst htodo hprogram
  cases hstep

end Frame

/-- A thread that holds the lock is inside of a call. -/
theorem not_holder {ι : Type*} [DecidableEq ι] {order : ByteOrder} {tid : ι → UInt8} {program : ι → List Cba.Call}
    {s : Cba.Sys ι} {i : ι} (h : Reaches (Cba.Sys.step order) (Cba.Sys.Keeps order) (Cba.Sys.start order tid program) s)
    (htodo : (s.thread i).todo = []) : s.holder ≠ some i := by
  obtain ⟨units, part, hwhole⟩ := Cba.Sys.Whole.of_reaches h
  obtain ⟨done, rest, hi⟩ := hwhole.thread i
  intro hholder
  have hinside := hi.inside
  rw [htodo, if_pos hholder] at hinside
  cases hinside with
  | holding htodo => simp at htodo

section Replaying

variable {log : List Cba.LogCall} {calls : List Cba.Call} {s : Cba.Sys Role}

/-- One behind the other, the threads leave each other's packets alone. -/
theorem writing_of_replaying (hok : ∀ i, Cba.PendingsOk .little i.tid .init (program log calls i))
    (h : Replaying log calls s) : Writing log calls s ∧
      (((s.thread .main).todo = [] ∧ (s.thread .main).program = []) ∨ (s.thread .worker).todo = []) := by
  induction h with
  | start => exact ⟨.start, Or.inr rfl⟩
  | @step s s' i _ hbehind hstep ih =>
    obtain ⟨hwriting, hturn⟩ := ih
    have hkeeps := Cba.Sys.reaches_keeps hok hwriting
    have halone : (∀ j, j ≠ i → s.holder ≠ some j) → s.Alone i := by
      intro hothers
      unfold Cba.Sys.Alone
      cases (s.thread i).todo with
      | nil => trivial
      | cons a todo =>
        cases a with
        | write buffer =>
          cases hholder : s.holder with
          | none => exact Or.inl rfl
          | some j =>
            by_cases hj : j = i
            · exact Or.inr (congrArg some hj)
            · exact absurd hholder (hothers j hj)
        | _ => trivial
    cases i with
    | main =>
      have hworker := hturn.resolve_left (step_not_done hstep)
      refine ⟨hwriting.step (halone fun j hj => ?_) hstep, Or.inr ?_⟩
      · cases j with
        | main => exact absurd rfl hj
        | worker => exact not_holder hkeeps hworker
      · rw [step_thread_ne hstep (by decide)]
        exact hworker
    | worker =>
      have hmain : (s.thread .main).todo = [] ∧ (s.thread .main).program = [] := hbehind
      refine ⟨hwriting.step (halone fun j hj => ?_) hstep, Or.inl ?_⟩
      · cases j with
        | main => exact not_holder hkeeps hmain.1
        | worker => exact absurd rfl hj
      · rw [step_thread_ne hstep (by decide)]
        exact hmain

end Replaying

/-! ### The text that is printed -/

/-- What `print` writes for texts. -/
def output : List Cba.Value → Option (List Char)
  | [] => some []
  | .text line :: lines => (output lines).map (line ++ '\n' :: ·)
  | _ :: _ => none

theorem output_addresses (rs : List Result) :
    output (rs.map fun r => .text (address r)) = some (rs.flatMap printLine) := by
  induction rs with
  | nil => rfl
  | cons r rs ih =>
    have hline : printLine r = address r ++ ['\n'] := by
      rw [printLine, address, List.append_assoc]
      rfl
    rw [List.map_cons, output, ih, List.flatMap_cons, hline, Option.map_some, List.append_assoc]
    rfl

theorem passes_of_off {m : Modules} (hoff : m.cookie.on = false) (j : Job) : passes m j = true := by
  rw [passes, checkCookie, if_pos hoff]
  rfl

theorem handled_eq {jobs : List Job} (h : ∀ r ∈ jobs.map Prod.fst, r.ip ≠ 0) : handled jobs = jobs := by
  rw [handled, List.takeWhile_eq_self_iff]
  intro j hj
  simpa using h j.1 (List.mem_map_of_mem hj)

/-- The results of a text go through the queue, the worker and the file in their order: the reader prints those that
pass the check, in the format of `list_thread`; and where nothing is checked, all the results of the text. -/
theorem replay_prints {ws : List Written} (hapart : Apart ws) (hne : ∀ w ∈ ws, w.result.ip ≠ 0)
    {overflow : Int → Int32} {order : ByteOrder} {malloc : Nat → List UInt8} (hmalloc : Blocking.Allocates malloc)
    {capacity : Nat} (hcapacity : 1 ≤ capacity) (hproduct : capacity * 8 < 2 ^ 31) {p : Pipeline}
    (hp : Pipeline.Runs order malloc capacity (addFromStdin overflow (ws.flatMap Written.text)) p)
    (hexited : p.worker = .exited) {m : Modules} {jobs : List Job} (hjobs : jobs.map Prod.fst = p.execs)
    {calls : List Cba.Call} (hcalls : processThread m jobs = some calls) {every : Int32} {s : Cba.Sys Role}
    (hrun : Replaying [.statsEvery every] calls s) (hdone : Finished s) (opened : Nat → Bool) :
    (Cba.printResults opened s.file).raised = none ∧
    output (Cba.printResults opened s.file).lines =
      some ((jobs.filter fun j => passes m j && m.print).flatMap fun j => printLine j.1) ∧
    (m.print = true → m.cookie.on = false → output (Cba.printResults opened s.file).lines =
      some ((ws.map Written.result).flatMap printLine)) := by
  have hread := Results.addFromStdin_written overflow hapart
  rw [hread] at hp
  have hresults : ∀ r ∈ ws.map Written.result, r.ip ≠ 0 := List.forall_mem_map.mpr hne
  have hexecs := ((hp.inv hmalloc hcapacity hproduct hresults).exited hresults hexited).1
  rw [hexecs] at hjobs
  have hhandled : handled jobs = jobs := handled_eq (hjobs ▸ hresults)
  obtain ⟨works, -, hwrites⟩ := program_writes [.statsEvery every] hcalls
  have hwriting := (writing_of_replaying (fun i => by
    obtain ⟨_, hruns⟩ := (hwrites i).runs
    exact hruns.ok) hrun).1
  have hprinted := printResults_eq hcalls hwriting hdone opened
  rw [hhandled] at hprinted
  have houtput : output (Cba.printResults opened s.file).lines =
      some ((jobs.filter fun j => passes m j && m.print).flatMap fun j => printLine j.1) := by
    have haddresses := output_addresses ((jobs.filter fun j => passes m j && m.print).map Prod.fst)
    rw [List.map_map, List.flatMap_map] at haddresses
    rw [hprinted]
    exact haddresses
  refine ⟨by rw [hprinted], houtput, fun hprint hoff => ?_⟩
  have hall : (jobs.filter fun j => passes m j && m.print) = jobs := by
    rw [List.filter_eq_self]
    intro j _
    rw [passes_of_off hoff, hprint]
    rfl
  rw [houtput, hall, ← hjobs, List.flatMap_map]

theorem commaBlank_separates : [' ', ','] ≠ [] ∧ ∀ c ∈ [' ', ','], Results.separates c = true := by
  simp [Results.separates]

theorem nothing_blank : ∀ c ∈ ([] : List Char), Scanf.isSpace c = true := List.forall_mem_nil _

def oneRecord : Written where
  result := ⟨0x0a000001, 80⟩
  separators := [' ', ',']
  gap := []
  separated := commaBlank_separates
  blank := nothing_blank

def oneJob : List Job :=
  [(⟨0x0a000001, 80⟩, ⟨fun _ => ⟨3, ⟨.done, none, .done⟩, ⟨0, false, false, false⟩⟩, closedServer, closedServer⟩)]

/-- The record `10.0.0.1 ,80` is printed as `10.0.0.1:80`. -/
theorem replay_prints_record : ∃ calls s, processThread { print := true } oneJob = some calls ∧
    Replaying [.statsEvery 10] calls s ∧ Finished s ∧
    output (Cba.printResults (fun _ => true) s.file).lines = some "10.0.0.1:80\n".toList := by
  have hpipeline : (runSchedule (fun p a => if Pipeline.Allows p a then Pipeline.step .little p a else none)
      (Pipeline.start Blocking.zeroed 1 (addFromStdin (fun _ => 0) ([oneRecord].flatMap Written.text)))
      Pipeline.fullRing).map (fun p => (p.worker, p.execs)) = some (.exited, [⟨0x0a000001, 80⟩]) := by
    decide +kernel
  have hthreads : ((processThread { print := true } oneJob).bind fun calls =>
      runSchedule (fun s i => if Behind s i then Cba.Sys.step .little s i else none)
        (Cba.Sys.start .little Role.tid (program [.statsEvery 10] calls))
        (List.replicate 8 .main ++ List.replicate 8 .worker)).map
      (fun s => ((s.thread .main).todo.isEmpty, (s.thread .main).program.isEmpty,
        (s.thread .worker).todo.isEmpty, (s.thread .worker).program.isEmpty)) =
          some (true, true, true, true) := by
    decide +kernel
  obtain ⟨p, hp, hview⟩ := Option.map_eq_some_iff.mp hpipeline
  obtain ⟨s, hrun, hs⟩ := Option.map_eq_some_iff.mp hthreads
  obtain ⟨calls, hcalls, hrun⟩ := Option.bind_eq_some_iff.mp hrun
  simp only [Prod.mk.injEq, List.isEmpty_iff] at hview hs
  obtain ⟨hmain, hmainDone, hworker, hworkerDone⟩ := hs
  have hreaches : Replaying [.statsEvery 10] calls s := reaches_of_runSchedule .start hrun
  have hdone : Finished s := fun i => by
    cases i with
    | main => exact ⟨hmain, hmainDone⟩
    | worker => exact ⟨hworker, hworkerDone⟩
  have hapart : Apart [oneRecord] := by
    intro w hw
    cases hw
  have hne : ∀ w ∈ [oneRecord], w.result.ip ≠ 0 := by
    intro w hw
    obtain rfl := List.mem_singleton.mp hw
    decide
  have hjobs : oneJob.map Prod.fst = p.execs := hview.2.symm
  refine ⟨calls, s, hcalls, hreaches, hdone, ?_⟩
  refine ((replay_prints hapart hne Blocking.zeroed_allocates (by decide) (by decide)
    (reaches_of_runSchedule .start hp) hview.1 hjobs hcalls hreaches hdone (fun _ => true)).2.2 rfl rfl).trans ?_
  decide +kernel

end Cscan.Worker
