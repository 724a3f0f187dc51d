import Cscan.Cba.Concurrent
import Cscan.Cba.Stats

/-! The file that threads write together whose calls are sections: the entries of each thread are those of its own
sections, whatever the order of their steps, as long as no flush comes while another thread holds the lock. -/

namespace Cscan.Cba

open Cscan.Lib

/-! ### The lock -/

/-- The step of thread `i` is no `do_write` while another thread holds the lock. -/
def Sys.Alone {ι : Type*} (s : Sys ι) (i : ι) : Prop :=
  match (s.thread i).todo with
  | .write _ :: _ => s.holder = none ∨ s.holder = some i
  | _ => True

theorem PendingsOk.callOk {order : ByteOrder} {tid : UInt8} {p : Pending} {done rest : List Call} {c : Call}
    (h : PendingsOk order tid p (done ++ c :: rest)) : PendingOk order tid ((emitter order tid).run p done) c := by
  induction done generalizing p with
  | nil => exact h.1
  | cons d done ih => exact ih h.2

section Runs

variable {ι : Type*} [DecidableEq ι] {order : ByteOrder} {tid : ι → UInt8} {program : ι → List Call} {s : Sys ι}

instance (s : Sys ι) (i : ι) : Decidable (s.Alone i) := by
  unfold Sys.Alone
  split <;> infer_instance

/-- The programs keep to whole packets by themselves. -/
theorem Sys.reaches_keeps (hok : ∀ i, PendingsOk order (tid i) .init (program i))
    (h : Reaches (Sys.step order) Sys.Alone (Sys.start order tid program) s) :
    Reaches (Sys.step order) (Sys.Keeps order) (Sys.start order tid program) s := by
  induction h with
  | start => exact .start
  | @step s s' i _ halone hstep ih =>
    refine ih.step ?_ hstep
    obtain ⟨units, part, hwhole⟩ := Sys.Whole.of_reaches ih
    obtain ⟨done, rest, hi⟩ := hwhole.thread i
    unfold Sys.Keeps
    unfold Sys.Alone at halone
    rcases hthread : s.thread i with ⟨w, todo, prog⟩
    rw [hthread] at hi halone
    cases todo with
    | nil =>
      cases prog with
      | nil => trivial
      | cons c prog =>
        refine hi.refines.callOk ?_
        have hprogram : program i = done ++ c :: prog := hi.program
        rw [hi.threadId]
        exact (hprogram ▸ hok i).callOk
    | cons a todo =>
      cases a with
      | write buffer => exact halone
      | _ => trivial

end Runs

/-! ### Threads that write sections -/

/-- The calls of a thread write the sections. -/
structure Writes (order : ByteOrder) (tid : UInt8) (program : List Call) (sections : List Section) : Prop where
  plain : ∀ s ∈ sections, s.Plain
  extracted : ∀ cfg, ∀ s ∈ sections, s.Extracted cfg
  runs : ∃ p, Runs order tid .init program (sections.flatMap Section.atoms) p

theorem writes_sections {order : ByteOrder} {sections : List Section} (tid : UInt8) (hplain : ∀ s ∈ sections, s.Plain)
    (hsent : ∀ s ∈ sections, ∀ l ∈ s.events, l.Sent order) (hextract : ∀ cfg, ∀ s ∈ sections, s.Extracted cfg) :
    Writes order tid (sections.flatMap Section.calls) sections := by
  obtain ⟨as, hruns⟩ := @runs_sections order tid sections hplain hsent []
  exact ⟨hplain, hextract, _, hruns⟩

theorem event_clipped (c : LogCall) : (c.labelled.flatMap fun l => Pending.event (l.code.getD 0) l.event) =
    c.clipped.labelled.flatMap fun l => Pending.event (l.code.getD 0) l.event := by
  cases c with
  | event text => simp [LogCall.clipped, LogCall.labelled, Pending.event, formatted_formatted]
  | _ => rfl

/-- The main thread writes its section, of which a text is not longer than what is written of it. -/
theorem writes_mainCalls (order : ByteOrder) (tid : UInt8) (log : List LogCall) :
    Writes order tid (mainCalls log) [mainSection log] where
  plain := by simpa using mainSection_plain log
  extracted cfg s hs l hl name reads h := by
    rw [List.mem_singleton.mp hs] at hl
    exact absurd h ((mainSection_cases log hl).2.2 name reads)
  runs := by
    have hhead : Runs order tid .init [.head cscanName] [] ⟨0, [.packet none (.head cscanName)]⟩ :=
      ⟨⟨trivial, trivial⟩, rfl, rfl⟩
    have hcalls : mainCalls log = [.head cscanName] ++ (log.flatMap LogCall.labelled).flatMap Labelled.calls := by
      rw [mainCalls, List.flatMap_assoc, funext LogCall.calls_eq]
      rfl
    have hatoms : ((log.flatMap LogCall.labelled).flatMap fun l => Pending.event (l.code.getD 0) l.event) =
        (mainSection log).eventAtoms := by
      rw [Section.eventAtoms, mainSection, List.flatMap_assoc, List.flatMap_assoc, List.flatMap_map]
      exact List.flatMap_congr fun c _ => event_clipped c
    rw [hcalls, List.flatMap_singleton, Section.atoms, Section.deferredAtoms]
    by_cases hnone : log = []
    · subst hnone
      exact ⟨_, hhead⟩
    · have hlabelled : ∀ c : LogCall, c.labelled ≠ [] := fun c => by cases c <;> exact List.cons_ne_nil _ _
      obtain ⟨c, rest, rfl⟩ := List.exists_cons_of_ne_nil hnone
      have hevents : (c :: rest).flatMap LogCall.labelled ≠ [] := by
        rw [List.flatMap_cons]
        exact List.append_ne_nil_of_left_ne_nil (hlabelled c) _
      have hsection : (mainSection (c :: rest)).events ≠ [] := by
        rw [mainSection, List.map_cons, List.flatMap_cons]
        exact List.append_ne_nil_of_left_ne_nil (hlabelled _) _
      have hsent : ∀ l ∈ (c :: rest).flatMap LogCall.labelled, l.Sent order := by
        intro l hl
        obtain ⟨d, -, hl⟩ := List.mem_flatMap.mp hl
        cases d with
        | event text =>
          obtain rfl := List.mem_singleton.mp hl
          trivial
        | _ =>
          simp only [LogCall.labelled, List.mem_cons, List.not_mem_nil, or_false] at hl
          rcases hl with rfl | rfl | rfl <;> trivial
      rw [if_neg hsection, ← hatoms]
      exact ⟨_, hhead.append (runs_events hsent _ hevents)⟩

/-! ### The entries -/

theorem decodeThread_filter (cfg : Config) (module : List Char) (as : List Atom) :
    decodeThread cfg (some module) as = (decodeThread cfg none as).filter fun e => e.module = module := by
  have hfilter := decode_filter cfg module (as.map (Prod.mk 0))
  rw [decode_alone, decode_alone, List.filter_map] at hfilter
  exact List.map_injective_iff.mpr (Prod.mk_right_injective 0) hfilter

/-- An entry that is yielded. -/
def Passes (filter : Option (List Char)) (e : Entry) : Bool := filter.all (e.module = ·)

theorem decodeThread_sections (cfg : Config) (filter : Option (List Char)) {sections : List Section}
    (hplain : ∀ s ∈ sections, s.Plain) (hextract : ∀ s ∈ sections, s.Extracted cfg) :
    decodeThread cfg filter (sections.flatMap Section.atoms) =
      (sections.filterMap Section.entry).filter (Passes filter) := by
  have hall : decodeThread cfg none (sections.flatMap Section.atoms) = sections.filterMap Section.entry :=
    decode_sections hplain hextract {}
  cases filter with
  | none =>
    rw [hall]
    exact (List.filter_eq_self.mpr fun _ _ => rfl).symm
  | some module =>
    rw [decodeThread_filter, hall]
    exact List.filter_congr fun e _ => rfl

/-- What reading a file gives: the entries of each thread, and no exception. -/
structure ReadBack {ι : Type*} (tid : ι → UInt8) (sections : ι → List Section) (filter : Option (List Char))
    (pass : Pass) : Prop where
  raised : pass.raised = none
  thread : ∀ i, proj (tid i) pass.entries = ((sections i).filterMap Section.entry).filter (Passes filter)
  other : ∀ t, (∀ i, tid i ≠ t) → proj t pass.entries = []

section Written

variable {ι : Type*} [DecidableEq ι] {order : ByteOrder} {tid : ι → UInt8} {program : ι → List Call}
  {sections : ι → List Section}

theorem Writes.ok {tid : UInt8} {program : List Call} {sections : List Section}
    (h : Writes order tid program sections) : PendingsOk order tid .init program := by
  obtain ⟨p, hruns⟩ := h.runs
  exact hruns.ok

omit [DecidableEq ι] in
theorem encodeUnits_append (order : ByteOrder) (tid : ι → UInt8) (us more : List (ι × Atom)) :
    encodeUnits order (tagged tid (us ++ more)) =
      encodeUnits order (tagged tid us) ++ encodeUnits order (tagged tid more) := by
  simp [tagged, encodeUnits]

/-- What holds of each thread's atoms, and of none. -/
theorem proj_tagged_each (htid : Function.Injective tid) {units : List (ι × Atom)} {P : List Atom → Prop} (hnil : P [])
    (h : ∀ i, P (proj i units)) (t : UInt8) : P (proj t (tagged tid units)) := by
  by_cases ht : ∃ j, tid j = t
  · obtain ⟨j, rfl⟩ := ht
    rw [proj_tagged htid]
    exact h j
  · rw [proj_tagged_none fun j hj => ht ⟨j, hj⟩]
    exact hnil

theorem tagged_ascii {units : List (ι × Atom)} (hplain : ∀ i, ∀ s ∈ sections i, s.Plain)
    (hproj : ∀ i, proj i units = (sections i).flatMap Section.atoms) : ∀ u ∈ tagged tid units, u.2.Ascii := by
  intro u hu
  obtain ⟨⟨i, a⟩, ha, rfl⟩ := List.mem_map.mp hu
  have hmem : a ∈ (sections i).flatMap Section.atoms := hproj i ▸ mem_proj.mpr ha
  exact sections_ascii (hplain i) a hmem

/-- Sections that the reader gets back, whatever is in front of them. -/
structure Rereads (sections : List Section) : Prop where
  plain : ∀ s ∈ sections, s.Plain
  extracted : ∀ cfg, ∀ s ∈ sections, s.Extracted cfg
  follows : Follows false (sections.flatMap Section.atoms)

theorem Writes.rereads {tid : UInt8} {program : List Call} {sections : List Section}
    (h : Writes order tid program sections) : Rereads sections where
  plain := h.plain
  extracted := h.extracted
  follows := by
    obtain ⟨p, hruns⟩ := h.runs
    have hinit : Follows false Pending.init.deferred := rfl
    rw [← hruns.outs]
    exact outs_follows order tid hinit program

/-- The sections of threads are read back from a file of their atoms. -/
theorem fileOf_readBack (htid : Function.Injective tid) (hsections : ∀ i, Rereads (sections i))
    {units : List (ι × Atom)} (hproj : ∀ i, proj i units = (sections i).flatMap Section.atoms)
    (order : ByteOrder) (cfg : Config) (filter : Option (List Char)) :
    ReadBack tid sections filter (entries cfg filter (newReader (fileOf order (tagged tid units)))).1 := by
  have hfollows : WellFormed (tagged tid units) := proj_tagged_each htid rfl fun i => by
    rw [hproj]
    exact (hsections i).follows
  have hnames : ∀ t, TakesNames cfg [] (proj t (tagged tid units)) :=
    @proj_tagged_each ι _ tid htid units (TakesNames cfg []) trivial fun i => by
      rw [hproj]
      exact sections_takesNames ((hsections i).extracted cfg) []
  have hascii := @tagged_ascii ι _ tid _ _ (fun i => (hsections i).plain) hproj
  rw [entries_ascii filter order hfollows hascii hnames]
  refine ⟨rfl, fun i => ?_, fun t ht => ?_⟩
  · rw [proj_decode, proj_tagged htid, hproj]
    exact decodeThread_sections cfg filter (hsections i).plain ((hsections i).extracted cfg)
  · rw [proj_decode, proj_tagged_none ht]
    exact @decodeThread_sections cfg filter [] (by simp) (by simp)

/-- The file when all the calls have returned. -/
theorem finished_units {s : Sys ι} (hwrites : ∀ i, Writes order (tid i) (program i) (sections i))
    (hrun : Reaches (Sys.step order) Sys.Alone (Sys.start order tid program) s)
    (hdone : ∀ i, (s.thread i).todo = [] ∧ (s.thread i).program = []) :
    ∃ units : List (ι × Atom), s.file = fileOf order (tagged tid units) ∧
      ∀ i, proj i units = (sections i).flatMap Section.atoms := by
  obtain ⟨units, part, hwhole⟩ := Sys.Whole.of_reaches (Sys.reaches_keeps (fun i => (hwrites i).ok) hrun)
  obtain ⟨rfl, hthreads⟩ := hwhole.between fun i => (hdone i).1
  refine ⟨units, ?_, fun i => ?_⟩
  · rw [hwhole.file, List.append_nil]
    rfl
  · obtain ⟨done, hprogram, houts⟩ := hthreads i
    obtain ⟨p, hruns⟩ := (hwrites i).runs
    rw [(hdone i).2, List.append_nil] at hprogram
    rw [houts, ← hprogram, hruns.outs]

/-- Whatever the order of the steps, each thread's sections are read back once all the calls have returned. -/
theorem finished_readBack {s : Sys ι} (htid : Function.Injective tid)
    (hwrites : ∀ i, Writes order (tid i) (program i) (sections i))
    (hrun : Reaches (Sys.step order) Sys.Alone (Sys.start order tid program) s)
    (hdone : ∀ i, (s.thread i).todo = [] ∧ (s.thread i).program = []) (cfg : Config)
    (filter : Option (List Char)) :
    ReadBack tid sections filter (entries cfg filter (newReader s.file)).1 := by
  obtain ⟨units, hfile, hproj⟩ := finished_units hwrites hrun hdone
  rw [hfile]
  exact fileOf_readBack htid (fun i => (hwrites i).rereads) hproj order cfg filter

end Written

/-- Where only one thread has entries, they are all there is. -/
theorem eq_tagged_of_proj {α : Type*} {k : UInt8} {es : List (UInt8 × α)} (h : ∀ t, t ≠ k → proj t es = []) :
    es = (proj k es).map (Prod.mk k) := by
  induction es with
  | nil => rfl
  | cons e es ih =>
    obtain ⟨t, a⟩ := e
    have ht : t = k := by
      by_contra hne
      have hnil := h t hne
      simp [proj] at hnil
    subst ht
    have htail : ∀ t', t' ≠ t → proj t' es = [] := fun t' ht' => by
      have hcons := h t' ht'
      rwa [proj, if_neg (Ne.symm ht')] at hcons
    rw [proj, if_pos rfl, List.map_cons, ← ih htail]

/-- The entries of one module, if it is one thread's. -/
theorem ReadBack.alone {ι : Type*} {tid : ι → UInt8} {sections : ι → List Section} {filter : Option (List Char)}
    {pass : Pass} (h : ReadBack tid sections filter pass) (i : ι)
    (hothers : ∀ j, tid j ≠ tid i → ((sections j).filterMap Section.entry).filter (Passes filter) = []) :
    pass = ⟨(((sections i).filterMap Section.entry).filter (Passes filter)).map (Prod.mk (tid i)), none⟩ := by
  have hentries : pass.entries = (proj (tid i) pass.entries).map (Prod.mk (tid i)) := by
    refine eq_tagged_of_proj fun t ht => ?_
    by_cases hj : ∃ j, tid j = t
    · obtain ⟨j, rfl⟩ := hj
      rw [h.thread j, hothers j ht]
    · exact h.other t fun j htj => hj ⟨j, htj⟩
  rw [h.thread i] at hentries
  obtain ⟨entries, raised⟩ := pass
  obtain rfl : raised = none := h.raised
  exact congrArg (Pass.mk · none) hentries

end Cscan.Cba
