import Cscan.Cba.Together

/-! `cba_open_file` opens a file that is there already to append to it: what several scans write to one file, one
after the other. -/

namespace Cscan.Cba

open Cscan.Lib

/-- The file behind `cba_open_file`, with the mark if there was nothing in it. -/
def cbaOpenFile (order : ByteOrder) (file : List UInt8) : List UInt8 := if file = [] then [mark order] else file

section Runs

variable {ι : Type*} [DecidableEq ι] {order : ByteOrder} {tid : ι → UInt8} {program : ι → List Call}

/-- Each thread after its `cba_thread_init`, and a file that was opened with this in it. -/
def Sys.startOn (order : ByteOrder) (file : List UInt8) (tid : ι → UInt8) (program : ι → List Call) : Sys ι :=
  { Sys.start order tid program with file := cbaOpenFile order file }

/-! ### A file that has something in front -/

def Sys.behind (front : List UInt8) (s : Sys ι) : Sys ι := { s with file := front ++ s.file }

/-- No step looks at the file. -/
theorem step_behind (front : List UInt8) (s : Sys ι) (i : ι) :
    (s.behind front).step order i = (s.step order i).map (Sys.behind front) := by
  unfold Sys.step Sys.behind
  rcases s.thread i with ⟨w, _ | ⟨a, todo⟩, program⟩
  · cases program with
    | nil => rfl
    | cons c program => simp [Sys.advance, Option.map_map, Function.comp_def]
  · cases a with
    | write buffer => simp [Sys.advance]
    | lock =>
      by_cases hholder : s.holder = none
      · simp [Sys.advance, hholder]
      · simp [hholder]
    | unlock => simp [Sys.advance]

theorem reaches_behind {front : List UInt8} {s s' : Sys ι}
    (h : Reaches (Sys.step order) Sys.Alone (s.behind front) s') :
    ∃ t : Sys ι, s' = t.behind front ∧
      ∀ front', Reaches (Sys.step order) Sys.Alone (s.behind front') (t.behind front') := by
  induction h with
  | start => exact ⟨s, rfl, fun _ => .start⟩
  | @step u u' i _ halone hstep ih =>
    obtain ⟨t, rfl, hruns⟩ := ih
    rw [step_behind] at hstep
    obtain ⟨t', ht, rfl⟩ := Option.map_eq_some_iff.mp hstep
    refine ⟨t', rfl, fun front' => (hruns front').step halone ?_⟩
    rw [step_behind, ht]
    rfl

/-! ### Several scans -/

/-- A file that scans have written one after the other, all of them to their end, and their sections. -/
inductive Appended (order : ByteOrder) (tid : ι → UInt8) : (ι → List Section) → List UInt8 → Prop
  | nothing : Appended order tid (fun _ => []) []
  | scan {sections more : ι → List Section} {file : List UInt8} {program : ι → List Call} {s : Sys ι}
      (h : Appended order tid sections file) (hwrites : ∀ i, Writes order (tid i) (program i) (more i))
      (hrun : Reaches (Sys.step order) Sys.Alone (Sys.startOn order file tid program) s)
      (hdone : ∀ i, (s.thread i).todo = [] ∧ (s.thread i).program = []) :
      Appended order tid (fun i => sections i ++ more i) s.file

theorem Rereads.append {sections more : List Section} (h : Rereads sections) (h' : Rereads more) :
    Rereads (sections ++ more) where
  plain := List.forall_mem_append.mpr ⟨h.plain, h'.plain⟩
  extracted cfg := List.forall_mem_append.mpr ⟨h.extracted cfg, h'.extracted cfg⟩
  follows := by
    rw [List.flatMap_append]
    exact h.follows.append h'.follows

/-- A scan puts its units behind those that are in the file. -/
theorem scan_units {file : List UInt8} {sections : ι → List Section} {s : Sys ι}
    (hwrites : ∀ i, Writes order (tid i) (program i) (sections i))
    (hrun : Reaches (Sys.step order) Sys.Alone (Sys.startOn order file tid program) s)
    (hdone : ∀ i, (s.thread i).todo = [] ∧ (s.thread i).program = []) :
    ∃ units : List (ι × Atom), s.file = cbaOpenFile order file ++ encodeUnits order (tagged tid units) ∧
      ∀ i, proj i units = (sections i).flatMap Section.atoms := by
  have hempty : ∀ front, Sys.behind front { Sys.start order tid program with file := [] } =
      { Sys.start order tid program with file := front } := fun front => by
    rw [Sys.behind, List.append_nil]
  rw [Sys.startOn, ← hempty] at hrun
  obtain ⟨t, rfl, hruns⟩ := reaches_behind hrun
  have hfresh := hruns [mark order]
  rw [hempty] at hfresh
  obtain ⟨units, hfile, hproj⟩ := finished_units hwrites hfresh hdone
  refine ⟨units, ?_, hproj⟩
  have hrest : t.file = encodeUnits order (tagged tid units) := (List.cons.inj hfile).2
  rw [Sys.behind, hrest]

theorem Appended.units {sections : ι → List Section} {file : List UInt8} (h : Appended order tid sections file) :
    (∀ i, Rereads (sections i)) ∧ ∃ units : List (ι × Atom),
      (file = [] ∧ units = [] ∨ file = fileOf order (tagged tid units)) ∧
        ∀ i, proj i units = (sections i).flatMap Section.atoms := by
  induction h with
  | nothing => exact ⟨fun _ => ⟨by simp, by simp, rfl⟩, [], Or.inl ⟨rfl, rfl⟩, fun _ => rfl⟩
  | scan _ hwrites hrun hdone ih =>
    obtain ⟨hsections, units, hfile, hproj⟩ := ih
    obtain ⟨more, hmore, hprojMore⟩ := scan_units hwrites hrun hdone
    refine ⟨fun i => (hsections i).append (hwrites i).rereads, units ++ more, Or.inr ?_, fun i => ?_⟩
    · rw [hmore, fileOf, encodeUnits_append]
      rcases hfile with ⟨rfl, rfl⟩ | rfl
      · rfl
      · rfl
    · rw [proj_append, hproj, hprojMore, List.flatMap_append]

/-- The sections of all the scans are read back. -/
theorem Appended.readBack (htid : Function.Injective tid) {sections : ι → List Section} {file : List UInt8}
    (h : Appended order tid sections file) (hne : file ≠ []) (cfg : Config) (filter : Option (List Char)) :
    ReadBack tid sections filter (entries cfg filter (newReader file)).1 := by
  obtain ⟨hsections, units, hfile, hproj⟩ := h.units
  obtain rfl := hfile.resolve_left fun hnil => hne hnil.1
  exact fileOf_readBack htid hsections hproj order cfg filter

end Runs

end Cscan.Cba
