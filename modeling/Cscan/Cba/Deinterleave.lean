import Cscan.Cba.Entries

/-! The entries of interleaved threads: each thread's entries are those of its own atoms, whatever the
other threads write in between, and a filter keeps the entries of one module. -/

namespace Cscan.Cba

open Cscan.Lib

/-! ### The entries of a file, by thread and by module -/

theorem threads_go (units : List (UInt8 × Atom)) (tids : List UInt8) (hnodup : tids.Nodup) :
    (units.foldl (fun tids u => if u.1 ∈ tids then tids else tids ++ [u.1]) tids).Nodup ∧
      ∀ tid, tid ∈ units.foldl (fun tids u => if u.1 ∈ tids then tids else tids ++ [u.1]) tids ↔
        tid ∈ tids ∨ tid ∈ units.map Prod.fst := by
  induction units generalizing tids with
  | nil => exact ⟨hnodup, fun tid => by simp⟩
  | cons u units ih =>
    rw [List.foldl_cons]
    by_cases hmem : u.1 ∈ tids
    · rw [if_pos hmem]
      refine ⟨(ih tids hnodup).1, fun tid => ?_⟩
      rw [(ih tids hnodup).2, List.map_cons, List.mem_cons]
      constructor
      · rintro (h | h)
        · exact Or.inl h
        · exact Or.inr (Or.inr h)
      · rintro (h | rfl | h)
        · exact Or.inl h
        · exact Or.inl hmem
        · exact Or.inr h
    · have hnodup' : (tids ++ [u.1]).Nodup := by
        rw [List.nodup_append]
        refine ⟨hnodup, List.nodup_singleton _, ?_⟩
        intro x hx y hy hxy
        rw [List.mem_singleton.mp hy] at hxy
        exact hmem (hxy ▸ hx)
      rw [if_neg hmem]
      refine ⟨(ih _ hnodup').1, fun tid => ?_⟩
      rw [(ih _ hnodup').2, List.mem_append, List.mem_singleton, List.map_cons, List.mem_cons, or_assoc]

theorem threads_nodup (units : List (UInt8 × Atom)) : (threads units).Nodup :=
  (threads_go units [] List.nodup_nil).1

theorem mem_threads {units : List (UInt8 × Atom)} {tid : UInt8} :
    tid ∈ threads units ↔ tid ∈ units.map Prod.fst := by
  rw [threads, (threads_go units [] List.nodup_nil).2]
  simp

theorem proj_of_not_mem_threads {units : List (UInt8 × Atom)} {tid : UInt8}
    (h : tid ∉ threads units) : proj tid units = [] := by
  rw [mem_threads] at h
  apply List.eq_nil_iff_forall_not_mem.mpr
  intro a ha
  exact h (List.mem_map.mpr ⟨(tid, a), mem_proj.mp ha, rfl⟩)

variable (cfg : Config) (filter : Option (List Char))

/-- The entries of a thread are those of its own atoms. -/
theorem proj_decode (units : List (UInt8 × Atom)) (tid : UInt8) :
    proj tid (decode cfg filter units) = decodeThread cfg filter (proj tid units) := by
  rw [decode, proj_append, Machine.proj_trace, proj_flatMap_tagged (threads_nodup units),
    Machine.feed_apply, decodeThread]
  by_cases h : tid ∈ threads units
  · rw [if_pos h]
  · rw [if_neg h, proj_of_not_mem_threads h]
    simp [ThreadState.final, wanted]

theorem threads_alone (tid : UInt8) (a : Atom) (as : List Atom) :
    threads ((a :: as).map (Prod.mk tid)) = [tid] := by
  have hfold : ∀ as : List Atom, (as.map (Prod.mk tid)).foldl
      (fun tids u => if u.1 ∈ tids then tids else tids ++ [u.1]) [tid] = [tid] := fun as => by
    induction as with
    | nil => rfl
    | cons a as ih => simpa using ih
  simpa [threads] using hfold as

theorem decode_alone (tid : UInt8) (as : List Atom) :
    decode cfg filter (as.map (Prod.mk tid)) = (decodeThread cfg filter as).map (Prod.mk tid) := by
  rw [decode, Machine.trace_tagged, decodeThread, List.map_append]
  cases as with
  | nil => simp [threads, ThreadState.final, wanted]
  | cons a as =>
    rw [threads_alone, List.flatMap_singleton, Machine.feed_apply, proj_tagged_self]

theorem final_filter (module : List Char) (ts : ThreadState) :
    ts.final (some module) = (ts.final none).filter fun e => e.module = module := by
  by_cases hevents : ts.events.isEmpty
  · simp [ThreadState.final, wanted, hevents]
  · by_cases hmodule : ts.module = module
    · simp [ThreadState.final, wanted, hevents, hmodule, ThreadState.entry]
    · have hmodule' : ¬ module = ts.module := fun h => hmodule h.symm
      simp [ThreadState.final, wanted, hevents, hmodule, hmodule', ThreadState.entry]

theorem yields_filter (module : List Char) (ts : ThreadState) (a : Atom) :
    ts.yields (some module) a = (ts.yields none a).filter fun e => e.module = module := by
  rcases a with ⟨_, _ | _⟩ | _
  case packet.head => exact final_filter module ts
  all_goals rfl

/-- A filter keeps the entries of its module. -/
theorem decode_filter (module : List Char) (units : List (UInt8 × Atom)) :
    decode cfg (some module) units =
      (decode cfg none units).filter fun e => e.2.module = module := by
  have hnext : (decoder cfg (some module)).next = (decoder cfg none).next := rfl
  obtain ⟨htrace, hfeed⟩ := Machine.trace_filter (fun e : Entry => decide (e.module = module)) hnext
    (yields_filter module) (fun _ => {}) units
  rw [decode, decode, htrace, hfeed, List.filter_append, List.filter_flatMap]
  refine congrArg _ (List.flatMap_congr fun tid _ => ?_)
  rw [final_filter, List.filter_map]
  rfl

/-! ### Files without `CBA_FILE` packets -/

/-- A sequence of packets and chunks for every thread, without `CBA_FILE` packets. -/
structure Family where
  atoms : UInt8 → List Atom
  follows : ∀ tid, Follows false (atoms tid)
  noFiles : ∀ tid code name, Atom.packet code (.file name) ∉ atoms tid

/-- In `units` the sequences of the family are interleaved. -/
def Family.Interleaved (fam : Family) (units : List (UInt8 × Atom)) : Prop :=
  ∀ tid, proj tid units = fam.atoms tid

/-- The units of a file that one thread writes alone. -/
def Family.alone (fam : Family) (tid : UInt8) : List (UInt8 × Atom) :=
  (fam.atoms tid).map (Prod.mk tid)

section Family

variable {cfg} {fam : Family} {units : List (UInt8 × Atom)}

theorem Family.Interleaved.entries_eq (h : fam.Interleaved units) (order : ByteOrder) :
    (entries cfg filter (newReader (fileOf order units))).1 = decodePass cfg filter units :=
  entries_fileOf filter order (fun tid => h tid ▸ fam.follows tid)
    fun tid => FilesIn.of_noFiles _ (h tid ▸ fam.noFiles tid)

theorem Family.entries_alone (fam : Family) (tid : UInt8) (order : ByteOrder) :
    (entries cfg filter (newReader (fileOf order (fam.alone tid)))).1 =
      decodePass cfg filter (fam.alone tid) := by
  have hproj : ∀ t, proj t (fam.alone tid) = if tid = t then fam.atoms tid else [] := fun t => by
    by_cases ht : tid = t
    · rw [if_pos ht, ← ht]
      exact proj_tagged_self ..
    · rw [if_neg ht]
      exact proj_tagged_ne ht _
  apply entries_fileOf filter order
  · intro t
    rw [hproj]
    split_ifs
    · exact fam.follows tid
    · rfl
  · intro t
    rw [hproj]
    split_ifs
    · exact FilesIn.of_noFiles _ (fam.noFiles tid)
    · trivial

theorem decodePass_ascii (hascii : ∀ u ∈ units, u.2.Ascii) :
    decodePass cfg filter units = ⟨decode cfg filter units, none⟩ := by
  have hdrop : units.dropWhile (fun u => u.2.Ascii) = [] :=
    List.dropWhile_eq_nil_iff.mpr fun u hu => by simpa using hascii u hu
  rw [decodePass, hdrop]

theorem decodePass_raised :
    (decodePass cfg filter units).raised = none ↔ ∀ u ∈ units, u.2.Ascii := by
  constructor
  · intro h
    unfold decodePass at h
    cases hdrop : units.dropWhile (fun u => u.2.Ascii) with
    | nil => exact fun u hu => by simpa using List.dropWhile_eq_nil_iff.mp hdrop u hu
    | cons bad vs =>
      rw [hdrop] at h
      cases h
  · intro h
    rw [decodePass_ascii filter h]

/-- Reading the interleaved file raises no exception just when reading each thread's file alone raises
none. Then the entries, grouped by thread, are those of the threads alone, and a filter yields exactly
the entries of its module. -/
theorem reader_deinterleaves (h : fam.Interleaved units) (order : ByteOrder) :
    (∀ filter, (entries cfg filter (newReader (fileOf order units))).1.raised = none ↔
      ∀ tid, (entries cfg filter (newReader (fileOf order (fam.alone tid)))).1.raised = none) ∧
    ((∀ tid, (entries cfg none (newReader (fileOf order (fam.alone tid)))).1.raised = none) →
      (∀ filter tid, (entries cfg filter (newReader (fileOf order (fam.alone tid)))).1.entries =
        (proj tid (entries cfg filter (newReader (fileOf order units))).1.entries).map (Prod.mk tid)) ∧
      ∀ module, (entries cfg (some module) (newReader (fileOf order units))).1.entries =
        (entries cfg none (newReader (fileOf order units))).1.entries.filter
          fun e => e.2.module = module) := by
  have hmem : (∀ u ∈ units, u.2.Ascii) ↔ ∀ tid, ∀ u ∈ fam.alone tid, u.2.Ascii := by
    constructor
    · intro hascii tid u hu
      obtain ⟨a, ha, rfl⟩ := List.mem_map.mp hu
      rw [← h tid] at ha
      exact hascii (tid, a) (mem_proj.mp ha)
    · rintro hascii ⟨tid, a⟩ hu
      have ha : a ∈ fam.atoms tid := h tid ▸ mem_proj.mpr hu
      exact hascii tid (tid, a) (List.mem_map.mpr ⟨a, ha, rfl⟩)
  simp only [h.entries_eq, Family.entries_alone, decodePass_raised]
  refine ⟨fun _ => hmem, fun halone => ?_⟩
  have hascii := hmem.mpr halone
  refine ⟨fun filter tid => ?_, fun module => ?_⟩
  · rw [decodePass_ascii filter (halone tid), decodePass_ascii filter hascii]
    rw [proj_decode, h tid, Family.alone, decode_alone]
  · rw [decodePass_ascii _ hascii, decodePass_ascii _ hascii]
    exact decode_filter cfg module units

end Family

/-- Thread 1 writes a stream, and thread 2 an integer. -/
def streamFamily : Family where
  atoms tid :=
    if tid = 1 then [.packet none (.head [97]), .packet (some 5) .data, .chunk [7, 8], .chunk []]
    else if tid = 2 then [.packet none (.head [98]), .packet none (.int32 (-3))] else []
  follows tid := by
    split_ifs <;> simp [Follows, Atom.Allowed, Atom.leavesOpen, Packet.Fits, Packet.opensStream]
  noFiles tid code name := by
    split_ifs <;> simp

/-- The packets of thread 2 around the chunks of thread 1. -/
def streamUnits : List (UInt8 × Atom) :=
  [(1, .packet none (.head [97])), (1, .packet (some 5) .data), (2, .packet none (.head [98])),
    (1, .chunk [7, 8]), (2, .packet none (.int32 (-3))), (1, .chunk [])]

theorem streamFamily_interleaved : streamFamily.Interleaved streamUnits := by
  intro tid
  by_cases h1 : (1 : UInt8) = tid
  · subst h1
    rfl
  · by_cases h2 : (2 : UInt8) = tid
    · subst h2
      rfl
    · simp [streamUnits, proj, streamFamily, h1, h2, Ne.symm h1, Ne.symm h2]

theorem reader_deinterleaves_stream :
    let cfg : Config := ⟨[], [], false, fun _ => true⟩
    let pass := fun units => (entries cfg none (newReader (fileOf .little units))).1
    (∀ tid, (pass (streamFamily.alone tid)).raised = none) ∧
      (pass streamUnits).entries = [(1, ⟨['a'], [(5, .bytes [7, 8])], [⟨3, 5, .bytes [7, 8]⟩]⟩),
        (2, ⟨['b'], [(0, .int (-3))], [⟨4, 0, .int (-3)⟩]⟩)] ∧
      ∀ tid, (pass (streamFamily.alone tid)).entries =
        (proj tid (pass streamUnits).entries).map (Prod.mk tid) := by
  intro cfg pass
  have hdeinterleaves := @reader_deinterleaves cfg _ _ streamFamily_interleaved .little
  have halone := (hdeinterleaves.1 none).mp (by decide +kernel)
  exact ⟨halone, by decide +kernel, (hdeinterleaves.2 halone).1 none⟩

end Cscan.Cba
