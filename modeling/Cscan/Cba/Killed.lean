import Cscan.Cba.Scripts
import Cscan.Cba.Together
import Cscan.Cba.Torn

/-! What threads leave that are killed while they write sections: whatever has reached the file, its entries begin
those of the sections. -/

namespace Cscan.Cba

open Cscan.Lib

/-! ### Entries have an event, and their dictionary is that of their events -/

structure Entry.Proper (e : Entry) : Prop where
  events : e.events ≠ []
  eq_ofEvents : e = .ofEvents e.module e.events

def ThreadState.Indexed (ts : ThreadState) : Prop :=
  ts.dict = ts.events.foldl (fun d e => dictSet d e.code e.val) []

theorem ThreadState.Indexed.addEvent {ts : ThreadState} (h : ts.Indexed) (kind code : Nat) (val : Value) :
    (ts.addEvent kind code val).Indexed := by
  unfold Indexed at h
  simp [Indexed, ThreadState.addEvent, h]

section Proper

variable {cfg : Config} {filter : Option (List Char)}

theorem ThreadState.Indexed.next {ts : ThreadState} (h : ts.Indexed) (a : Atom) : (ts.next cfg false a).Indexed := by
  rcases a with ⟨code, name | text | name | _ | num | num | _⟩ | bytes
  case packet.head => rfl
  case packet.data => exact h
  case packet.file =>
    simp only [ThreadState.next, ThreadState.receive]
    split_ifs
    · exact h
    · exact addEvent (by simpa [ThreadState.openOutput, Indexed] using h) ..
  case chunk =>
    simp only [ThreadState.next]
    split_ifs
    · unfold ThreadState.close
      split
      · exact h.addEvent ..
      · exact h
    · exact h
  all_goals exact addEvent h ..

theorem final_proper {ts : ThreadState} (h : ts.Indexed) : ∀ e ∈ ts.final filter, e.Proper := by
  intro e he
  unfold ThreadState.final at he
  split_ifs at he with hwanted
  · obtain rfl := List.mem_singleton.mp he
    simp only [wanted, Bool.and_eq_true, Bool.not_eq_true', List.isEmpty_eq_false_iff] at hwanted
    refine ⟨hwanted.1, ?_⟩
    rw [ThreadState.entry, h]
    rfl
  · cases he

theorem entriesFrom_proper {ts : ThreadState} (h : ts.Indexed) (as : List Atom) :
    ∀ e ∈ entriesFrom cfg filter ts as, e.Proper := by
  induction as generalizing ts with
  | nil => exact final_proper h
  | cons a as ih =>
    intro e he
    rw [entriesFrom_cons] at he
    rcases List.mem_append.mp he with he | he
    · unfold ThreadState.yields at he
      split at he
      · exact final_proper h e he
      · cases he
    · exact ih (h.next a) e he

theorem decodeThread_proper (as : List Atom) : ∀ e ∈ decodeThread cfg filter as, e.Proper :=
  @entriesFrom_proper cfg filter {} rfl as

theorem TornPass.proper {us : List (UInt8 × Atom)} {next : Option (UInt8 × Atom)} {pass : Pass}
    (h : TornPass cfg filter us next pass) (tid : UInt8) : ∀ e ∈ proj tid pass.entries, e.Proper := by
  cases h with
  | raised =>
    rw [Machine.proj_trace]
    exact fun e he => decodeThread_proper _ e (List.mem_append_left _ he)
  | _ =>
    rw [proj_decode]
    exact decodeThread_proper _

end Proper

/-! ### The file so far -/

section Runs

variable {ι : Type*} [DecidableEq ι] {order : ByteOrder} {tid : ι → UInt8} {program : ι → List Call}
  {sections : ι → List Section} {s : Sys ι}

/-- What a thread has left to write, of which `part` is written. -/
theorem Thread.Holds.left {tid : UInt8} {program : List Call} {sections : List Section} {t : Thread}
    {done : List Call} {emitted rest : List Atom} {held : Option (List UInt8)}
    (h : t.Holds order tid program done emitted rest held) (hwrites : Writes order tid program sections) :
    ∃ left, emitted ++ left = sections.flatMap Section.atoms ∧
      ∀ part, held = some part → part <+: encodeAtoms order tid left := by
  obtain ⟨p, hruns⟩ := hwrites.runs
  refine ⟨rest ++ (emitter order tid).outs ((emitter order tid).run .init done) t.program, ?_, ?_⟩
  · rw [← hruns.outs, h.program, Machine.outs_append, h.outs, List.append_assoc]
  · rintro part rfl
    cases h.inside with
    | holding _ hevent =>
      have hrest : part <+: encodeAtoms order tid rest := ⟨_, hevent⟩
      rw [encodeAtoms, List.flatMap_append]
      exact hrest.trans (List.prefix_append ..)

/-- The file begins one that has all the sections. -/
theorem Sys.Whole.completes [Fintype ι] {units : List (ι × Atom)} {part : List UInt8}
    (hwhole : s.Whole order tid program units part)
    (hwrites : ∀ i, Writes order (tid i) (program i) (sections i)) :
    ∃ more : List (ι × Atom), s.file <+: fileOf order (tagged tid (units ++ more)) ∧
      ∀ i, proj i (units ++ more) = (sections i).flatMap Section.atoms := by
  have hleft : ∀ i, ∃ left, proj i units ++ left = (sections i).flatMap Section.atoms ∧
      ∀ p, (if s.holder = some i then some part else none) = some p → p <+: encodeAtoms order (tid i) left := by
    intro i
    obtain ⟨done, rest, hi⟩ := hwhole.thread i
    exact hi.left (hwrites i)
  choose left hatoms hpart using hleft
  have hproj : ∀ js : List ι, js.Nodup → (∀ i, i ∈ js) → ∀ i,
      proj i (units ++ js.flatMap fun j => (left j).map (Prod.mk j)) = (sections i).flatMap Section.atoms :=
    fun js hnodup hall i => by rw [proj_append, proj_flatMap_tagged hnodup, if_pos (hall i), hatoms]
  have hfront : ∀ more : List (ι × Atom), part <+: encodeUnits order (tagged tid more) →
      s.file <+: fileOf order (tagged tid (units ++ more)) := fun more hmore => by
    rw [hwhole.file, fileOf, encodeUnits_append]
    exact List.cons_prefix_cons.mpr ⟨rfl, (List.prefix_append_right_inj _).mpr hmore⟩
  cases hholder : s.holder with
  | none =>
    refine ⟨_, hfront _ ?_, hproj _ Finset.univ.nodup_toList fun i => Finset.mem_toList.mpr (Finset.mem_univ i)⟩
    rw [hwhole.idle hholder]
    exact List.nil_prefix
  | some i =>
    -- the thread that holds the lock goes on first
    refine ⟨_, hfront _ ?_, hproj (i :: (Finset.univ.erase i).toList) ?_ fun j => ?_⟩
    · have hheld : part <+: encodeAtoms order (tid i) (left i) := hpart i part (by rw [if_pos hholder])
      have hfirst : encodeUnits order (tagged tid ((left i).map (Prod.mk i))) = encodeAtoms order (tid i) (left i) :=
        encodeUnits_tagged_append order tid [] i (left i)
      rw [List.flatMap_cons, encodeUnits_append, hfirst]
      exact hheld.trans (List.prefix_append ..)
    · simp [Finset.nodup_toList]
    · by_cases hj : j = i
      · exact hj ▸ List.mem_cons_self
      · simp [hj]

theorem sections_noFiles {sections : List Section}
    (h : ∀ s ∈ sections, ∀ l ∈ s.events, ∀ name reads, l.event ≠ .file name reads) (code : Option UInt32)
    (name : List UInt8) : Atom.packet code (.file name) ∉ sections.flatMap Section.atoms := by
  intro hmem
  obtain ⟨s, hs, hmem⟩ := List.mem_flatMap.mp hmem
  unfold Section.atoms at hmem
  split_ifs at hmem with hnil
  · cases hmem
  rcases List.mem_append.mp hmem with hmem | hmem
  · rcases List.mem_cons.mp hmem with hmem | hmem
    · cases hmem
    · cases hdeferred : s.deferred <;> simp [hdeferred] at hmem
  · obtain ⟨l, hl, hmem⟩ := List.mem_flatMap.mp hmem
    cases hevent : l.event with
    | file name reads => exact h s hs l hl name reads hevent
    | _ => simp [hevent, Pending.event] at hmem

theorem length_fileOf_le (order : ByteOrder) {us vs : List (UInt8 × Atom)} (h : us <+: vs) :
    (fileOf order us).length ≤ (fileOf order vs).length := by
  obtain ⟨rest, rfl⟩ := h
  rw [fileOf, fileOf, encodeUnits, encodeUnits, List.flatMap_append]
  exact (List.cons_prefix_cons.mpr ⟨rfl, List.prefix_append ..⟩).length_le

/-- Between calls a thread has nothing left. -/
theorem Inside.idle {tid : UInt8} {rest : List Atom} {held : Option (List UInt8)}
    (h : Inside order tid [] rest held) : rest = [] := by
  cases h with
  | outside _ hrest => exact hrest
  | flushing htodo => cases htodo
  | locking htodo => cases htodo
  | holding htodo => simp at htodo

/-- Behind the units that the file has, it is cut off inside of one that the holder of the lock writes, or before. -/
theorem Sys.Whole.torn [Fintype ι] (htid : Function.Injective tid) {units : List (ι × Atom)} {part : List UInt8}
    (hwhole : s.Whole order tid program units part)
    (hwrites : ∀ i, Writes order (tid i) (program i) (sections i)) (opens : Nat → Bool)
    (filter : Option (List Char)) (n : Nat) :
    ∃ us vs, (∀ i, proj (tid i) (us ++ vs) = (sections i).flatMap Section.atoms) ∧
      (∀ t, (∀ i, tid i ≠ t) → proj t (us ++ vs) = []) ∧
      (s.file.length ≤ n + 1 → tagged tid units <+: us) ∧
      TornPass (plainConfig opens) filter us vs.head?
        (entries (plainConfig opens) filter (newReader (s.file.take (n + 1)))).1 := by
  obtain ⟨more, hfront, hproj⟩ := hwhole.completes hwrites
  have hnoFiles : ∀ i code name, Atom.packet code (.file name) ∉ (sections i).flatMap Section.atoms := fun i =>
    sections_noFiles fun s hs l hl name reads hfile =>
      Bool.false_ne_true ((hwrites i).extracted (plainConfig opens) s hs l hl name reads hfile)
  have hfollows : WellFormed (tagged tid (units ++ more)) := proj_tagged_each htid rfl fun i => by
    rw [hproj]
    exact (hwrites i).rereads.follows
  have hfiles : ∀ t code name, Atom.packet code (.file name) ∉ proj t (tagged tid (units ++ more)) :=
    fun t code name => @proj_tagged_each ι _ tid htid (units ++ more) (Atom.packet code (.file name) ∉ ·)
      List.not_mem_nil (fun i => hproj i ▸ hnoFiles i code name) t
  obtain ⟨k, hk⟩ : ∃ k, min (n + 1) s.file.length = k + 1 := by
    have hpos : 0 < s.file.length := by
      rw [hwhole.file]
      exact Nat.succ_pos _
    exact Nat.exists_eq_add_one.mpr (Nat.lt_min.mpr ⟨Nat.succ_pos n, hpos⟩)
  have htake : s.file.take (n + 1) = (fileOf order (tagged tid (units ++ more))).take (k + 1) := by
    rw [List.prefix_iff_eq_take.mp hfront, List.take_take, hk]
  obtain ⟨us, vs, hunits, -, hends, hpass⟩ := torn_pass (plainConfig opens) filter order hfollows
    (tagged_ascii (fun i => (hwrites i).plain) hproj) hfiles k
  rw [htake]
  refine ⟨us, vs, fun i => ?_, fun t ht => ?_, fun hn => ?_, hpass⟩
  · rw [← hunits, proj_tagged htid, hproj]
  · rw [← hunits, proj_tagged_none ht]
  · have hsplit : us ++ vs = tagged tid units ++ tagged tid more := by
      rw [← hunits]
      exact List.map_append ..
    rcases List.prefix_or_prefix_of_prefix ⟨tagged tid more, hsplit.symm⟩ (List.prefix_append us vs) with h | h
    · exact h
    · obtain ⟨zs, hzs⟩ := h
      cases zs with
      | nil => exact ⟨[], by rw [← hzs, List.append_nil, List.append_nil]⟩
      | cons z zs =>
        have hvs : vs = z :: (zs ++ tagged tid more) := by
          rw [← hzs, List.append_assoc] at hsplit
          exact List.append_cancel_left hsplit
        have hz : us ++ [z] <+: tagged tid units := ⟨zs, by rw [← hzs, List.append_assoc]; rfl⟩
        have hlength := length_fileOf_le order hz
        have hfile : (fileOf order (tagged tid units)).length ≤ s.file.length := by
          rw [hwhole.file]
          exact (List.cons_prefix_cons.mpr ⟨rfl, List.prefix_append ..⟩).length_le
        rcases hends with hnil | hlt
        · exact absurd (hvs.symm.trans hnil) (List.cons_ne_nil _ _)
        · rw [hvs, List.head?_cons, Option.toList_some] at hlt
          omega

/-- What is read of a file that threads had not finished, and of which only the first bytes may be left: the first of
each thread's entries, and no exception but one for the end of the file. -/
structure ReadSoFar {ι : Type*} (tid : ι → UInt8) (sections : ι → List Section) (filter : Option (List Char))
    (pass : Pass) : Prop where
  raised : pass.raised = none ∨ pass.raised = some .struct
  thread : ∀ i, Begins Entry.Begins (proj (tid i) pass.entries)
    (((sections i).filterMap Section.entry).filter (Passes filter))
  other : ∀ t, (∀ i, tid i ≠ t) → proj t pass.entries = []
  proper : ∀ t, ∀ e ∈ proj t pass.entries, e.Proper

/-- An empty file has no entries, and its end is no surprise. -/
theorem entries_empty (cfg : Config) (filter : Option (List Char)) :
    (entries cfg filter (newReader [])).1 = ⟨[], none⟩ := rfl

theorem killed_readSoFar [Fintype ι] (htid : Function.Injective tid)
    (hwrites : ∀ i, Writes order (tid i) (program i) (sections i))
    (hrun : Reaches (Sys.step order) Sys.Alone (Sys.start order tid program) s) (opens : Nat → Bool)
    (filter : Option (List Char)) (n : Nat) :
    ReadSoFar tid sections filter (entries (plainConfig opens) filter (newReader (s.file.take n))).1 := by
  cases n with
  | zero =>
    rw [List.take_zero, entries_empty]
    exact ⟨Or.inl rfl, fun i => .whole List.nil_prefix, fun t _ => rfl, fun t e he => by cases he⟩
  | succ n =>
    obtain ⟨units, part, hwhole⟩ := Sys.Whole.of_reaches (Sys.reaches_keeps (fun i => (hwrites i).ok) hrun)
    obtain ⟨us, vs, hproj, hnone, -, hpass⟩ := hwhole.torn htid hwrites opens filter n
    have hread := hpass.read
    have hbegins : ∀ t, Begins Entry.Begins _ (decodeThread (plainConfig opens) filter (proj t (us ++ vs))) :=
      fun t => by
        have hmore := hread.begins t []
        rwa [List.append_nil] at hmore
    refine ⟨hread.raised, fun i => ?_, fun t ht => ?_, hpass.proper⟩
    · have hthread := hbegins (tid i)
      rwa [hproj, decodeThread_sections _ _ (hwrites i).plain ((hwrites i).extracted _)] at hthread
    · have hthread := hbegins t
      rw [hnone t ht] at hthread
      by_contra hne
      exact hthread.ne_nil hne rfl

theorem decodeThread_dropLast (cfg : Config) (filter : Option (List Char)) (as : List Atom) :
    (decodeThread cfg filter as).dropLast <+: (decoder cfg filter).outs {} as := by
  unfold decodeThread ThreadState.final
  split_ifs
  · rw [List.dropLast_concat]
  · rw [List.append_nil]
    exact List.dropLast_prefix _

/-- Of the sections that a thread is done with, all entries are read but maybe the last. -/
theorem killed_completed [Fintype ι] (htid : Function.Injective tid)
    (hwrites : ∀ i, Writes order (tid i) (program i) (sections i))
    (hrun : Reaches (Sys.step order) Sys.Alone (Sys.start order tid program) s) (opens : Nat → Bool)
    (filter : Option (List Char)) {i : ι} (hidle : (s.thread i).todo = []) {calls : List Call} {earlier : List Section}
    (hprogram : program i = calls ++ (s.thread i).program) (hearlier : Writes order (tid i) calls earlier) :
    ((earlier.filterMap Section.entry).filter (Passes filter)).dropLast <+:
      proj (tid i) (entries (plainConfig opens) filter (newReader s.file)).1.entries := by
  obtain ⟨units, part, hwhole⟩ := Sys.Whole.of_reaches (Sys.reaches_keeps (fun i => (hwrites i).ok) hrun)
  obtain ⟨us, vs, -, -, hunits, hpass⟩ := hwhole.torn htid hwrites opens filter s.file.length
  rw [List.take_of_length_le (Nat.le_succ _)] at hpass
  obtain ⟨more, rfl⟩ := hunits (Nat.le_succ _)
  have hdone : proj i units = earlier.flatMap Section.atoms := by
    obtain ⟨done, rest, hi⟩ := hwhole.thread i
    obtain ⟨p, hruns⟩ := hearlier.runs
    have hcalls : calls = done := List.append_cancel_right (hprogram.symm.trans hi.program)
    have hrest : rest = [] := Inside.idle (hidle ▸ hi.inside)
    have houts := hi.outs
    rw [← hcalls, hruns.outs, hrest, List.append_nil] at houts
    exact houts.symm
  have hcompleted := hpass.read.completed (tid i)
  rw [proj_append, proj_tagged htid, hdone, Machine.outs_append] at hcompleted
  rw [← decodeThread_sections (plainConfig opens) filter hearlier.plain (hearlier.extracted _)]
  exact (decodeThread_dropLast ..).trans ((List.prefix_append ..).trans hcompleted)

end Runs

/-- An entry that has an event, and begins one whose first event is a text. -/
theorem begins_cases {e e' : Entry} {first : Event} {events : List Event} (hproper : e.Proper) (h : e.Begins e')
    (hevents : e'.events = first :: events) :
    (∃ more, e = .ofEvents e'.module (first :: more) ∧ Begins Event.Cut more events) ∨
      ∃ x : Event, e = .ofEvents e'.module [x] ∧ x.Cut first := by
  have heq := hproper.eq_ofEvents
  rw [h.module] at heq
  obtain ⟨x, more, hmore⟩ := List.exists_cons_of_ne_nil hproper.events
  have hbegins := h.events
  rw [hmore] at heq hbegins
  rw [hevents] at hbegins
  rcases hbegins.of_cons with ⟨rfl, hrest⟩ | ⟨rfl, hcut⟩
  · exact Or.inl ⟨more, heq, hrest⟩
  · exact Or.inr ⟨x, heq, hcut⟩

/-! ### Lines of the first entries -/

section Lines

variable {α : Type} {line : Entry → Except ScriptErr (List α)} {tid : UInt8}

/-- What is printed of entries that begin others, of which the last may not be complete. -/
theorem printPass_begins {R : α → α → Prop} {es all : List Entry} {lines : List α}
    (hbegins : Begins Entry.Begins es all)
    (hall : printPass line ⟨all.map (Prod.mk tid), none⟩ = ⟨lines, none⟩)
    (hcut : ∀ e ∈ es, ∀ e' ∈ all, e.Begins e' → ∀ own', line e' = .ok own' →
      ∃ own, line e = .ok own ∧ Begins R own own') :
    ∃ first, Begins R first lines ∧
      ∀ raised, printPass line ⟨es.map (Prod.mk tid), raised⟩ = ⟨first, raised.map .read⟩ := by
  cases hbegins with
  | whole h =>
    obtain ⟨rest, rfl⟩ := h
    obtain ⟨first, more, rfl, hfirst, -⟩ := printPass_split hall
    exact ⟨first, .whole (List.prefix_append ..), hfirst⟩
  | @cut pre _ e e' h hbegins =>
    obtain ⟨rest, rfl⟩ := h
    obtain ⟨first, more, rfl, hfirst, -⟩ := printPass_split hall
    obtain ⟨first, own', rfl, hpre, hlast⟩ := printPass_split (hfirst none)
    obtain ⟨own, hown, hcutLines⟩ := hcut e (by simp) e' (by simp) hbegins own' (line_of_printPass hlast)
    refine ⟨first ++ own, (hcutLines.append_left first).trans_front (List.prefix_append ..), fun raised => ?_⟩
    rw [List.map_append]
    refine (printPass_append (hpre none) (printPass_one e raised)).trans ?_
    rw [hown]

/-- Entries of at most one line each: without the last entry, no line is missing but maybe the last. -/
theorem printPass_dropLast {all es : List Entry} {lines first : List α}
    (hall : printPass line ⟨all.map (Prod.mk tid), none⟩ = ⟨lines, none⟩)
    (hone : ∀ e own, line e = .ok own → own.length ≤ 1) (hes : all.dropLast <+: es)
    (hfirst : printPass line ⟨es.map (Prod.mk tid), none⟩ = ⟨first, none⟩) : lines.dropLast <+: first := by
  obtain ⟨rest, rfl⟩ := hes
  obtain ⟨known, more, rfl, hknown, -⟩ := printPass_split hfirst
  rcases List.eq_nil_or_concat' all with rfl | ⟨front, last, rfl⟩
  · obtain rfl : [] = lines := congrArg Printed.lines hall
    exact List.nil_prefix
  · rw [List.dropLast_concat] at hknown
    obtain ⟨known', own, rfl, hknown', hown⟩ := printPass_split hall
    obtain rfl : known' = known := congrArg Printed.lines ((hknown' none).symm.trans (hknown none))
    have hlength := hone last own (line_of_printPass hown)
    refine List.IsPrefix.trans ?_ (List.prefix_append known' more)
    match own, hlength with
    | [], _ =>
      rw [List.append_nil]
      exact List.dropLast_prefix _
    | [v], _ => rw [List.dropLast_concat]

end Lines

end Cscan.Cba
