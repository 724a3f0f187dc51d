import Cscan.Cba.Deinterleave
import Cscan.Cba.Emit
import Cscan.Lib.Runs

/-! Threads that write to one CBA file. A step is one `do_write`, one call on `fd_lock`, or the start
of a call: all that a call computes besides is on the variables of its thread. -/

namespace Cscan.Cba

open Cscan.Lib

/-- A thread: its variables, what is left of the call that it is inside, and the calls after it. -/
structure Thread where
  writer : Writer
  todo : List Action
  program : List Call

/-- The open file, the thread that holds `fd_lock`, and the threads. -/
structure Sys (ι : Type*) where
  file : List UInt8
  holder : Option ι
  thread : ι → Thread

variable {ι : Type*} [DecidableEq ι]

namespace Sys

/-- Each thread after its `cba_thread_init`, and a file that was just opened. -/
def start (order : ByteOrder) (tid : ι → UInt8) (program : ι → List Call) : Sys ι :=
  ⟨[mark order], none, fun i => ⟨.init (tid i), [], program i⟩⟩

def advance (s : Sys ι) (i : ι) (t : Thread) : Sys ι :=
  { s with thread := Function.update s.thread i t }

@[simp] theorem advance_file (s : Sys ι) (i : ι) (t : Thread) : (s.advance i t).file = s.file := rfl

@[simp] theorem advance_holder (s : Sys ι) (i : ι) (t : Thread) : (s.advance i t).holder = s.holder :=
  rfl

/-- The next step of thread `i`, if it can go on. -/
def step (order : ByteOrder) (s : Sys ι) (i : ι) : Option (Sys ι) :=
  match s.thread i with
  | ⟨_, [], []⟩ => none
  | ⟨w, [], c :: program⟩ =>
    (w.call order c).map fun r => s.advance i ⟨r.2, r.1, program⟩
  | ⟨w, .write buffer :: todo, program⟩ =>
    some { s.advance i ⟨w, todo, program⟩ with file := s.file ++ buffer }
  | ⟨w, .lock :: todo, program⟩ =>
    if s.holder = none then some { s.advance i ⟨w, todo, program⟩ with holder := some i } else none
  | ⟨w, .unlock :: todo, program⟩ => some { s.advance i ⟨w, todo, program⟩ with holder := none }

/-- The step of thread `i` is no `do_write` while another thread holds the lock, and no start of a
call that does not keep to whole packets. -/
def Keeps (order : ByteOrder) (s : Sys ι) (i : ι) : Prop :=
  match s.thread i with
  | ⟨w, [], c :: _⟩ => CallOk order w c
  | ⟨_, .write _ :: _, _⟩ => s.holder = none ∨ s.holder = some i
  | _ => True

instance (order : ByteOrder) (s : Sys ι) (i : ι) : Decidable (s.Keeps order i) := by
  unfold Keeps
  split <;> infer_instance

end Sys

/-! ### Where a thread is -/

/-- A thread has `todo` left of a call, and with it the atoms `rest` to append. If it holds the lock,
it has written `part` of them since it took it. -/
inductive Inside (order : ByteOrder) (tid : UInt8) (todo : List Action) (rest : List Atom) :
    Option (List UInt8) → Prop
  | outside (htodo : todo = []) (hrest : rest = []) : Inside order tid todo rest none
  | flushing {flushed event : List Atom} {buffers : List (List UInt8)}
      (htodo : todo = .write (encodeAtoms order tid flushed) :: Writer.locked buffers)
      (hrest : rest = flushed ++ event) (hevent : buffers.flatten = encodeAtoms order tid event) :
      Inside order tid todo rest none
  | locking {buffers : List (List UInt8)} (htodo : todo = Writer.locked buffers)
      (hevent : buffers.flatten = encodeAtoms order tid rest) : Inside order tid todo rest none
  | holding {part : List UInt8} {buffers : List (List UInt8)}
      (htodo : todo = buffers.map .write ++ [.unlock])
      (hevent : part ++ buffers.flatten = encodeAtoms order tid rest) :
      Inside order tid todo rest (some part)

theorem Emits.inside {order : ByteOrder} {tid : UInt8} {actions : List Action} {as : List Atom}
    (h : Emits order tid actions as) : Inside order tid actions as none := by
  rcases h with ⟨hactions, has⟩ | ⟨flushed, event, buffers, rfl, rfl, hevent⟩
  · exact .outside hactions has
  · by_cases hnil : flushed = []
    · rw [hnil]
      exact .locking rfl hevent
    · rw [if_neg hnil]
      exact .flushing rfl rfl hevent

/-- A thread that has begun the calls `done` of its program, where `emitted` is what it has appended
of them and `rest` what is left. -/
structure Thread.Holds (order : ByteOrder) (tid : UInt8) (program : List Call) (t : Thread)
    (done : List Call) (emitted rest : List Atom) (held : Option (List UInt8)) : Prop where
  program : program = done ++ t.program
  threadId : t.writer.threadId = tid
  refines : Refines order t.writer ((emitter order tid).run .init done)
  outs : (emitter order tid).outs .init done = emitted ++ rest
  inside : Inside order tid t.todo rest held

/-- The units of a file, with the ids of their threads. -/
def tagged (tid : ι → UInt8) (units : List (ι × Atom)) : List (UInt8 × Atom) :=
  units.map fun u => (tid u.1, u.2)

omit [DecidableEq ι] in
theorem encodeUnits_tagged_append (order : ByteOrder) (tid : ι → UInt8) (units : List (ι × Atom))
    (i : ι) (as : List Atom) : encodeUnits order (tagged tid (units ++ as.map (Prod.mk i))) =
      encodeUnits order (tagged tid units) ++ encodeAtoms order (tid i) as := by
  simp [tagged, encodeUnits, encodeAtoms, List.flatMap_map]

/-- The file is the units, and behind them `part` of what the holder of the lock writes. -/
structure Sys.Whole (order : ByteOrder) (tid : ι → UInt8) (program : ι → List Call) (s : Sys ι)
    (units : List (ι × Atom)) (part : List UInt8) : Prop where
  file : s.file = mark order :: (encodeUnits order (tagged tid units) ++ part)
  idle : s.holder = none → part = []
  thread : ∀ i, ∃ done rest, (s.thread i).Holds order (tid i) (program i) done (proj i units) rest
    (if s.holder = some i then some part else none)

namespace Sys

variable {order : ByteOrder} {tid : ι → UInt8} {program : ι → List Call} {s s' : Sys ι} {i : ι}
  {units : List (ι × Atom)} {part : List UInt8}

theorem start_whole (order : ByteOrder) (tid : ι → UInt8) (program : ι → List Call) :
    (start order tid program).Whole order tid program [] [] where
  file := rfl
  idle _ := rfl
  thread i := ⟨[], [], rfl, rfl, Refines.init order (tid i), rfl, .outside rfl rfl⟩

/-- A step of thread `i` leaves the other threads where they are. -/
theorem Whole.advance (h : s.Whole order tid program units part) {t : Thread} {file : List UInt8}
    {holder : Option ι} {units' : List (ι × Atom)} {part' : List UInt8}
    (hfile : file = mark order :: (encodeUnits order (tagged tid units') ++ part'))
    (hidle : holder = none → part' = [])
    (hself : ∃ done rest, t.Holds order (tid i) (program i) done (proj i units') rest
      (if holder = some i then some part' else none))
    (hother : ∀ j, j ≠ i → proj j units' = proj j units ∧
      (if holder = some j then some part' else none) = if s.holder = some j then some part else none) :
    Whole order tid program ⟨file, holder, Function.update s.thread i t⟩ units' part' where
  file := hfile
  idle := hidle
  thread j := by
    by_cases hj : j = i
    · subst hj
      simpa using hself
    · obtain ⟨hproj, hheld⟩ := hother j hj
      dsimp only
      rw [Function.update_of_ne hj, hproj, hheld]
      exact h.thread j

theorem proj_append_tagged_self (i : ι) (units : List (ι × Atom)) (as : List Atom) :
    proj i (units ++ as.map (Prod.mk i)) = proj i units ++ as := by
  rw [proj_append, proj_tagged_self]

theorem proj_append_tagged_ne {i j : ι} (h : j ≠ i) (units : List (ι × Atom)) (as : List Atom) :
    proj j (units ++ as.map (Prod.mk i)) = proj j units := by
  rw [proj_append, proj_tagged_ne (Ne.symm h), List.append_nil]

section Phases

variable {w : Writer} {prog : List Call} {done : List Call} {rest : List Atom}
  {buffers : List (List UInt8)}

theorem Whole.call (h : s.Whole order tid program units part) {c : Call} (hok : CallOk order w c)
    (hi : Thread.Holds order (tid i) (program i) ⟨w, [], c :: prog⟩ done (proj i units) [] none)
    (hheld : (if s.holder = some i then some part else none) = none) :
    ∃ actions w', w.call order c = some (actions, w') ∧
      (s.advance i ⟨w', actions, prog⟩).Whole order tid program units part := by
  obtain ⟨actions, w', hcall, htid, hrefines, hemits⟩ := hi.refines.call hok
  have hwriter : w.threadId = tid i := hi.threadId
  have houts : (emitter order (tid i)).outs .init done = proj i units :=
    hi.outs.trans (List.append_nil _)
  rw [hwriter] at htid hrefines hemits
  refine ⟨actions, w', hcall, h.advance h.file h.idle ?_ fun j _ => ⟨rfl, rfl⟩⟩
  rw [hheld]
  refine ⟨done ++ [c], ((emitter order (tid i)).run .init done).out c, ?_, htid, ?_, ?_, hemits.inside⟩
  · rw [hi.program, List.append_assoc]
    rfl
  · rw [Machine.run_append]
    exact hrefines
  · rw [Machine.outs_append, houts, Machine.outs_cons, Machine.outs_nil, List.append_nil]
    rfl

theorem Whole.flush (h : s.Whole order tid program units part) {flushed event : List Atom}
    (hi : Thread.Holds order (tid i) (program i)
      ⟨w, .write (encodeAtoms order (tid i) flushed) :: Writer.locked buffers, prog⟩ done
      (proj i units) (flushed ++ event) none)
    (hevent : buffers.flatten = encodeAtoms order (tid i) event) (hfree : s.holder = none) :
    Whole order tid program
      { s.advance i ⟨w, Writer.locked buffers, prog⟩ with
        file := s.file ++ encodeAtoms order (tid i) flushed }
      (units ++ flushed.map (Prod.mk i)) [] := by
  apply h.advance
  · rw [h.file, h.idle hfree, encodeUnits_tagged_append]
    simp
  · exact fun _ => rfl
  · refine ⟨done, event, hi.program, hi.threadId, hi.refines, ?_, ?_⟩
    · rw [proj_append_tagged_self, List.append_assoc]
      exact hi.outs
    · rw [advance_holder, hfree]
      exact .locking rfl hevent
  · intro j hj
    rw [proj_append_tagged_ne hj]
    simp [hfree]

theorem Whole.acquire (h : s.Whole order tid program units part)
    (hi : Thread.Holds order (tid i) (program i) ⟨w, Writer.locked buffers, prog⟩ done
      (proj i units) rest none)
    (hevent : buffers.flatten = encodeAtoms order (tid i) rest) (hfree : s.holder = none) :
    Whole order tid program
      { s.advance i ⟨w, buffers.map .write ++ [.unlock], prog⟩ with holder := some i } units [] := by
  apply h.advance
  · rw [advance_file, h.file, h.idle hfree]
  · exact fun _ => rfl
  · refine ⟨done, rest, hi.program, hi.threadId, hi.refines, hi.outs, ?_⟩
    rw [if_pos rfl]
    exact .holding rfl hevent
  · intro j hj
    simp [hfree, Ne.symm hj]

theorem Whole.write (h : s.Whole order tid program units part) {buffer : List UInt8}
    (hi : Thread.Holds order (tid i) (program i)
      ⟨w, (buffer :: buffers).map .write ++ [.unlock], prog⟩ done (proj i units) rest (some part))
    (hevent : part ++ (buffer :: buffers).flatten = encodeAtoms order (tid i) rest)
    (hholder : s.holder = some i) :
    Whole order tid program
      { s.advance i ⟨w, buffers.map .write ++ [.unlock], prog⟩ with file := s.file ++ buffer }
      units (part ++ buffer) := by
  apply h.advance
  · rw [h.file]
    simp
  · intro hnone
    have hsome : s.holder = none := hnone
    rw [hholder] at hsome
    cases hsome
  · refine ⟨done, rest, hi.program, hi.threadId, hi.refines, hi.outs, ?_⟩
    rw [advance_holder, if_pos hholder]
    refine .holding rfl ?_
    rw [List.append_assoc]
    exact hevent
  · intro j hj
    simp [hholder, Ne.symm hj]

theorem Whole.release (h : s.Whole order tid program units part)
    (hi : Thread.Holds order (tid i) (program i) ⟨w, [.unlock], prog⟩ done (proj i units) rest
      (some part))
    (hevent : part = encodeAtoms order (tid i) rest) (hholder : s.holder = some i) :
    Whole order tid program { s.advance i ⟨w, [], prog⟩ with holder := none }
      (units ++ rest.map (Prod.mk i)) [] := by
  apply h.advance
  · rw [advance_file, h.file, encodeUnits_tagged_append, ← hevent, List.append_nil]
  · exact fun _ => rfl
  · refine ⟨done, [], hi.program, hi.threadId, hi.refines, ?_, .outside rfl rfl⟩
    rw [proj_append_tagged_self, List.append_nil]
    exact hi.outs
  · intro j hj
    rw [proj_append_tagged_ne hj]
    simp [hholder, Ne.symm hj]

end Phases

/-- A step that keeps to the lock keeps the packets whole. -/
theorem Whole.step (h : s.Whole order tid program units part) (hkeeps : s.Keeps order i)
    (hstep : s.step order i = some s') :
    ∃ units' part', s'.Whole order tid program units' part' := by
  obtain ⟨done, rest, hi⟩ := h.thread i
  rcases hthread : s.thread i with ⟨w, todo, prog⟩
  rw [hthread] at hi
  have hinside := hi.inside
  generalize hheld : (if s.holder = some i then some part else none) = held at hi hinside
  cases hinside with
  | outside htodo hrest =>
    dsimp only at htodo
    subst htodo hrest
    cases prog with
    | nil => simp [Sys.step, hthread] at hstep
    | cons c prog =>
      have hok : CallOk order w c := by simpa [Keeps, hthread] using hkeeps
      obtain ⟨actions, w', hcall, hwhole⟩ := h.call hok hi hheld
      simp only [Sys.step, hthread, hcall, Option.map_some, Option.some_inj] at hstep
      rw [← hstep]
      exact ⟨_, _, hwhole⟩
  | @flushing flushed event buffers htodo hrest hevent =>
    dsimp only at htodo
    subst htodo hrest
    have hfree : s.holder = none := by
      have hholder : s.holder = none ∨ s.holder = some i := by simpa [Keeps, hthread] using hkeeps
      rcases hholder with hholder | hholder
      · exact hholder
      · simp [hholder] at hheld
    simp only [Sys.step, hthread, Option.some_inj] at hstep
    rw [← hstep]
    exact ⟨_, _, h.flush hi hevent hfree⟩
  | @locking buffers htodo hevent =>
    dsimp only at htodo
    subst htodo
    simp only [Sys.step, hthread, Writer.locked] at hstep
    split_ifs at hstep with hfree
    simp only [Option.some_inj] at hstep
    rw [← hstep]
    exact ⟨_, _, h.acquire hi hevent hfree⟩
  | @holding held buffers htodo hevent =>
    have hholder : s.holder = some i := by
      by_contra hne
      simp [hne] at hheld
    obtain rfl : part = held := by simpa [hholder] using hheld
    dsimp only at htodo
    subst htodo
    cases buffers with
    | nil =>
      simp only [Sys.step, hthread, List.map_nil, List.nil_append, Option.some_inj] at hstep
      rw [← hstep]
      exact ⟨_, _, h.release hi (by simpa using hevent) hholder⟩
    | cons buffer buffers =>
      simp only [Sys.step, hthread, List.map_cons, List.cons_append, Option.some_inj] at hstep
      rw [← hstep]
      exact ⟨_, _, h.write hi hevent hholder⟩

theorem Whole.of_reaches (h : Reaches (Sys.step order) (Keeps order) (start order tid program) s) :
    ∃ units part, s.Whole order tid program units part :=
  h.invariant (fun s : Sys ι => ∃ units part, s.Whole order tid program units part)
    ⟨[], [], start_whole order tid program⟩ fun _ _ _ ⟨_, _, hs⟩ hkeeps hstep => hs.step hkeeps hstep

/-- Between calls, nothing is left over of a packet. -/
theorem Whole.between (h : s.Whole order tid program units part) (hidle : ∀ i, (s.thread i).todo = []) :
    part = [] ∧ ∀ i, ∃ done, program i = done ++ (s.thread i).program ∧
      proj i units = (emitter order (tid i)).outs .init done := by
  have hinside : ∀ i, s.holder ≠ some i ∧ ∃ done, program i = done ++ (s.thread i).program ∧
      proj i units = (emitter order (tid i)).outs .init done := fun i => by
    obtain ⟨done, rest, hi⟩ := h.thread i
    have hcases := hi.inside
    rw [hidle i] at hcases
    generalize hheld : (if s.holder = some i then some part else none) = held at hcases
    cases hcases with
    | outside _ hrest =>
      refine ⟨fun hholder => by simp [hholder] at hheld, done, hi.program, ?_⟩
      rw [hi.outs, hrest, List.append_nil]
    | flushing htodo => cases htodo
    | locking htodo => cases htodo
    | holding htodo => simp at htodo
  refine ⟨?_, fun i => (hinside i).2⟩
  cases hholder : s.holder with
  | none => exact h.idle hholder
  | some i => exact absurd hholder (hinside i).1

end Sys

/-! ### The file between calls -/

theorem proj_tagged {tid : ι → UInt8} (htid : Function.Injective tid) (units : List (ι × Atom)) (i : ι) :
    proj (tid i) (tagged tid units) = proj i units := by
  induction units with
  | nil => rfl
  | cons u units ih =>
    obtain ⟨j, a⟩ := u
    by_cases hj : j = i
    · simpa [tagged, proj, hj] using ih
    · have hne : tid j ≠ tid i := fun h => hj (htid h)
      simpa [tagged, proj, hj, hne] using ih

omit [DecidableEq ι] in
theorem proj_tagged_none {tid : ι → UInt8} {t : UInt8} (ht : ∀ i, tid i ≠ t) (units : List (ι × Atom)) :
    proj t (tagged tid units) = [] := by
  induction units with
  | nil => rfl
  | cons u units ih =>
    have hne := ht u.1
    simpa [tagged, proj, hne] using ih

/-- What the threads write, when no `do_write` comes while another thread holds the lock: between
calls the file is whole packets and chunks, those of each thread in the order of its calls, and the
reader gives each thread its own entries. -/
theorem writers_keep_packets_whole {order : ByteOrder} {tid : ι → UInt8} {program : ι → List Call}
    {s : Sys ι} (h : Reaches (Sys.step order) (Sys.Keeps order) (Sys.start order tid program) s)
    (hidle : ∀ i, (s.thread i).todo = []) :
    ∃ units : List (ι × Atom), s.file = fileOf order (tagged tid units) ∧
      (∀ i, Follows false (proj i units) ∧ ∃ done, program i = done ++ (s.thread i).program ∧
        proj i units = (emitter order (tid i)).outs .init done) ∧
      (Function.Injective tid → (∀ u ∈ units, u.2.Ascii) →
        ∀ cfg, (∀ i, TakesNames cfg [] (proj i units)) → ∀ filter i,
          proj (tid i) (entries cfg filter (newReader s.file)).1.entries =
            decodeThread cfg filter (proj i units)) := by
  obtain ⟨units, part, hwhole⟩ := Sys.Whole.of_reaches h
  obtain ⟨rfl, hdone⟩ := hwhole.between hidle
  have hfile : s.file = fileOf order (tagged tid units) := by
    rw [hwhole.file, List.append_nil]
    rfl
  have hfollows : ∀ i, Follows false (proj i units) := fun i => by
    obtain ⟨done, -, houts⟩ := hdone i
    have hinit : Follows false Pending.init.deferred := rfl
    rw [houts]
    exact outs_follows order (tid i) hinit done
  refine ⟨units, hfile, fun i => ⟨hfollows i, hdone i⟩, ?_⟩
  intro htid hascii cfg hnames filter i
  have heach : ∀ P : List Atom → Prop, P [] → (∀ i, P (proj i units)) →
      ∀ t, P (proj t (tagged tid units)) := fun P hnil hproj t => by
    by_cases ht : ∃ j, tid j = t
    · obtain ⟨j, rfl⟩ := ht
      rw [proj_tagged htid]
      exact hproj j
    · rw [proj_tagged_none fun j hj => ht ⟨j, hj⟩]
      exact hnil
  have hascii' : ∀ u ∈ tagged tid units, u.2.Ascii := fun u hu => by
    obtain ⟨v, hv, rfl⟩ := List.mem_map.mp hu
    exact hascii v hv
  rw [hfile, entries_ascii filter order (heach (Follows false) rfl hfollows) hascii'
    (heach (TakesNames cfg []) trivial hnames), proj_decode, proj_tagged htid]

/-- Two threads that write an entry with one integer each. -/
def pairTid (i : Bool) : UInt8 := if i then 2 else 1

def pairProgram (i : Bool) : List Call :=
  if i then [.head [98], .log (.int32 6)] else [.head [97], .log (.int32 5)]

theorem writers_keep_packets_whole_pair :
    ∃ s, Reaches (Sys.step .little) (Sys.Keeps .little) (Sys.start .little pairTid pairProgram) s ∧
      s.file = [76, 1, 0, 1, 97, 2, 0, 1, 98, 2, 4, 6, 0, 0, 0, 1, 4, 5, 0, 0, 0] ∧
      ∃ units, s.file = fileOf .little (tagged pairTid units) ∧
        ∀ i, ∃ done, pairProgram i = done ++ (s.thread i).program ∧
          proj i units = (emitter .little (pairTid i)).outs .init done := by
  -- the second thread flushes and logs between the flush of the first and its packet
  have hview : (runSchedule (fun s i => if Sys.Keeps .little s i then Sys.step .little s i else none)
      (Sys.start .little pairTid pairProgram)
      [false, false, false, true, true, true, true, true, true, true, false, false, false, false]).map
      (fun s => (s.file, (s.thread false).todo, (s.thread true).todo)) =
        some ([76, 1, 0, 1, 97, 2, 0, 1, 98, 2, 4, 6, 0, 0, 0, 1, 4, 5, 0, 0, 0], [], []) := by
    decide +kernel
  obtain ⟨s, hrun, hs⟩ := Option.map_eq_some_iff.mp hview
  simp only [Prod.mk.injEq] at hs
  obtain ⟨hfile, hfalse, htrue⟩ := hs
  have hreaches := reaches_of_runSchedule .start hrun
  have hidle : ∀ i, (s.thread i).todo = [] := fun i => by
    cases i with
    | false => exact hfalse
    | true => exact htrue
  obtain ⟨units, hunits, hthreads, -⟩ := writers_keep_packets_whole hreaches hidle
  exact ⟨s, hreaches, hfile, units, hunits, fun i => (hthreads i).2⟩

/-- The second thread flushes its head between the header and the number of the first one's packet. -/
theorem flush_tears_packet :
    ∃ s, Reaches (Sys.step .little) (fun _ _ => True) (Sys.start .little pairTid pairProgram) s ∧
      (∀ i, (s.thread i).todo = [] ∧ (s.thread i).program = []) ∧
      s.file = [76, 1, 0, 1, 97, 1, 4, 2, 0, 1, 98, 5, 0, 0, 0, 2, 4, 6, 0, 0, 0] ∧
      ¬ ∃ units, s.file = fileOf .little (tagged pairTid units) ∧
        ∀ i, proj i units = (emitter .little (pairTid i)).outs .init (pairProgram i) := by
  have hview : (runSchedule (fun s i => if True then Sys.step .little s i else none)
      (Sys.start .little pairTid pairProgram)
      [false, false, true, true, false, false, false, true, false, false, true, true, true, true]).map
      (fun s => (s.file, (s.thread false).todo, (s.thread true).todo,
        (s.thread false).program.length, (s.thread true).program.length)) =
        some ([76, 1, 0, 1, 97, 1, 4, 2, 0, 1, 98, 5, 0, 0, 0, 2, 4, 6, 0, 0, 0], [], [], 0, 0) := by
    decide +kernel
  obtain ⟨s, hrun, hs⟩ := Option.map_eq_some_iff.mp hview
  simp only [Prod.mk.injEq, List.length_eq_zero_iff] at hs
  obtain ⟨hfile, hfalse, htrue, hfalse', htrue'⟩ := hs
  refine ⟨s, reaches_of_runSchedule .start hrun, ?_, hfile, ?_⟩
  · intro i
    cases i with
    | false => exact ⟨hfalse, hfalse'⟩
    | true => exact ⟨htrue, htrue'⟩
  · rintro ⟨units, hunits, hproj⟩
    have hfalse : proj false units = [.packet none (.head [97]), .packet none (.int32 5)] := hproj false
    have htrue : proj true units = [.packet none (.head [98]), .packet none (.int32 6)] := hproj true
    rw [hfile] at hunits
    -- the first two packets are those of the first thread, and the second is not whole
    rcases units with _ | ⟨⟨i, a⟩, units⟩
    · cases hfalse
    cases i with
    | true =>
      obtain ⟨rfl, -⟩ : a = .packet none (.head [98]) ∧ _ := List.cons.inj htrue
      cases hunits
    | false =>
      obtain ⟨rfl, hrest⟩ : a = .packet none (.head [97]) ∧
        proj false units = [.packet none (.int32 5)] := List.cons.inj hfalse
      rcases units with _ | ⟨⟨j, b⟩, units⟩
      · cases hrest
      cases j with
      | true =>
        obtain ⟨rfl, -⟩ : b = .packet none (.head [98]) ∧ _ := List.cons.inj htrue
        cases hunits
      | false =>
        obtain ⟨rfl, -⟩ : b = .packet none (.int32 5) ∧ _ := List.cons.inj hrest
        cases hunits

end Cscan.Cba
