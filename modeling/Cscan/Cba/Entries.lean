import Cscan.Cba.Decode
import Mathlib.Data.List.TakeWhile

/-! `entries` on a whole file. What it yields is the trace of one state machine for each thread,
followed by the entries still open at the end of the file. -/

namespace Cscan.Cba

open Cscan.Lib
open Reader (withRest)

/-! ### The loop -/

/-- The object after the atoms of `units`. -/
def Reader.afterAll (cfg : Config) (s : Reader) (units : List (UInt8 × Atom)) : Reader :=
  units.foldl (fun s u => s.after cfg u.1 u.2) s

/-- What is left of the file is well-formed in the state that the object is in, and the reader takes
every name in it. -/
structure Reader.Expects (cfg : Config) (s : Reader) (units : List (UInt8 × Atom)) : Prop where
  fresh : ∀ tid, tid ∉ s.tids → s.state tid = {}
  sound : ∀ tid, (s.state tid).Sound
  follows : ∀ tid, Follows (s.state tid).streaming (proj tid units)
  takesNames : ∀ tid, TakesNames cfg (s.state tid).module (proj tid units)

namespace Reader.Expects

variable {cfg : Config} {s : Reader} {tid : UInt8} {a : Atom} {units : List (UInt8 × Atom)}

theorem head (h : s.Expects cfg ((tid, a) :: units)) :
    Follows (s.state tid).streaming (a :: proj tid units) ∧
      TakesNames cfg (s.state tid).module (a :: proj tid units) := by
  have hfollows := h.follows tid
  have htakes := h.takesNames tid
  rw [proj, if_pos rfl] at hfollows htakes
  exact ⟨hfollows, htakes⟩

theorem ready (h : s.Expects cfg ((tid, a) :: units)) : s.Ready cfg tid a where
  fresh := h.fresh tid
  sound := h.sound tid
  allowed := h.head.1.1
  takesName := ThreadState.takesName_of_cons h.head.2

theorem after (h : s.Expects cfg ((tid, a) :: units)) : (s.after cfg tid a).Expects cfg units := by
  have hself : (s.after cfg tid a).state tid = (s.state tid).next cfg (cfg.opens s.attempts) a :=
    Function.update_self ..
  have hother : ∀ t, t ≠ tid → (s.after cfg tid a).state t = s.state t := fun t ht =>
    Function.update_of_ne ht ..
  have hproj : ∀ t, t ≠ tid → proj t ((tid, a) :: units) = proj t units := fun t ht => by
    rw [proj, if_neg (Ne.symm ht)]
  refine ⟨?_, ?_, ?_, ?_⟩
  · intro t ht
    have ht' : t ≠ tid ∧ t ∉ s.tids := by
      simp only [Reader.after] at ht
      split_ifs at ht with hmem
      · exact ⟨fun heq => ht (heq ▸ hmem), ht⟩
      · simp only [List.mem_append, List.mem_singleton, not_or] at ht
        exact ⟨ht.2, ht.1⟩
    rw [hother t ht'.1]
    exact h.fresh t ht'.2
  · intro t
    by_cases ht : t = tid
    · rw [ht, hself]
      exact ThreadState.next_sound _ _ _ h.head.1.1 (h.sound tid)
    · rw [hother t ht]
      exact h.sound t
  · intro t
    by_cases ht : t = tid
    · rw [ht, hself, ThreadState.next_streaming _ _ _ h.head.1.1]
      exact h.head.1.2
    · rw [hother t ht, ← hproj t ht]
      exact h.follows t
  · intro t
    by_cases ht : t = tid
    · rw [ht, hself]
      exact ThreadState.next_filesIn _ _ _ h.head.2
    · rw [hother t ht, ← hproj t ht]
      exact h.takesNames t

end Reader.Expects

theorem readLoop_turn {cfg : Config} {s s' : Reader} {bs : List UInt8} (heof : s.eof = false)
    (fuel : Nat) (h : readPacket cfg (withRest bs s) = .ok () s') :
    readLoop cfg (fuel + 1) (withRest bs s) = readLoop cfg fuel s' := by
  have heof' : (withRest bs s).eof = false := heof
  simp [readLoop, heof', h]

theorem readLoop_error {cfg : Config} {s s' : Reader} {bs : List UInt8} {e : Err}
    (heof : s.eof = false) (fuel : Nat) (h : readPacket cfg (withRest bs s) = .error e s') :
    readLoop cfg (fuel + 1) (withRest bs s) = .error e s' := by
  have heof' : (withRest bs s).eof = false := heof
  simp [readLoop, heof', h]

theorem afterAll_fixed (cfg : Config) (s : Reader) (units : List (UInt8 × Atom)) :
    (s.afterAll cfg units).eof = s.eof ∧ (s.afterAll cfg units).order = s.order ∧
      (s.afterAll cfg units).filter = s.filter := by
  induction units generalizing s with
  | nil => exact ⟨rfl, rfl, rfl⟩
  | cons u units ih => exact ih (s.after cfg u.1 u.2)

/-- The loop takes the units one by one. -/
theorem readLoop_append {cfg : Config} {s : Reader} {us vs : List (UInt8 × Atom)}
    (h : s.Expects cfg (us ++ vs)) (hascii : ∀ u ∈ us, u.2.Ascii) (heof : s.eof = false)
    (fuel : Nat) (tail : List UInt8) :
    (s.afterAll cfg us).Expects cfg vs ∧
      readLoop cfg (us.length + fuel) (withRest (encodeUnits s.order us ++ tail) s) =
        readLoop cfg fuel (withRest tail (s.afterAll cfg us)) := by
  induction us generalizing s with
  | nil =>
    refine ⟨h, ?_⟩
    rw [List.length_nil, Nat.zero_add]
    rfl
  | cons u us ih =>
    obtain ⟨tid, a⟩ := u
    obtain ⟨hexpects, hloop⟩ := ih h.after (fun u hu => hascii u (List.mem_cons_of_mem _ hu)) heof
    refine ⟨hexpects, ?_⟩
    have hread := readPacket_reads h.ready (hascii _ List.mem_cons_self)
      (encodeUnits s.order us ++ tail)
    have hbytes : encodeUnits s.order ((tid, a) :: us) ++ tail =
        a.bytes s.order tid ++ (encodeUnits s.order us ++ tail) := by
      simp [encodeUnits]
    rw [List.length_cons, Nat.add_right_comm, hbytes]
    exact (readLoop_turn heof _ hread).trans hloop

theorem afterBad_yielded (s : Reader) (tid : UInt8) (code : Option UInt32) (p : Packet) :
    ((s.opened tid).afterBad tid (codeOf code) p).yielded =
      s.yielded ++ ((s.state tid).yields s.filter (.packet code p)).map (Prod.mk tid) := by
  cases p with
  | head module => rfl
  | _ => exact (List.append_nil _).symm

/-- At the end of the file. -/
theorem readLoop_end (cfg : Config) {s : Reader} (heof : s.eof = false) {fuel : Nat} (hfuel : fuel ≠ 0) :
    readLoop cfg fuel (withRest [] s) = .ok () { s with rest := [], eof := true } := by
  obtain ⟨fuel, rfl⟩ := Nat.exists_eq_succ_of_ne_zero hfuel
  have hturn : readPacket cfg (withRest [] s) = .ok () { s with rest := [], eof := true } := rfl
  refine (readLoop_turn heof fuel hturn).trans ?_
  cases fuel with
  | zero => rfl
  | succ fuel => simp [readLoop]

theorem length_le_encodeUnits (order : ByteOrder) (units : List (UInt8 × Atom)) :
    units.length ≤ (encodeUnits order units).length := by
  induction units with
  | nil => exact Nat.le_refl 0
  | cons u units ih =>
    have hpos : 0 < (u.2.bytes order u.1).length := by
      rcases u with ⟨tid, ⟨_ | _, _⟩ | _⟩ <;> simp [Atom.bytes]
    simp only [encodeUnits, List.flatMap_cons, List.length_append, List.length_cons] at ih ⊢
    omega

/-! ### The whole file -/

/-- The threads of a file in the order of their first atoms. -/
def threads (units : List (UInt8 × Atom)) : List UInt8 :=
  units.foldl (fun tids u => if u.1 ∈ tids then tids else tids ++ [u.1]) []

/-- The machine of one thread: it takes atoms and yields entries. Which output files open does not
matter to the entries, so here none does. -/
def decoder (cfg : Config) (filter : Option (List Char)) : Machine ThreadState Atom Entry where
  next := ThreadState.next cfg false
  out := ThreadState.yields filter

/-- The entries of one thread, from its atoms alone. -/
def decodeThread (cfg : Config) (filter : Option (List Char)) (as : List Atom) : List Entry :=
  (decoder cfg filter).outs {} as ++ ((decoder cfg filter).run {} as).final filter

/-- The entries of a file: those completed on the way, and then what every thread leaves. -/
def decode (cfg : Config) (filter : Option (List Char)) (units : List (UInt8 × Atom)) :
    List (UInt8 × Entry) :=
  (decoder cfg filter).trace (fun _ => {}) units ++
    (threads units).flatMap fun tid =>
      (((decoder cfg filter).feed (fun _ => {}) units tid).final filter).map (Prod.mk tid)

/-- What a pass over a file gives: its entries, unless a name in it is not ASCII. Then the entries
completed up to that name, and an exception. -/
def decodePass (cfg : Config) (filter : Option (List Char)) (units : List (UInt8 × Atom)) : Pass :=
  match units.dropWhile fun u => u.2.Ascii with
  | [] => ⟨decode cfg filter units, none⟩
  | bad :: _ => ⟨(decoder cfg filter).trace (fun _ => {})
      (units.takeWhile (fun u => u.2.Ascii) ++ [bad]), some .unicode⟩

/-! ### The states of the threads without their output files -/

namespace ThreadState

/-- The state as it would be if its output file had not opened. -/
def core (ts : ThreadState) : ThreadState :=
  { ts with curStream := match ts.curStream with
      | .file _ _ => .ignore
      | stream => stream }

theorem core_next (cfg : Config) (ok : Bool) (ts : ThreadState) (a : Atom) :
    (ts.next cfg ok a).core = ts.core.next cfg false a := by
  cases a with
  | packet code p =>
    cases p with
    | file name =>
      simp only [next, receive]
      by_cases h : outputName cfg ts.module name = []
      · simp [h, core]
      · cases ok <;> simp [h, core, openOutput, addEvent]
    | _ => rfl
  | chunk bytes =>
    by_cases hb : bytes = []
    · cases hs : ts.curStream <;> simp [next, hb, close, core, hs, addEvent]
    · cases hs : ts.curStream <;> simp [next, hb, core, hs, Stream.write]

theorem core_yields (filter : Option (List Char)) (ts : ThreadState) (a : Atom) :
    ts.core.yields filter a = ts.yields filter a := by
  rcases a with ⟨_, _ | _⟩ | _ <;> rfl

end ThreadState

/-- The object on the way keeps, for each thread, the state of its machine. -/
theorem afterAll_core (cfg : Config) (s : Reader) (units : List (UInt8 × Atom)) :
    (s.afterAll cfg units).yielded =
        s.yielded ++ (decoder cfg s.filter).trace (fun tid => (s.state tid).core) units ∧
      (fun tid => ((s.afterAll cfg units).state tid).core) =
        (decoder cfg s.filter).feed (fun tid => (s.state tid).core) units ∧
      (s.afterAll cfg units).tids =
        units.foldl (fun tids u => if u.1 ∈ tids then tids else tids ++ [u.1]) s.tids := by
  induction units generalizing s with
  | nil => exact ⟨(List.append_nil _).symm, rfl, rfl⟩
  | cons u units ih =>
    obtain ⟨tid, a⟩ := u
    have hcore : (fun t => ((s.after cfg tid a).state t).core) =
        Function.update (fun t => (s.state t).core) tid
          ((decoder cfg s.filter).next (s.state tid).core a) := by
      funext t
      by_cases ht : t = tid
      · subst ht
        simp [Reader.after, decoder, ThreadState.core_next]
      · simp [Reader.after, Reader.set, Function.update_of_ne ht]
    obtain ⟨hyielded, hstate, htids⟩ := ih (s.after cfg tid a)
    refine ⟨?_, ?_, htids⟩
    · refine hyielded.trans ?_
      have hout : (decoder cfg s.filter).out (s.state tid).core a = (s.state tid).yields s.filter a :=
        ThreadState.core_yields ..
      rw [hcore, Machine.trace, hout, ← List.append_assoc]
      rfl
    · refine hstate.trans ?_
      rw [hcore]
      rfl

theorem foldlM_result (tids : List UInt8) (s : Reader) :
    tids.foldlM (fun _ tid => result tid) () s = EStateM.Result.ok ()
      { s with yielded := s.yielded ++
          tids.flatMap fun tid => ((s.state tid).final s.filter).map (Prod.mk tid) } := by
  induction tids generalizing s with
  | nil => simp [pure, EStateM.pure]
  | cons tid tids ih =>
    have hresult : result tid s = .ok () (s.afterResult tid) := reads_result s tid s.rest
    simp only [List.foldlM_cons, bind, EStateM.bind, hresult]
    rw [ih]
    simp [Reader.afterResult]

/-- The object when `entries` starts on a new file. -/
def startReader (filter : Option (List Char)) (data : List UInt8) : Reader :=
  { newReader data with filter := filter }

theorem newReader_fileOf (order : ByteOrder) (units : List (UInt8 × Atom)) :
    (newReader (fileOf order units)).order = order ∧
      (newReader (fileOf order units)).rest = encodeUnits order units := by
  cases order <;> exact ⟨rfl, rfl⟩

theorem startReader_expects {cfg : Config} {units : List (UInt8 × Atom)} (hwf : WellFormed units)
    (hnames : ∀ tid, TakesNames cfg [] (proj tid units)) (filter : Option (List Char))
    (data : List UInt8) : (startReader filter data).Expects cfg units where
  fresh _ _ := rfl
  sound _ := trivial
  follows := hwf
  takesNames := hnames

theorem startReader_fileOf (filter : Option (List Char)) (order : ByteOrder)
    (units : List (UInt8 × Atom)) : startReader filter (fileOf order units) =
      withRest (encodeUnits (startReader filter (fileOf order units)).order units)
        (startReader filter (fileOf order units)) := by
  cases order <;> rfl

theorem entries_eq (cfg : Config) (filter : Option (List Char)) (data : List UInt8) :
    (entries cfg filter (newReader data)).1 =
        (match readLoop cfg ((data.drop 1).length + 1) (startReader filter data) with
        | .ok _ s => ⟨s.yielded ++ s.tids.flatMap fun tid =>
            ((s.state tid).final s.filter).map (Prod.mk tid), none⟩
        | .error e s => ⟨s.yielded, some e⟩) ∧
      (entries cfg filter (newReader data)).2.saved =
        match readLoop cfg ((data.drop 1).length + 1) (startReader filter data) with
        | .ok _ s => s.saved
        | .error _ s => s.saved := by
  have hrun : entries cfg filter (newReader data) =
      match EStateM.bind (readLoop cfg ((data.drop 1).length + 1)) (fun _ => readFinal)
        (startReader filter data) with
      | .ok _ s => (⟨s.yielded, none⟩, s)
      | .error e s => (⟨s.yielded, some e⟩, s) := rfl
  rw [hrun, EStateM.bind]
  cases readLoop cfg ((data.drop 1).length + 1) (startReader filter data) with
  | ok _ s =>
    simp only [readFinal, foldlM_result]
    exact ⟨trivial, trivial⟩
  | error e s => exact ⟨rfl, rfl⟩

/-- The loop runs through the first part of a file, and has turns left for the rest. -/
theorem readLoop_start {cfg : Config} {us vs : List (UInt8 × Atom)} (hwf : WellFormed (us ++ vs))
    (hascii : ∀ u ∈ us, u.2.Ascii) (hnames : ∀ tid, TakesNames cfg [] (proj tid (us ++ vs)))
    (filter : Option (List Char)) (order : ByteOrder) :
    ((startReader filter (fileOf order (us ++ vs))).afterAll cfg us).Expects cfg vs ∧
      ∃ fuel, vs.length < fuel ∧
        readLoop cfg (((fileOf order (us ++ vs)).drop 1).length + 1)
            (startReader filter (fileOf order (us ++ vs))) =
          readLoop cfg fuel (withRest (encodeUnits order vs)
            ((startReader filter (fileOf order (us ++ vs))).afterAll cfg us)) := by
  have hlength : (us ++ vs).length ≤ (encodeUnits order (us ++ vs)).length :=
    length_le_encodeUnits order (us ++ vs)
  obtain ⟨extra, hextra⟩ := Nat.exists_eq_add_of_le hlength
  obtain ⟨hexpects, hloop⟩ := readLoop_append (startReader_expects hwf hnames filter
    (fileOf order (us ++ vs))) hascii rfl (vs.length + extra + 1) (encodeUnits order vs)
  refine ⟨hexpects, vs.length + extra + 1, by omega, ?_⟩
  have hfuel : ((fileOf order (us ++ vs)).drop 1).length + 1 =
      us.length + (vs.length + extra + 1) := by
    rw [List.length_append] at hextra
    show (encodeUnits order (us ++ vs)).length + 1 = _
    omega
  have hrest : startReader filter (fileOf order (us ++ vs)) = withRest
      (encodeUnits (startReader filter (fileOf order (us ++ vs))).order us ++ encodeUnits order vs)
      (startReader filter (fileOf order (us ++ vs))) := by
    conv_lhs => rw [startReader_fileOf]
    rw [encodeUnits, List.flatMap_append]
    cases order <;> rfl
  rw [hfuel]
  conv_lhs => rw [hrest]
  exact hloop

section Pass

variable {cfg : Config} (filter : Option (List Char)) (order : ByteOrder)

theorem entries_ascii {units : List (UInt8 × Atom)} (hwf : WellFormed units)
    (hascii : ∀ u ∈ units, u.2.Ascii) (hnames : ∀ tid, TakesNames cfg [] (proj tid units)) :
    (entries cfg filter (newReader (fileOf order units))).1 = ⟨decode cfg filter units, none⟩ := by
  rw [← List.append_nil units] at hwf hnames
  obtain ⟨-, fuel, hfuel, hloop⟩ := readLoop_start hwf hascii hnames filter order
  rw [List.append_nil] at hloop
  have hfixed := afterAll_fixed cfg (startReader filter (fileOf order units)) units
  obtain ⟨hyielded, hstate, htids⟩ :=
    afterAll_core cfg (startReader filter (fileOf order units)) units
  rw [(entries_eq ..).1, hloop]
  have hend := readLoop_end cfg (s := (startReader filter (fileOf order units)).afterAll cfg units)
    hfixed.1 (Nat.ne_of_gt hfuel)
  have hfinal : ∀ tid, (((startReader filter (fileOf order units)).afterAll cfg units).state tid).final
      filter = ((decoder cfg filter).feed (fun _ => {}) units tid).final filter := fun tid => by
    have hcore := congrArg (ThreadState.final filter) (congrFun hstate tid)
    exact hcore
  have hfilter : ((startReader filter (fileOf order units)).afterAll cfg units).filter = filter :=
    hfixed.2.2
  simp only [encodeUnits, List.flatMap_nil, hend, hyielded, htids, hfilter, hfinal]
  rfl

theorem entries_bad {us vs : List (UInt8 × Atom)} {bad : UInt8 × Atom}
    (hwf : WellFormed (us ++ bad :: vs)) (hascii : ∀ u ∈ us, u.2.Ascii) (hbad : ¬ bad.2.Ascii)
    (hnames : ∀ tid, TakesNames cfg [] (proj tid (us ++ bad :: vs))) :
    (entries cfg filter (newReader (fileOf order (us ++ bad :: vs)))).1 =
      ⟨(decoder cfg filter).trace (fun _ => {}) (us ++ [bad]), some .unicode⟩ := by
  obtain ⟨hexpects, fuel, hfuel, hloop⟩ := readLoop_start hwf hascii hnames filter order
  obtain ⟨hyielded, hstate, -⟩ :=
    afterAll_core cfg (startReader filter (fileOf order (us ++ bad :: vs))) us
  have hfixed := afterAll_fixed cfg (startReader filter (fileOf order (us ++ bad :: vs))) us
  obtain ⟨tid, ⟨code, p⟩ | bytes⟩ := bad
  · obtain ⟨fuel, rfl⟩ := Nat.exists_eq_succ_of_ne_zero (Nat.ne_of_gt (Nat.zero_lt_of_lt hfuel))
    obtain ⟨left, hread⟩ := readPacket_fails hexpects.ready hbad (encodeUnits order vs)
    have horder : ((startReader filter (fileOf order (us ++ (tid, .packet code p) :: vs))).afterAll
        cfg us).order = order := hfixed.2.1.trans (newReader_fileOf order _).1
    have hbytes : encodeUnits order ((tid, .packet code p) :: vs) =
        (Atom.packet code p).bytes order tid ++ encodeUnits order vs := by simp [encodeUnits]
    rw [horder, ← hbytes] at hread
    rw [(entries_eq ..).1, hloop, readLoop_error hfixed.1 fuel hread]
    have hcore := ThreadState.core_yields filter
      (((startReader filter (fileOf order (us ++ (tid, .packet code p) :: vs))).afterAll cfg us).state
        tid) (.packet code p)
    have hout : (decoder cfg filter).out ((decoder cfg filter).feed (fun _ => {}) us tid)
        (.packet code p) = _ := (congrArg (ThreadState.yields filter · (.packet code p))
      (congrFun hstate tid)).symm.trans hcore
    rw [Machine.trace_append, Machine.trace, hout, Machine.trace, List.append_nil]
    refine congrArg (Pass.mk · (some Err.unicode)) ?_
    refine (afterBad_yielded _ tid code p).trans ?_
    rw [hyielded, hfixed.2.2]
    rfl
  · exact absurd trivial hbad

/-- The machine of one thread that takes atoms and extracts files, where every file opens. -/
def saver (cfg : Config) : Machine ThreadState Atom Saved where
  next := ThreadState.next cfg true
  out := ThreadState.saves cfg

theorem afterAll_saved (hopens : ∀ n, cfg.opens n = true) (s : Reader) (units : List (UInt8 × Atom)) :
    (s.afterAll cfg units).saved = s.saved ++ (saver cfg).trace s.state units := by
  induction units generalizing s with
  | nil => exact (List.append_nil _).symm
  | cons u units ih =>
    obtain ⟨tid, a⟩ := u
    refine (ih (s.after cfg tid a)).trans ?_
    have hstate : (s.after cfg tid a).state =
        Function.update s.state tid ((saver cfg).next (s.state tid) a) := by
      simp [Reader.after, Reader.set, saver, hopens]
    rw [hstate, Machine.trace, ← List.append_assoc]
    rfl

/-- What is extracted from a well-formed file whose names are all read and are all ASCII. -/
theorem entries_saved {units : List (UInt8 × Atom)} (hwf : WellFormed units)
    (hascii : ∀ u ∈ units, u.2.Ascii) (hnames : ∀ tid, TakesNames cfg [] (proj tid units))
    (hopens : ∀ n, cfg.opens n = true) :
    (entries cfg filter (newReader (fileOf order units))).2.saved =
      (saver cfg).trace (fun _ => {}) units := by
  rw [← List.append_nil units] at hwf hnames
  obtain ⟨-, fuel, hfuel, hloop⟩ := readLoop_start hwf hascii hnames filter order
  rw [List.append_nil] at hloop
  have hend := readLoop_end cfg (afterAll_fixed cfg (startReader filter (fileOf order units)) units).1
    (Nat.ne_of_gt (Nat.zero_lt_of_lt hfuel))
  rw [(entries_eq ..).2, hloop]
  refine (congrArg (fun r : EStateM.Result Err Reader Unit => match r with
    | .ok _ s => s.saved
    | .error _ s => s.saved) hend).trans ?_
  exact afterAll_saved hopens (startReader filter (fileOf order units)) units

/-- `entries` on a well-formed file whose names are all read. -/
theorem entries_fileOf {units : List (UInt8 × Atom)} (hwf : WellFormed units)
    (hnames : ∀ tid, TakesNames cfg [] (proj tid units)) :
    (entries cfg filter (newReader (fileOf order units))).1 = decodePass cfg filter units := by
  have hsplit : units.takeWhile (fun u => u.2.Ascii) ++ units.dropWhile (fun u => u.2.Ascii) = units :=
    List.takeWhile_append_dropWhile
  have hascii : ∀ u ∈ units.takeWhile (fun u => u.2.Ascii), u.2.Ascii := fun u hu => by
    simpa using List.mem_takeWhile_imp hu
  unfold decodePass
  cases hdrop : units.dropWhile fun u => u.2.Ascii with
  | nil =>
    rw [hdrop, List.append_nil] at hsplit
    rw [hsplit] at hascii
    exact entries_ascii filter order hwf hascii hnames
  | cons bad vs =>
    rw [hdrop] at hsplit
    have hbad : ¬ bad.2.Ascii := by
      have hhead := List.head?_dropWhile_not (fun u : UInt8 × Atom => decide u.2.Ascii) units
      rw [hdrop] at hhead
      simpa using hhead
    conv_lhs => rw [← hsplit]
    rw [← hsplit] at hwf hnames
    exact entries_bad filter order hwf hascii hbad hnames

end Pass

end Cscan.Cba
