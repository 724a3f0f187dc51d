import Cscan.Cba.Deinterleave

/-! Which files the reader extracts, and what that does to the entries. Where it takes the name of
every file the entries are the same under every configuration. The branch that does not extract leaves
the name in the input, and the reader takes it for packets. -/

namespace Cscan.Cba

open Cscan.Lib
open Reader (withRest)

/-! ### Configurations that take every name -/

theorem outputName_congr {cfg cfg' : Config} {module : List Char} {name : List UInt8}
    (h : name = [] ∨ shouldExtract cfg module = true) (h' : name = [] ∨ shouldExtract cfg' module = true) :
    outputName cfg module name = outputName cfg' module name := by
  rcases h with hnil | h
  · simp [outputName, hnil]
  · rcases h' with hnil | h'
    · simp [outputName, hnil]
    · simp [outputName, h, h']

theorem next_congr {cfg cfg' : Config} {ts : ThreadState} {a : Atom} (h : ts.TakesName cfg a)
    (h' : ts.TakesName cfg' a) : ts.next cfg false a = ts.next cfg' false a := by
  rcases a with ⟨code, _ | _ | name | _ | _ | _ | _⟩ | bytes
  case packet.file =>
    simp only [ThreadState.next, ThreadState.receive, outputName_congr h h']
    rfl
  all_goals rfl

theorem run_takesName (cfg cfg' : Config) (filter : Option (List Char)) {as bs : List Atom} {a : Atom}
    (h : TakesNames cfg [] (as ++ a :: bs)) : ((decoder cfg' filter).run {} as).TakesName cfg a := by
  have hrun : ∀ (as : List Atom) (ts : ThreadState), TakesNames cfg ts.module (as ++ a :: bs) →
      ((decoder cfg' filter).run ts as).TakesName cfg a := by
    intro as
    induction as with
    | nil => exact fun ts h => ThreadState.takesName_of_cons h
    | cons b as ih => exact fun ts h => ih _ (ThreadState.next_filesIn cfg' false ts h)
  exact hrun as {} h

variable {cfg cfg' : Config} {units : List (UInt8 × Atom)}

theorem decoder_congr (hnames : ∀ tid, TakesNames cfg [] (proj tid units))
    (hnames' : ∀ tid, TakesNames cfg' [] (proj tid units)) (filter : Option (List Char))
    {us vs : List (UInt8 × Atom)} (hunits : us ++ vs = units) :
    (decoder cfg filter).trace (fun _ => {}) us = (decoder cfg' filter).trace (fun _ => {}) us ∧
      (decoder cfg filter).feed (fun _ => {}) us = (decoder cfg' filter).feed (fun _ => {}) us := by
  apply Machine.trace_congr (fun _ => ({} : ThreadState)) us
    fun (ts : ThreadState) a => ts.TakesName cfg a ∧ ts.TakesName cfg' a
  · intro ts a h
    exact next_congr h.1 h.2
  · intro ts a _
    rfl
  · intro tid as a bs hproj
    have hunits' : proj tid units = as ++ a :: (bs ++ proj tid vs) := by
      rw [← hunits, proj_append, hproj]
      simp
    have h := hnames tid
    have h' := hnames' tid
    rw [hunits'] at h h'
    exact ⟨run_takesName cfg cfg filter h, run_takesName cfg' cfg filter h'⟩

/-- Two configurations that take every name yield the same entries, and raise the same exception. -/
theorem entries_congr (hwf : WellFormed units) (hnames : ∀ tid, TakesNames cfg [] (proj tid units))
    (hnames' : ∀ tid, TakesNames cfg' [] (proj tid units)) (filter : Option (List Char))
    (order : ByteOrder) : (entries cfg filter (newReader (fileOf order units))).1 =
      (entries cfg' filter (newReader (fileOf order units))).1 := by
  rw [entries_fileOf filter order hwf hnames, entries_fileOf filter order hwf hnames']
  have hsplit : units.takeWhile (fun u => u.2.Ascii) ++ units.dropWhile (fun u => u.2.Ascii) = units :=
    List.takeWhile_append_dropWhile
  unfold decodePass
  cases hdrop : units.dropWhile fun u => u.2.Ascii with
  | nil =>
    obtain ⟨htrace, hfeed⟩ := decoder_congr hnames hnames' filter (List.append_nil units)
    simp only [decode, htrace, hfeed]
  | cons bad vs =>
    rw [hdrop, List.append_cons] at hsplit
    exact congrArg (Pass.mk · (some Err.unicode)) (decoder_congr hnames hnames' filter hsplit).1

/-! ### Files that are not extracted -/

/-- Where the reader does not extract it takes the length of the name, and leaves the name. -/
theorem readPacket_skips {cfg : Config} {s : Reader} {tid : UInt8} {n : Nat}
    (hfresh : tid ∉ s.tids → s.state tid = {}) (hstream : (s.state tid).curStream = .none)
    (hskip : shouldExtract cfg (s.state tid).module = false) (hn : n < 65536) :
    Reads withRest (readPacket cfg) s (tid :: 2 :: s.order.encode 2 n) ()
      ((s.opened tid).set tid
        { s.state tid with curCode := 0, curType := cbaFile, curStream := .ignore }) := by
  intro tail
  rw [List.cons_append, readPacket_eq cfg hfresh, if_pos hstream]
  have hkind : (2 : UInt8).toNat = cbaFile := rfl
  have hbody : Reads withRest (readBody cfg tid cbaFile 0) (s.opened tid) (s.order.encode 2 n) ()
      ((s.opened tid).set tid
        { s.state tid with curCode := 0, curType := cbaFile, curStream := .ignore }) := by
    apply (reads_getThread _ tid).step
    apply (reads_setThread _ tid _).step
    apply (reads_word _ (by simpa using hn)).last
    apply (reads_getThread _ tid).step
    apply (reads_setThread_set _ tid _ _).step
    have hname : Reads withRest (readFilename cfg (s.state tid).module n)
        ((s.opened tid).set tid
          { s.state tid with curCode := 0, curType := cbaFile, curStream := .ignore }) [] []
        ((s.opened tid).set tid
          { s.state tid with curCode := 0, curType := cbaFile, curStream := .ignore }) := by
      simp only [readFilename, hskip]
      exact Reads.pure _ _
    simp only [Reader.set_state_self]
    exact hname.step (Reads.pure _ _)
  refine ((reads_byte _ 2).bind_eq _ _).trans ?_
  exact hbody tail

/-- A file in module `m` whose bytes make packets when its name is left in the input. -/
def baitUnits (m : List UInt8) : List (UInt8 × Atom) :=
  [(0, .packet none (.head m)), (0, .packet none (.file [97])), (0, .chunk []), (0, .packet none .bit),
    (0, .packet none .bit), (0, .packet none .bit), (0, .packet none .bit), (0, .packet none (.head []))]

/-- What the reader takes the bait for, behind the header of its file packet. -/
def misread : List (UInt8 × Atom) :=
  [(97, .packet none (.head [])), (0, .chunk [0, 6, 0, 6, 0, 6]), (0, .chunk [])]

theorem encodeUnits_bait (m : List UInt8) : encodeUnits .big (baitUnits m) =
    encodeUnits .big [(0, .packet none (.head m))] ++
      (0 :: 2 :: ByteOrder.big.encode 2 1 ++ encodeUnits .big misread) := by
  simp [encodeUnits, baitUnits, misread, Atom.bytes, Packet.payload, Packet.kind, cbaHead, cbaFile, cbaBit,
    ByteOrder.encode, lowBytes]

theorem baitUnits_wellFormed {m : List UInt8} (hm : m.length < 256) : WellFormed (baitUnits m) := by
  intro tid
  by_cases h : (0 : UInt8) = tid
  · subst h
    simp [baitUnits, proj, Follows, Atom.Allowed, Atom.leavesOpen, Packet.Fits, Packet.opensStream, hm]
  · simp [baitUnits, proj, h, Follows]

/-- The object once the reader has skipped the bait. -/
def baited (m : List UInt8) (data : List UInt8) : Reader :=
  { startReader none data with
    tids := [0]
    state := Function.update (fun _ => {}) 0
      { module := latin1 m, curCode := 0, curType := cbaFile, curStream := .ignore } }

theorem baited_expects (cfg : Config) (m data : List UInt8) : (baited m data).Expects cfg misread where
  fresh tid h := by
    have hne : tid ≠ 0 := by simpa [baited] using h
    simp [baited, Function.update_of_ne hne]
  sound tid := by
    by_cases h : tid = 0
    · subst h
      simp [baited, ThreadState.Sound, cbaFile, cbaData]
    · simp [baited, Function.update_of_ne h, ThreadState.Sound]
  follows tid := by
    by_cases h0 : tid = 0
    · subst h0
      simp [baited, misread, proj, ThreadState.streaming, Follows, Atom.Allowed, Atom.leavesOpen]
    · by_cases h97 : tid = 97
      · subst h97
        simp [baited, misread, proj, ThreadState.streaming, Follows, Atom.Allowed, Atom.leavesOpen,
          Packet.Fits, Packet.opensStream]
      · simp [baited, misread, proj, ThreadState.streaming, Follows, Function.update_of_ne h0,
          Ne.symm h0, Ne.symm h97]
  takesNames tid := by
    apply FilesIn.of_noFiles
    intro code name h
    have := mem_proj.mp h
    simp [misread] at this

/-- The loop on the bait: the head, the header of the file packet, and what is misread. -/
theorem readLoop_bait {cfg : Config} {m : List UInt8} (hm : m.length < 256)
    (hascii : m.all (· < 128) = true) (hskip : shouldExtract cfg (latin1 m) = false) (fuel : Nat) :
    readLoop cfg (fuel + 6) (startReader none (fileOf .big (baitUnits m))) = .ok ()
      { (baited m (fileOf .big (baitUnits m))).afterAll cfg misread with rest := [], eof := true } := by
  have hexpects : (startReader none (fileOf .big (baitUnits m))).Expects cfg
      ([(0, .packet none (.head m))] ++ []) := by
    apply startReader_expects
    · intro tid
      by_cases h : (0 : UInt8) = tid <;>
        simp [proj, h, Follows, Atom.Allowed, Atom.leavesOpen, Packet.Fits, Packet.opensStream, hm]
    · intro tid
      apply FilesIn.of_noFiles
      intro code name h
      simpa using mem_proj.mp h
  obtain ⟨-, hhead⟩ := readLoop_append hexpects
    (by rintro u hu; rw [List.mem_singleton.mp hu]; exact hascii) rfl (fuel + 5)
    (0 :: 2 :: ByteOrder.big.encode 2 1 ++ encodeUnits .big misread)
  have hs1 : (startReader none (fileOf .big (baitUnits m))).afterAll cfg [(0, .packet none (.head m))] =
      { startReader none (fileOf .big (baitUnits m)) with
        tids := [0]
        state := Function.update (fun _ => {}) 0 { module := latin1 m } } := rfl
  have hskipped := @readPacket_skips cfg { startReader none (fileOf .big (baitUnits m)) with
        tids := [0]
        state := Function.update (fun _ => {}) 0 { module := latin1 m } } 0 1
    (by simp) (by simp) (by simpa using hskip) (by omega) (encodeUnits .big misread)
  have hbaited : (Reader.opened { startReader none (fileOf .big (baitUnits m)) with
        tids := [0]
        state := Function.update (fun _ => {}) 0 { module := latin1 m } } 0).set 0
          { module := latin1 m, curCode := 0, curType := cbaFile, curStream := .ignore } =
      baited m (fileOf .big (baitUnits m)) := by
    simp [Reader.opened, Reader.set, baited]
  have hbaitedExpects := baited_expects cfg m (fileOf .big (baitUnits m))
  rw [← List.append_nil misread] at hbaitedExpects
  obtain ⟨-, hmisread⟩ := readLoop_append hbaitedExpects
    (by simp [misread, Atom.Ascii, Packet.Ascii]) rfl (fuel + 1) []
  have hend := readLoop_end cfg (s := (baited m (fileOf .big (baitUnits m))).afterAll cfg misread) rfl
    (Nat.succ_ne_zero fuel)
  have hstart : startReader none (fileOf .big (baitUnits m)) = withRest
      (encodeUnits .big [(0, .packet none (.head m))] ++
        (0 :: 2 :: ByteOrder.big.encode 2 1 ++ encodeUnits .big misread))
      (startReader none (fileOf .big (baitUnits m))) := by
    rw [← encodeUnits_bait]
    rfl
  rw [hs1] at hhead
  calc readLoop cfg (fuel + 6) (startReader none (fileOf .big (baitUnits m)))
      = readLoop cfg (1 + (fuel + 5)) (withRest
          (encodeUnits .big [(0, .packet none (.head m))] ++
            (0 :: 2 :: ByteOrder.big.encode 2 1 ++ encodeUnits .big misread))
          (startReader none (fileOf .big (baitUnits m)))) := by
        rw [← hstart, Nat.add_comm 1]
    _ = readLoop cfg (fuel + 4) (withRest (encodeUnits .big misread)
          (baited m (fileOf .big (baitUnits m)))) := by
        rw [← hbaited]
        exact hhead.trans (readLoop_turn rfl (fuel + 4) hskipped)
    _ = readLoop cfg (fuel + 1) (withRest [] ((baited m (fileOf .big (baitUnits m))).afterAll cfg
          misread)) := by
        rw [List.append_nil, show misread.length + (fuel + 1) = fuel + 4 by
          rw [Nat.add_comm]; rfl] at hmisread
        exact hmisread
    _ = _ := hend

theorem entries_bait {cfg : Config} {m : List UInt8} (hm : m.length < 256)
    (hascii : m.all (· < 128) = true) (hskip : shouldExtract cfg (latin1 m) = false) :
    (entries cfg none (newReader (fileOf .big (baitUnits m)))).1.entries = [] := by
  obtain ⟨fuel, hfuel⟩ : ∃ fuel, ((fileOf .big (baitUnits m)).drop 1).length + 1 = fuel + 6 := by
    refine ⟨((fileOf .big (baitUnits m)).drop 1).length - 5, ?_⟩
    have hlength : ((fileOf .big (baitUnits m)).drop 1) = encodeUnits .big (baitUnits m) := rfl
    have hmisread : (encodeUnits .big misread).length = 15 := rfl
    rw [hlength, encodeUnits_bait, List.length_append, List.length_append, hmisread]
    omega
  rw [(entries_eq ..).1, hfuel, readLoop_bait hm hascii hskip]
  obtain ⟨hyielded, hstate, -⟩ := afterAll_core cfg (baited m (fileOf .big (baitUnits m))) misread
  have htrace : ((baited m (fileOf .big (baitUnits m))).afterAll cfg misread).yielded = [] := by
    rw [hyielded, show (baited m (fileOf .big (baitUnits m))).yielded = [] from rfl]
    simp [misread, Machine.trace, decoder, ThreadState.yields, ThreadState.final, wanted, baited,
      ThreadState.core]
  have hfinal : ∀ tid, (((baited m (fileOf .big (baitUnits m))).afterAll cfg misread).state tid).final
      none = [] := fun tid => by
    have hcore := congrArg (ThreadState.final none) (congrFun hstate tid)
    rw [Machine.feed_apply] at hcore
    refine Eq.trans hcore ?_
    by_cases h0 : (0 : UInt8) = tid
    · subst h0
      rfl
    · by_cases h97 : (97 : UInt8) = tid
      · subst h97
        rfl
      · simp [misread, proj, h0, h97, baited, ThreadState.core, ThreadState.final, wanted,
          Function.update_of_ne (Ne.symm h0)]
  have hfilter : ((baited m (fileOf .big (baitUnits m))).afterAll cfg misread).filter = none := rfl
  simp only [htrace, hfilter, hfinal]
  simp

/-! ### What a caller that ignores files sees -/

/-- The events of an entry other than its files. -/
def Entry.others (e : Entry) : List Event := e.events.filter (·.kind ≠ cbaFile)

/-- The modules and the events of the entries that have an event other than a file. -/
def nonFile (entries : List (UInt8 × Entry)) : List (List Char × List Event) :=
  entries.filterMap fun e => if e.2.others = [] then none else some (e.2.module, e.2.others)

/-- The configuration under which every file is extracted. -/
def Config.extractAll (cfg : Config) : Config :=
  { cfg with extractFor := [['*']], opens := fun _ => true }

theorem takesNames_extractAll (cfg : Config) (units : List (UInt8 × Atom)) (tid : UInt8) :
    TakesNames cfg.extractAll [] (proj tid units) := by
  have hall : ∀ (as : List Atom) (module : List Char), TakesNames cfg.extractAll module as := by
    intro as
    induction as with
    | nil => exact fun _ => trivial
    | cons a as ih =>
      intro module
      rcases a with ⟨code, _ | _ | name | _ | _ | _ | _⟩ | bytes
      case packet.file => exact ⟨Or.inr rfl, ih module⟩
      all_goals exact ih _
  exact hall _ []

/-- A name that a `CBA_HEAD` packet can hold and the reader can decode. -/
structure ModuleName where
  bytes : List UInt8
  fits : bytes.length < 256
  ascii : bytes.all (· < 128) = true

def ModuleName.text (m : ModuleName) : List Char := latin1 m.bytes

theorem nonFile_bait (cfg : Config) (m : ModuleName) :
    nonFile (entries cfg.extractAll none (newReader (fileOf .big (baitUnits m.bytes)))).1.entries =
      [(m.text, [⟨cbaBit, 0, .true⟩, ⟨cbaBit, 0, .true⟩, ⟨cbaBit, 0, .true⟩, ⟨cbaBit, 0, .true⟩])] := by
  have hascii : ∀ u ∈ baitUnits m.bytes, u.2.Ascii := by
    intro u hu
    simp only [baitUnits, List.mem_cons, List.not_mem_nil, or_false] at hu
    rcases hu with rfl | rfl | rfl | rfl | rfl | rfl | rfl | rfl
    · exact m.ascii
    all_goals decide
  rw [entries_ascii none .big (baitUnits_wellFormed m.fits) hascii (takesNames_extractAll cfg _)]
  -- they are all of one thread, whose states need no table
  have halone : baitUnits m.bytes = ((baitUnits m.bytes).map Prod.snd).map (Prod.mk 0) := rfl
  rw [halone, decode_alone]
  rfl

/-- The entries of a file do not depend on what is extracted, on overwriting and on the outcomes of
`open`, for all files with `CBA_FILE` packets in the modules `ms` only, just when all of these modules
are selected. -/
theorem skipping_iff (cfg : Config) (ms : ModuleName → Prop) :
    (∀ m, ms m → shouldExtract cfg m.text = true) ↔
      ∀ overwrite opens filter order units, WellFormed units →
        (∀ tid, FilesIn (fun module => ∃ m, ms m ∧ m.text = module) [] (proj tid units)) →
        nonFile (entries { cfg with overwrite := overwrite, opens := opens } filter
            (newReader (fileOf order units))).1.entries =
          nonFile (entries cfg.extractAll filter (newReader (fileOf order units))).1.entries := by
  constructor
  · intro hselected overwrite opens filter order units hwf hfiles
    refine congrArg (fun pass : Pass => nonFile pass.entries) ?_
    refine entries_congr hwf (fun tid => (hfiles tid).mono ?_) (takesNames_extractAll cfg units) filter
      order
    rintro module ⟨m, hm, rfl⟩
    exact hselected m hm
  · intro hsame m hm
    cases hskip : shouldExtract cfg m.text with
    | true => rfl
    | false =>
      have hbait := hsame cfg.overwrite cfg.opens none .big (baitUnits m.bytes)
        (baitUnits_wellFormed m.fits) fun tid => ?_
      · rw [entries_bait m.fits m.ascii hskip, nonFile_bait] at hbait
        cases hbait
      · by_cases h : (0 : UInt8) = tid
        · subst h
          exact ⟨Or.inr ⟨m, hm, rfl⟩, trivial⟩
        · simp [baitUnits, proj, h, FilesIn]

/-- Thread 1 saves a file in module `x11`, and then an integer. -/
def screenUnits : List (UInt8 × Atom) :=
  [(1, .packet none (.head [120, 49, 49])), (1, .packet none (.file [97, 46, 112, 110, 103])),
    (1, .chunk [137, 80]), (1, .chunk []), (1, .packet (some 4) (.int32 5))]

/-- With the default `extract_for` the integer is lost. -/
theorem skipping_loses_event :
    let cfg : Config := ⟨['c', 'b', 'a'], [], false, fun _ => true⟩
    WellFormed screenUnits ∧
      nonFile (entries cfg none (newReader (fileOf .little screenUnits))).1.entries ≠
        nonFile (entries cfg.extractAll none (newReader (fileOf .little screenUnits))).1.entries := by
  refine ⟨fun tid => ?_, by decide +kernel⟩
  by_cases h : (1 : UInt8) = tid
  · subst h
    simp [screenUnits, proj, Follows, Atom.Allowed, Atom.leavesOpen, Packet.Fits, Packet.opensStream]
  · simp [screenUnits, proj, h, Follows]

end Cscan.Cba
