import Cscan.Cba.Emit
import Cscan.Cba.Deinterleave

/-! Decoding undoes encoding: one thread's calls, section by section, and the entries and files that
the reader makes of the bytes that they write. -/

namespace Cscan.Cba

open Cscan.Lib

/-! ### Sections of calls and the entries that they stand for -/

/-- A call that logs an event, with a `cba_code` in front of it or without. -/
structure Labelled where
  code : Option Int32
  event : Logged

/-- A `cba_head`, at most one `cba_defer_str` with its code, and then events. -/
structure Section where
  name : List UInt8
  deferred : Option (Option Int32 × List UInt8)
  events : List Labelled

def codeCalls (code : Option Int32) : List Call := (code.map Call.code).toList

def Labelled.calls (l : Labelled) : List Call := codeCalls l.code ++ [.log l.event]

def Section.calls (s : Section) : List Call :=
  .head s.name :: (match s.deferred with
    | some (code, text) => codeCalls code ++ [.deferStr text]
    | none => []) ++ s.events.flatMap Labelled.calls

/-- The code as the unsigned word that a packet holds. -/
def codeNumber (c : Int32) : Nat := (c.toInt % 2 ^ 32).toNat

/-- What `read` returned for a file up to its end. -/
def content (reads : List Writer.ReadResult) : List UInt8 :=
  ((reads.map Subtype.val).takeWhile (· ≠ [])).flatten

/-- The event that the reader reports for a call. -/
def Labelled.logged (l : Labelled) : Event :=
  let code := (l.code.map codeNumber).getD 0
  match l.event with
  | .str text => ⟨cbaStr, code, .text (latin1 text)⟩
  | .data buffer => ⟨cbaData, code, .bytes buffer⟩
  | .file name _ => ⟨cbaFile, code, .text (latin1 name)⟩
  | .int32 num => ⟨cbaInt32, code, .int num.toInt⟩
  | .int64 num => ⟨cbaInt64, code, .int num.toInt⟩
  | .bit c => ⟨cbaBit, codeNumber c, .true⟩

/-- An entry with these events, where `dict` maps each code to its last value. -/
def Entry.ofEvents (module : List Char) (events : List Event) : Entry :=
  ⟨module, events.foldl (fun d e => dictSet d e.code e.val) [], events⟩

def Section.deferredEvents (s : Section) : List Event :=
  match s.deferred with
  | some (code, text) => [⟨cbaStr, (code.map codeNumber).getD 0, .text (latin1 text)⟩]
  | none => []

/-- The entry of a section, if an event follows its head. -/
def Section.entry (s : Section) : Option Entry :=
  if s.events = [] then none
  else some (.ofEvents (latin1 s.name) (s.deferredEvents ++ s.events.map Labelled.logged))

/-- The file that an event saves. -/
def Labelled.saved (cfg : Config) (l : Labelled) : List Saved :=
  match l.event with
  | .file name reads => [⟨osPathJoin cfg.extractDir (latin1 name), cfg.overwrite, content reads⟩]
  | _ => []

/-! ### The calls that the round trip is about -/

/-- A name that the reader extracts as it is. -/
structure PlainName (name : List UInt8) : Prop where
  ne_nil : name ≠ []
  short : name.length < 65536
  ascii : name.all (· < 128) = true
  noDots : ¬ ['.', '.'] <:+: latin1 name
  relative : (latin1 name).head? ≠ some '/'

def Labelled.Plain (l : Labelled) : Prop :=
  match l.event with
  | .str text => 0 ∉ text ∧ text.length < cbaMaxBuff
  | .file name _ => PlainName name
  | _ => True

structure Section.Plain (s : Section) : Prop where
  short : s.name.length < 256
  ascii : s.name.all (· < 128) = true
  events : ∀ l ∈ s.events, l.Plain
  /-- The deferred text is not empty, and is shorter than what `write_str_buff` cuts off. -/
  deferred : ∀ code text, s.deferred = some (code, text) → text ≠ [] ∧ 0 ∉ text ∧
    3 + s.name.length + hdrLength (code.getD 0) + text.length + 6 < cbaDeferBuff

/-- On a machine of this byte order the reader gets the data that the call writes. -/
def Labelled.Sent (order : ByteOrder) (l : Labelled) : Prop :=
  match l.event with
  | .data buffer => order = .little ∨ buffer = []
  | _ => True

/-- The reader extracts the files of the section. -/
def Section.Extracted (cfg : Config) (s : Section) : Prop :=
  ∀ l ∈ s.events, ∀ name reads, l.event = .file name reads → shouldExtract cfg (latin1 s.name) = true

/-! ### What the calls append -/

/-- The packets that a section defers. -/
def Section.deferredAtoms (s : Section) : List Atom :=
  .packet none (.head s.name) :: match s.deferred with
    | some (code, text) => [.packet (codeField (code.getD 0)) (.str text)]
    | none => []

def Section.eventAtoms (s : Section) : List Atom :=
  s.events.flatMap fun l => Pending.event (l.code.getD 0) l.event

/-- The atoms of a section: none, if no event flushes its head. -/
def Section.atoms (s : Section) : List Atom :=
  if s.events = [] then [] else s.deferredAtoms ++ s.eventAtoms

section Emitted

variable {order : ByteOrder} {tid : UInt8}

/-- From `p` the calls are in order, emit `as` and leave `p'` pending. -/
structure Runs (order : ByteOrder) (tid : UInt8) (p : Pending) (cs : List Call) (as : List Atom)
    (p' : Pending) : Prop where
  ok : PendingsOk order tid p cs
  outs : (emitter order tid).outs p cs = as
  run : (emitter order tid).run p cs = p'

theorem Runs.append {p p' p'' : Pending} {cs ds : List Call} {as bs : List Atom}
    (h : Runs order tid p cs as p') (h' : Runs order tid p' ds bs p'') :
    Runs order tid p (cs ++ ds) (as ++ bs) p'' where
  ok := h.ok.append (h.run ▸ h'.ok)
  outs := by rw [Machine.outs_append, h.outs, h.run, h'.outs]
  run := by rw [Machine.run_append, h.run, h'.run]

theorem runs_code (code : Option Int32) (as : List Atom) :
    Runs order tid ⟨0, as⟩ (codeCalls code) [] ⟨code.getD 0, as⟩ := by
  cases code with
  | none => exact ⟨trivial, rfl, rfl⟩
  | some c => exact ⟨⟨trivial, trivial⟩, rfl, rfl⟩

theorem runs_labelled {l : Labelled} (hsent : l.Sent order) (as : List Atom) :
    Runs order tid ⟨0, as⟩ l.calls (as ++ Pending.event (l.code.getD 0) l.event) ⟨0, []⟩ := by
  apply (runs_code l.code as).append
  refine ⟨⟨?_, trivial⟩, List.append_nil _, rfl⟩
  unfold Labelled.Sent at hsent
  cases hevent : l.event with
  | data buffer =>
    rw [hevent] at hsent
    exact hsent
  | _ => trivial

theorem runs_events {events : List Labelled} (hsent : ∀ l ∈ events, l.Sent order) (as : List Atom)
    (hne : events ≠ []) :
    Runs order tid ⟨0, as⟩ (events.flatMap Labelled.calls)
      (as ++ events.flatMap fun l => Pending.event (l.code.getD 0) l.event) ⟨0, []⟩ := by
  induction events generalizing as with
  | nil => exact absurd rfl hne
  | cons l events ih =>
    rw [List.flatMap_cons, List.flatMap_cons, ← List.append_assoc]
    apply (runs_labelled (hsent l List.mem_cons_self) as).append
    cases events with
    | nil => exact ⟨trivial, rfl, rfl⟩
    | cons l' events => exact ih (fun l hl => hsent l (List.mem_cons_of_mem _ hl)) [] (by simp)

theorem formatted_plain {text : List UInt8} (hnul : 0 ∉ text) (hlen : text.length < cbaMaxBuff) :
    Writer.formatted text = text := by
  have htake : text.take (cbaMaxBuff - 1) = text := List.take_of_length_le (by omega)
  rw [Writer.formatted, htake, List.takeWhile_eq_self_iff]
  intro b hb
  have hne : b ≠ 0 := fun h => hnul (h ▸ hb)
  simpa using hne

theorem runs_head {s : Section} (h : s.Plain) (as : List Atom) :
    Runs order tid ⟨0, as⟩ (.head s.name :: match s.deferred with
      | some (code, text) => codeCalls code ++ [.deferStr text]
      | none => []) [] ⟨0, s.deferredAtoms⟩ := by
  have hname : s.name.take (s.name.length % 256) = s.name := by
    rw [Nat.mod_eq_of_lt h.short, List.take_length]
  have hhead : Runs order tid ⟨0, as⟩ [.head s.name] [] ⟨0, [.packet none (.head s.name)]⟩ := by
    refine ⟨⟨trivial, trivial⟩, rfl, ?_⟩
    show (⟨0, [.packet (codeField 0) (.head (s.name.take (s.name.length % 256)))]⟩ : Pending) = _
    rw [hname]
    rfl
  unfold Section.deferredAtoms
  cases hdeferred : s.deferred with
  | none => exact hhead
  | some d =>
    obtain ⟨code, text⟩ := d
    obtain ⟨hne, hnul, hfits⟩ := h.deferred code text hdeferred
    apply hhead.append
    apply (runs_code code _).append
    have hlength : (encodeAtoms order tid [.packet none (.head s.name)]).length = 3 + s.name.length := by
      simp [encodeAtoms, Atom.bytes, Packet.payload]
      omega
    have hlen : text.length < cbaMaxBuff := by
      unfold cbaDeferBuff at hfits
      unfold cbaMaxBuff
      omega
    have hformatted := formatted_plain hnul hlen
    have hroom : 3 + s.name.length + hdrLength (code.getD 0) + 8 ≤ cbaDeferBuff := by
      have hpos := List.length_pos_iff.mpr hne
      omega
    have htext : Pending.deferredText order tid ⟨code.getD 0, [.packet none (.head s.name)]⟩ text =
        text := by
      have hcut : text.length ≤
          cbaDeferBuff - (3 + s.name.length) - hdrLength (code.getD 0) - 7 := by omega
      rw [Pending.deferredText, hformatted, hlength]
      exact List.take_of_length_le hcut
    have hok : DeferOk order (3 + s.name.length) (code.getD 0) text :=
      ⟨by omega, Or.inl ⟨by rwa [hformatted], by omega⟩⟩
    refine ⟨⟨Or.inr (by rw [hlength]; exact hok), trivial⟩, rfl, ?_⟩
    show (⟨0, [.packet none (.head s.name)] ++ [.packet (codeField (code.getD 0))
      (.str (Pending.deferredText order tid ⟨code.getD 0, [.packet none (.head s.name)]⟩ text))]⟩ :
        Pending) = _
    rw [htext]
    rfl

theorem runs_section {s : Section} (h : s.Plain) (hsent : ∀ l ∈ s.events, l.Sent order) (as : List Atom) :
    ∃ as', Runs order tid ⟨0, as⟩ s.calls s.atoms ⟨0, as'⟩ := by
  by_cases hnil : s.events = []
  · refine ⟨s.deferredAtoms, ?_⟩
    have hhead := @runs_head order tid s h as
    simpa [Section.calls, Section.atoms, hnil] using hhead
  · have hrun := (runs_head h as).append (@runs_events order tid s.events hsent s.deferredAtoms hnil)
    refine ⟨[], ?_⟩
    simpa [Section.calls, Section.atoms, Section.eventAtoms, hnil] using hrun

theorem runs_sections {sections : List Section} (h : ∀ s ∈ sections, s.Plain)
    (hsent : ∀ s ∈ sections, ∀ l ∈ s.events, l.Sent order) (as : List Atom) :
    ∃ as', Runs order tid ⟨0, as⟩ (sections.flatMap Section.calls) (sections.flatMap Section.atoms)
      ⟨0, as'⟩ := by
  induction sections generalizing as with
  | nil => exact ⟨as, trivial, rfl, rfl⟩
  | cons s sections ih =>
    obtain ⟨mid, hs⟩ := @runs_section order tid s (h s List.mem_cons_self) (hsent s List.mem_cons_self) as
    obtain ⟨as', hrest⟩ := ih (fun s hs => h s (List.mem_cons_of_mem _ hs))
      (fun s hs => hsent s (List.mem_cons_of_mem _ hs)) mid
    exact ⟨as', hs.append hrest⟩

end Emitted

/-! ### What the reader makes of it -/

theorem codeOf_codeField (c : Int32) : codeOf (codeField c) = codeNumber c := by
  have hnumber : codeNumber c = c.toUInt32.toNat := by
    have h := congrArg BitVec.toNat (BitVec.ofInt_toInt (x := c.toBitVec))
    rw [BitVec.toNat_ofInt] at h
    exact h
  rw [hnumber]
  unfold codeOf codeField
  split_ifs with h
  · rw [h]
    rfl
  · rfl

theorem replaceDots_eq {name : List Char} (h : ¬ ['.', '.'] <:+: name) : replaceDots name = name := by
  fun_induction replaceDots name with
  | case1 cs ih => exact absurd ⟨[], cs, rfl⟩ h
  | case2 c cs hne ih =>
    rw [ih]
    rintro ⟨pre, post, rfl⟩
    exact h ⟨c :: pre, post, rfl⟩
  | case3 => rfl

theorem PlainName.outputName {cfg : Config} {module : List Char} {name : List UInt8} (h : PlainName name)
    (hextract : shouldExtract cfg module = true) : outputName cfg module name = latin1 name := by
  have hlen : name.length ≠ 0 := fun h0 => h.ne_nil (List.eq_nil_of_length_eq_zero h0)
  rw [Cba.outputName, if_pos ⟨hextract, hlen⟩, safeName, replaceDots_eq h.noDots]
  split
  · rename_i cs heq
    exact absurd (by rw [heq]; rfl) h.relative
  · rfl

section Decoded

variable {cfg : Config} {ts : ThreadState}

/-- The chunks of a stream add up. -/
theorem foldl_chunks (cfg : Config) (ok : Bool) (ts : ThreadState) {pieces : List (List UInt8)}
    (h : ∀ b ∈ pieces, b ≠ []) :
    (pieces.map Atom.chunk).foldl (ThreadState.next cfg ok) ts =
      { ts with curStream := ts.curStream.write pieces.flatten } := by
  induction pieces generalizing ts with
  | nil => simp
  | cons b pieces ih =>
    have hb : b ≠ [] := h b List.mem_cons_self
    rw [List.map_cons, List.foldl_cons, ih _ fun b hb => h b (List.mem_cons_of_mem _ hb)]
    simp [ThreadState.next, hb, Stream.write_write]

/-- The state of a thread after an event. -/
structure Logs (ts : ThreadState) (e : Event) (ts' : ThreadState) : Prop where
  module : ts'.module = ts.module
  events : ts'.events = ts.events ++ [e]
  dict : ts'.dict = dictSet ts.dict e.code e.val
  closed : ts'.curStream = .none

theorem foldl_event (cfg : Config) (ok : Bool) (hclosed : ts.curStream = .none) {l : Labelled} (hplain : l.Plain)
    (hextract : ∀ name reads, l.event = .file name reads → shouldExtract cfg ts.module = true) :
    Logs ts l.logged ((Pending.event (l.code.getD 0) l.event).foldl (ThreadState.next cfg ok) ts) := by
  have hcode : (l.code.map codeNumber).getD 0 = codeNumber (l.code.getD 0) := by
    cases l.code <;> rfl
  obtain ⟨code, event⟩ := l
  unfold Labelled.logged
  cases event with
  | str text =>
    have htext : Writer.formatted text = text := formatted_plain hplain.1 hplain.2
    constructor <;> simp [Pending.event, ThreadState.next, ThreadState.receive, ThreadState.addEvent,
      codeOf_codeField, hcode, htext, hclosed]
  | data buffer =>
    have hbuffer := flatten_dataPieces (Nat.lt_succ_self buffer.length)
    have hpieces : ∀ b ∈ dataPieces (buffer.length + 1) buffer, b ≠ [] := fun b hb =>
      (dataPieces_bound _ _ b hb).1
    simp only [Pending.event, List.foldl_cons, List.foldl_append, List.foldl_nil, foldl_chunks _ _ _ hpieces,
      hbuffer]
    constructor <;> simp [ThreadState.next, ThreadState.receive, ThreadState.close, ThreadState.addEvent,
      Stream.write, codeOf_codeField, hcode, Packet.kind]
  | file name reads =>
    have hname : (name.take (name.length % 65536)) = name := by
      rw [Nat.mod_eq_of_lt hplain.short, List.take_length]
    have houtput := PlainName.outputName hplain (hextract name reads rfl)
    have hnil : latin1 name ≠ [] := by simpa [latin1] using hplain.ne_nil
    have hpieces : ∀ b ∈ (reads.map Subtype.val).takeWhile (· ≠ []), b ≠ [] := fun b hb => by
      simpa using List.mem_takeWhile_imp hb
    simp only [Pending.event, List.foldl_cons, List.foldl_append, List.foldl_nil, foldl_chunks _ _ _ hpieces,
      hname]
    cases ok <;> constructor <;> simp [ThreadState.next, ThreadState.receive, ThreadState.close,
      ThreadState.addEvent, ThreadState.openOutput, Stream.write, codeOf_codeField, hcode, houtput, hnil]
  | int32 num =>
    constructor <;> simp [Pending.event, ThreadState.next, ThreadState.receive, ThreadState.addEvent,
      codeOf_codeField, hcode, hclosed]
  | int64 num =>
    constructor <;> simp [Pending.event, ThreadState.next, ThreadState.receive, ThreadState.addEvent,
      codeOf_codeField, hcode, hclosed]
  | bit c =>
    constructor <;> simp [Pending.event, ThreadState.next, ThreadState.receive, ThreadState.addEvent,
      codeOf_codeField, hclosed]

theorem foldl_events (cfg : Config) (ok : Bool) (hclosed : ts.curStream = .none) {events : List Labelled}
    (hplain : ∀ l ∈ events, l.Plain) (hextract : ∀ l ∈ events, ∀ name reads,
      l.event = .file name reads → shouldExtract cfg ts.module = true) :
    let ts' := (events.flatMap fun l => Pending.event (l.code.getD 0) l.event).foldl
      (ThreadState.next cfg ok) ts
    ts'.module = ts.module ∧ ts'.events = ts.events ++ events.map Labelled.logged ∧
      ts'.dict = (events.map Labelled.logged).foldl (fun d e => dictSet d e.code e.val) ts.dict ∧
      ts'.curStream = .none := by
  induction events generalizing ts with
  | nil => exact ⟨rfl, (List.append_nil _).symm, rfl, hclosed⟩
  | cons l events ih =>
    have hlogs : Logs ts l.logged _ := foldl_event cfg ok hclosed (hplain l List.mem_cons_self)
      (hextract l List.mem_cons_self)
    obtain ⟨hmodule, hevents, hdict, hclosed'⟩ := ih hlogs.closed
      (fun l hl => hplain l (List.mem_cons_of_mem _ hl)) fun l hl name reads h => by
        rw [hlogs.module]
        exact hextract l (List.mem_cons_of_mem _ hl) name reads h
    rw [List.flatMap_cons, List.foldl_append]
    refine ⟨hmodule.trans hlogs.module, ?_, ?_, hclosed'⟩
    · rw [hevents, hlogs.events]
      simp
    · rw [hdict, hlogs.dict]
      rfl

/-- The state at the end of a section: its entry, and no open stream. -/
theorem foldl_section (cfg : Config) (ok : Bool) {s : Section} (hplain : s.Plain) (hextract : s.Extracted cfg)
    (hne : s.events ≠ []) (ts : ThreadState) :
    let ts' := s.atoms.foldl (ThreadState.next cfg ok) ts
    ts'.entry = .ofEvents (latin1 s.name) (s.deferredEvents ++ s.events.map Labelled.logged) ∧
      ts'.events ≠ [] ∧ ts'.curStream = .none := by
  obtain ⟨start, hstart, hmodule, hevents, hdict, hclosed⟩ : ∃ start : ThreadState,
      s.deferredAtoms.foldl (ThreadState.next cfg ok) ts = start ∧ start.module = latin1 s.name ∧
      start.events = s.deferredEvents ∧
      start.dict = s.deferredEvents.foldl (fun d e => dictSet d e.code e.val) [] ∧
      start.curStream = .none := by
    refine ⟨_, rfl, ?_⟩
    unfold Section.deferredAtoms Section.deferredEvents
    cases s.deferred with
    | none => exact ⟨rfl, rfl, rfl, rfl⟩
    | some d =>
      obtain ⟨code, text⟩ := d
      have hcode : (code.map codeNumber).getD 0 = codeNumber (code.getD 0) := by
        cases code <;> rfl
      refine ⟨rfl, ?_, ?_, rfl⟩ <;>
        simp [ThreadState.next, ThreadState.receive, ThreadState.addEvent, codeOf_codeField, hcode]
  obtain ⟨hmodule', hevents', hdict', hclosed'⟩ := foldl_events cfg ok hclosed hplain.events
    fun l hl name reads h => by rw [hmodule]; exact hextract l hl name reads h
  rw [Section.atoms, if_neg hne, Section.eventAtoms, List.foldl_append, hstart]
  refine ⟨?_, ?_, hclosed'⟩
  · rw [ThreadState.entry, hmodule', hevents', hdict', hmodule, hevents, hdict, Entry.ofEvents,
      List.foldl_append]
  · rw [hevents', hevents]
    simp [hne]

/-- Only a head completes an entry. -/
theorem outs_of_noHead (filter : Option (List Char)) {as : List Atom}
    (h : ∀ code module, Atom.packet code (.head module) ∉ as) (ts : ThreadState) :
    (decoder cfg filter).outs ts as = [] := by
  induction as generalizing ts with
  | nil => rfl
  | cons a as ih =>
    rw [Machine.outs_cons, ih fun code module hmem => h code module (List.mem_cons_of_mem _ hmem)]
    rcases a with ⟨code, module | _ | _ | _ | _ | _ | _⟩ | bytes
    case packet.head => exact absurd List.mem_cons_self (h code module)
    all_goals rfl

theorem event_noHead (c : Int32) (event : Logged) (code : Option UInt32) (module : List UInt8) :
    Atom.packet code (.head module) ∉ Pending.event c event := by
  cases event <;> simp [Pending.event]

theorem outs_section (filter : Option (List Char)) {s : Section} (hne : s.events ≠ [])
    (ts : ThreadState) : (decoder cfg filter).outs ts s.atoms = ts.final filter := by
  rw [Section.atoms, if_neg hne, Section.deferredAtoms, List.cons_append, Machine.outs_cons,
    outs_of_noHead, List.append_nil]
  · rfl
  · intro code module hmem
    rcases List.mem_append.mp hmem with hmem | hmem
    · cases hdeferred : s.deferred with
      | none => simp [hdeferred] at hmem
      | some d => simp [hdeferred] at hmem
    · obtain ⟨l, -, hl⟩ := List.mem_flatMap.mp hmem
      exact event_noHead _ _ _ _ hl

theorem decode_sections {sections : List Section} (hplain : ∀ s ∈ sections, s.Plain)
    (hextract : ∀ s ∈ sections, s.Extracted cfg) (ts : ThreadState) :
    (decoder cfg none).outs ts (sections.flatMap Section.atoms) ++
        ((decoder cfg none).run ts (sections.flatMap Section.atoms)).final none =
      ts.final none ++ sections.filterMap Section.entry := by
  induction sections generalizing ts with
  | nil => simp
  | cons s sections ih =>
    have ih' := ih (fun s hs => hplain s (List.mem_cons_of_mem _ hs))
      fun s hs => hextract s (List.mem_cons_of_mem _ hs)
    by_cases hnil : s.events = []
    · simpa [Section.atoms, Section.entry, hnil] using ih' ts
    · obtain ⟨hentry, hevents, -⟩ := foldl_section cfg false (hplain s List.mem_cons_self)
        (hextract s List.mem_cons_self) hnil ts
      have hfinal : ((decoder cfg none).run ts s.atoms).final none = s.entry.toList := by
        have hrun : ((decoder cfg none).run ts s.atoms).events ≠ [] := hevents
        have hwanted : wanted none ((decoder cfg none).run ts s.atoms) = true := by
          simpa [wanted] using hrun
        rw [ThreadState.final, if_pos hwanted, Section.entry, if_neg hnil]
        exact congrArg (fun e => [e]) hentry
      rw [List.flatMap_cons, Machine.outs_append, Machine.run_append, outs_section none hnil,
        List.append_assoc, ih', hfinal, List.filterMap_cons]
      cases s.entry with
      | none => rfl
      | some e => rfl

/-! ### The extracted files -/

/-- The file that the chunks up to the empty one complete. -/
theorem saver_chunks {pieces : List (List UInt8)} (h : ∀ b ∈ pieces, b ≠ []) (ts : ThreadState) :
    (saver cfg).outs ts (pieces.map .chunk ++ [.chunk []]) =
      match ts.curStream with
      | .file path written => [⟨path, cfg.overwrite, written ++ pieces.flatten⟩]
      | _ => [] := by
  induction pieces generalizing ts with
  | nil => cases hs : ts.curStream <;> simp [saver, ThreadState.saves, hs]
  | cons b pieces ih =>
    have hb : b ≠ [] := h b List.mem_cons_self
    have hout : (saver cfg).out ts (.chunk b) = [] := by
      cases b with
      | nil => exact absurd rfl hb
      | cons x b => rfl
    have hnext : ((saver cfg).next ts (.chunk b)).curStream = ts.curStream.write b := by
      simp [saver, ThreadState.next, hb]
    rw [List.map_cons, List.cons_append, Machine.outs_cons, hout, List.nil_append,
      ih (fun b hb => h b (List.mem_cons_of_mem _ hb)), hnext]
    cases ts.curStream <;> simp [Stream.write]

theorem saver_event {l : Labelled} (hplain : l.Plain) (hextract : ∀ name reads,
    l.event = .file name reads → shouldExtract cfg ts.module = true) :
    (saver cfg).outs ts (Pending.event (l.code.getD 0) l.event) = l.saved cfg := by
  obtain ⟨code, event⟩ := l
  cases event with
  | data buffer =>
    have hpieces : ∀ b ∈ dataPieces (buffer.length + 1) buffer, b ≠ [] := fun b hb =>
      (dataPieces_bound _ _ b hb).1
    rw [Pending.event, Machine.outs_cons, saver_chunks hpieces]
    rfl
  | file name reads =>
    have hname : name.take (name.length % 65536) = name := by
      rw [Nat.mod_eq_of_lt hplain.short, List.take_length]
    have houtput := PlainName.outputName hplain (hextract name reads rfl)
    have hnil : latin1 name ≠ [] := by simpa [latin1] using hplain.ne_nil
    have hpieces : ∀ b ∈ (reads.map Subtype.val).takeWhile (· ≠ []), b ≠ [] := fun b hb => by
      simpa using List.mem_takeWhile_imp hb
    have hstream : ((saver cfg).next ts (.packet (codeField (code.getD 0)) (.file name))).curStream =
        .file (osPathJoin cfg.extractDir (latin1 name)) [] := by
      simp [saver, ThreadState.next, ThreadState.receive, houtput, hnil, ThreadState.openOutput]
    rw [Pending.event, hname, Machine.outs_cons, saver_chunks hpieces, hstream]
    rfl
  | _ => rfl

theorem saver_events (hclosed : ts.curStream = .none) {events : List Labelled}
    (hplain : ∀ l ∈ events, l.Plain) (hextract : ∀ l ∈ events, ∀ name reads,
      l.event = .file name reads → shouldExtract cfg ts.module = true) :
    (saver cfg).outs ts (events.flatMap fun l => Pending.event (l.code.getD 0) l.event) =
      events.flatMap (Labelled.saved cfg) := by
  induction events generalizing ts with
  | nil => rfl
  | cons l events ih =>
    have hl := hextract l List.mem_cons_self
    have hlogs : Logs ts l.logged ((saver cfg).run ts (Pending.event (l.code.getD 0) l.event)) :=
      foldl_event cfg true hclosed (hplain l List.mem_cons_self) hl
    rw [List.flatMap_cons, List.flatMap_cons, Machine.outs_append,
      saver_event (hplain l List.mem_cons_self) hl,
      ih hlogs.closed (fun l hl => hplain l (List.mem_cons_of_mem _ hl))]
    intro l hl name reads h
    rw [hlogs.module]
    exact hextract l (List.mem_cons_of_mem _ hl) name reads h

theorem saver_section {s : Section} (hplain : s.Plain) (hextract : s.Extracted cfg) (ts : ThreadState) :
    (saver cfg).outs ts s.atoms = s.events.flatMap (Labelled.saved cfg) := by
  by_cases hnil : s.events = []
  · simp [Section.atoms, hnil]
  · have hdeferred : (saver cfg).outs ts s.deferredAtoms = [] ∧
        ((saver cfg).run ts s.deferredAtoms).curStream = .none ∧
        ((saver cfg).run ts s.deferredAtoms).module = latin1 s.name := by
      unfold Section.deferredAtoms
      cases s.deferred with
      | none => exact ⟨rfl, rfl, rfl⟩
      | some d => exact ⟨rfl, rfl, rfl⟩
    rw [Section.atoms, if_neg hnil, Machine.outs_append, hdeferred.1, List.nil_append]
    apply saver_events hdeferred.2.1 hplain.events
    intro l hl name reads h
    rw [hdeferred.2.2]
    exact hextract l hl name reads h

theorem saver_sections {sections : List Section} (hplain : ∀ s ∈ sections, s.Plain)
    (hextract : ∀ s ∈ sections, s.Extracted cfg) (ts : ThreadState) :
    (saver cfg).outs ts (sections.flatMap Section.atoms) =
      sections.flatMap fun s => s.events.flatMap (Labelled.saved cfg) := by
  induction sections generalizing ts with
  | nil => rfl
  | cons s sections ih =>
    rw [List.flatMap_cons, List.flatMap_cons, Machine.outs_append,
      saver_section (hplain s List.mem_cons_self) (hextract s List.mem_cons_self),
      ih (fun s hs => hplain s (List.mem_cons_of_mem _ hs))
        fun s hs => hextract s (List.mem_cons_of_mem _ hs)]

/-! ### The names in the packets -/

theorem event_ascii {l : Labelled} (hplain : l.Plain) :
    ∀ a ∈ Pending.event (l.code.getD 0) l.event, a.Ascii := by
  intro a ha
  obtain ⟨code, event⟩ := l
  have hchunks : ∀ {pieces : List (List UInt8)}, a ∈ pieces.map Atom.chunk ++ [.chunk []] → a.Ascii :=
    fun {pieces} hmem => by
      obtain ⟨b, -, rfl⟩ | rfl : (∃ b ∈ pieces, Atom.chunk b = a) ∨ a = .chunk [] := by
        simpa using hmem
      · trivial
      · trivial
  cases event with
  | data buffer =>
    rcases List.mem_cons.mp ha with rfl | ha
    · trivial
    · exact hchunks ha
  | file name reads =>
    rcases List.mem_cons.mp ha with rfl | ha
    · have hname : name.take (name.length % 65536) = name := by
        rw [Nat.mod_eq_of_lt hplain.short, List.take_length]
      rw [hname]
      exact hplain.ascii
    · exact hchunks ha
  | _ =>
    rw [List.mem_singleton.mp ha]
    trivial

theorem sections_ascii {sections : List Section} (hplain : ∀ s ∈ sections, s.Plain) :
    ∀ a ∈ sections.flatMap Section.atoms, a.Ascii := by
  intro a ha
  obtain ⟨s, hs, ha⟩ := List.mem_flatMap.mp ha
  unfold Section.atoms at ha
  split_ifs at ha with hnil
  · simp at ha
  rcases List.mem_append.mp ha with ha | ha
  · rcases List.mem_cons.mp ha with rfl | ha
    · exact (hplain s hs).ascii
    · cases hdeferred : s.deferred with
      | none => simp [hdeferred] at ha
      | some d =>
        obtain rfl : a = _ := by simpa [hdeferred] using ha
        trivial
  · obtain ⟨l, hl, ha⟩ := List.mem_flatMap.mp ha
    exact event_ascii ((hplain s hs).events l hl) a ha

theorem event_filesIn {p : List Char → Prop} {module : List Char} {l : Labelled} {as : List Atom}
    (hfile : ∀ name reads, l.event = .file name reads → p module) (h : FilesIn p module as) :
    FilesIn p module (Pending.event (l.code.getD 0) l.event ++ as) := by
  obtain ⟨code, event⟩ := l
  have hchunks : ∀ pieces : List (List UInt8),
      FilesIn p module (pieces.map .chunk ++ [.chunk []] ++ as) := fun pieces => by
    induction pieces with
    | nil => exact h
    | cons b pieces ih => exact ih
  cases event with
  | data buffer => exact hchunks _
  | file name reads => exact ⟨Or.inr (hfile name reads rfl), hchunks _⟩
  | _ => exact h

theorem sections_takesNames {sections : List Section} (hextract : ∀ s ∈ sections, s.Extracted cfg)
    (module : List Char) : TakesNames cfg module (sections.flatMap Section.atoms) := by
  induction sections generalizing module with
  | nil => trivial
  | cons s sections ih =>
    have ih' := ih (fun s hs => hextract s (List.mem_cons_of_mem _ hs))
    have hevents : ∀ events : List Labelled, (∀ l ∈ events, ∀ name reads, l.event = .file name reads →
        shouldExtract cfg (latin1 s.name) = true) →
        TakesNames cfg (latin1 s.name) ((events.flatMap fun l =>
          Pending.event (l.code.getD 0) l.event) ++ sections.flatMap Section.atoms) := by
      intro events h
      induction events with
      | nil => exact ih' _
      | cons l events ihe =>
        rw [List.flatMap_cons, List.append_assoc]
        exact event_filesIn (h l List.mem_cons_self)
          (ihe fun l hl => h l (List.mem_cons_of_mem _ hl))
    rw [List.flatMap_cons, Section.atoms]
    split_ifs with hnil
    · exact ih' module
    · have hs := hevents s.events (hextract s List.mem_cons_self)
      rw [List.append_assoc, Section.deferredAtoms]
      cases s.deferred with
      | none => exact hs
      | some d => exact hs

end Decoded

/-! ### The round trip -/

/-- What the calls of sections write, read back for the entries of some module or of all. -/
theorem sections_read (cfg : Config) (filter : Option (List Char)) {order : ByteOrder} (tid : UInt8)
    {sections : List Section} (hplain : ∀ s ∈ sections, s.Plain)
    (hsent : ∀ s ∈ sections, ∀ l ∈ s.events, l.Sent order) (hextract : ∀ s ∈ sections, s.Extracted cfg) :
    ∃ actions w, (Writer.init tid).calls order (sections.flatMap Section.calls) = some (actions, w) ∧
      (entries cfg filter (newReader (mark order :: written actions))).1 =
        ⟨decode cfg filter ((sections.flatMap Section.atoms).map (Prod.mk tid)), none⟩ ∧
      ((∀ n, cfg.opens n = true) →
        (entries cfg filter (newReader (mark order :: written actions))).2.saved =
          (sections.flatMap fun s => s.events.flatMap (Labelled.saved cfg)).map (Prod.mk tid)) := by
  obtain ⟨_, hruns⟩ := @runs_sections order tid sections hplain hsent []
  obtain ⟨actions, w, hcalls, hwritten⟩ := (Refines.init order tid).calls hruns.ok
  refine ⟨actions, w, hcalls, ?_⟩
  have houts : (emitter order tid).outs Pending.init (sections.flatMap Section.calls) =
      sections.flatMap Section.atoms := hruns.outs
  have hfile : mark order :: written actions =
      fileOf order ((sections.flatMap Section.atoms).map (Prod.mk tid)) := by
    have hencode : encodeAtoms order tid (sections.flatMap Section.atoms) =
        encodeUnits order ((sections.flatMap Section.atoms).map (Prod.mk tid)) := by
      rw [encodeAtoms, encodeUnits, List.flatMap_map]
    rw [hwritten]
    exact congrArg _ ((congrArg _ houts).trans hencode)
  have hproj : ∀ t, proj t ((sections.flatMap Section.atoms).map (Prod.mk tid)) =
      if tid = t then sections.flatMap Section.atoms else [] := fun t => by
    split_ifs with ht
    · rw [← ht]
      exact proj_tagged_self ..
    · exact proj_tagged_ne ht _
  have hwf : WellFormed ((sections.flatMap Section.atoms).map (Prod.mk tid)) := by
    intro t
    rw [hproj]
    split_ifs
    · rw [← houts]
      have hinit : Follows false Pending.init.deferred := rfl
      exact outs_follows order tid hinit _
    · rfl
  have hascii : ∀ u ∈ (sections.flatMap Section.atoms).map (Prod.mk tid), u.2.Ascii := by
    intro u hu
    obtain ⟨a, ha, rfl⟩ := List.mem_map.mp hu
    exact sections_ascii hplain a ha
  have hnames : ∀ t, TakesNames cfg [] (proj t ((sections.flatMap Section.atoms).map (Prod.mk tid))) := by
    intro t
    rw [hproj]
    split_ifs
    · exact sections_takesNames hextract []
    · trivial
  rw [hfile]
  refine ⟨entries_ascii filter order hwf hascii hnames, fun hopens => ?_⟩
  rw [entries_saved filter order hwf hascii hnames hopens, Machine.trace_tagged,
    saver_sections hplain hextract]

/-- Reading what one thread's calls write into a little-endian file gives the entries and the files
that the calls stand for. -/
theorem decode_undoes_encode (cfg : Config) (tid : UInt8) (sections : List Section)
    (hplain : ∀ s ∈ sections, s.Plain) (hextract : ∀ s ∈ sections, s.Extracted cfg)
    (hopens : ∀ n, cfg.opens n = true) :
    ∃ actions w, (Writer.init tid).calls .little (sections.flatMap Section.calls) = some (actions, w) ∧
      (entries cfg none (newReader (mark .little :: written actions))).1 =
        ⟨(sections.filterMap Section.entry).map (Prod.mk tid), none⟩ ∧
      (entries cfg none (newReader (mark .little :: written actions))).2.saved =
        (sections.flatMap fun s => s.events.flatMap (Labelled.saved cfg)).map (Prod.mk tid) := by
  have hsent : ∀ s ∈ sections, ∀ l ∈ s.events, l.Sent .little := by
    intro s _ l _
    unfold Labelled.Sent
    cases l.event with
    | data buffer => exact Or.inl rfl
    | _ => trivial
  obtain ⟨actions, w, hcalls, hentries, hsaved⟩ := sections_read cfg none tid hplain hsent hextract
  refine ⟨actions, w, hcalls, ?_, hsaved hopens⟩
  rw [hentries, decode_alone, decodeThread, decode_sections hplain hextract]
  rfl

/-- A head with a deferred string and four events, one with no event, and one with an integer. -/
def sampleSections : List Section :=
  [⟨[114, 102, 98], some (some 1, [82, 70, 66]), [⟨some 2, .int32 (-3)⟩, ⟨none, .data [7, 8]⟩,
      ⟨some 4, .file [112] [⟨[1, 2], by decide⟩, ⟨[3], by decide⟩]⟩, ⟨none, .bit 5⟩]⟩,
    ⟨[120], none, []⟩, ⟨[121], none, [⟨none, .int64 9⟩]⟩]

theorem sampleSections_plain : ∀ s ∈ sampleSections, s.Plain := by
  intro s hs
  simp only [sampleSections, List.mem_cons, List.not_mem_nil, or_false] at hs
  rcases hs with rfl | rfl | rfl
  · refine ⟨by decide, rfl, ?_, ?_⟩
    · intro l hl
      simp only [List.mem_cons, List.not_mem_nil, or_false] at hl
      rcases hl with rfl | rfl | rfl | rfl
      · trivial
      · trivial
      · exact ⟨by decide, by decide, by decide, by decide, by decide⟩
      · trivial
    · rintro code text h
      cases h
      exact ⟨by decide, by decide, by decide⟩
  · exact ⟨by decide, rfl, by simp, by simp⟩
  · refine ⟨by decide, rfl, ?_, by simp⟩
    intro l hl
    rw [List.mem_singleton.mp hl]
    trivial

theorem decode_undoes_encode_sample :
    let cfg : Config := ⟨['o'], [['*']], false, fun _ => true⟩
    ∃ actions w, (Writer.init 6).calls .little (sampleSections.flatMap Section.calls) =
        some (actions, w) ∧
      (entries cfg none (newReader (mark .little :: written actions))).1 =
        ⟨[(6, ⟨['r', 'f', 'b'],
            [(1, .text ['R', 'F', 'B']), (2, .int (-3)), (0, .bytes [7, 8]), (4, .text ['p']), (5, .true)],
            [⟨1, 1, .text ['R', 'F', 'B']⟩, ⟨4, 2, .int (-3)⟩, ⟨3, 0, .bytes [7, 8]⟩,
              ⟨2, 4, .text ['p']⟩, ⟨6, 5, .true⟩]⟩),
          (6, ⟨['y'], [(0, .int 9)], [⟨5, 0, .int 9⟩]⟩)], none⟩ ∧
      (entries cfg none (newReader (mark .little :: written actions))).2.saved =
        [(6, ⟨['o', '/', 'p'], false, [1, 2, 3]⟩)] := by
  intro cfg
  have hextract : ∀ s ∈ sampleSections, s.Extracted cfg := fun _ _ _ _ _ _ _ => rfl
  obtain ⟨actions, w, hcalls, hentries, hsaved⟩ := decode_undoes_encode cfg 6 sampleSections
    sampleSections_plain hextract fun _ => rfl
  refine ⟨actions, w, hcalls, hentries.trans ?_, hsaved.trans ?_⟩
  · decide +kernel
  · decide +kernel

end Cscan.Cba
