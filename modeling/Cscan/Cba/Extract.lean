import Cscan.Cba.Entries
import Cscan.Lib.Paths
import Cscan.Lib.Runs
import Cscan.Lib.Triple

/-! The paths that the reader opens for the files in a CBA file. The name is made safe by deleting `..` and
one slash in front, so it stays in the directory unless a second slash is left. -/

namespace Cscan.Cba

open Cscan.Lib Paths

/-! ### The safe name -/

/-- Pairs of dots, all of which are deleted. -/
def dots (n : Nat) : List Char := List.replicate (2 * n) '.'

/-- A slash, and a second one behind it when the pairs of dots in front of both are deleted. -/
def SlashSlash (name : List Char) : Prop :=
  ∃ j k rest, name = dots j ++ '/' :: (dots k ++ '/' :: rest)

theorem dots_succ (n : Nat) : dots (n + 1) = '.' :: '.' :: dots n := by
  rw [dots, Nat.mul_succ]
  rfl

theorem replaceDots_dots (n : Nat) (cs : List Char) : replaceDots (dots n ++ cs) = replaceDots cs := by
  induction n with
  | zero => rfl
  | succ n ih =>
    rw [dots_succ]
    exact ih

/-- Where a slash comes first, only pairs of dots stood in front of it. -/
theorem replaceDots_eq_slash {name out : List Char} (h : replaceDots name = '/' :: out) :
    ∃ n rest, name = dots n ++ '/' :: rest ∧ replaceDots rest = out := by
  induction name using replaceDots.induct with
  | case1 cs ih =>
    obtain ⟨n, rest, rfl, hrest⟩ := ih h
    exact ⟨n + 1, rest, by rw [dots_succ]; rfl, hrest⟩
  | case2 c cs hdots ih =>
    rw [replaceDots] at h
    · obtain ⟨rfl, hrest⟩ := List.cons.inj h
      exact ⟨0, cs, rfl, hrest⟩
    · exact hdots
  | case3 => cases h

/-- A dot that is not deleted stands in front of something else. -/
theorem replaceDots_noDots (name : List Char) : ¬ dotDot <:+: replaceDots name := by
  induction name using replaceDots.induct with
  | case1 cs ih => exact ih
  | case2 c cs hdots ih =>
    rw [replaceDots]
    · rw [List.infix_cons_iff]
      rintro (hstart | hinfix)
      · obtain ⟨rest, hrest⟩ := hstart
        obtain ⟨hc, htail⟩ := List.cons.inj hrest
        cases cs with
        | nil => cases htail
        | cons d ds =>
          by_cases hd : d = '.'
          · exact hdots ds hc.symm (by rw [hd])
          · rw [replaceDots] at htail
            · exact hd (List.cons.inj htail).1.symm
            · exact fun _ hdot => absurd hdot hd
      · exact ih hinfix
    · exact hdots
  | case3 => exact fun h => absurd (List.infix_nil.mp h) (by decide)

theorem safeName_noDots (name : List Char) : ¬ dotDot <:+: safeName name := by
  have h := replaceDots_noDots name
  unfold safeName
  split
  · exact fun hinfix => h (by rw [‹replaceDots name = _›]; exact hinfix.trans (List.suffix_cons ..).isInfix)
  · exact h

theorem isAbsolute_safeName (name : List Char) : IsAbsolute (safeName name) ↔ SlashSlash name := by
  constructor
  · intro h
    unfold safeName at h
    split at h
    · rename_i cs hname
      obtain ⟨j, rest, rfl, hrest⟩ := replaceDots_eq_slash hname
      cases cs with
      | nil => cases h
      | cons c cs =>
        obtain rfl : c = '/' := Option.some.inj h
        obtain ⟨k, rest, rfl, -⟩ := replaceDots_eq_slash hrest
        exact ⟨j, k, rest, rfl⟩
    · rename_i hname
      cases hout : replaceDots name with
      | nil =>
        rw [hout] at h
        cases h
      | cons c cs =>
        rw [hout] at h
        obtain rfl : c = '/' := Option.some.inj h
        exact absurd hout (hname cs)
  · rintro ⟨j, k, rest, rfl⟩
    have hsafe : safeName (dots j ++ '/' :: (dots k ++ '/' :: rest)) = '/' :: replaceDots rest := by
      have hreplaced : replaceDots (dots j ++ '/' :: (dots k ++ '/' :: rest)) =
          '/' :: '/' :: replaceDots rest := by
        have hslash : ∀ cs, replaceDots ('/' :: cs) = '/' :: replaceDots cs := fun cs => by
          rw [replaceDots]
          exact fun _ hdot => absurd hdot (by decide)
        rw [replaceDots_dots, hslash, replaceDots_dots, hslash]
      rw [safeName, hreplaced]
      rfl
    rw [hsafe]
    rfl

theorem osPathJoin_eq (dir : List Char) {rel : List Char} (h : ¬ IsAbsolute rel) :
    osPathJoin dir rel = inDir dir rel := if_neg h

theorem osPathJoin_absolute (dir : List Char) {path : List Char} (h : IsAbsolute path) :
    osPathJoin dir path = path := if_pos h

/-- The path of a file stays in the directory, whatever this is, exactly if one slash at most stands in
front of the name. -/
theorem safeName_staysIn_iff (name : List Char) :
    (∀ dir, StaysIn dir (osPathJoin dir (safeName name))) ↔ ¬ SlashSlash name := by
  rw [← isAbsolute_safeName]
  constructor
  · intro h habsolute
    have hnil := h []
    rw [osPathJoin_absolute [] habsolute] at hnil
    exact not_staysIn_nil habsolute hnil
  · intro h dir
    rw [osPathJoin_eq dir h]
    exact staysIn_inDir h (safeName_noDots name) dir

/-! ### The names in a file -/

/-- The path under which the reader extracts a file with this name. -/
def outputPath (cfg : Config) (name : List UInt8) : List Char :=
  osPathJoin cfg.extractDir (safeName (latin1 name))

/-- The path is that of an ASCII name which stands in the file. -/
def Named (cfg : Config) (data : List UInt8) (path : List Char) : Prop :=
  ∃ name, name.all (· < 128) = true ∧ name <:+: data ∧ path = outputPath cfg name

/-- The object has opened an output file with this path. -/
def Reader.Opened (s : Reader) (path : List Char) : Prop :=
  (∃ q ∈ s.saved, q.2.path = path) ∨ ∃ tid written, (s.state tid).curStream = .file path written

/-- What the caller of a `CBA` object can do: begin to iterate, ask for more, which reads a packet, and come
to the end. -/
inductive Use
  | start (module : Option (List Char))
  | next
  | finish
deriving DecidableEq, Repr

def after {α : Type} : EStateM.Result Err Reader α → Reader
  | .ok _ s => s
  | .error _ s => s

/-- The object after one of them, also where it ends with an exception. -/
def use (cfg : Config) (s : Reader) : Use → Option Reader
  | .start module =>
    let s := { s with filter := module, yielded := [] }
    some (if s.eof then reset s else s)
  | .next => if s.eof then none else some (after (readPacket cfg s))
  | .finish => some (after (readFinal s))

/-- The objects that a caller can come to from a file. -/
def Used (cfg : Config) (data : List UInt8) : Reader → Prop :=
  Reaches (use cfg) (fun _ _ => True) (newReader data)

section Keeps

variable (cfg : Config) (data : List UInt8)

def FromFile (ts : ThreadState) : Prop :=
  ∀ path written, ts.curStream = .file path written → Named cfg data path

structure Traced (s : Reader) : Prop where
  content : s.data = data
  rest : s.rest <:+ data
  saved : ∀ q ∈ s.saved, Named cfg data q.2.path
  streams : ∀ tid, FromFile cfg data (s.state tid)

/-- The program keeps the object traced, and returns only what is in `Q`. -/
def Keeps {α : Type} (x : M α) (Q : α → Prop) : Prop :=
  Triple (Traced cfg data) x (fun a s => Traced cfg data s ∧ Q a) fun _ => Traced cfg data

variable {cfg data} {α β : Type} {Q : α → Prop} {R : β → Prop} {x y : M α} {f : α → M β} {tid : UInt8}
  {ts : ThreadState}

theorem Keeps.bind (hx : Keeps cfg data x Q) (hf : ∀ a, Q a → Keeps cfg data (f a) R) :
    Keeps cfg data (x >>= f) R :=
  Triple.bind hx fun a s h => hf a h.2 s h.1

theorem Keeps.pure {a : α} (h : Q a) : Keeps cfg data (Pure.pure a : M α) Q :=
  Triple.pure fun _ hs => ⟨hs, h⟩

theorem Keeps.ite {c : Prop} [Decidable c] (hx : c → Keeps cfg data x Q)
    (hy : ¬ c → Keeps cfg data y Q) : Keeps cfg data (if c then x else y) Q :=
  Triple.ite hx hy

theorem keeps_read (n : Nat) : Keeps cfg data (read n) (· <:+: data) := by
  intro s hs
  have htake : s.rest.take n <:+: data := (List.take_prefix ..).isInfix.trans hs.rest.isInfix
  exact ⟨⟨hs.content, (List.drop_suffix ..).trans hs.rest, hs.saved, hs.streams⟩, htake⟩

/-- A value that is there only under a condition. -/
theorem keeps_check {c : Prop} [Decidable c] (value : Reader → α) (err : Err) (h : c → ∀ s, Q (value s)) :
    Keeps cfg data (fun s => if c then .ok (value s) s else .error err s) Q := by
  intro s hs
  by_cases hc : c
  · simp only [if_pos hc]
    exact ⟨hs, h hc s⟩
  · simp only [if_neg hc]
    exact hs

theorem keeps_unpack (w : Nat) (bytes : List UInt8) : Keeps cfg data (unpack w bytes) fun _ => True :=
  keeps_check _ _ fun _ _ => trivial

theorem keeps_unpackInt (w : Nat) (bytes : List UInt8) : Keeps cfg data (unpackInt w bytes) fun _ => True :=
  keeps_check _ _ fun _ _ => trivial

theorem keeps_readWord (w : Nat) : Keeps cfg data (readWord w) fun _ => True :=
  (keeps_read w).bind fun bytes _ => keeps_unpack w bytes

theorem keeps_readInt (w : Nat) : Keeps cfg data (readInt w) fun _ => True :=
  (keeps_read w).bind fun bytes _ => keeps_unpackInt w bytes

theorem keeps_decodeAscii (bytes : List UInt8) :
    Keeps cfg data (decodeAscii bytes) fun text =>
      bytes.all (· < 128) = true ∧ text = latin1 bytes :=
  keeps_check _ _ fun h _ => ⟨h, rfl⟩

theorem keeps_getThread (tid : UInt8) : Keeps cfg data (getThread tid) (FromFile cfg data) :=
  fun _ hs => ⟨hs, hs.streams tid⟩

theorem Traced.set {s : Reader} (hs : Traced cfg data s) (tid : UInt8) (h : FromFile cfg data ts) :
    Traced cfg data (s.set tid ts) := by
  refine ⟨hs.content, hs.rest, hs.saved, fun t => ?_⟩
  by_cases ht : t = tid
  · rw [ht, Reader.set_state_self]
    exact h
  · rw [show (s.set tid ts).state t = s.state t from Function.update_of_ne ht ..]
    exact hs.streams t

theorem keeps_setThread (h : FromFile cfg data ts) : Keeps cfg data (setThread tid ts) fun _ => True :=
  fun _ hs => ⟨hs.set tid h, trivial⟩

theorem keeps_openThread (tid : UInt8) : Keeps cfg data (openThread tid) fun _ => True := by
  intro s hs
  unfold openThread
  by_cases h : tid ∈ s.tids
  · rw [if_pos h]
    exact ⟨hs, trivial⟩
  · have htids : Traced cfg data { s with tids := s.tids ++ [tid] } :=
      ⟨hs.content, hs.rest, hs.saved, hs.streams⟩
    rw [if_neg h]
    exact ⟨htids.set tid (fun _ _ h => absurd h (by simp)), trivial⟩

theorem keeps_result (tid : UInt8) : Keeps cfg data (result tid) fun _ => True := by
  intro s hs
  unfold result
  by_cases h : wanted s.filter (s.state tid)
  · rw [if_pos h]
    exact ⟨⟨hs.content, hs.rest, hs.saved, hs.streams⟩, trivial⟩
  · rw [if_neg h]
    exact ⟨hs, trivial⟩

theorem keeps_addEvent (tid : UInt8) (kind code : Nat) (val : Value) :
    Keeps cfg data (addEvent tid kind code val) fun _ => True :=
  (keeps_getThread tid).bind fun _ hts => keeps_setThread hts

theorem keeps_save (tid : UInt8) {file : Saved} (h : Named cfg data file.path) :
    Keeps cfg data (save tid file) fun _ => True := by
  intro s hs
  refine ⟨⟨hs.content, hs.rest, ?_, hs.streams⟩, trivial⟩
  intro q hq
  rcases List.mem_append.mp hq with hq | hq
  · exact hs.saved q hq
  · rw [List.mem_singleton.mp hq]
    exact h

theorem keeps_throw (e : Err) : Keeps cfg data (throw e : M α) fun _ => True :=
  Triple.throw fun _ hs => hs

theorem keeps_closeStream (tid : UInt8) : Keeps cfg data (closeStream cfg tid) fun _ => True := by
  apply (keeps_getThread tid).bind
  intro ts hts
  have hnone : Keeps cfg data
      (getThread tid >>= fun ts => setThread tid { ts with curStream := .none }) fun _ => True :=
    (keeps_getThread tid).bind fun _ _ => keeps_setThread fun _ _ h => absurd h (by simp)
  have hfile : ∀ path written, ts.curStream = .file path written → Named cfg data path := hts
  generalize ts.curStream = stream at hfile
  cases stream with
  | none | ignore =>
    exact Keeps.ite (fun _ => (keeps_throw Err.attribute).bind fun _ _ => hnone) fun _ => hnone
  | data val => exact Keeps.ite (fun _ => (keeps_addEvent _ _ _ _).bind fun _ _ => hnone) fun _ => hnone
  | file path written =>
    have hpath : Named cfg data (Saved.mk path cfg.overwrite written).path := hfile _ _ rfl
    have hsave := (keeps_save tid hpath).bind fun _ _ => hnone
    exact Keeps.ite (fun _ => (keeps_throw Err.attribute).bind fun _ _ => hsave) fun _ => hsave

theorem keeps_readChunk (tid : UInt8) : Keeps cfg data (readChunk cfg tid) fun _ => True := by
  apply (keeps_readWord 2).bind
  intro l _
  apply Keeps.ite
  · exact fun _ => keeps_closeStream tid
  intro _
  apply (keeps_read l).bind
  intro buff _
  apply (keeps_getThread tid).bind
  intro ts hts
  apply keeps_setThread
  intro path written h
  cases hstream : ts.curStream with
  | none => simp [hstream, Stream.write] at h
  | ignore => simp [hstream, Stream.write] at h
  | data old => simp [hstream, Stream.write] at h
  | file path' old =>
    simp only [hstream, Stream.write, Stream.file.injEq] at h
    exact h.1 ▸ hts path' old hstream

theorem keeps_readHead (tid : UInt8) : Keeps cfg data (readHead tid) fun _ => True := by
  apply (keeps_result tid).bind
  intro _ _
  refine (keeps_setThread fun _ _ h => ?_).bind fun _ _ => ?_
  · cases h
  apply (keeps_readWord 1).bind
  intro l _
  apply Keeps.ite
  · exact fun _ => Keeps.pure trivial
  intro _
  apply (keeps_read l).bind
  intro bytes _
  apply (keeps_decodeAscii bytes).bind
  intro name _
  apply (keeps_getThread tid).bind
  exact fun ts hts => keeps_setThread hts

theorem keeps_openOutput (tid : UInt8) {filename : List Char}
    (h : Named cfg data (osPathJoin cfg.extractDir filename)) :
    Keeps cfg data (openOutput cfg tid filename) fun _ => True := by
  intro s hs
  have hstate : FromFile cfg data
      ((s.state tid).openOutput cfg (cfg.opens s.attempts) filename) := by
    unfold ThreadState.openOutput
    by_cases hopens : cfg.opens s.attempts = true
    · rw [if_pos hopens]
      intro path written heq
      obtain ⟨rfl, -⟩ := Stream.file.inj heq
      exact h
    · rw [if_neg hopens]
      exact hs.streams tid
  have hset := hs.set tid hstate
  exact ⟨⟨hset.content, hset.rest, hset.saved, hset.streams⟩, trivial⟩

theorem keeps_readFilename (module : List Char) (l : Nat) :
    Keeps cfg data (readFilename cfg module l) fun filename =>
      filename ≠ [] → Named cfg data (osPathJoin cfg.extractDir filename) := by
  apply Keeps.ite
  · intro _
    apply (keeps_read l).bind
    intro bytes hbytes
    apply (keeps_decodeAscii bytes).bind
    rintro name ⟨hascii, rfl⟩
    exact Keeps.pure fun _ => ⟨bytes, hascii, hbytes, rfl⟩
  · exact fun _ => Keeps.pure fun h => absurd rfl h

theorem keeps_readFile (tid : UInt8) (code : Nat) :
    Keeps cfg data (readFile cfg tid code) fun _ => True := by
  apply (keeps_readWord 2).bind
  intro l _
  apply (keeps_getThread tid).bind
  intro ts _
  refine (keeps_setThread fun _ _ h => ?_).bind fun _ _ => ?_
  · cases h
  apply (keeps_readFilename ts.module l).bind
  intro filename hnamed
  apply Keeps.ite
  · exact fun _ => Keeps.pure trivial
  intro hne
  apply (keeps_openOutput tid (hnamed hne)).bind
  exact fun _ _ => keeps_addEvent _ _ _ _

theorem keeps_readBody (tid : UInt8) (mtype code : Nat) :
    Keeps cfg data (readBody cfg tid mtype code) fun _ => True := by
  apply Keeps.ite
  · exact fun _ => keeps_readHead tid
  intro _
  apply (keeps_getThread tid).bind
  intro ts hts
  have hcur : FromFile cfg data { ts with curCode := code, curType := mtype } := hts
  apply (keeps_setThread hcur).bind
  intro _ _
  apply Keeps.ite
  · intro _
    apply (keeps_readWord 2).bind
    intro l _
    apply (keeps_read l).bind
    exact fun _ _ => keeps_addEvent _ _ _ _
  intro _
  apply Keeps.ite
  · intro _
    apply (keeps_getThread tid).bind
    exact fun _ _ => keeps_setThread fun _ _ h => absurd h (by simp)
  intro _
  apply Keeps.ite
  · exact fun _ => keeps_addEvent _ _ _ _
  intro _
  apply Keeps.ite
  · intro _
    apply (keeps_readInt 4).bind
    exact fun _ _ => keeps_addEvent _ _ _ _
  intro _
  apply Keeps.ite
  · intro _
    apply (keeps_readInt 8).bind
    exact fun _ _ => keeps_addEvent _ _ _ _
  intro _
  apply Keeps.ite
  · exact fun _ => keeps_readFile tid code
  · exact fun _ => Keeps.pure trivial

theorem keeps_readEvent (tid : UInt8) : Keeps cfg data (readEvent cfg tid) fun _ => True := by
  apply (keeps_readWord 1).bind
  intro mtype _
  apply Keeps.ite
  · exact fun _ => keeps_readBody _ _ _
  intro _
  apply (keeps_readWord 4).bind
  exact fun _ _ => keeps_readBody _ _ _

theorem keeps_readPacket : Keeps cfg data (readPacket cfg) fun _ => True := by
  apply (keeps_read 1).bind
  intro bytes _
  cases bytes with
  | nil => exact fun s hs => ⟨⟨hs.content, hs.rest, hs.saved, hs.streams⟩, trivial⟩
  | cons tid bytes =>
    apply (keeps_openThread tid).bind
    intro _ _
    apply (keeps_getThread tid).bind
    intro ts _
    apply Keeps.ite
    · exact fun _ => keeps_readEvent tid
    · exact fun _ => keeps_readChunk tid

theorem keeps_readFinal : Keeps cfg data readFinal fun _ => True := by
  have hall : ∀ (tids : List UInt8), Keeps cfg data
      (tids.foldlM (fun _ tid => result tid) ()) fun _ => True := by
    intro tids
    induction tids with
    | nil => exact Keeps.pure trivial
    | cons tid tids ih =>
      rw [List.foldlM_cons]
      exact (keeps_result tid).bind fun _ _ => ih
  exact fun s hs => hall s.tids s hs

theorem Keeps.after {s : Reader} (hx : Keeps cfg data x Q) (hs : Traced cfg data s) :
    Traced cfg data (Cba.after (x s)) := by
  have hxs := hx s hs
  cases hrun : x s with
  | ok a s' =>
    rw [hrun] at hxs
    exact hxs.1
  | error e s' =>
    rw [hrun] at hxs
    exact hxs

theorem Traced.use {s s' : Reader} {u : Use} (hs : Traced cfg data s) (h : use cfg s u = some s') :
    Traced cfg data s' := by
  cases u with
  | start module =>
    obtain rfl := Option.some.inj h
    dsimp only
    split_ifs
    · exact ⟨hs.content, by rw [reset]; exact hs.content ▸ List.suffix_refl _, hs.saved, hs.streams⟩
    · exact ⟨hs.content, hs.rest, hs.saved, hs.streams⟩
  | next =>
    simp only [Cba.use] at h
    split_ifs at h
    obtain rfl := Option.some.inj h
    exact keeps_readPacket.after hs
  | finish =>
    obtain rfl := Option.some.inj h
    exact keeps_readFinal.after hs

/-- Every path that is opened is that of a name in the file. -/
theorem Used.named {s : Reader} (h : Used cfg data s) {path : List Char} (hpath : s.Opened path) :
    Named cfg data path := by
  have hstart : Traced cfg data (newReader data) :=
    ⟨rfl, List.drop_suffix .., by simp [newReader], fun _ _ _ h => absurd h (by simp [newReader])⟩
  have hs := h.invariant (Traced cfg data) hstart fun _ _ _ hs _ hstep => hs.use hstep
  rcases hpath with ⟨q, hq, rfl⟩ | ⟨tid, written, hstream⟩
  · exact hs.saved q hq
  · exact hs.streams tid path written hstream

end Keeps

/-! ### Whether the paths stay in the directory -/

/-- The packet of a file that is extracted makes the reader open the path of its name. -/
theorem readPacket_opens (cfg : Config) {s : Reader} {tid : UInt8} {code : Option UInt32}
    {name : List UInt8} (h : s.Ready cfg tid (.packet code (.file name)))
    (hascii : name.all (· < 128) = true) (hextract : shouldExtract cfg (s.state tid).module = true)
    (hopens : cfg.opens s.attempts = true) (hname : safeName (latin1 name) ≠ []) (tail : List UInt8) :
    ∃ s', readPacket cfg { s with
        rest := (Atom.packet code (.file name)).bytes s.order tid ++ tail } = .ok () s' ∧
      (s'.state tid).curStream = .file (outputPath cfg name) [] := by
  have hne : name.length ≠ 0 := by
    intro hzero
    rw [List.eq_nil_of_length_eq_zero hzero] at hname
    exact hname rfl
  have houtput : outputName cfg (s.state tid).module name = safeName (latin1 name) := if_pos ⟨hextract, hne⟩
  refine ⟨_, readPacket_reads h hascii tail, ?_⟩
  show (((s.set tid ((s.state tid).next cfg (cfg.opens s.attempts)
    (.packet code (.file name)))).state tid).curStream = _)
  rw [Reader.set_state_self]
  simp only [ThreadState.next, ThreadState.receive, houtput, if_neg hname, ThreadState.openOutput, hopens,
    if_true, ThreadState.addEvent, outputPath]

/-- The path that the reader opens for a name stays in the directory, whatever this is, exactly if at most
one slash is left in front of the name when `..` is deleted. The packet of a file with an ASCII name makes
the reader open this path, and whatever a file contains, the paths that are opened are those of ASCII names
in it. -/
theorem extraction_confined_iff (cfg : Config) (name : List UInt8) :
    ((∀ dir, StaysIn dir (outputPath { cfg with extractDir := dir } name)) ↔
      ¬ SlashSlash (latin1 name)) ∧
    (∀ (s : Reader) (tid : UInt8) (code : Option UInt32),
      s.Ready cfg tid (.packet code (.file name)) → name.all (· < 128) = true →
      shouldExtract cfg (s.state tid).module = true → cfg.opens s.attempts = true →
      safeName (latin1 name) ≠ [] → ∀ tail, ∃ s', readPacket cfg { s with
        rest := (Atom.packet code (.file name)).bytes s.order tid ++ tail } = .ok () s' ∧
        (s'.state tid).curStream = .file (outputPath cfg name) []) ∧
    ∀ (data : List UInt8) (s : Reader) (path : List Char), Used cfg data s → s.Opened path →
      ∃ bytes, bytes.all (· < 128) = true ∧ bytes <:+: data ∧ path = outputPath cfg bytes :=
  ⟨safeName_staysIn_iff (latin1 name), fun _ _ _ => readPacket_opens cfg,
    fun _ _ _ h hpath => h.named hpath⟩

/-- The file name `//etc/x`. -/
def slashName : List UInt8 := [47, 47, 101, 116, 99, 47, 120]

def slashFile : List UInt8 :=
  fileOf .little [(0, .packet none (.file slashName)), (0, .chunk [65]), (0, .chunk [])]

def outConfig : Config := ⟨['o', 'u', 't'], [['*']], false, fun _ => true⟩

/-- The file with the name `//etc/x` is extracted to `/etc/x`, outside of the directory `out`. -/
theorem slashName_escapes :
    (entries outConfig none (newReader slashFile)).2.saved =
        [(0, ⟨['/', 'e', 't', 'c', '/', 'x'], false, [65]⟩)] ∧
      ¬ StaysIn outConfig.extractDir ['/', 'e', 't', 'c', '/', 'x'] := by
  refine ⟨by decide +kernel, ?_⟩
  rintro ⟨rel, -, -, hpath⟩
  cases hpath

end Cscan.Cba
