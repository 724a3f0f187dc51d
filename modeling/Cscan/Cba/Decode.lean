import Cscan.Cba.Format
import Cscan.Lib.Parsing

/-! What the reader does with the bytes of an atom, and from it with a whole file: the bytes of each
atom are taken exactly, and the object changes as `ThreadState.next` says. -/

namespace Cscan.Cba

open Cscan.Lib

namespace Reader

def withRest (rest : List UInt8) (s : Reader) : Reader := { s with rest := rest }

section Set

variable (s : Reader) (tid : UInt8) (ts ts' : ThreadState)

@[simp] theorem set_state_self : (s.set tid ts).state tid = ts := Function.update_self ..

@[simp] theorem set_set : (s.set tid ts).set tid ts' = s.set tid ts' := by simp [set]

@[simp] theorem set_order : (s.set tid ts).order = s.order := rfl

@[simp] theorem set_filter : (s.set tid ts).filter = s.filter := rfl

@[simp] theorem set_attempts : (s.set tid ts).attempts = s.attempts := rfl

end Set

end Reader

open Reader (withRest)

/-! ### Reading words and threads -/

theorem decode_byte (order : ByteOrder) (b : UInt8) : order.decode [b] = b.toNat := by
  cases order <;> simp [ByteOrder.decode, fromLow]

theorem reads_read (s : Reader) (bs : List UInt8) :
    Reads withRest (read bs.length) s bs bs s := by
  intro tail
  simp [read, withRest]

theorem reads_byte (s : Reader) (b : UInt8) : Reads withRest (readWord 1) s [b] b.toNat s := by
  apply (reads_read s [b]).last
  intro tail
  simp [unpack, decode_byte, withRest]

theorem reads_word (s : Reader) {w n : Nat} (hn : n < 256 ^ w) :
    Reads withRest (readWord w) s (s.order.encode w n) n s := by
  have hread := reads_read s (s.order.encode w n)
  rw [ByteOrder.length_encode] at hread
  apply hread.last
  intro tail
  simp [unpack, withRest, ByteOrder.decode_encode hn]

theorem reads_int (s : Reader) {w : Nat} {z : Int} (hlow : -(256 ^ w) ≤ 2 * z)
    (hhigh : 2 * z < 256 ^ w) : Reads withRest (readInt w) s (s.order.encodeInt w z) z s := by
  have hread := reads_read s (s.order.encodeInt w z)
  rw [ByteOrder.length_encodeInt] at hread
  apply hread.last
  intro tail
  simp [unpackInt, withRest, ByteOrder.decodeInt_encodeInt hlow hhigh]

theorem reads_ascii (s : Reader) {bs : List UInt8} (h : bs.all (· < 128) = true) :
    Reads withRest (decodeAscii bs) s [] (latin1 bs) s := by
  intro tail
  simp [decodeAscii, h]

theorem reads_getThread (s : Reader) (tid : UInt8) :
    Reads withRest (getThread tid) s [] (s.state tid) s := fun _ => rfl

theorem reads_setThread (s : Reader) (tid : UInt8) (ts : ThreadState) :
    Reads withRest (setThread tid ts) s [] () (s.set tid ts) := fun _ => rfl

theorem reads_setThread_set (s : Reader) (tid : UInt8) (ts ts' : ThreadState) :
    Reads withRest (setThread tid ts') (s.set tid ts) [] () (s.set tid ts') := by
  have h := reads_setThread (s.set tid ts) tid ts'
  rwa [Reader.set_set] at h

theorem reads_addEvent (s : Reader) (tid : UInt8) (ts : ThreadState) (kind code : Nat) (val : Value) :
    Reads withRest (addEvent tid kind code val) (s.set tid ts) [] ()
      (s.set tid (ts.addEvent kind code val)) := by
  intro tail
  simp [addEvent, getThread, setThread, bind, EStateM.bind, withRest, Reader.set]

/-- The object after `yield from self.result(state)`. -/
def Reader.afterResult (s : Reader) (tid : UInt8) : Reader :=
  { s with yielded := s.yielded ++ ((s.state tid).final s.filter).map (Prod.mk tid) }

theorem reads_result (s : Reader) (tid : UInt8) :
    Reads withRest (result tid) s [] () (s.afterResult tid) := by
  intro tail
  by_cases h : wanted s.filter (s.state tid)
  · simp [result, Reader.afterResult, ThreadState.final, withRest, h]
  · simp [result, Reader.afterResult, ThreadState.final, withRest, h]

/-! ### One atom -/

theorem readHead_reads (s : Reader) (tid : UInt8) {module : List UInt8} (hlen : module.length < 256)
    (hascii : module.all (· < 128) = true) :
    Reads withRest (readHead tid) s (UInt8.ofNat module.length :: module) ()
      ((s.afterResult tid).set tid { module := latin1 module }) := by
  have hbyte : (UInt8.ofNat module.length).toNat = module.length := by
    rw [UInt8.toNat_ofNat', Nat.mod_eq_of_lt hlen]
  apply (reads_result s tid).step
  apply (reads_setThread _ tid {}).step
  apply (reads_byte _ (UInt8.ofNat module.length)).bind
  rw [hbyte]
  split_ifs with h
  · rw [List.eq_nil_of_length_eq_zero h]
    exact Reads.pure _ _
  · apply (reads_read _ module).last
    apply (reads_ascii _ hascii).step
    apply (reads_getThread _ tid).step
    rw [Reader.set_state_self]
    exact reads_setThread_set (s.afterResult tid) tid {} _

theorem readFilename_reads (cfg : Config) (s : Reader) {module : List Char} {name : List UInt8}
    (hascii : name.all (· < 128) = true) (hread : name = [] ∨ shouldExtract cfg module) :
    Reads withRest (readFilename cfg module name.length) s name (outputName cfg module name) s := by
  unfold readFilename outputName
  split_ifs with h
  · apply (reads_read s name).last
    apply (reads_ascii s hascii).step
    exact Reads.pure _ _
  · have hnil : name = [] := by
      rcases hread with hnil | hextract
      · exact hnil
      · exact List.eq_nil_of_length_eq_zero (not_not.mp fun hne => h ⟨hextract, hne⟩)
    rw [hnil]
    exact Reads.pure _ _

theorem readFile_reads (cfg : Config) (s : Reader) (tid : UInt8) (code : Nat) {name : List UInt8}
    (hlen : name.length < 65536) (hascii : name.all (· < 128) = true)
    (hread : name = [] ∨ shouldExtract cfg (s.state tid).module) :
    Reads withRest (readFile cfg tid code) s (s.order.encode 2 name.length ++ name) ()
      { s.set tid ((s.state tid).receive cfg (cfg.opens s.attempts) code (.file name)) with
        attempts := if outputName cfg (s.state tid).module name ≠ [] then s.attempts + 1 else s.attempts } := by
  apply (reads_word s (by simpa using hlen)).bind
  apply (reads_getThread s tid).step
  apply (reads_setThread s tid _).step
  apply (readFilename_reads cfg _ hascii hread).last
  unfold ThreadState.receive
  by_cases h : outputName cfg (s.state tid).module name = []
  · simp only [h, if_true, ne_eq, not_true, if_false]
    exact Reads.pure _ _
  · simp only [h, if_false, ne_eq, not_false_eq_true, if_true]
    intro tail
    simp [openOutput, addEvent, getThread, setThread, bind, EStateM.bind, withRest, Reader.set]

theorem kind_lt (p : Packet) : p.kind < 7 := by
  cases p <;> exact of_decide_eq_true rfl

theorem mask_kind (p : Packet) : (UInt8.ofNat p.kind).toNat = p.kind ∧ p.kind &&& 0x80 = 0 :=
  (by decide : ∀ k < 7, (UInt8.ofNat k).toNat = k ∧ k &&& 0x80 = 0) p.kind (kind_lt p)

theorem mask_kind_code (p : Packet) : (UInt8.ofNat (p.kind ||| 0x80)).toNat = p.kind ||| 0x80 ∧
    (p.kind ||| 0x80) &&& 0x80 ≠ 0 ∧ (p.kind ||| 0x80) ^^^ 0x80 = p.kind :=
  (by decide : ∀ k < 7, (UInt8.ofNat (k ||| 0x80)).toNat = k ||| 0x80 ∧ (k ||| 0x80) &&& 0x80 ≠ 0 ∧
    (k ||| 0x80) ^^^ 0x80 = k) p.kind (kind_lt p)

/-- The object after a packet of thread `tid`, whose header is read. -/
def Reader.afterPacket (cfg : Config) (s : Reader) (tid : UInt8) (code : Nat) (p : Packet) : Reader :=
  let ts := s.state tid
  { s.set tid (ThreadState.receive cfg (cfg.opens s.attempts) code
      { ts with curCode := code, curType := p.kind } p) with
    attempts := if ts.opensFile cfg (.packet none p) then s.attempts + 1 else s.attempts
    yielded := s.yielded ++ (ts.yields s.filter (.packet none p)).map (Prod.mk tid) }

theorem afterPacket_plain (cfg : Config) (s : Reader) (tid : UInt8) (code : Nat) {p : Packet}
    (hhead : ∀ module, p ≠ .head module) (hfile : ∀ name, p ≠ .file name) :
    s.afterPacket cfg tid code p = s.set tid (ThreadState.receive cfg (cfg.opens s.attempts) code
      { s.state tid with curCode := code, curType := p.kind } p) := by
  cases p with
  | head module => exact absurd rfl (hhead module)
  | file name => exact absurd rfl (hfile name)
  | _ => simp [Reader.afterPacket, ThreadState.yields, ThreadState.opensFile, Reader.set]

theorem readBody_reads (cfg : Config) (s : Reader) (tid : UInt8) (code : Nat) {p : Packet}
    (hfits : p.Fits) (hascii : p.Ascii) (hname : (s.state tid).TakesName cfg (.packet none p)) :
    Reads withRest (readBody cfg tid p.kind code) s (p.payload s.order) ()
      (s.afterPacket cfg tid code p) := by
  cases p with
  | head module => exact readHead_reads s tid hfits hascii
  | file name =>
    apply (reads_getThread s tid).step
    apply (reads_setThread s tid _).step
    have hname' : name = [] ∨ shouldExtract cfg (s.state tid).module = true := hname
    have hfile := readFile_reads cfg
      (s.set tid { s.state tid with curCode := code, curType := cbaFile }) tid code hfits hascii
      (by simpa using hname')
    simp only [Reader.set_set, Reader.set_state_self, Reader.set_attempts] at hfile
    simp only [Reader.afterPacket, ThreadState.opensFile, ThreadState.yields, List.map_nil,
      List.append_nil, decide_eq_true_eq]
    exact hfile
  | str text =>
    have hlen : text.length < 65536 := hfits
    rw [afterPacket_plain _ _ _ _ (by simp) (by simp)]
    apply (reads_getThread s tid).step
    apply (reads_setThread s tid _).step
    apply (reads_word _ (by simpa using hlen)).bind
    apply (reads_read _ text).last
    exact reads_addEvent s tid _ _ _ _
  | data =>
    rw [afterPacket_plain _ _ _ _ (by simp) (by simp)]
    apply (reads_getThread s tid).step
    apply (reads_setThread s tid _).step
    apply (reads_getThread _ tid).step
    rw [Reader.set_state_self]
    exact reads_setThread_set s tid _ _
  | int32 num =>
    rw [afterPacket_plain _ _ _ _ (by simp) (by simp)]
    have hlow := num.le_toInt
    have hhigh := num.toInt_lt
    apply (reads_getThread s tid).step
    apply (reads_setThread s tid _).step
    apply (reads_int _ (by omega) (by omega)).last
    exact reads_addEvent s tid _ _ _ _
  | int64 num =>
    rw [afterPacket_plain _ _ _ _ (by simp) (by simp)]
    have hlow := num.le_toInt
    have hhigh := num.toInt_lt
    apply (reads_getThread s tid).step
    apply (reads_setThread s tid _).step
    apply (reads_int _ (by omega) (by omega)).last
    exact reads_addEvent s tid _ _ _ _
  | bit =>
    rw [afterPacket_plain _ _ _ _ (by simp) (by simp)]
    apply (reads_getThread s tid).step
    apply (reads_setThread s tid _).step
    exact reads_addEvent s tid _ _ _ _

theorem readEvent_eq (cfg : Config) (s : Reader) (tid : UInt8) {code : Option UInt32} {p : Packet}
    {bs : List UInt8} (hbytes : (Atom.packet code p).bytes s.order tid = tid :: bs)
    (tail : List UInt8) : readEvent cfg tid (withRest (bs ++ tail) s) =
      readBody cfg tid p.kind (codeOf code) (withRest (p.payload s.order ++ tail) s) := by
  cases code with
  | none =>
    obtain ⟨hkind, hmask⟩ := mask_kind p
    obtain rfl : UInt8.ofNat p.kind :: p.payload s.order = bs := by simpa [Atom.bytes] using hbytes
    unfold readEvent
    rw [← List.singleton_append, List.append_assoc, (reads_byte s _).bind_eq, hkind, if_pos hmask]
    rfl
  | some code =>
    obtain ⟨hkind, hmask, hxor⟩ := mask_kind_code p
    obtain rfl : UInt8.ofNat (p.kind ||| 0x80) ::
        (s.order.encode 4 code.toNat ++ p.payload s.order) = bs := by
      simpa [Atom.bytes] using hbytes
    have hcode : code.toNat < 256 ^ 4 := by simpa using code.toNat_lt
    unfold readEvent
    rw [← List.singleton_append, List.append_assoc, (reads_byte s _).bind_eq, hkind, if_neg hmask, hxor,
      List.append_assoc, (reads_word s hcode).bind_eq]
    rfl

theorem closeStream_reads (cfg : Config) (s : Reader) (tid : UInt8)
    (hopen : (s.state tid).curStream ≠ .none) (hsound : (s.state tid).Sound) :
    Reads withRest (closeStream cfg tid) s [] ()
      { s.set tid (s.state tid).close with
        saved := s.saved ++ ((s.state tid).saves cfg (.chunk [])).map (Prod.mk tid) } := by
  intro tail
  unfold ThreadState.Sound at hsound
  cases hstream : (s.state tid).curStream with
  | none => exact absurd hstream hopen
  | ignore =>
    simp only [hstream] at hsound
    simp [closeStream, getThread, setThread, bind, EStateM.bind, withRest, Reader.set, hsound, hstream,
      ThreadState.close, ThreadState.saves]
  | data buff =>
    simp only [hstream] at hsound
    simp [closeStream, getThread, setThread, addEvent, bind, EStateM.bind, withRest, Reader.set, hsound,
      hstream, ThreadState.close, ThreadState.saves, ThreadState.addEvent]
  | file path written =>
    simp only [hstream] at hsound
    simp [closeStream, getThread, setThread, bind, EStateM.bind, withRest, Reader.set, hsound, hstream,
      ThreadState.close, ThreadState.saves, save]

theorem readChunk_reads (cfg : Config) (s : Reader) (tid : UInt8) (ok : Bool) {bytes : List UInt8}
    (hlen : bytes.length < 65536) (hopen : (s.state tid).curStream ≠ .none)
    (hsound : (s.state tid).Sound) :
    Reads withRest (readChunk cfg tid) s (s.order.encode 2 bytes.length ++ bytes) ()
      { s.set tid ((s.state tid).next cfg ok (.chunk bytes)) with
        saved := s.saved ++ ((s.state tid).saves cfg (.chunk bytes)).map (Prod.mk tid) } := by
  apply (reads_word s (by simpa using hlen)).bind
  cases bytes with
  | nil =>
    exact closeStream_reads cfg s tid hopen hsound
  | cons b bs =>
    apply (reads_read s (b :: bs)).last
    apply (reads_getThread s tid).step
    have hset := reads_setThread s tid { s.state tid with
      curStream := (s.state tid).curStream.write (b :: bs) }
    simpa [ThreadState.next, ThreadState.saves, Reader.set] using hset

/-! ### Names that the reader cannot decode -/

theorem length_ne_zero_of_not_ascii {bs : List UInt8} (h : ¬ bs.all (· < 128) = true) :
    bs.length ≠ 0 := by
  intro hlen
  rw [List.eq_nil_of_length_eq_zero hlen] at h
  exact h rfl

theorem decodeAscii_fails (s : Reader) {bs : List UInt8} (h : ¬ bs.all (· < 128) = true) :
    Fails withRest (decodeAscii bs) s [] Err.unicode s := by
  intro tail
  exact ⟨tail, by simp [decodeAscii, h]⟩

theorem readHead_fails (s : Reader) (tid : UInt8) {module : List UInt8} (hlen : module.length < 256)
    (hascii : ¬ module.all (· < 128) = true) :
    Fails withRest (readHead tid) s (UInt8.ofNat module.length :: module) Err.unicode
      ((s.afterResult tid).set tid {}) := by
  have hbyte : (UInt8.ofNat module.length).toNat = module.length := by
    rw [UInt8.toNat_ofNat', Nat.mod_eq_of_lt hlen]
  apply (reads_result s tid).fails_step
  apply (reads_setThread _ tid {}).fails_step
  apply (reads_byte _ (UInt8.ofNat module.length)).fails
  rw [hbyte, if_neg (length_ne_zero_of_not_ascii hascii)]
  apply (reads_read _ module).fails_last
  exact (decodeAscii_fails _ hascii).bind

theorem readFile_fails (cfg : Config) (s : Reader) (tid : UInt8) (code : Nat) {name : List UInt8}
    (hlen : name.length < 65536) (hascii : ¬ name.all (· < 128) = true)
    (hread : shouldExtract cfg (s.state tid).module) :
    Fails withRest (readFile cfg tid code) s (s.order.encode 2 name.length ++ name) Err.unicode
      (s.set tid { s.state tid with curStream := .ignore }) := by
  apply (reads_word s (by simpa using hlen)).fails
  apply (reads_getThread s tid).fails_step
  apply (reads_setThread s tid _).fails_step
  apply Fails.bind
  rw [readFilename, if_pos ⟨hread, length_ne_zero_of_not_ascii hascii⟩]
  apply (reads_read _ name).fails_last
  exact (decodeAscii_fails _ hascii).bind

/-- The object after a packet whose name cannot be decoded. -/
def Reader.afterBad (s : Reader) (tid : UInt8) (code : Nat) : Packet → Reader
  | .head _ => (s.afterResult tid).set tid {}
  | p => s.set tid { s.state tid with curCode := code, curType := p.kind, curStream := .ignore }

theorem readBody_fails (cfg : Config) (s : Reader) (tid : UInt8) (code : Nat) {p : Packet}
    (hfits : p.Fits) (hascii : ¬ p.Ascii) (hname : (s.state tid).TakesName cfg (.packet none p)) :
    Fails withRest (readBody cfg tid p.kind code) s (p.payload s.order) Err.unicode
      (s.afterBad tid code p) := by
  cases p with
  | head module => exact readHead_fails s tid hfits hascii
  | file name =>
    apply (reads_getThread s tid).fails_step
    apply (reads_setThread s tid _).fails_step
    have hextract : shouldExtract cfg (s.state tid).module = true := by
      rcases hname with hnil | hextract
      · exact absurd (by rw [hnil]; rfl) hascii
      · exact hextract
    have hfile := readFile_fails cfg
      (s.set tid { s.state tid with curCode := code, curType := cbaFile }) tid code hfits hascii
      (by simpa using hextract)
    simp only [Reader.set_set, Reader.set_state_self] at hfile
    exact hfile
  | _ => exact absurd trivial hascii

/-! ### One turn of the loop -/

/-- The object once the thread of the next packet is known. -/
def Reader.opened (s : Reader) (tid : UInt8) : Reader :=
  { s with tids := if tid ∈ s.tids then s.tids else s.tids ++ [tid] }

theorem openThread_reads {s : Reader} {tid : UInt8} (hfresh : tid ∉ s.tids → s.state tid = {}) :
    Reads withRest (openThread tid) s [] () (s.opened tid) := by
  intro tail
  by_cases h : tid ∈ s.tids
  · simp [openThread, Reader.opened, withRest, h]
  · have hset : Function.update s.state tid {} = s.state := by
      rw [← hfresh h, Function.update_eq_self]
    simp [openThread, Reader.opened, withRest, h, Reader.set, hset]

theorem readPacket_eq (cfg : Config) {s : Reader} {tid : UInt8}
    (hfresh : tid ∉ s.tids → s.state tid = {}) (bs : List UInt8) :
    readPacket cfg (withRest (tid :: bs) s) =
      (if (s.state tid).curStream = .none then readEvent cfg tid else readChunk cfg tid)
        (withRest bs (s.opened tid)) := by
  refine ((reads_read s [tid]).bind_eq _ bs).trans ?_
  refine ((openThread_reads hfresh).bind_eq _ bs).trans ?_
  exact (reads_getThread (s.opened tid) tid).bind_eq _ bs

/-- The object after an atom of thread `tid`. -/
def Reader.after (cfg : Config) (s : Reader) (tid : UInt8) (a : Atom) : Reader :=
  let ts := s.state tid
  { s.set tid (ts.next cfg (cfg.opens s.attempts) a) with
    tids := if tid ∈ s.tids then s.tids else s.tids ++ [tid]
    attempts := if ts.opensFile cfg a then s.attempts + 1 else s.attempts
    yielded := s.yielded ++ (ts.yields s.filter a).map (Prod.mk tid)
    saved := s.saved ++ (ts.saves cfg a).map (Prod.mk tid) }

/-- The next atom is one that thread `tid` may write in its state, and its name is read. -/
structure Reader.Ready (cfg : Config) (s : Reader) (tid : UInt8) (a : Atom) : Prop where
  fresh : tid ∉ s.tids → s.state tid = {}
  sound : (s.state tid).Sound
  allowed : a.Allowed (s.state tid).streaming
  takesName : (s.state tid).TakesName cfg a

theorem Reader.Ready.packet {cfg : Config} {s : Reader} {tid : UInt8} {code : Option UInt32}
    {p : Packet} (h : s.Ready cfg tid (.packet code p)) :
    p.Fits ∧ ∀ tail, readPacket cfg (withRest ((Atom.packet code p).bytes s.order tid ++ tail) s) =
      readBody cfg tid p.kind (codeOf code) (withRest (p.payload s.order ++ tail) (s.opened tid)) := by
  obtain ⟨bs, hbytes⟩ : ∃ bs, (Atom.packet code p).bytes s.order tid = tid :: bs := by
    cases code <;> exact ⟨_, rfl⟩
  have hallowed := h.allowed
  cases hstream : (s.state tid).streaming with
  | true =>
    rw [hstream] at hallowed
    exact hallowed.elim
  | false =>
    rw [hstream] at hallowed
    refine ⟨hallowed, fun tail => ?_⟩
    have hnone : (s.state tid).curStream = .none := by
      simpa [ThreadState.streaming] using hstream
    rw [hbytes, List.cons_append, readPacket_eq cfg h.fresh, if_pos hnone]
    exact readEvent_eq cfg (s.opened tid) tid hbytes tail

/-- The reader takes the bytes of an atom and no more. -/
theorem readPacket_reads {cfg : Config} {s : Reader} {tid : UInt8} {a : Atom}
    (h : s.Ready cfg tid a) (hascii : a.Ascii) :
    Reads withRest (readPacket cfg) s (a.bytes s.order tid) () (s.after cfg tid a) := by
  intro tail
  cases a with
  | packet code p =>
    obtain ⟨hfits, hpacket⟩ := h.packet
    have hafter : s.after cfg tid (.packet code p) = (s.opened tid).afterPacket cfg tid (codeOf code) p := by
      simp only [Reader.after, Reader.afterPacket, ThreadState.saves, List.map_nil, List.append_nil,
        ThreadState.next, ThreadState.opensFile_code _ _ code, ThreadState.yields_code _ _ code]
      rfl
    rw [hpacket, hafter]
    exact readBody_reads cfg (s.opened tid) tid (codeOf code) hfits hascii
      ((ThreadState.takesName_code ..).mp h.takesName) tail
  | chunk bytes =>
    have hallowed := h.allowed
    cases hstream : (s.state tid).streaming with
    | false =>
      rw [hstream] at hallowed
      exact hallowed.elim
    | true =>
      rw [hstream] at hallowed
      have hopen : (s.state tid).curStream ≠ .none := by
        simpa [ThreadState.streaming] using hstream
      have hchunk := readChunk_reads cfg (s.opened tid) tid (cfg.opens s.attempts) hallowed hopen
        h.sound tail
      rw [Atom.bytes, List.cons_append, readPacket_eq cfg h.fresh, if_neg hopen]
      simpa [Reader.after, ThreadState.opensFile, ThreadState.yields, Reader.set, Reader.opened]
        using hchunk

/-- The reader raises an exception in an atom with a name that it cannot decode. -/
theorem readPacket_fails {cfg : Config} {s : Reader} {tid : UInt8} {code : Option UInt32} {p : Packet}
    (h : s.Ready cfg tid (.packet code p)) (hascii : ¬ p.Ascii) :
    Fails withRest (readPacket cfg) s ((Atom.packet code p).bytes s.order tid) Err.unicode
      ((s.opened tid).afterBad tid (codeOf code) p) := by
  intro tail
  obtain ⟨hfits, hpacket⟩ := h.packet
  rw [hpacket]
  exact readBody_fails cfg (s.opened tid) tid (codeOf code) hfits hascii
    ((ThreadState.takesName_code ..).mp h.takesName) tail

end Cscan.Cba
