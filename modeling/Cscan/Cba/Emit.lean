import Cscan.Cba.Writer
import Mathlib.Data.List.TakeWhile

/-! The calls of a thread as a machine that takes calls and gives the atoms that they append. The
writer refines it: what a call does to the file is a flush of whole packets, and then whole packets and
chunks under the lock. -/

namespace Cscan.Cba

open Cscan.Lib

/-- What a thread has pending: the code of the next packet, and the packets of its deferred buffer. -/
structure Pending where
  code : Int32
  deferred : List Atom

def codeField (c : Int32) : Option UInt32 := if c = 0 then none else some c.toUInt32

/-- The bytes of atoms of one thread. -/
def encodeAtoms (order : ByteOrder) (tid : UInt8) (as : List Atom) : List UInt8 :=
  as.flatMap (Atom.bytes order tid)

/-- The pieces of a buffer that `cba_data` writes as chunks. -/
def dataPieces : Nat → List UInt8 → List (List UInt8)
  | 0, _ => []
  | fuel + 1, rest =>
    if rest = [] then [] else rest.take cbaMaxBuff :: dataPieces fuel (rest.drop cbaMaxBuff)

/-- The length of a code field. -/
def hdrLength (c : Int32) : Nat := if c = 0 then 2 else 6

namespace Pending

def init : Pending := ⟨0, []⟩

/-- The text of a deferred string as far as it has room. -/
def deferredText (order : ByteOrder) (tid : UInt8) (p : Pending) (text : List UInt8) : List UInt8 :=
  (Writer.formatted text).take
    (cbaDeferBuff - (encodeAtoms order tid p.deferred).length - hdrLength p.code - 7)

/-- The atoms of an event. -/
def event (code : Int32) : Logged → List Atom
  | .str text => [.packet (codeField code) (.str (Writer.formatted text))]
  | .data buffer => .packet (codeField code) .data ::
      ((dataPieces (buffer.length + 1) buffer).map .chunk ++ [.chunk []])
  | .file name reads => .packet (codeField code) (.file (name.take (name.length % 65536))) ::
      (((reads.map Subtype.val).takeWhile (· ≠ [])).map .chunk ++ [.chunk []])
  | .int32 num => [.packet (codeField code) (.int32 num)]
  | .int64 num => [.packet (codeField code) (.int64 num)]
  | .bit c => [.packet (codeField c) .bit]

def next (order : ByteOrder) (tid : UInt8) (p : Pending) : Call → Pending
  | .head module =>
    ⟨0, [.packet (codeField p.code) (.head (module.take (module.length % 256)))]⟩
  | .code c => { p with code := c }
  | .deferStr text =>
    if p.deferred = [] then ⟨0, []⟩
    else ⟨0, p.deferred ++ [.packet (codeField p.code) (.str (p.deferredText order tid text))]⟩
  | .log _ => ⟨0, []⟩

def out (p : Pending) : Call → List Atom
  | .head _ => []
  | .code _ => []
  | .deferStr text =>
    if p.deferred = [] then [.packet (codeField p.code) (.str (Writer.formatted text))] else []
  | .log e => p.deferred ++ event p.code e

end Pending

/-- The machine of one thread's calls. -/
def emitter (order : ByteOrder) (tid : UInt8) : Machine Pending Call Atom where
  next := Pending.next order tid
  out := Pending.out

/-! ### The writer refines the machine -/

/-- The variables of a thread hold what the thread has pending. -/
structure Refines (order : ByteOrder) (w : Writer) (p : Pending) : Prop where
  code : w.nextCode = p.code
  size : w.deferredBuffer.length = cbaDeferBuff
  fits : w.deferredBytes ≤ cbaDeferBuff
  deferred : w.deferredBuffer.take w.deferredBytes = encodeAtoms order w.threadId p.deferred

/-- The last byte of a string packet's header is zero already. -/
def HdrEndsInZero (order : ByteOrder) (c : Int32) : Prop :=
  c ≠ 0 ∧ (order.encode 4 c.toUInt32.toNat).getLast? = some 0

/-- A text behind `used` deferred bytes becomes a whole packet: there is room for its header and its
length, and where no byte of it is left the zero stored in front of its length changes nothing. -/
def DeferOk (order : ByteOrder) (used : Nat) (c : Int32) (text : List UInt8) : Prop :=
  used + hdrLength c + 7 ≤ cbaDeferBuff ∧
    ((Writer.formatted text ≠ [] ∧ used + hdrLength c + 7 < cbaDeferBuff) ∨ HdrEndsInZero order c)

/-- The calls that keep to whole packets. On a machine whose first two bytes of an `int` are the high
ones `cba_data` must have no data. -/
def CallOk (order : ByteOrder) (w : Writer) : Call → Prop
  | .deferStr text => w.deferredBytes = 0 ∨ DeferOk order w.deferredBytes w.nextCode text
  | .log (.data buffer) => order = .little ∨ buffer = []
  | _ => True

instance (order : ByteOrder) (c : Int32) : Decidable (HdrEndsInZero order c) :=
  inferInstanceAs (Decidable (_ ∧ _))

instance (order : ByteOrder) (used : Nat) (c : Int32) (text : List UInt8) :
    Decidable (DeferOk order used c text) :=
  inferInstanceAs (Decidable (_ ∧ _))

instance (order : ByteOrder) (w : Writer) (c : Call) : Decidable (CallOk order w c) := by
  cases c with
  | log event => cases event <;> unfold CallOk <;> infer_instance
  | _ => unfold CallOk; infer_instance

theorem Refines.init (order : ByteOrder) (tid : UInt8) : Refines order (Writer.init tid) Pending.init where
  code := rfl
  size := List.length_replicate
  fits := Nat.zero_le _
  deferred := rfl

theorem hdrBuff_payload (order : ByteOrder) (w : Writer) (p : Packet) :
    w.hdrBuff order p.kind ++ p.payload order =
      (Atom.packet (codeField w.nextCode) p).bytes order w.threadId := by
  by_cases h : w.nextCode = 0 <;> simp [Writer.hdrBuff, codeField, h, Atom.bytes]

theorem length_hdrBuff (order : ByteOrder) (w : Writer) (type : Nat) :
    (w.hdrBuff order type).length = hdrLength w.nextCode := by
  by_cases h : w.nextCode = 0 <;> simp [Writer.hdrBuff, hdrLength, h]

theorem length_bytes_pos (order : ByteOrder) (tid : UInt8) (a : Atom) : 0 < (a.bytes order tid).length := by
  rcases a with ⟨_ | _, _⟩ | _ <;> simp [Atom.bytes]

section Calls

variable {order : ByteOrder} {w : Writer} {p : Pending}

theorem Refines.length (h : Refines order w p) :
    (encodeAtoms order w.threadId p.deferred).length = w.deferredBytes := by
  rw [← h.deferred, List.length_take, h.size, Nat.min_eq_left h.fits]

theorem Refines.deferred_nil (h : Refines order w p) : w.deferredBytes = 0 ↔ p.deferred = [] := by
  rw [← h.length]
  cases p.deferred with
  | nil => simp [encodeAtoms]
  | cons a as =>
    have hpos := length_bytes_pos order w.threadId a
    simp only [encodeAtoms, List.flatMap_cons, List.length_append, reduceCtorEq, iff_false]
    omega

theorem hdrLength_le (c : Int32) : 2 ≤ hdrLength c ∧ hdrLength c ≤ 6 := by
  unfold hdrLength
  split_ifs <;> omega

theorem Refines.head (h : Refines order w p) (module : List UInt8) :
    ∃ w', w.head order module = some ([], w') ∧ w'.threadId = w.threadId ∧
      Refines order w' (p.next order w.threadId (.head module)) := by
  obtain ⟨hlow, hhigh⟩ := hdrLength_le w.nextCode
  have hhdr := length_hdrBuff order w cbaHead
  have hmod : module.length % 256 < 256 := Nat.mod_lt _ (by omega)
  have htake : (module.take (module.length % 256)).length = module.length % 256 := by
    rw [List.length_take, Nat.min_eq_left (Nat.mod_le _ _)]
  have hsize : w.deferredBuffer.length = 2048 := h.size
  obtain ⟨buf1, hbuf1⟩ : ∃ buf1, store w.deferredBuffer 0 (w.hdrBuff order cbaHead) = some buf1 :=
    ⟨_, store_eq (by omega)⟩
  have hsize1 := length_store hbuf1
  obtain ⟨buf2, hbuf2⟩ : ∃ buf2, store buf1 (w.hdrBuff order cbaHead).length
      [UInt8.ofNat module.length] = some buf2 := ⟨_, store_eq (by simp; omega)⟩
  have hsize2 := length_store hbuf2
  obtain ⟨buf3, hbuf3⟩ : ∃ buf3, store buf2 ((w.hdrBuff order cbaHead).length + 1)
      (module.take (module.length % 256)) = some buf3 := ⟨_, store_eq (by omega)⟩
  have hsize3 := length_store hbuf3
  refine ⟨{ w.clearCode with
    deferredBuffer := buf3
    deferredBytes := (w.hdrBuff order cbaHead).length + 1 + module.length % 256 },
    by simp [Writer.head, hbuf1, hbuf2, hbuf3], rfl, rfl, ?_, ?_, ?_⟩
  · exact hsize3.trans (hsize2.trans (hsize1.trans h.size))
  · show (w.hdrBuff order cbaHead).length + 1 + module.length % 256 ≤ 2048
    omega
  · have h1 := take_store hbuf1
    have h2 := take_store hbuf2
    have h3 := take_store hbuf3
    rw [htake] at h3
    rw [Nat.zero_add, List.take_zero, List.nil_append] at h1
    rw [List.length_singleton, h1] at h2
    rw [h2] at h3
    show buf3.take _ = _
    rw [h3]
    have hpayload := hdrBuff_payload order w (.head (module.take (module.length % 256)))
    simp only [Packet.kind, Packet.payload, htake, h.code] at hpayload
    have hbyte : UInt8.ofNat (module.length % 256) = UInt8.ofNat module.length := by
      apply UInt8.toNat_inj.mp
      simp
    rw [hbyte] at hpayload
    simp only [Pending.next, encodeAtoms, List.flatMap_cons, List.flatMap_nil, List.append_nil,
      List.append_assoc, List.singleton_append]
    exact hpayload

theorem formatted_length (text : List UInt8) : (Writer.formatted text).length < cbaMaxBuff := by
  have h := (List.takeWhile_sublist (fun b : UInt8 => decide (b ≠ 0)) (l := text.take (cbaMaxBuff - 1))).length_le
  rw [List.length_take] at h
  unfold Writer.formatted cbaMaxBuff at *
  omega

/-- A header behind which a length of `n` is written: the zero is stored on its last byte if `n` is 0. -/
def zeroed (n : Nat) (hdr : List UInt8) : List UInt8 := if n = 0 then hdr.dropLast ++ [0] else hdr

theorem zeroed_of_endsInZero (n : Nat) (h : HdrEndsInZero order w.nextCode) :
    zeroed n (w.hdrBuff order cbaStr) = w.hdrBuff order cbaStr := by
  obtain ⟨code, hcode⟩ := List.getLast?_eq_some_iff.mp h.2
  rw [zeroed, Writer.hdrBuff, if_neg h.1, hcode]
  split_ifs
  · rw [← List.cons_append, ← List.cons_append, List.dropLast_concat]
  · rfl

theorem zeroed_ne (h : ¬ HdrEndsInZero order w.nextCode) :
    zeroed 0 (w.hdrBuff order cbaStr) ≠ w.hdrBuff order cbaStr := by
  intro heq
  have hlast := congrArg List.getLast? heq
  rw [zeroed, if_pos rfl, List.getLast?_concat, Writer.hdrBuff] at hlast
  split_ifs at hlast with hcode
  · cases hlast
  · refine h ⟨hcode, ?_⟩
    have hlength := ByteOrder.length_encode order 4 w.nextCode.toUInt32.toNat
    obtain ⟨b, bs, hbytes⟩ := List.exists_cons_of_length_pos (l := order.encode 4 w.nextCode.toUInt32.toNat)
      (by omega)
    rw [hbytes] at hlast ⊢
    rw [hlast, List.getLast?_cons_cons, List.getLast?_cons_cons]

theorem length_zeroed (n : Nat) {hdr : List UInt8} (hne : hdr ≠ []) : (zeroed n hdr).length = hdr.length := by
  have hpos := List.length_pos_iff.mpr hne
  unfold zeroed
  split_ifs
  · rw [List.length_append, List.length_dropLast, List.length_singleton]
    omega
  · rfl

/-- The zero that `write_str_buff` stores in front of the length falls behind the header, or on its last
byte. -/
theorem take_store_zero {buf buf' front hdr : List UInt8} {n : Nat} (hne : hdr ≠ [])
    (hbuf : buf.take (front.length + hdr.length) = front ++ hdr)
    (hstore : store buf (front.length + hdr.length + n - 1) [0] = some buf') :
    buf'.take (front.length + hdr.length) = front ++ zeroed n hdr := by
  rcases Nat.eq_zero_or_pos n with rfl | hn
  · obtain ⟨hdr', b, rfl⟩ := (List.eq_nil_or_concat' hdr).resolve_left hne
    have hpos : front.length + (hdr' ++ [b]).length + 0 - 1 = (front ++ hdr').length := by
      simp
    have hlength : front.length + (hdr' ++ [b]).length = (front ++ hdr').length + [(0 : UInt8)].length := by
      simp
      omega
    have hfront : buf.take (front ++ hdr').length = front ++ hdr' := by
      have htake := congrArg (List.take (front ++ hdr').length) hbuf
      rwa [List.take_take, Nat.min_eq_left (by omega), ← List.append_assoc, List.take_left] at htake
    rw [hpos] at hstore
    rw [hlength, take_store hstore, hfront, zeroed, if_pos rfl, List.dropLast_concat, List.append_assoc]
  · rw [take_store_of_le (by omega) hstore, zeroed, if_neg (Nat.ne_of_gt hn)]
    exact hbuf

/-- How much of a text is deferred: what the buffer has room for. -/
def cutLength (used : Nat) (c : Int32) (text : List UInt8) : Nat :=
  min (Writer.formatted text).length (cbaDeferBuff - used - hdrLength c - 7)

/-- With room for its header and its length a text is deferred behind what is there. -/
theorem writeStrBuff_spec (order : ByteOrder) (text : List UInt8)
    (hsize : w.deferredBuffer.length = cbaDeferBuff)
    (hroom : w.deferredBytes + hdrLength w.nextCode + 7 ≤ cbaDeferBuff) :
    let n := cutLength w.deferredBytes w.nextCode text
    ∃ w', w.writeStrBuff order text = some ([], w') ∧ w'.threadId = w.threadId ∧ w'.nextCode = 0 ∧
      w'.deferredBuffer.length = cbaDeferBuff ∧
      w'.deferredBytes = w.deferredBytes + hdrLength w.nextCode + 2 + n ∧
      w'.deferredBuffer.take w'.deferredBytes = w.deferredBuffer.take w.deferredBytes ++
        (zeroed n (w.hdrBuff order cbaStr) ++ (order.encode 2 n ++ (Writer.formatted text).take n)) := by
  intro n
  obtain ⟨hlow, hhigh⟩ := hdrLength_le w.nextCode
  have hhdr := length_hdrBuff order w cbaStr
  have hmax := formatted_length text
  have hne : w.hdrBuff order cbaStr ≠ [] := List.ne_nil_of_length_pos (by omega)
  unfold cbaDeferBuff at hsize hroom
  unfold cbaMaxBuff at hmax
  have hcut : n = min (Writer.formatted text).length (2048 - w.deferredBytes - hdrLength w.nextCode - 7) := rfl
  -- the length that the source computes in an `unsigned short`
  have hn : n = (if ((Writer.formatted text).length : Int) ≥
      ((cbaDeferBuff : Int) - w.deferredBytes) - (w.hdrBuff order cbaStr).length - 6 then
        ((((cbaDeferBuff : Int) - w.deferredBytes) - (w.hdrBuff order cbaStr).length - 6 - 1) % 65536).toNat
      else (Writer.formatted text).length) := by
    rw [hhdr]
    unfold cbaDeferBuff
    split_ifs <;> omega
  have htake : ((Writer.formatted text).take n).length = n := by
    rw [List.length_take]
    omega
  have hfront : (w.deferredBuffer.take w.deferredBytes).length = w.deferredBytes := by
    rw [List.length_take]
    omega
  obtain ⟨buf1, hbuf1⟩ : ∃ buf1, store w.deferredBuffer w.deferredBytes (w.hdrBuff order cbaStr) =
      some buf1 := ⟨_, store_eq (by omega)⟩
  have hsize1 := length_store hbuf1
  obtain ⟨buf2, hbuf2⟩ : ∃ buf2, store buf1
      (w.deferredBytes + (w.hdrBuff order cbaStr).length + n - 1) [0] = some buf2 :=
    ⟨_, store_eq (by simp; omega)⟩
  have hsize2 := length_store hbuf2
  obtain ⟨buf3, hbuf3⟩ : ∃ buf3, store buf2 (w.deferredBytes + (w.hdrBuff order cbaStr).length)
      (order.encode 2 n) = some buf3 := ⟨_, store_eq (by simp; omega)⟩
  have hsize3 := length_store hbuf3
  obtain ⟨buf4, hbuf4⟩ : ∃ buf4, store buf3 (w.deferredBytes + (w.hdrBuff order cbaStr).length + 2)
      ((Writer.formatted text).take n) = some buf4 := ⟨_, store_eq (by omega)⟩
  have hsize4 := length_store hbuf4
  refine ⟨{ w.clearCode with
    deferredBuffer := buf4
    deferredBytes := w.deferredBytes + (w.hdrBuff order cbaStr).length + 2 + n }, ?_, rfl, rfl, ?_, ?_, ?_⟩
  · simp only [Writer.writeStrBuff, hbuf1, ← hn, hbuf2, hbuf3, hbuf4, Option.bind_eq_bind,
      Option.bind_some]
    rfl
  · exact hsize4.trans (hsize3.trans (hsize2.trans (hsize1.trans hsize)))
  · rw [hhdr]
  · have h1 := take_store hbuf1
    have h2 := @take_store_zero buf1 buf2 (w.deferredBuffer.take w.deferredBytes) _ n hne
      (by rw [hfront]; exact h1) (by rw [hfront]; exact hbuf2)
    have h3 := take_store hbuf3
    have h4 := take_store hbuf4
    rw [hfront] at h2
    rw [ByteOrder.length_encode, h2] at h3
    rw [htake, h3] at h4
    show buf4.take _ = _
    rw [h4, List.append_assoc, List.append_assoc]

/-- A text deferred behind other packets, cut where the buffer has no room for it. -/
theorem Refines.writeStrBuff (h : Refines order w p) {text : List UInt8}
    (hok : DeferOk order w.deferredBytes w.nextCode text) :
    ∃ w', w.writeStrBuff order text = some ([], w') ∧ w'.threadId = w.threadId ∧
      Refines order w' ⟨0, p.deferred ++
        [.packet (codeField p.code) (.str (p.deferredText order w.threadId text))]⟩ := by
  obtain ⟨hroom, htext⟩ := hok
  obtain ⟨w', hcall, htid, hcode, hsize, hbytes, hbuffer⟩ := writeStrBuff_spec order text h.size hroom
  have hcut : (Writer.formatted text).take (cutLength w.deferredBytes w.nextCode text) =
      p.deferredText order w.threadId text := by
    unfold Pending.deferredText cutLength
    rw [h.length, ← h.code, List.take_eq_take_iff]
    omega
  have hlength : (p.deferredText order w.threadId text).length = cutLength w.deferredBytes w.nextCode text := by
    rw [← hcut, List.length_take]
    exact Nat.min_eq_left (Nat.min_le_left _ _)
  have hzeroed : zeroed (cutLength w.deferredBytes w.nextCode text) (w.hdrBuff order cbaStr) =
      w.hdrBuff order cbaStr := by
    rcases htext with ⟨htext, hmore⟩ | hends
    · have hpos := List.length_pos_iff.mpr htext
      have hcutPos : cutLength w.deferredBytes w.nextCode text ≠ 0 := by
        unfold cutLength
        omega
      rw [zeroed, if_neg hcutPos]
    · exact zeroed_of_endsInZero _ hends
  refine ⟨w', hcall, htid, hcode, hsize, ?_, ?_⟩
  · rw [hbytes]
    unfold cutLength
    omega
  · rw [hbuffer, h.deferred, hzeroed, hcut, ← hlength]
    have hpayload := hdrBuff_payload order w (.str (p.deferredText order w.threadId text))
    simp only [Packet.kind, Packet.payload, h.code] at hpayload
    simp only [encodeAtoms, List.flatMap_append, List.flatMap_cons, List.flatMap_nil, List.append_nil, htid]
    exact congrArg _ hpayload

/-! ### The calls that write -/

/-- What a call does to the file: nothing, or a flush and then a sequence of writes under the lock,
each of whole atoms. -/
def Emits (order : ByteOrder) (tid : UInt8) (actions : List Action) (as : List Atom) : Prop :=
  (actions = [] ∧ as = []) ∨ ∃ flushed event buffers, as = flushed ++ event ∧
    actions = (if flushed = [] then [] else [.write (encodeAtoms order tid flushed)]) ++
      Writer.locked buffers ∧ buffers.flatten = encodeAtoms order tid event

theorem Refines.flush (h : Refines order w p) :
    w.flush.1 = (if p.deferred = [] then [] else [.write (encodeAtoms order w.threadId p.deferred)]) ∧
      Refines order w.flush.2 ⟨p.code, []⟩ := by
  refine ⟨?_, h.code, h.size, Nat.zero_le _, rfl⟩
  by_cases hnil : p.deferred = []
  · simp [Writer.flush, hnil, h.deferred_nil.mpr hnil]
  · have hbytes : w.deferredBytes ≠ 0 := fun h0 => hnil (h.deferred_nil.mp h0)
    simp [Writer.flush, hnil, hbytes, h.deferred]

theorem Refines.clearCode (h : Refines order w ⟨p.code, []⟩) : Refines order w.clearCode ⟨0, []⟩ :=
  ⟨rfl, h.size, h.fits, h.deferred⟩

/-- A call that flushes, and then writes an event under the lock. -/
theorem Refines.emits (h : Refines order w p) {buffers : List (List UInt8)} {event : List Atom}
    (hevent : buffers.flatten = encodeAtoms order w.threadId event) :
    Emits order w.threadId (w.flush.1 ++ Writer.locked buffers) (p.deferred ++ event) :=
  Or.inr ⟨p.deferred, event, buffers, rfl, by rw [h.flush.1], hevent⟩

theorem encode_take (n : Nat) : (ByteOrder.little.encode 4 n).take 2 =
    ByteOrder.little.encode 2 n := rfl

/-- The chunks of `cba_data`, where the first two bytes of an `int` are the low ones. -/
theorem dataLoop_flatten (tid : UInt8) (fuel : Nat) (rest : List UInt8) (hfuel : rest.length < fuel) :
    (Writer.dataLoop .little tid fuel rest).flatten =
      encodeAtoms .little tid ((dataPieces fuel rest).map .chunk ++ [.chunk []]) := by
  induction fuel generalizing rest with
  | zero => omega
  | succ fuel ih =>
    rcases List.eq_nil_or_concat rest with rfl | ⟨_, _, hne⟩
    · rfl
    have hlen : (if rest.length > cbaMaxBuff then cbaMaxBuff else rest.length) =
        (rest.take cbaMaxBuff).length := by
      rw [List.length_take]
      split_ifs <;> omega
    have hpos : 0 < rest.length := by rw [hne]; simp
    have hcut : 0 < (rest.take cbaMaxBuff).length := by
      rw [List.length_take]
      unfold cbaMaxBuff
      omega
    have htake : rest.take (rest.take cbaMaxBuff).length = rest.take cbaMaxBuff := by
      rw [List.length_take, List.take_eq_take_iff]
      omega
    have hdrop : rest.drop (rest.take cbaMaxBuff).length = rest.drop cbaMaxBuff := by
      rw [List.length_take]
      rcases le_or_gt cbaMaxBuff rest.length with hle | hlt
      · rw [Nat.min_eq_left hle]
      · rw [Nat.min_eq_right hlt.le, List.drop_length, List.drop_eq_nil_of_le hlt.le]
    have hrest : (rest.drop cbaMaxBuff).length < fuel := by
      rw [List.length_drop]
      unfold cbaMaxBuff
      omega
    have hnil : rest ≠ [] := List.length_pos_iff.mp hpos
    simp only [Writer.dataLoop, dataPieces, hlen, htake, hdrop, encode_take, hnil, if_false,
      Nat.ne_of_gt hcut, List.flatten_cons, ih _ hrest]
    simp [encodeAtoms, Atom.bytes]

theorem fileLoop_flatten (order : ByteOrder) (tid : UInt8) (reads : List Writer.ReadResult) :
    (Writer.fileLoop order tid reads).flatten =
      encodeAtoms order tid
        (((reads.map Subtype.val).takeWhile (· ≠ [])).map .chunk ++ [.chunk []]) := by
  induction reads with
  | nil => simp [Writer.fileLoop, encodeAtoms, Atom.bytes]
  | cons buff reads ih =>
    by_cases hnil : buff.1 = []
    · simp [Writer.fileLoop, encodeAtoms, Atom.bytes, hnil]
    · have hlen : buff.1.length ≠ 0 := fun h => hnil (List.eq_nil_of_length_eq_zero h)
      simp only [Writer.fileLoop, hlen, if_false, List.flatten_cons, ih]
      simp [encodeAtoms, Atom.bytes, hnil]

theorem writeStr_flatten (order : ByteOrder) (w : Writer) (text : List UInt8) :
    [w.hdrBuff order cbaStr, order.encode 2 (Writer.formatted text).length,
        Writer.formatted text].flatten =
      encodeAtoms order w.threadId
        [.packet (codeField w.nextCode) (.str (Writer.formatted text))] := by
  have hpayload := hdrBuff_payload order w (.str (Writer.formatted text))
  simpa [encodeAtoms, Packet.kind, Packet.payload] using hpayload

/-- A flush, and then a packet with its chunks under the lock. -/
theorem Refines.emits_packet (h : Refines order w p) (pk : Packet) (buffers : List (List UInt8))
    (chunks : List Atom)
    (hbuffers : buffers.flatten = pk.payload order ++ encodeAtoms order w.threadId chunks) :
    Emits order w.threadId
      (w.flush.1 ++ Writer.locked (w.flush.2.hdrBuff order pk.kind :: buffers))
      (p.deferred ++ (.packet (codeField p.code) pk :: chunks)) := by
  apply h.emits
  have hpayload := hdrBuff_payload order w.flush.2 pk
  have hcode : w.flush.2.nextCode = p.code := h.flush.2.code
  rw [hcode] at hpayload
  rw [List.flatten_cons, hbuffers, ← List.append_assoc, hpayload]
  rfl

/-- What a call that logs an event does is what the machine says. -/
theorem Refines.log (h : Refines order w p) {event : Logged} (hok : CallOk order w (.log event)) :
    (w.log order event).2.threadId = w.threadId ∧ Refines order (w.log order event).2 ⟨0, []⟩ ∧
      Emits order w.threadId (w.log order event).1 (p.deferred ++ Pending.event p.code event) := by
  have hflush := h.flush.2
  cases event with
  | str text =>
    have hwrite := writeStr_flatten order w.flush.2 text
    rw [hflush.code] at hwrite
    exact ⟨rfl, hflush.clearCode, h.emits hwrite⟩
  | data buffer =>
    have hloop : (Writer.dataLoop order w.threadId (buffer.length + 1) buffer).flatten =
        encodeAtoms order w.threadId
          ((dataPieces (buffer.length + 1) buffer).map .chunk ++ [.chunk []]) := by
      rcases hok with rfl | rfl
      · exact dataLoop_flatten _ _ _ (Nat.lt_succ_self _)
      · cases order <;> rfl
    exact ⟨rfl, hflush.clearCode, h.emits_packet .data _ _ hloop⟩
  | file name reads =>
    have hname : (name.take (name.length % 65536)).length = name.length % 65536 := by
      rw [List.length_take, Nat.min_eq_left (Nat.mod_le _ _)]
    refine ⟨rfl, hflush.clearCode, h.emits_packet
      (.file (name.take (name.length % 65536))) _ _ ?_⟩
    rw [List.flatten_cons, List.flatten_cons]
    refine (congrArg (fun bytes => order.encode 2 (name.length % 65536) ++
      (name.take (name.length % 65536) ++ bytes)) (fileLoop_flatten order w.threadId reads)).trans ?_
    rw [Packet.payload, hname, List.append_assoc]
  | int32 num =>
    exact ⟨rfl, hflush.clearCode, h.emits_packet (.int32 num) [_] [] (by simp [Packet.payload, encodeAtoms])⟩
  | int64 num =>
    exact ⟨rfl, hflush.clearCode, h.emits_packet (.int64 num) [_] []
      (by simp [Packet.payload, encodeAtoms])⟩
  | bit c =>
    have hset : Refines order (w.code c).2 ⟨c, p.deferred⟩ := ⟨rfl, h.size, h.fits, h.deferred⟩
    exact ⟨rfl, hset.flush.2.clearCode, hset.emits_packet .bit [] [] rfl⟩

/-- What a call does is what the machine says, and the variables keep what is pending. -/
theorem Refines.call (h : Refines order w p) {c : Call} (hok : CallOk order w c) :
    ∃ actions w', w.call order c = some (actions, w') ∧ w'.threadId = w.threadId ∧
      Refines order w' (p.next order w.threadId c) ∧ Emits order w.threadId actions (p.out c) := by
  cases c with
  | head module =>
    obtain ⟨w', hcall, htid, hrefines⟩ := h.head module
    exact ⟨[], w', hcall, htid, hrefines, Or.inl ⟨rfl, rfl⟩⟩
  | code c => exact ⟨[], _, rfl, rfl, ⟨rfl, h.size, h.fits, h.deferred⟩, Or.inl ⟨rfl, rfl⟩⟩
  | deferStr text =>
    by_cases hnil : p.deferred = []
    · have hbytes := h.deferred_nil.mpr hnil
      have hwrite := writeStr_flatten order w text
      rw [h.code] at hwrite
      refine ⟨(w.writeStr order text).1, w.clearCode, ?_, rfl, ?_, ?_⟩
      · simp [Writer.call, Writer.deferStr, hbytes, Writer.writeStr]
      · simp only [Pending.next, hnil, if_true]
        exact ⟨rfl, h.size, h.fits, by rw [← hnil]; exact h.deferred⟩
      · simp only [Pending.out, hnil, if_true]
        exact Or.inr ⟨[], _, _, rfl, rfl, hwrite⟩
    · have hbytes : w.deferredBytes ≠ 0 := fun h0 => hnil (h.deferred_nil.mp h0)
      obtain ⟨w', hcall, htid, hrefines⟩ := h.writeStrBuff (hok.resolve_left hbytes)
      refine ⟨[], w', ?_, htid, ?_, ?_⟩
      · simpa [Writer.call, Writer.deferStr, hbytes] using hcall
      · simpa only [Pending.next, hnil, if_false] using hrefines
      · simp only [Pending.out, hnil, if_false]
        exact Or.inl ⟨rfl, rfl⟩
  | log event =>
    obtain ⟨htid, hrefines, hemits⟩ := h.log hok
    exact ⟨_, _, rfl, htid, hrefines, hemits⟩

theorem Emits.written {tid : UInt8} {actions : List Action} {as : List Atom}
    (h : Emits order tid actions as) : written actions = encodeAtoms order tid as := by
  rcases h with ⟨rfl, rfl⟩ | ⟨flushed, event, buffers, rfl, rfl, hbuffers⟩
  · rfl
  · have hlocked : Cba.written (Writer.locked buffers) = buffers.flatten := by
      simp only [Cba.written, Writer.locked, List.flatMap_cons, List.nil_append, List.flatMap_append,
        List.flatMap_map, List.flatMap_nil, List.append_nil]
      exact List.flatMap_id
    have hflush : Cba.written (if flushed = [] then [] else [.write (encodeAtoms order tid flushed)]) =
        encodeAtoms order tid flushed := by
      split_ifs with hnil
      · rw [hnil]
        rfl
      · simp [Cba.written]
    have happend : ∀ as bs : List Action, Cba.written (as ++ bs) = Cba.written as ++ Cba.written bs :=
      fun as bs => List.flatMap_append
    rw [happend, hflush, hlocked, hbuffers]
    simp [encodeAtoms]

/-- As `CallOk`, in terms of what is pending. -/
def PendingOk (order : ByteOrder) (tid : UInt8) (p : Pending) : Call → Prop
  | .deferStr text => p.deferred = [] ∨
      DeferOk order (encodeAtoms order tid p.deferred).length p.code text
  | .log (.data buffer) => order = .little ∨ buffer = []
  | _ => True

def PendingsOk (order : ByteOrder) (tid : UInt8) : Pending → List Call → Prop
  | _, [] => True
  | p, c :: cs => PendingOk order tid p c ∧ PendingsOk order tid (p.next order tid c) cs

theorem PendingsOk.append {tid : UInt8} {cs ds : List Call} (hcs : PendingsOk order tid p cs)
    (hds : PendingsOk order tid ((emitter order tid).run p cs) ds) :
    PendingsOk order tid p (cs ++ ds) := by
  induction cs generalizing p with
  | nil => exact hds
  | cons c cs ih => exact ⟨hcs.1, ih hcs.2 hds⟩

theorem Refines.callOk (h : Refines order w p) {c : Call} (hok : PendingOk order w.threadId p c) :
    CallOk order w c := by
  cases c with
  | head module => trivial
  | code c => trivial
  | deferStr text =>
    refine Or.imp h.deferred_nil.mpr (fun hroom => ?_) hok
    rw [← h.length, h.code]
    exact hroom
  | log event => cases event <;> exact hok

/-- What a list of calls appends is what the machine gives. -/
theorem Refines.calls (h : Refines order w p) {cs : List Call}
    (hok : PendingsOk order w.threadId p cs) :
    ∃ actions w', w.calls order cs = some (actions, w') ∧
      written actions = encodeAtoms order w.threadId ((emitter order w.threadId).outs p cs) := by
  induction cs generalizing w p with
  | nil => exact ⟨[], w, rfl, rfl⟩
  | cons c cs ih =>
    obtain ⟨actions, w', hcall, htid, hrefines, hemits⟩ := h.call (h.callOk hok.1)
    rw [← htid] at hrefines
    obtain ⟨more, w'', hcalls, hwritten⟩ := ih hrefines (by rw [htid]; exact hok.2)
    refine ⟨actions ++ more, w'', ?_, ?_⟩
    · simp [Writer.calls, hcall, hcalls]
    · have happend : written (actions ++ more) = written actions ++ written more := List.flatMap_append
      rw [happend, hemits.written, hwritten, Machine.outs_cons, htid]
      simp [encodeAtoms, emitter]

end Calls

/-! ### What threads emit is well-formed -/

theorem Follows.append {streaming : Bool} {as bs : List Atom} (h : Follows streaming as)
    (hbs : Follows false bs) : Follows streaming (as ++ bs) := by
  induction as generalizing streaming with
  | nil =>
    obtain rfl : streaming = false := h
    exact hbs
  | cons a as ih => exact ⟨h.1, ih h.2⟩

theorem follows_chunks {pieces : List (List UInt8)} (h : ∀ b ∈ pieces, b ≠ [] ∧ b.length < 65536) :
    Follows true (pieces.map .chunk ++ [.chunk []]) := by
  induction pieces with
  | nil => exact ⟨Nat.zero_lt_succ _, rfl⟩
  | cons b pieces ih =>
    obtain ⟨hne, hlen⟩ := h b List.mem_cons_self
    refine ⟨hlen, ?_⟩
    have hopen : (Atom.chunk b).leavesOpen = true := by simpa [Atom.leavesOpen] using hne
    rw [hopen]
    exact ih fun b hb => h b (List.mem_cons_of_mem _ hb)

theorem flatten_dataPieces {fuel : Nat} {rest : List UInt8} (hfuel : rest.length < fuel) :
    (dataPieces fuel rest).flatten = rest := by
  induction fuel generalizing rest with
  | zero => omega
  | succ fuel ih =>
    rw [dataPieces]
    split_ifs with hnil
    · rw [hnil]
      rfl
    · have hpos := List.length_pos_iff.mpr hnil
      have hdrop : (rest.drop cbaMaxBuff).length < fuel := by
        rw [List.length_drop]
        unfold cbaMaxBuff
        omega
      rw [List.flatten_cons, ih hdrop, List.take_append_drop]

theorem dataPieces_bound (fuel : Nat) (rest : List UInt8) :
    ∀ b ∈ dataPieces fuel rest, b ≠ [] ∧ b.length < 65536 := by
  induction fuel generalizing rest with
  | zero => simp [dataPieces]
  | succ fuel ih =>
    intro b hb
    unfold dataPieces at hb
    split_ifs at hb with hnil
    · simp at hb
    · rcases List.mem_cons.mp hb with rfl | hb
      · have hpos := List.length_pos_iff.mpr hnil
        have hlen := List.length_take (i := cbaMaxBuff) (l := rest)
        have hmax : cbaMaxBuff = 32768 := rfl
        exact ⟨List.length_pos_iff.mp (by omega), by omega⟩
      · exact ih _ b hb

theorem event_follows (code : Int32) (event : Logged) : Follows false (Pending.event code event) := by
  cases event with
  | str text =>
    have hlen := formatted_length text
    have hmax : cbaMaxBuff = 32768 := rfl
    have hfits : (Packet.str (Writer.formatted text)).Fits := by
      show (Writer.formatted text).length < 65536
      omega
    exact ⟨hfits, rfl⟩
  | data buffer => exact ⟨trivial, follows_chunks (dataPieces_bound _ _)⟩
  | file name reads =>
    refine ⟨?_, follows_chunks ?_⟩
    · show (name.take (name.length % 65536)).length < 65536
      rw [List.length_take]
      omega
    · intro b hb
      have hmem := (List.takeWhile_sublist _).subset hb
      obtain ⟨r, -, rfl⟩ := List.mem_map.mp hmem
      have hmax : cbaMaxBuff = 32768 := rfl
      exact ⟨by simpa using List.mem_takeWhile_imp hb, by have := r.2; omega⟩
  | int32 num => exact ⟨trivial, rfl⟩
  | int64 num => exact ⟨trivial, rfl⟩
  | bit c => exact ⟨trivial, rfl⟩

/-- The deferred packets, and what a call emits, are whole packets and streams. -/
theorem emitter_follows (order : ByteOrder) (tid : UInt8) {p : Pending} (h : Follows false p.deferred)
    (c : Call) : Follows false (p.next order tid c).deferred ∧ Follows false (p.out c) := by
  cases c with
  | head module =>
    refine ⟨⟨?_, rfl⟩, rfl⟩
    show (module.take (module.length % 256)).length < 256
    rw [List.length_take]
    omega
  | code c => exact ⟨h, rfl⟩
  | deferStr text =>
    have hlen := formatted_length text
    have hmax : cbaMaxBuff = 32768 := rfl
    simp only [Pending.next, Pending.out]
    split_ifs with hnil
    · refine ⟨rfl, ?_, rfl⟩
      show (Writer.formatted text).length < 65536
      omega
    · refine ⟨h.append ⟨?_, rfl⟩, rfl⟩
      show (p.deferredText order tid text).length < 65536
      rw [Pending.deferredText, List.length_take]
      omega
  | log event => exact ⟨rfl, h.append (event_follows _ _)⟩

theorem outs_follows (order : ByteOrder) (tid : UInt8) {p : Pending} (h : Follows false p.deferred)
    (cs : List Call) : Follows false ((emitter order tid).outs p cs) := by
  induction cs generalizing p with
  | nil => rfl
  | cons c cs ih =>
    obtain ⟨hnext, hout⟩ := emitter_follows order tid h c
    exact hout.append (ih hnext)

end Cscan.Cba
