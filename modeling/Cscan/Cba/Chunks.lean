import Cscan.Cba.Decode
import Cscan.Cba.Emit

/-! The chunk parts that `cba_data` and `cba_file` write, and what the reader makes of them while a stream of the
thread is open. -/

namespace Cscan.Cba

open Cscan.Lib
open Reader (withRest)

/-- `read_packet` until the stream of the thread is closed, for at most `fuel` turns. -/
def readStream (cfg : Config) (tid : UInt8) : Nat → M Unit
  | 0 => pure ()
  | fuel + 1 => do
    readPacket cfg
    if (← getThread tid).curStream = .none then pure () else readStream cfg tid fuel

/-- The object after the chunks of `content` in the open stream of thread `tid`. -/
def Reader.afterStream (cfg : Config) (s : Reader) (tid : UInt8) (content : List UInt8) : Reader :=
  let ts := { s.state tid with curStream := (s.state tid).curStream.write content }
  { s.set tid ts.close with saved := s.saved ++ (ts.saves cfg (.chunk [])).map (Prod.mk tid) }

/-! ### Reading chunks -/

theorem Stream.write_ne_none {stream : Stream} (h : stream ≠ .none) (b : List UInt8) :
    stream.write b ≠ .none := by
  cases stream with
  | none => exact absurd rfl h
  | _ => simp [Stream.write]

variable {cfg : Config} {s : Reader} {tid : UInt8}

theorem after_chunk (htid : tid ∈ s.tids) {b : List UInt8} (hb : b ≠ []) :
    s.after cfg tid (.chunk b) = s.set tid { s.state tid with curStream := (s.state tid).curStream.write b } := by
  obtain ⟨c, b, rfl⟩ := List.exists_cons_of_ne_nil hb
  simp [Reader.after, ThreadState.next, ThreadState.opensFile, ThreadState.yields,
    ThreadState.saves, Reader.set, htid]

theorem after_empty (htid : tid ∈ s.tids) : s.after cfg tid (.chunk []) = s.afterStream cfg tid [] := by
  simp [Reader.after, Reader.afterStream, ThreadState.next, ThreadState.opensFile,
    ThreadState.yields, Reader.set, htid]

theorem afterStream_set (b content : List UInt8) :
    (s.set tid { s.state tid with curStream := (s.state tid).curStream.write b }).afterStream cfg tid content =
      s.afterStream cfg tid (b ++ content) := by
  simp [Reader.afterStream, Stream.write_write, Reader.set]

theorem close_curStream (ts : ThreadState) : ts.close.curStream = .none := by
  unfold ThreadState.close
  split <;> rfl

theorem ready_chunk (htid : tid ∈ s.tids) (hsound : (s.state tid).Sound)
    (hopen : (s.state tid).curStream ≠ .none)
    {b : List UInt8} (hb : b.length < 65536) : s.Ready cfg tid (.chunk b) where
  fresh := fun hnot => absurd htid hnot
  sound := hsound
  allowed := by simpa [ThreadState.streaming, hopen, Atom.Allowed] using hb
  takesName := trivial

/-- Chunks in an open stream are read as their content, up to the empty one and not beyond it. -/
theorem readStream_chunks (htid : tid ∈ s.tids) (hsound : (s.state tid).Sound)
    (hopen : (s.state tid).curStream ≠ .none) {pieces : List (List UInt8)}
    (hpieces : ∀ b ∈ pieces, b ≠ [] ∧ b.length < 65536) {fuel : Nat} (hfuel : pieces.length < fuel) :
    Reads withRest (readStream cfg tid fuel) s
      (encodeAtoms s.order tid (pieces.map .chunk ++ [.chunk []])) ()
      (s.afterStream cfg tid pieces.flatten) := by
  induction pieces generalizing s fuel with
  | nil =>
    obtain ⟨fuel, rfl⟩ : ∃ n, fuel = n + 1 := ⟨fuel - 1, by omega⟩
    have hready : s.Ready cfg tid (.chunk []) := ready_chunk htid hsound hopen (by simp)
    have hread := readPacket_reads hready trivial
    rw [after_empty htid] at hread
    have hbytes : encodeAtoms s.order tid ([].map .chunk ++ [.chunk []]) =
      (Atom.chunk []).bytes s.order tid := by
      simp [encodeAtoms]
    rw [hbytes]
    apply hread.last
    apply (reads_getThread _ tid).step
    rw [if_pos (by simp [Reader.afterStream, close_curStream, Reader.set])]
    exact Reads.pure _ _
  | cons b pieces ih =>
    obtain ⟨fuel, rfl⟩ : ∃ n, fuel = n + 1 := ⟨fuel - 1, by omega⟩
    obtain ⟨⟨hne, hlen⟩, hrest⟩ := List.forall_mem_cons.mp hpieces
    have hready : s.Ready cfg tid (.chunk b) := ready_chunk htid hsound hopen hlen
    have hread := readPacket_reads hready trivial
    rw [after_chunk htid hne] at hread
    have hopen' := Stream.write_ne_none hopen b
    have hsound' := ThreadState.next_sound cfg (cfg.opens s.attempts) (s.state tid) hready.allowed hsound
    rw [ThreadState.next, if_neg hne] at hsound'
    have hchunks := @ih (s.set tid { s.state tid with curStream := (s.state tid).curStream.write b }) htid
      (by simpa using hsound') (by simpa using hopen') hrest fuel (by simpa using hfuel)
    rw [afterStream_set] at hchunks
    have hbytes : encodeAtoms s.order tid ((b :: pieces).map .chunk ++ [.chunk []]) =
        (Atom.chunk b).bytes s.order tid ++ encodeAtoms s.order tid
          (pieces.map .chunk ++ [.chunk []]) := rfl
    rw [hbytes, List.flatten_cons]
    apply hread.bind
    apply (reads_getThread _ tid).step
    rw [if_neg (by simpa using hopen')]
    exact hchunks

/-! ### Writing chunks -/

def dataStream (order : ByteOrder) (tid : UInt8) (content : List UInt8) : List UInt8 :=
  (Writer.dataLoop order tid (content.length + 1) content).flatten

def fileStream (order : ByteOrder) (tid : UInt8) (reads : List Writer.ReadResult) : List UInt8 :=
  (Writer.fileLoop order tid reads).flatten

/-- The content as `read` splits it: no piece is empty. -/
def Splits (reads : List Writer.ReadResult) (content : List UInt8) : Prop :=
  (∀ b ∈ reads, b.1 ≠ []) ∧ (reads.map Subtype.val).flatten = content

/-- The pieces are full buffers, but maybe the last one. -/
def FullBuffers (reads : List Writer.ReadResult) : Prop := ∀ b ∈ reads.dropLast, b.1.length = cbaMaxBuff

/-- The stream of an open `CBA_DATA` is read as an event with the content, in a file with the mark of the writer's
order, and whatever follows it. -/
def DecodesData (order : ByteOrder) (tid : UInt8) (stream content : List UInt8) : Prop :=
  ∀ (cfg : Config) (file : List UInt8) (s : Reader) (tail : List UInt8),
    s.order = (newReader (mark order :: file)).order → tid ∈ s.tids → (s.state tid).curType = cbaData →
      (s.state tid).curStream = .data [] → ∀ turns ≥ stream.length,
        readStream cfg tid turns (withRest (stream ++ tail) s) = .ok () (withRest tail
          (s.set tid { (s.state tid).addEvent cbaData (s.state tid).curCode (.bytes content) with curStream := .none }))

/-- The stream of an open `CBA_FILE` is read as an output file with the content. -/
def DecodesFile (order : ByteOrder) (tid : UInt8) (stream content : List UInt8) : Prop :=
  ∀ (cfg : Config) (file : List UInt8) (s : Reader) (path : List Char) (tail : List UInt8),
    s.order = (newReader (mark order :: file)).order → tid ∈ s.tids → (s.state tid).curType = cbaFile →
      (s.state tid).curStream = .file path [] → ∀ turns ≥ stream.length,
        readStream cfg tid turns (withRest (stream ++ tail) s) = .ok () (withRest tail
          { s.set tid { s.state tid with curStream := .none } with
            saved := s.saved ++ [(tid, ⟨path, cfg.overwrite, content⟩)] })

def EndsOnce (order : ByteOrder) (tid : UInt8) (stream : List UInt8) : Prop :=
  ∃ pieces : List (List UInt8), (∀ b ∈ pieces, b ≠ []) ∧
    stream = encodeAtoms order tid (pieces.map .chunk ++ [.chunk []])

/-- Both encoders write chunks of the content and one empty chunk, the reader gives the content back, and for full
buffers they write the same bytes. -/
structure SameStream (order : ByteOrder) (tid : UInt8) (content : List UInt8) : Prop where
  data : DecodesData order tid (dataStream order tid content) content
  file : ∀ reads, Splits reads content → DecodesFile order tid (fileStream order tid reads) content
  dataEnds : EndsOnce order tid (dataStream order tid content)
  fileEnds : ∀ reads, Splits reads content → EndsOnce order tid (fileStream order tid reads)
  equal : ∀ reads, Splits reads content → FullBuffers reads →
    fileStream order tid reads = dataStream order tid content

variable {order : ByteOrder} {content : List UInt8} {pieces : List (List UInt8)} {reads : List Writer.ReadResult}

theorem newReader_order (order : ByteOrder) (file : List UInt8) :
    (newReader (mark order :: file)).order = order := by
  cases order <;> rfl

theorem length_chunks (order : ByteOrder) (tid : UInt8) (pieces : List (List UInt8)) :
    pieces.length < (encodeAtoms order tid (pieces.map .chunk ++ [.chunk []])).length := by
  induction pieces with
  | nil => simp [encodeAtoms, Atom.bytes]
  | cons b pieces ih =>
    have hpos := length_bytes_pos order tid (.chunk b)
    rw [List.map_cons, List.cons_append, encodeAtoms, List.flatMap_cons, List.length_append,
      List.length_cons]
    rw [encodeAtoms] at ih
    omega

/-- What the turns of the reader make of whole chunks. -/
theorem readStream_ok {s : Reader} (cfg : Config) (horder : s.order = order) (htid : tid ∈ s.tids)
    (hsound : (s.state tid).Sound) (hopen : (s.state tid).curStream ≠ .none)
    (hpieces : ∀ b ∈ pieces, b ≠ [] ∧ b.length < 65536) (tail : List UInt8) {turns : Nat}
    (hturns : (encodeAtoms order tid (pieces.map .chunk ++ [.chunk []])).length ≤ turns) :
    readStream cfg tid turns (withRest (encodeAtoms order tid (pieces.map .chunk ++ [.chunk []]) ++ tail) s) =
      .ok () (withRest tail (s.afterStream cfg tid pieces.flatten)) := by
  subst horder
  have hlength := length_chunks s.order tid pieces
  exact readStream_chunks htid hsound hopen hpieces (by omega) tail

theorem decodesData_chunks (order : ByteOrder) (tid : UInt8)
    (hpieces : ∀ b ∈ pieces, b ≠ [] ∧ b.length < 65536) :
    DecodesData order tid (encodeAtoms order tid (pieces.map .chunk ++ [.chunk []])) pieces.flatten := by
  intro cfg file s tail horder htid htype hstream turns hturns
  rw [newReader_order] at horder
  rw [readStream_ok cfg horder htid (by simp [ThreadState.Sound, hstream, htype])
    (by simp [hstream]) hpieces tail hturns]
  simp [Reader.afterStream, hstream, Stream.write, ThreadState.close, ThreadState.saves,
    ThreadState.addEvent, Reader.set]

theorem decodesFile_chunks (order : ByteOrder) (tid : UInt8)
    (hpieces : ∀ b ∈ pieces, b ≠ [] ∧ b.length < 65536) :
    DecodesFile order tid (encodeAtoms order tid (pieces.map .chunk ++ [.chunk []])) pieces.flatten := by
  intro cfg file s path tail horder htid htype hstream turns hturns
  rw [newReader_order] at horder
  rw [readStream_ok cfg horder htid
    (by simp [ThreadState.Sound, hstream, htype, cbaFile, cbaData]) (by simp [hstream]) hpieces tail
    hturns]
  simp [Reader.afterStream, hstream, Stream.write, ThreadState.close, ThreadState.saves, Reader.set]

/-! ### What the encoders write -/

/-- Full buffers are the pieces that `cba_data` takes. -/
theorem dataPieces_of_full {fuel : Nat} (hne : ∀ b ∈ pieces, b ≠ [] ∧ b.length ≤ cbaMaxBuff)
    (hfull : ∀ b ∈ pieces.dropLast, b.length = cbaMaxBuff) (hfuel : pieces.flatten.length < fuel) :
    dataPieces fuel pieces.flatten = pieces := by
  induction pieces generalizing fuel with
  | nil =>
    obtain ⟨fuel, rfl⟩ : ∃ n, fuel = n + 1 := ⟨fuel - 1, by omega⟩
    rfl
  | cons b pieces ih =>
    obtain ⟨fuel, rfl⟩ : ∃ n, fuel = n + 1 := ⟨fuel - 1, by omega⟩
    obtain ⟨⟨hb, hmax⟩, hrest⟩ := List.forall_mem_cons.mp hne
    have hpos := List.length_pos_iff.mpr hb
    have hcut : (b ++ pieces.flatten).take cbaMaxBuff = b ∧
      (b ++ pieces.flatten).drop cbaMaxBuff = pieces.flatten := by
      cases pieces with
      | nil =>
        rw [List.flatten_nil, List.append_nil]
        exact ⟨List.take_of_length_le hmax, List.drop_of_length_le hmax⟩
      | cons b' pieces =>
        have hlen : b.length = cbaMaxBuff := hfull b
          (by rw [List.dropLast_cons_cons]; exact List.mem_cons_self)
        exact ⟨List.take_left' hlen, List.drop_left' hlen⟩
    have hlater : ∀ d ∈ pieces.dropLast, d.length = cbaMaxBuff := fun d hd => by
      cases pieces with
      | nil => cases hd
      | cons b' pieces =>
        exact hfull d (by rw [List.dropLast_cons_cons]; exact List.mem_cons_of_mem _ hd)
    rw [List.flatten_cons, List.length_append] at hfuel
    rw [List.flatten_cons, dataPieces, if_neg (List.append_ne_nil_of_left_ne_nil hb _), hcut.1, hcut.2,
      ih hrest hlater (by omega)]

theorem dataStream_eq (tid : UInt8) (horder : order = .little ∨ content = []) :
    dataStream order tid content =
      encodeAtoms order tid ((dataPieces (content.length + 1) content).map .chunk ++ [.chunk []]) := by
  rcases horder with rfl | rfl
  · exact dataLoop_flatten tid _ content (Nat.lt_succ_self _)
  · cases order <;> rfl

theorem fileStream_eq (order : ByteOrder) (tid : UInt8) (h : Splits reads content) :
    fileStream order tid reads = encodeAtoms order tid
      ((reads.map Subtype.val).map .chunk ++ [.chunk []]) := by
  have hall : (reads.map Subtype.val).takeWhile (· ≠ []) = reads.map Subtype.val := by
    rw [List.takeWhile_eq_self_iff]
    intro b hb
    obtain ⟨r, hr, rfl⟩ := List.mem_map.mp hb
    exact decide_eq_true (h.1 r hr)
  rw [fileStream, fileLoop_flatten, hall]

theorem Splits.bounded (h : Splits reads content) :
    ∀ b ∈ reads.map Subtype.val, b ≠ [] ∧ b.length ≤ cbaMaxBuff := by
  intro b hb
  obtain ⟨r, hr, rfl⟩ := List.mem_map.mp hb
  exact ⟨h.1 r hr, r.2⟩

theorem sameStream_of (tid : UInt8) (horder : order = .little ∨ content = []) :
    SameStream order tid content := by
  have hmax : cbaMaxBuff = 32768 := rfl
  have hdata := dataStream_eq tid horder
  have hbound := dataPieces_bound (content.length + 1) content
  have hshort : ∀ {reads}, Splits reads content → ∀ b ∈ reads.map Subtype.val, b ≠ [] ∧ b.length < 65536 :=
    fun h b hb => ⟨(h.bounded b hb).1, by have := (h.bounded b hb).2; omega⟩
  refine ⟨?_, fun reads h => ?_, ?_, fun reads h => ?_, fun reads h hfull => ?_⟩
  · have hdecodes := decodesData_chunks order tid hbound
    rwa [flatten_dataPieces (Nat.lt_succ_self _), ← hdata] at hdecodes
  · have hdecodes := decodesFile_chunks order tid (hshort h)
    rwa [h.2, ← fileStream_eq order tid h] at hdecodes
  · exact ⟨_, fun b hb => (hbound b hb).1, hdata⟩
  · exact ⟨_, fun b hb => (h.bounded b hb).1, fileStream_eq order tid h⟩
  · have hfull' : ∀ b ∈ (reads.map Subtype.val).dropLast, b.length = cbaMaxBuff := by
      rw [← List.map_dropLast]
      intro b hb
      obtain ⟨r, hr, rfl⟩ := List.mem_map.mp hb
      exact hfull r hr
    have hpieces := dataPieces_of_full h.bounded hfull' (show _ < content.length + 1 by rw [h.2]; omega)
    rw [h.2] at hpieces
    rw [fileStream_eq order tid h, hdata, hpieces]

/-! ### A machine of the other order -/

theorem big_take {n : Nat} (hn : n < 65536) : (ByteOrder.big.encode 4 n).take 2 = [0, 0] := by
  have hhigh : n / 256 / 256 = 0 := by omega
  simp [ByteOrder.encode, lowBytes, hhigh]

/-- The length of the first chunk is read as 0, and the stream ends in front of its bytes. -/
theorem dataStream_big (tid : UInt8) (hne : content ≠ []) :
    ∃ rest, rest ≠ [] ∧ dataStream .big tid content = encodeAtoms .big tid [.chunk []] ++ rest := by
  have hpos := List.length_pos_iff.mpr hne
  have hmax : cbaMaxBuff = 32768 := rfl
  obtain ⟨n, hn⟩ : ∃ n, n = if content.length > cbaMaxBuff then cbaMaxBuff else content.length := ⟨_, rfl⟩
  have hbounds : 0 < n ∧ n < 65536 ∧ n ≤ content.length := by
    rw [hn]
    split_ifs <;> omega
  have hchunk : content.take n ≠ [] := List.ne_nil_of_length_pos (by rw [List.length_take]; omega)
  refine ⟨_, List.append_ne_nil_of_left_ne_nil hchunk
    (Writer.dataLoop .big tid content.length (content.drop n)).flatten, ?_⟩
  simp only [dataStream, Writer.dataLoop, ← hn]
  rw [if_neg (by omega), big_take hbounds.2.1]
  rfl

/-- A reader of a big-endian file, behind the header of a `CBA_DATA` packet. -/
def openReader (tid : UInt8) : Reader :=
  { newReader [66] with tids := [tid], state := fun _ => { curType := cbaData, curStream := .data [] } }

theorem not_sameStream_big (tid : UInt8) (hne : content ≠ []) : ¬ SameStream .big tid content := by
  intro h
  obtain ⟨rest, hrest, hstream⟩ := dataStream_big tid hne
  have hlength : (encodeAtoms .big tid [.chunk []]).length ≤ (dataStream .big tid content).length := by
    rw [hstream, List.length_append]
    omega
  let cfg : Config := ⟨[], [], false, fun _ => false⟩
  have hdata := h.data cfg [] (openReader tid) [] rfl List.mem_cons_self rfl rfl _ (Nat.le_refl _)
  have hread := @readStream_ok tid .big [] (openReader tid) cfg rfl List.mem_cons_self
    (by simp [openReader, ThreadState.Sound]) (by simp [openReader])
    (by simp) rest _ hlength
  have hbytes : encodeAtoms .big tid (([] : List (List UInt8)).map .chunk ++ [.chunk []]) ++ rest =
      dataStream .big tid content ++ [] := by
    rw [hstream, List.append_nil]
    rfl
  rw [hbytes, hdata] at hread
  -- the bytes of the chunk are left
  have hleft : [] = rest := congrArg Reader.rest (EStateM.Result.ok.inj hread).2
  exact hrest hleft.symm

/-- The chunks of `cba_data` are read back exactly on a machine whose first two bytes of an `int` are the low ones,
or where there is no content. -/
theorem same_stream_iff (order : ByteOrder) (tid : UInt8) (content : List UInt8) :
    SameStream order tid content ↔ order = .little ∨ content = [] := by
  refine ⟨fun h => ?_, sameStream_of tid⟩
  by_contra hnot
  rw [not_or] at hnot
  cases order with
  | little => exact hnot.1 rfl
  | big => exact not_sameStream_big tid hnot.2 h

/-- The content 1, 2, 3 on a big-endian machine: the reader ends the stream without it. -/
theorem big_content_lost :
    dataStream .big 7 [1, 2, 3] = [7, 0, 0, 1, 2, 3, 7, 0, 0] ∧
      fileStream .big 7 [⟨[1, 2, 3], by decide⟩] = [7, 0, 3, 1, 2, 3, 7, 0, 0] ∧
      ¬ SameStream .big 7 [1, 2, 3] :=
  ⟨by decide, by decide, not_sameStream_big 7 (List.cons_ne_nil 1 _)⟩

end Cscan.Cba
