import Cscan.Cba.Deinterleave
import Cscan.Lib.Begins
import Cscan.Lib.Triple

/-! Files that end inside of a packet, as a process leaves them that is killed while it writes. The reader takes the
packets that are whole; then it raises an exception, or it takes a text that is shorter. -/

namespace Cscan.Cba

open Cscan.Lib
open Reader (withRest)

/-! ### Reading what is too short -/

theorem read_short {n : Nat} {bs : List UInt8} (h : bs.length ≤ n) (s : Reader) :
    read n (withRest bs s) = .ok bs (withRest [] s) := by
  simp [read, withRest, List.take_of_length_le h, List.drop_of_length_le h]

theorem readWord_short {w : Nat} {bs : List UInt8} (h : bs.length < w) (s : Reader) :
    readWord w (withRest bs s) = .error .struct (withRest [] s) := by
  refine (bind_ok (read_short h.le s)).trans ?_
  rw [unpack, if_neg h.ne]

theorem readInt_short {w : Nat} {bs : List UInt8} (h : bs.length < w) (s : Reader) :
    readInt w (withRest bs s) = .error .struct (withRest [] s) := by
  refine (bind_ok (read_short h.le s)).trans ?_
  rw [unpackInt, if_neg h.ne]

/-- A proper prefix of two lists in a row ends in the first of them, or in the second. -/
theorem prefix_append_cases {bs cs st : List UInt8} (h : st <+: bs ++ cs) (hlt : st.length < (bs ++ cs).length) :
    st.length < bs.length ∨ ∃ st', st = bs ++ st' ∧ st' <+: cs ∧ st'.length < cs.length := by
  by_cases hshort : st.length < bs.length
  · exact Or.inl hshort
  · obtain ⟨st', rfl⟩ := List.prefix_of_prefix_length_le (List.prefix_append bs cs) h (Nat.le_of_not_lt hshort)
    simp only [List.length_append] at hlt
    exact Or.inr ⟨st', rfl, (List.prefix_append_right_inj bs).mp h, by omega⟩

/-- What a packet is read as whose text or name is cut off. -/
inductive Packet.Cut : Packet → Packet → Prop
  | head {name name' : List UInt8} (h : name' <+: name) : Cut (.head name) (.head name')
  | str {text text' : List UInt8} (h : text' <+: text) : Cut (.str text) (.str text')

theorem readHead_torn (s : Reader) (tid : UInt8) {name st : List UInt8} (hfits : name.length < 256)
    (hascii : name.all (· < 128) = true) (h : st <+: [UInt8.ofNat name.length] ++ name)
    (hlt : st.length < ([UInt8.ofNat name.length] ++ name).length) :
    (∃ s', readHead tid (withRest st s) = .error .struct s' ∧ s'.yielded = (s.afterResult tid).yielded) ∨
      ∃ name', name' <+: name ∧
        readHead tid (withRest st s) =
          .ok () (withRest [] ((s.afterResult tid).set tid { module := latin1 name' })) := by
  have hlength : (UInt8.ofNat name.length).toNat = name.length := by
    rw [UInt8.toNat_ofNat', Nat.mod_eq_of_lt hfits]
  unfold readHead
  rw [← List.nil_append st, (reads_result s tid).bind_eq, ← List.nil_append st,
    (reads_setThread (s.afterResult tid) tid {}).bind_eq]
  rcases prefix_append_cases h hlt with hshort | ⟨name', rfl, hname, hless⟩
  · exact Or.inl ⟨_, bind_error (readWord_short hshort _), rfl⟩
  · refine Or.inr ⟨name', hname, ?_⟩
    have hne : name.length ≠ 0 := by omega
    have hascii' : name'.all (· < 128) = true := List.all_eq_true.mpr fun b hb =>
      List.all_eq_true.mp hascii b (hname.subset hb)
    rw [(reads_byte _ _).bind_eq, hlength, if_neg hne, bind_ok (read_short hless.le _)]
    refine ((reads_ascii _ hascii').bind_eq _ []).trans ?_
    refine ((reads_getThread _ tid).bind_eq _ []).trans ?_
    rw [Reader.set_state_self]
    exact reads_setThread_set _ tid _ _ []

/-- A step raises the exception with the entries that were yielded, and maybe those of the step. -/
def Raises (x : M Unit) (s s' : Reader) (stump : List UInt8) : Prop :=
  ∃ t, x (withRest stump s) = .error .struct t ∧ (t.yielded = s.yielded ∨ t.yielded = s'.yielded)

theorem readBody_torn (cfg : Config) (s : Reader) (tid : UInt8) (code : Nat) {p : Packet} {st : List UInt8}
    (hfits : p.Fits) (hascii : p.Ascii) (hfile : ∀ name, p ≠ .file name) (h : st <+: p.payload s.order)
    (hlt : st.length < (p.payload s.order).length) :
    Raises (readBody cfg tid p.kind code) s (s.afterPacket cfg tid code p) st ∨
      ∃ p', p.Cut p' ∧
        readBody cfg tid p.kind code (withRest st s) = .ok () (withRest [] (s.afterPacket cfg tid code p')) := by
  cases p with
  | file name => exact absurd rfl (hfile name)
  | data => simp [Packet.payload] at hlt
  | bit => simp [Packet.payload] at hlt
  | head name =>
    rcases readHead_torn s tid hfits hascii h hlt with ⟨t, herror, hyielded⟩ | ⟨name', hname, hok⟩
    · exact Or.inl ⟨t, herror, Or.inr hyielded⟩
    · exact Or.inr ⟨_, .head hname, hok⟩
  | str text =>
    have hsteps : ∀ st, readBody cfg tid cbaStr code (withRest st s) = (readWord 2 >>= fun l => read l >>= fun val =>
        addEvent tid cbaStr code (.text (latin1 val)))
          (withRest st (s.set tid { s.state tid with curCode := code, curType := cbaStr })) := fun st => by
      refine ((reads_getThread s tid).bind_eq _ st).trans ?_
      exact (reads_setThread s tid _).bind_eq _ st
    rcases prefix_append_cases h hlt with hshort | ⟨text', rfl, htext, hless⟩
    · rw [ByteOrder.length_encode] at hshort
      exact Or.inl ⟨_, (hsteps st).trans (bind_error (readWord_short hshort _)), Or.inl rfl⟩
    · refine Or.inr ⟨_, .str htext, (hsteps _).trans ?_⟩
      have hlen : text.length < 65536 := hfits
      have hword := reads_word (s.set tid { s.state tid with curCode := code, curType := cbaStr }) (w := 2) hlen
      refine (hword.bind_eq _ text').trans ?_
      refine (bind_ok (read_short hless.le _)).trans ?_
      rw [afterPacket_plain _ _ _ _ (by simp) (by simp)]
      exact reads_addEvent s tid _ _ _ _ []
  | int32 num =>
    refine Or.inl ⟨withRest [] (s.set tid { s.state tid with curCode := code, curType := cbaInt32 }), ?_, Or.inl rfl⟩
    rw [Packet.payload, ByteOrder.length_encodeInt] at hlt
    refine ((reads_getThread s tid).bind_eq _ st).trans ?_
    refine ((reads_setThread s tid _).bind_eq _ st).trans ?_
    exact bind_error (readInt_short hlt _)
  | int64 num =>
    refine Or.inl ⟨withRest [] (s.set tid { s.state tid with curCode := code, curType := cbaInt64 }), ?_, Or.inl rfl⟩
    rw [Packet.payload, ByteOrder.length_encodeInt] at hlt
    refine ((reads_getThread s tid).bind_eq _ st).trans ?_
    refine ((reads_setThread s tid _).bind_eq _ st).trans ?_
    exact bind_error (readInt_short hlt _)

/-! ### One turn of the loop -/

/-- What an atom is read as that is cut off behind its length: a chunk may be read as none. -/
inductive Atom.Cut : Atom → List Atom → Prop
  | packet {code : Option UInt32} {p p' : Packet} (h : p.Cut p') : Cut (.packet code p) [.packet code p']
  | chunk {bytes bytes' : List UInt8} (h : bytes' <+: bytes) (hne : bytes' ≠ []) : Cut (.chunk bytes) [.chunk bytes']
  | nothing {bytes : List UInt8} (hne : bytes ≠ []) : Cut (.chunk bytes) []

theorem readEvent_torn (cfg : Config) (s : Reader) (tid : UInt8) (code : Option UInt32) {p : Packet}
    {st : List UInt8} (hfits : p.Fits) (hascii : p.Ascii) (hfile : ∀ name, p ≠ .file name)
    (h : tid :: st <+: (Atom.packet code p).bytes s.order tid)
    (hlt : (tid :: st).length < ((Atom.packet code p).bytes s.order tid).length) :
    Raises (readEvent cfg tid) s (s.afterPacket cfg tid (codeOf code) p) st ∨
      ∃ p', p.Cut p' ∧
        readEvent cfg tid (withRest st s) = .ok () (withRest [] (s.afterPacket cfg tid (codeOf code) p')) := by
  cases code with
  | none =>
    obtain ⟨hkind, hmask⟩ := mask_kind p
    have h : st <+: [UInt8.ofNat p.kind] ++ p.payload s.order := (List.cons_prefix_cons.mp h).2
    have hlt : st.length < ([UInt8.ofNat p.kind] ++ p.payload s.order).length := Nat.lt_of_succ_lt_succ hlt
    rcases prefix_append_cases h hlt with hshort | ⟨st', rfl, hst', hless⟩
    · exact Or.inl ⟨_, bind_error (readWord_short hshort _), Or.inl rfl⟩
    · have hbody : ∀ r, readBody cfg tid p.kind 0 (withRest st' s) = r →
          readEvent cfg tid (withRest ([UInt8.ofNat p.kind] ++ st') s) = r := by
        rintro r rfl
        refine ((reads_byte s _).bind_eq _ st').trans ?_
        rw [hkind, if_pos hmask]
      rcases readBody_torn cfg s tid 0 hfits hascii hfile hst' hless with ⟨t, herror, hyielded⟩ | ⟨p', hcut, hok⟩
      · exact Or.inl ⟨t, hbody _ herror, hyielded⟩
      · exact Or.inr ⟨p', hcut, hbody _ hok⟩
  | some code =>
    obtain ⟨hkind, hmask, hxor⟩ := mask_kind_code p
    have h : st <+: [UInt8.ofNat (p.kind ||| 0x80)] ++ (s.order.encode 4 code.toNat ++ p.payload s.order) :=
      (List.cons_prefix_cons.mp h).2
    have hlt : st.length < ([UInt8.ofNat (p.kind ||| 0x80)] ++
        (s.order.encode 4 code.toNat ++ p.payload s.order)).length := Nat.lt_of_succ_lt_succ hlt
    rcases prefix_append_cases h hlt with hshort | ⟨st', rfl, hst', hless⟩
    · exact Or.inl ⟨_, bind_error (readWord_short hshort _), Or.inl rfl⟩
    · have hcode : ∀ st' r, (readWord 4 >>= fun code => readBody cfg tid p.kind code) (withRest st' s) = r →
          readEvent cfg tid (withRest ([UInt8.ofNat (p.kind ||| 0x80)] ++ st') s) = r := by
        rintro st' r rfl
        refine ((reads_byte s _).bind_eq _ st').trans ?_
        rw [hkind, if_neg hmask, hxor]
      rcases prefix_append_cases hst' hless with hshort | ⟨st'', rfl, hst'', hless'⟩
      · rw [ByteOrder.length_encode] at hshort
        exact Or.inl ⟨_, hcode _ _ (bind_error (readWord_short hshort _)), Or.inl rfl⟩
      · have hbound : code.toNat < 256 ^ 4 := by simpa using code.toNat_lt
        have hword := (reads_word s hbound).bind_eq (fun code => readBody cfg tid p.kind code) st''
        rcases readBody_torn cfg s tid code.toNat hfits hascii hfile hst'' hless' with
          ⟨t, herror, hyielded⟩ | ⟨p', hcut, hok⟩
        · exact Or.inl ⟨t, hcode _ _ (hword.trans herror), hyielded⟩
        · exact Or.inr ⟨p', hcut, hcode _ _ (hword.trans hok)⟩

theorem after_packet (cfg : Config) (s : Reader) (tid : UInt8) (code : Option UInt32) (p : Packet) :
    s.after cfg tid (.packet code p) = (s.opened tid).afterPacket cfg tid (codeOf code) p := by
  simp only [Reader.after, Reader.afterPacket, ThreadState.saves, List.map_nil, List.append_nil,
    ThreadState.next, ThreadState.opensFile_code _ _ code, ThreadState.yields_code _ _ code]
  rfl

theorem after_nonempty_chunk (cfg : Config) (s : Reader) (tid : UInt8) {bytes : List UInt8} (hne : bytes ≠ []) :
    s.after cfg tid (.chunk bytes) = (s.opened tid).set tid
      { s.state tid with curStream := (s.state tid).curStream.write bytes } := by
  obtain ⟨b, bs, rfl⟩ := List.exists_cons_of_ne_nil hne
  simp [Reader.after, ThreadState.next, ThreadState.opensFile, ThreadState.yields, ThreadState.saves, Reader.set,
    Reader.opened]

/-- The reader meets the end of the file inside of an atom. -/
theorem readPacket_torn {cfg : Config} {s : Reader} {tid : UInt8} {a : Atom} {stump : List UInt8}
    (h : s.Ready cfg tid a) (hascii : a.Ascii) (hfile : ∀ code name, a ≠ .packet code (.file name))
    (hstump : stump <+: a.bytes s.order tid) (hlt : stump.length < (a.bytes s.order tid).length)
    (hne : stump ≠ []) :
    Raises (readPacket cfg) s (s.after cfg tid a) stump ∨ ∃ as, a.Cut as ∧
      readPacket cfg (withRest stump s) = .ok () (withRest [] (s.afterAll cfg (as.map (Prod.mk tid)))) := by
  obtain ⟨st, rfl⟩ : ∃ st, stump = tid :: st := by
    obtain ⟨b, st, rfl⟩ := List.exists_cons_of_ne_nil hne
    rcases a with ⟨_ | _, _⟩ | _ <;> exact ⟨st, congrArg (· :: st) (List.cons_prefix_cons.mp hstump).1⟩
  rw [Raises, readPacket_eq cfg h.fresh]
  have hallowed := h.allowed
  cases a with
  | packet code p =>
    cases hstream : (s.state tid).streaming with
    | true =>
      rw [hstream] at hallowed
      exact hallowed.elim
    | false =>
      rw [hstream] at hallowed
      have hnone : (s.state tid).curStream = .none := by simpa [ThreadState.streaming] using hstream
      have hnofile : ∀ name, p ≠ .file name := fun name hp => hfile code name (congrArg _ hp)
      rw [if_pos hnone, after_packet]
      rcases readEvent_torn cfg (s.opened tid) tid code hallowed hascii hnofile hstump hlt with
        hraises | ⟨p', hcut, hok⟩
      · exact Or.inl hraises
      · refine Or.inr ⟨_, .packet hcut, hok.trans ?_⟩
        rw [← after_packet]
        rfl
  | chunk bytes =>
    cases hstream : (s.state tid).streaming with
    | false =>
      rw [hstream] at hallowed
      exact hallowed.elim
    | true =>
      rw [hstream] at hallowed
      have hopen : (s.state tid).curStream ≠ .none := by simpa [ThreadState.streaming] using hstream
      have hmem : tid ∈ s.tids := by
        by_contra hfresh
        rw [h.fresh hfresh] at hopen
        exact hopen rfl
      have hopened : s.opened tid = s := by rw [Reader.opened, if_pos hmem]
      rw [if_neg hopen]
      have hst : st <+: s.order.encode 2 bytes.length ++ bytes := (List.cons_prefix_cons.mp hstump).2
      rcases prefix_append_cases hst (Nat.lt_of_succ_lt_succ hlt) with hshort | ⟨bytes', rfl, hbytes, hless⟩
      · rw [ByteOrder.length_encode] at hshort
        exact Or.inl ⟨_, bind_error (readWord_short hshort _), Or.inl rfl⟩
      · have hlen : bytes.length < 65536 := hallowed
        have hlength : bytes.length ≠ 0 := by omega
        have hchunk : readChunk cfg tid (withRest (s.order.encode 2 bytes.length ++ bytes') (s.opened tid)) =
            .ok () (withRest [] ((s.opened tid).set tid
              { s.state tid with curStream := (s.state tid).curStream.write bytes' })) := by
          have hword := reads_word (s.opened tid) (w := 2) hlen
          refine (hword.bind_eq _ bytes').trans ?_
          rw [if_neg hlength]
          refine (bind_ok (read_short hless.le _)).trans ?_
          refine ((reads_getThread (s.opened tid) tid).bind_eq _ []).trans ?_
          exact reads_setThread (s.opened tid) tid _ []
        by_cases hnil : bytes' = []
        · refine Or.inr ⟨[], .nothing fun h => hlength (congrArg List.length h), hchunk.trans ?_⟩
          rw [hnil, Stream.write_nil, hopened]
          have hset : s.set tid (s.state tid) = s := by simp [Reader.set]
          rw [hset]
          rfl
        · refine Or.inr ⟨_, .chunk hbytes hnil, hchunk.trans ?_⟩
          rw [← after_nonempty_chunk cfg s tid hnil]
          rfl

/-! ### The pass -/

/-- The bytes of a file end behind some of its units, or inside of the one that is next. -/
theorem take_encodeUnits (order : ByteOrder) (units : List (UInt8 × Atom)) (n : Nat) :
    ∃ us vs stump, units = us ++ vs ∧ (encodeUnits order units).take n = encodeUnits order us ++ stump ∧
      (stump = [] ∨ ∃ u ∈ vs.head?, stump <+: u.2.bytes order u.1 ∧ stump.length < (u.2.bytes order u.1).length) ∧
      (vs = [] ∨ n < (encodeUnits order (us ++ vs.head?.toList)).length) := by
  induction units generalizing n with
  | nil => exact ⟨[], [], [], rfl, List.take_nil, Or.inl rfl, Or.inl rfl⟩
  | cons u units ih =>
    have hcons : ∀ units, encodeUnits order (u :: units) = u.2.bytes order u.1 ++ encodeUnits order units :=
      fun _ => List.flatMap_cons
    by_cases hn : n < (u.2.bytes order u.1).length
    · refine ⟨[], u :: units, (u.2.bytes order u.1).take n, rfl, ?_, Or.inr ⟨u, rfl, List.take_prefix .., ?_⟩,
        Or.inr ?_⟩
      · rw [hcons, List.take_append_of_le_length hn.le]
        rfl
      · rw [List.length_take]
        omega
      · simpa [encodeUnits] using hn
    · obtain ⟨us, vs, stump, rfl, htake, hstump, hends⟩ := ih (n - (u.2.bytes order u.1).length)
      refine ⟨u :: us, vs, stump, rfl, ?_, hstump, hends.imp_right fun hlt => ?_⟩
      · rw [hcons, hcons, List.take_append, List.take_of_length_le (Nat.le_of_not_lt hn), htake, List.append_assoc]
      · rw [List.cons_append, hcons, List.length_append]
        omega

/-- What a pass over a file gives that ends behind `us`, or inside of the unit that is next. -/
inductive TornPass (cfg : Config) (filter : Option (List Char)) (us : List (UInt8 × Atom))
    (next : Option (UInt8 × Atom)) : Pass → Prop
  | whole : TornPass cfg filter us next ⟨decode cfg filter us, none⟩
  | cut {tid : UInt8} {a : Atom} {as : List Atom} (hnext : next = some (tid, a)) (hcut : a.Cut as) :
      TornPass cfg filter us next ⟨decode cfg filter (us ++ as.map (Prod.mk tid)), none⟩
  | raised {more : List (UInt8 × Atom)} (hmore : more = [] ∨ more = next.toList) :
      TornPass cfg filter us next ⟨(decoder cfg filter).trace (fun _ => {}) (us ++ more), some .struct⟩

section Pass

variable {cfg : Config} {filter : Option (List Char)} {order : ByteOrder} {us vs : List (UInt8 × Atom)}

theorem afterAll_yielded (data : List UInt8) (us : List (UInt8 × Atom)) :
    ((startReader filter data).afterAll cfg us).yielded = (decoder cfg filter).trace (fun _ => {}) us :=
  (afterAll_core cfg (startReader filter data) us).1

/-- The loop has taken some units and is at the end of the file. -/
theorem pass_of_end {data : List UInt8} (us : List (UInt8 × Atom))
    (hloop : readLoop cfg ((data.drop 1).length + 1) (startReader filter data) =
      .ok () { (startReader filter data).afterAll cfg us with rest := [], eof := true }) :
    (entries cfg filter (newReader data)).1 = ⟨decode cfg filter us, none⟩ := by
  have hfixed := afterAll_fixed cfg (startReader filter data) us
  obtain ⟨hyielded, hstate, htids⟩ := afterAll_core cfg (startReader filter data) us
  have hfinal : ∀ tid, (((startReader filter data).afterAll cfg us).state tid).final filter =
      ((decoder cfg filter).feed (fun _ => {}) us tid).final filter := fun tid => by
    have hcore := congrArg (ThreadState.final filter) (congrFun hstate tid)
    exact hcore
  have hfilter : ((startReader filter data).afterAll cfg us).filter = filter := hfixed.2.2
  rw [(entries_eq ..).1, hloop]
  simp only [hyielded, htids, hfilter, hfinal]
  rfl

theorem entries_torn (cfg : Config) (filter : Option (List Char)) {stump : List UInt8} (hwf : WellFormed (us ++ vs))
    (hascii : ∀ u ∈ us ++ vs, u.2.Ascii)
    (hfiles : ∀ tid code name, Atom.packet code (.file name) ∉ proj tid (us ++ vs))
    (hstump : stump = [] ∨ ∃ u ∈ vs.head?, stump <+: u.2.bytes order u.1 ∧
      stump.length < (u.2.bytes order u.1).length) :
    TornPass cfg filter us vs.head?
      (entries cfg filter (newReader (mark order :: (encodeUnits order us ++ stump)))).1 := by
  generalize hdata : mark order :: (encodeUnits order us ++ stump) = data
  have hnames : ∀ tid, TakesNames cfg [] (proj tid (us ++ vs)) := fun tid => FilesIn.of_noFiles _ (hfiles tid)
  have hstart : (startReader filter data).order = order ∧ startReader filter data =
      withRest (encodeUnits (startReader filter data).order us ++ stump) (startReader filter data) := by
    subst hdata
    cases order <;> exact ⟨rfl, rfl⟩
  obtain ⟨extra, hextra⟩ := Nat.exists_eq_add_of_le (length_le_encodeUnits order us)
  have hlength : (data.drop 1).length + 1 = us.length + (extra + stump.length + 1) := by
    subst hdata
    rw [List.drop_one, List.tail_cons, List.length_append, hextra]
    omega
  obtain ⟨hexpects, hloop⟩ := readLoop_append (startReader_expects hwf hnames filter data)
    (fun u hu => hascii u (List.mem_append_left _ hu)) rfl (extra + stump.length + 1) stump
  rw [← hstart.2, ← hlength] at hloop
  obtain ⟨heof, horder, -⟩ := afterAll_fixed cfg (startReader filter data) us
  by_cases hnil : stump = []
  · rw [hnil] at hloop
    rw [pass_of_end us (hloop.trans (readLoop_end cfg heof (Nat.succ_ne_zero _)))]
    exact .whole
  obtain ⟨⟨tid, a⟩, hnext, hfront, hlt⟩ := hstump.resolve_left hnil
  obtain ⟨vs, rfl⟩ : ∃ vs', vs = (tid, a) :: vs' := by
    cases vs with
    | nil => cases hnext
    | cons u vs =>
      cases hnext
      exact ⟨vs, rfl⟩
  rw [← hstart.1, ← horder] at hfront hlt
  have hnofile : ∀ code name, a ≠ .packet code (.file name) := by
    rintro code name rfl
    refine hfiles tid code name ?_
    rw [proj_append, proj, if_pos rfl]
    exact List.mem_append_right _ List.mem_cons_self
  rcases readPacket_torn hexpects.ready (hascii (tid, a) (by simp)) hnofile hfront hlt hnil with
    ⟨t, herror, hyielded⟩ | ⟨as, hcut, hok⟩
  · have hpass : (entries cfg filter (newReader data)).1 = ⟨t.yielded, some .struct⟩ := by
      rw [(entries_eq ..).1, hloop, readLoop_error heof _ herror]
    rw [hpass]
    rcases hyielded with hyielded | hyielded
    · have hmore := @TornPass.raised cfg filter us (some (tid, a)) [] (Or.inl rfl)
      rw [List.append_nil, ← afterAll_yielded data us, ← hyielded] at hmore
      exact hmore
    · have hafter : ((startReader filter data).afterAll cfg us).after cfg tid a =
          (startReader filter data).afterAll cfg (us ++ [(tid, a)]) := by
        rw [Reader.afterAll, Reader.afterAll, List.foldl_append]
        rfl
      have hmore := @TornPass.raised cfg filter us (some (tid, a)) [(tid, a)] (Or.inr rfl)
      rw [← afterAll_yielded data, ← hafter, ← hyielded] at hmore
      exact hmore
  · have hafter : ((startReader filter data).afterAll cfg us).afterAll cfg (as.map (Prod.mk tid)) =
        (startReader filter data).afterAll cfg (us ++ as.map (Prod.mk tid)) := by
      rw [Reader.afterAll, Reader.afterAll, Reader.afterAll, List.foldl_append]
    rw [hafter] at hok
    have hpos : extra + stump.length ≠ 0 := by
      have := List.length_pos_iff.mpr hnil
      omega
    have hend := readLoop_end cfg (afterAll_fixed cfg (startReader filter data) (us ++ as.map (Prod.mk tid))).1 hpos
    rw [pass_of_end (us ++ as.map (Prod.mk tid)) (hloop.trans ((readLoop_turn heof _ hok).trans hend))]
    exact .cut rfl hcut

end Pass

/-! ### What the entries of a thread are -/

/-- The text of the first event is the front of that of the other one. -/
structure Event.Cut (e e' : Event) : Prop where
  kind : e.kind = e'.kind
  code : e.code = e'.code
  text : ∃ text text', e.val = .text text ∧ e'.val = .text text' ∧ text <+: text'

/-- The first entry has the first events of the other one. -/
structure Entry.Begins (e e' : Entry) : Prop where
  module : e.module = e'.module
  events : Lib.Begins Event.Cut e.events e'.events

section Thread

variable {cfg : Config} {filter : Option (List Char)}

/-- The entries of a thread from a state on. -/
def entriesFrom (cfg : Config) (filter : Option (List Char)) (ts : ThreadState) (as : List Atom) : List Entry :=
  (decoder cfg filter).outs ts as ++ ((decoder cfg filter).run ts as).final filter

theorem entriesFrom_cons (ts : ThreadState) (a : Atom) (as : List Atom) : entriesFrom cfg filter ts (a :: as) =
    ts.yields filter a ++ entriesFrom cfg filter (ts.next cfg false a) as :=
  List.append_assoc ..

theorem decodeThread_append (as bs : List Atom) : decodeThread cfg filter (as ++ bs) =
    (decoder cfg filter).outs {} as ++ entriesFrom cfg filter ((decoder cfg filter).run {} as) bs := by
  rw [decodeThread, entriesFrom, Machine.outs_append, Machine.run_append, List.append_assoc]

theorem next_events (ts : ThreadState) {a : Atom} (hhead : ∀ code name, a ≠ .packet code (.head name)) :
    (ts.next cfg false a).module = ts.module ∧ ts.events <+: (ts.next cfg false a).events := by
  rcases a with ⟨code, name | text | name | _ | num | num | _⟩ | bytes
  case packet.head => exact absurd rfl (hhead code name)
  case packet.file =>
    simp only [ThreadState.next, ThreadState.receive]
    split_ifs
    · exact ⟨rfl, List.prefix_refl _⟩
    · exact ⟨rfl, List.prefix_append ..⟩
  case packet.data => exact ⟨rfl, List.prefix_refl _⟩
  case chunk =>
    simp only [ThreadState.next]
    split_ifs
    · cases hstream : ts.curStream <;> simp [ThreadState.close, hstream, ThreadState.addEvent]
    · exact ⟨rfl, List.prefix_refl _⟩
  all_goals exact ⟨rfl, List.prefix_append ..⟩

theorem final_append {ts ts' : ThreadState} (hmodule : ts.module = ts'.module)
    (hevents : Begins Event.Cut ts.events ts'.events) (es : List Entry) :
    Begins Entry.Begins (ts.final filter) (ts'.final filter ++ es) := by
  by_cases hwanted : wanted filter ts = true
  · have hwanted' : wanted filter ts' = true := by
      simp only [wanted, Bool.and_eq_true, Bool.not_eq_true', List.isEmpty_eq_false_iff] at hwanted ⊢
      exact ⟨hevents.ne_nil hwanted.1, hmodule ▸ hwanted.2⟩
    rw [ThreadState.final, ThreadState.final, if_pos hwanted, if_pos hwanted']
    exact @Begins.cut _ _ [] _ ts.entry _ (List.prefix_append ..) ⟨hmodule, hevents⟩
  · rw [ThreadState.final, if_neg hwanted]
    exact .whole (List.nil_prefix ..)

/-- What a state stands for begins the first entry of a state with more events. -/
theorem final_begins {ts ts' : ThreadState} (hmodule : ts.module = ts'.module)
    (hevents : Begins Event.Cut ts.events ts'.events) (as : List Atom) :
    Begins Entry.Begins (ts.final filter) (entriesFrom cfg filter ts' as) := by
  induction as generalizing ts' with
  | nil =>
    have hnil := @final_append filter _ _ hmodule hevents []
    rwa [List.append_nil] at hnil
  | cons a as ih =>
    rw [entriesFrom_cons]
    by_cases hhead : ∃ code name, a = .packet code (.head name)
    · obtain ⟨code, name, rfl⟩ := hhead
      exact final_append hmodule hevents _
    · have hhead : ∀ code name, a ≠ .packet code (.head name) := fun code name h => hhead ⟨code, name, h⟩
      have hyields : ts'.yields filter a = [] := by
        rcases a with ⟨code, name | _⟩ | _
        case packet.head => exact absurd rfl (hhead code name)
        all_goals rfl
      obtain ⟨hmodule', hevents'⟩ := @next_events cfg ts' a hhead
      rw [hyields, List.nil_append]
      exact ih (hmodule.trans hmodule'.symm) (hevents.trans_front hevents')

theorem entriesFrom_begins (ts : ThreadState) {cut rest : List Atom}
    (hcut : cut = [] ∨ ∃ a bs, rest = a :: bs ∧ a.Cut cut) :
    Begins Entry.Begins (entriesFrom cfg filter ts cut) (entriesFrom cfg filter ts rest) := by
  rcases hcut with rfl | ⟨a, bs, rfl, hcut⟩
  · exact final_begins rfl (.refl _ _) rest
  · cases hcut with
    | nothing hne => exact final_begins rfl (.refl _ _) _
    | @chunk bytes bytes' h hne =>
      have hbytes : bytes ≠ [] := fun hnil => hne (List.prefix_nil.mp (hnil ▸ h))
      rw [entriesFrom_cons, entriesFrom_cons]
      refine final_begins ?_ ?_ bs
      · rw [ThreadState.next, if_neg hne, ThreadState.next, if_neg hbytes]
        rfl
      · rw [ThreadState.next, if_neg hne, ThreadState.next, if_neg hbytes]
        exact .refl _ _
    | @packet code _ _ h =>
      cases h with
      | @head name name' h =>
        rw [entriesFrom_cons, entriesFrom_cons]
        refine Begins.append_left ?_ (ts.final filter)
        exact .whole (List.nil_prefix ..)
      | @str text text' h =>
        have htext : latin1 text' <+: latin1 text := h.map _
        have hevents := @Begins.cut _ Event.Cut ts.events (ts.events ++ [⟨cbaStr, codeOf code, .text (latin1 text)⟩])
          ⟨cbaStr, codeOf code, .text (latin1 text')⟩ _ (List.prefix_refl _) ⟨rfl, rfl, _, _, rfl, rfl, htext⟩
        exact @final_begins cfg filter (ts.next cfg false (.packet code (.str text')))
          (ts.next cfg false (.packet code (.str text))) rfl hevents bs

/-- What is read of each thread of a file that is cut off behind `us` or inside of the next unit: nothing that the
thread completed is missing, and at most one entry is not complete. -/
structure TornRead (cfg : Config) (filter : Option (List Char)) (us units : List (UInt8 × Atom)) (pass : Pass) :
    Prop where
  raised : pass.raised = none ∨ pass.raised = some .struct
  begins : ∀ tid more, Begins Entry.Begins (proj tid pass.entries) (decodeThread cfg filter (proj tid units ++ more))
  completed : ∀ tid, (decoder cfg filter).outs {} (proj tid us) <+: proj tid pass.entries
  final : pass.raised = none → ∀ tid,
    Begins Entry.Begins (decodeThread cfg filter (proj tid us)) (proj tid pass.entries)

theorem decodeThread_begins (as : List Atom) {cut rest : List Atom}
    (hcut : cut = [] ∨ ∃ a bs, rest = a :: bs ∧ a.Cut cut) :
    Begins Entry.Begins (decodeThread cfg filter (as ++ cut)) (decodeThread cfg filter (as ++ rest)) := by
  rw [decodeThread_append, decodeThread_append]
  exact (entriesFrom_begins _ hcut).append_left _

theorem outs_front (as bs : List Atom) :
    (decoder cfg filter).outs {} as <+: decodeThread cfg filter (as ++ bs) := by
  rw [decodeThread_append]
  exact List.prefix_append ..

theorem TornPass.read {us vs : List (UInt8 × Atom)} {pass : Pass} (h : TornPass cfg filter us vs.head? pass) :
    TornRead cfg filter us (us ++ vs) pass := by
  have hwhole : ∀ tid, decodeThread cfg filter (proj tid us) = decodeThread cfg filter (proj tid us ++ []) :=
    fun tid => by rw [List.append_nil]
  cases h with
  | whole =>
    refine ⟨Or.inl rfl, fun tid more => ?_, fun tid => ?_, fun _ tid => ?_⟩
    · rw [proj_decode, hwhole, proj_append, List.append_assoc]
      exact decodeThread_begins _ (Or.inl rfl)
    · rw [proj_decode, hwhole]
      exact outs_front ..
    · rw [proj_decode]
      exact .refl _ _
  | @cut tid a as hnext hcut =>
    obtain ⟨vs, rfl⟩ : ∃ vs', vs = (tid, a) :: vs' := by
      cases vs with
      | nil => cases hnext
      | cons u vs =>
        cases hnext
        exact ⟨vs, rfl⟩
    have hself : ∀ t, (t = tid ∧ proj t (as.map (Prod.mk tid)) = as) ∨
        (t ≠ tid ∧ proj t (as.map (Prod.mk tid)) = []) := fun t => by
      by_cases ht : t = tid
      · exact Or.inl ⟨ht, ht ▸ proj_tagged_self t as⟩
      · exact Or.inr ⟨ht, proj_tagged_ne (Ne.symm ht) as⟩
    refine ⟨Or.inl rfl, fun t more => ?_, fun t => ?_, fun _ t => ?_⟩
    · rw [proj_decode, proj_append, proj_append, List.append_assoc]
      refine decodeThread_begins _ ?_
      rcases hself t with ⟨rfl, has⟩ | ⟨-, has⟩
      · rw [has, proj, if_pos rfl]
        exact Or.inr ⟨a, _, rfl, hcut⟩
      · exact Or.inl has
    · rw [proj_decode, proj_append]
      exact outs_front ..
    · rw [proj_decode, proj_append, hwhole]
      exact decodeThread_begins _ (Or.inl rfl)
  | @raised more hmore =>
    have hproj : ∀ t, ∃ rest, proj t (us ++ vs) = proj t (us ++ more) ++ rest := fun t => by
      rcases hmore with rfl | rfl
      · exact ⟨proj t vs, by rw [List.append_nil, proj_append]⟩
      · cases vs with
        | nil => exact ⟨[], (List.append_nil _).symm⟩
        | cons u vs =>
          refine ⟨proj t vs, ?_⟩
          rw [← proj_append, List.append_assoc]
          rfl
    refine ⟨Or.inr rfl, fun t rest => ?_, fun t => ?_, fun h => absurd h (Option.some_ne_none _)⟩
    · obtain ⟨others, hothers⟩ := hproj t
      rw [Machine.proj_trace, hothers, List.append_assoc]
      exact .whole (outs_front ..)
    · rw [Machine.proj_trace, proj_append, Machine.outs_append]
      exact List.prefix_append ..

end Thread

/-- A file that is cut off ends behind some of its units, or inside of the next one. -/
theorem torn_pass (cfg : Config) (filter : Option (List Char)) (order : ByteOrder) {units : List (UInt8 × Atom)}
    (hwf : WellFormed units) (hascii : ∀ u ∈ units, u.2.Ascii)
    (hfiles : ∀ tid code name, Atom.packet code (.file name) ∉ proj tid units) (n : Nat) :
    ∃ us vs, units = us ++ vs ∧ (fileOf order us).length ≤ n + 1 ∧
      (vs = [] ∨ n + 1 < (fileOf order (us ++ vs.head?.toList)).length) ∧
      TornPass cfg filter us vs.head? (entries cfg filter (newReader ((fileOf order units).take (n + 1)))).1 := by
  obtain ⟨us, vs, stump, rfl, htake, hstump, hends⟩ := take_encodeUnits order units n
  have hlength : (encodeUnits order us).length ≤ n := by
    have htotal := congrArg List.length htake
    rw [List.length_take, List.length_append] at htotal
    omega
  refine ⟨us, vs, rfl, Nat.succ_le_succ hlength, hends.imp_right Nat.succ_lt_succ, ?_⟩
  rw [fileOf, List.take_succ_cons, htake]
  exact entries_torn cfg filter hwf hascii hfiles hstump

/-- However a file is cut off, the reader raises nothing but a `struct.error`. It yields what the threads completed
of the units that are whole, and from then on the first entries of the whole file, of which the last may not be
complete; if nothing is raised, all that is in whole units is in them. -/
theorem torn_read (cfg : Config) (filter : Option (List Char)) (order : ByteOrder) {units : List (UInt8 × Atom)}
    (hwf : WellFormed units) (hascii : ∀ u ∈ units, u.2.Ascii)
    (hfiles : ∀ tid code name, Atom.packet code (.file name) ∉ proj tid units) (n : Nat) :
    ∃ us vs, units = us ++ vs ∧ (fileOf order us).length ≤ n + 1 ∧
      (vs = [] ∨ n + 1 < (fileOf order (us ++ vs.head?.toList)).length) ∧
      TornRead cfg filter us units (entries cfg filter (newReader ((fileOf order units).take (n + 1)))).1 := by
  obtain ⟨us, vs, rfl, hwhole, hends, hpass⟩ := torn_pass cfg filter order hwf hascii hfiles n
  exact ⟨us, vs, rfl, hwhole, hends, hpass.read⟩

/-- Two threads, and a text with a code at the end. -/
def textUnits : List (UInt8 × Atom) :=
  [(1, .packet none (.head [97])), (2, .packet none (.head [98])), (1, .packet (some 3) (.str [104, 105]))]

theorem textUnits_wellFormed : WellFormed textUnits := by
  intro tid
  by_cases h1 : (1 : UInt8) = tid
  · subst h1
    simp [textUnits, proj, Follows, Atom.Allowed, Atom.leavesOpen, Packet.Fits, Packet.opensStream]
  · by_cases h2 : (2 : UInt8) = tid <;>
      simp [textUnits, proj, h1, h2, Follows, Atom.Allowed, Atom.leavesOpen, Packet.Fits, Packet.opensStream]

/-- The last byte is missing, and the text is one character shorter. -/
theorem torn_read_text :
    let cfg : Config := ⟨[], [], false, fun _ => true⟩
    let pass := (entries cfg none (newReader ((fileOf .little textUnits).take 18))).1
    pass.entries = [(1, ⟨['a'], [(3, .text ['h'])], [⟨1, 3, .text ['h']⟩]⟩)] ∧
      ∃ us vs, textUnits = us ++ vs ∧ (fileOf .little us).length ≤ 18 ∧
        (vs = [] ∨ 18 < (fileOf .little (us ++ vs.head?.toList)).length) ∧ TornRead cfg none us textUnits pass := by
  intro cfg pass
  refine ⟨by decide +kernel, torn_read cfg none .little textUnits_wellFormed (by decide) (fun tid code name => ?_) 17⟩
  exact fun h => absurd (mem_proj.mp h) (by simp [textUnits])

end Cscan.Cba
