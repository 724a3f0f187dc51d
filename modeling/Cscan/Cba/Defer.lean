import Cscan.Cba.Emit

/-! The deferred buffer behind `cba_head`: which calls of `cba_defer_str` leave it a head and whole strings. -/

namespace Cscan.Cba

open Cscan.Lib

/-- The calls for texts with their codes. A text without a code has the code 0, as every packet uses its code
up. -/
def deferCalls (items : List (Int32 × List UInt8)) : List Call :=
  items.flatMap fun item => [.code item.1, .deferStr item.2]

def headAtom (c : Int32) (module : List UInt8) : Atom :=
  .packet (codeField c) (.head (module.take (module.length % 256)))

/-- The packets of the texts, as far as they are in the buffer. -/
def strAtoms (codes : List Int32) (texts : List (List UInt8)) : List Atom :=
  codes.zipWith (fun c text => .packet (codeField c) (.str text)) texts

/-- The calls store nothing outside of the buffer, and what is deferred then is a head and the strings in order,
each of them a prefix of its text. -/
def DefersWhole (order : ByteOrder) (w : Writer) (module : List UInt8)
    (items : List (Int32 × List UInt8)) : Prop :=
  ∃ w' texts, w.calls order (.head module :: deferCalls items) = some ([], w') ∧
    w'.deferredBytes ≤ cbaDeferBuff ∧ List.Forall₂ (· <+: ·) texts (items.map Prod.snd) ∧
    w'.deferredBuffer.take w'.deferredBytes =
      encodeAtoms order w.threadId (headAtom w.nextCode module :: strAtoms (items.map Prod.fst) texts)

/-- Each text finds room behind the bytes that are used, for its header, its length and, unless the header ends in
zero, for a byte that is not the end of the text. -/
def Fits (order : ByteOrder) : Nat → List (Int32 × List UInt8) → Prop
  | _, [] => True
  | used, (c, text) :: items => DeferOk order used c text ∧
      Fits order (used + hdrLength c + 2 + cutLength used c text) items

instance decidableFits (order : ByteOrder) (used : Nat) (items : List (Int32 × List UInt8)) :
    Decidable (Fits order used items) :=
  match items with
  | [] => .isTrue trivial
  | (c, text) :: items =>
    have := decidableFits order (used + hdrLength c + 2 + cutLength used c text) items
    inferInstanceAs (Decidable (_ ∧ _))

variable {order : ByteOrder} {w w' : Writer} {p : Pending} {items : List (Int32 × List UInt8)}

/-- Where there is no room for header and length, the length wraps and the zero falls outside of the buffer. -/
theorem writeStrBuff_overrun (hsize : w.deferredBuffer.length = cbaDeferBuff)
    (hused : w.deferredBytes ≤ cbaDeferBuff)
    {text : List UInt8} (hroom : cbaDeferBuff < w.deferredBytes + hdrLength w.nextCode + 7) :
    w.writeStrBuff order text = none := by
  obtain ⟨hlow, hhigh⟩ := hdrLength_le w.nextCode
  have hhdr := length_hdrBuff order w cbaStr
  unfold cbaDeferBuff at hsize hused hroom
  simp only [Writer.writeStrBuff, Option.bind_eq_bind]
  cases hbuf : store w.deferredBuffer w.deferredBytes (w.hdrBuff order cbaStr) with
  | none => rfl
  | some buf =>
    have hbufSize := length_store hbuf
    obtain ⟨n, hn⟩ : ∃ n, n = (if ((Writer.formatted text).length : Int) ≥
        ((cbaDeferBuff : Int) - w.deferredBytes) - (w.hdrBuff order cbaStr).length - 6 then
          ((((cbaDeferBuff : Int) - w.deferredBytes) - (w.hdrBuff order cbaStr).length - 6 - 1) % 65536).toNat
        else (Writer.formatted text).length) := ⟨_, rfl⟩
    have hwraps : 4096 ≤ n := by
      rw [hn, hhdr]
      unfold cbaDeferBuff
      split_ifs <;> omega
    have houtside : store buf (w.deferredBytes + (w.hdrBuff order cbaStr).length + n - 1) [0] = none := by
      rw [store, if_neg]
      rw [List.length_singleton]
      omega
    rw [Option.bind_some, ← hn, houtside]
    rfl

/-! ### One text -/

theorem calls_defer (hused : w.deferredBytes ≠ 0) (c : Int32) (text : List UInt8)
    (items : List (Int32 × List UInt8)) :
    w.calls order (deferCalls ((c, text) :: items)) =
      (({ w with nextCode := c } : Writer).writeStrBuff order text).bind fun r =>
        (r.2.calls order (deferCalls items)).bind fun s => some (r.1 ++ s.1, s.2) := by
  simp only [deferCalls, List.flatMap_cons, List.cons_append, List.nil_append, Writer.calls,
    Writer.call, Writer.code,
    Writer.deferStr, Option.bind_eq_bind, Option.bind_some, ne_eq, hused, not_false_eq_true, if_true,
    Option.bind_assoc, Option.pure_def]

theorem Refines.setCode (h : Refines order w p) (c : Int32) :
    Refines order { w with nextCode := c } ⟨c, p.deferred⟩ :=
  ⟨rfl, h.size, h.fits, h.deferred⟩

/-- The calls leave what was deferred before. -/
structure Extends (w w' : Writer) : Prop where
  more : w.deferredBytes ≤ w'.deferredBytes
  same : w'.deferredBuffer.take w.deferredBytes = w.deferredBuffer.take w.deferredBytes

/-- A text that is stored has room for its header and its length. -/
theorem writeStrBuff_some (hsize : w.deferredBuffer.length = cbaDeferBuff)
    (hused : w.deferredBytes ≤ cbaDeferBuff)
    {text : List UInt8} {actions : List Action} (hcall : w.writeStrBuff order text = some (actions, w')) :
    w.deferredBytes + hdrLength w.nextCode + 7 ≤ cbaDeferBuff ∧ actions = [] ∧ w'.threadId = w.threadId ∧
      w'.nextCode = 0 ∧ w'.deferredBuffer.length = cbaDeferBuff ∧
      w'.deferredBytes = w.deferredBytes + hdrLength w.nextCode + 2 + cutLength w.deferredBytes w.nextCode text ∧
      w'.deferredBuffer.take w'.deferredBytes = w.deferredBuffer.take w.deferredBytes ++
        (zeroed (cutLength w.deferredBytes w.nextCode text) (w.hdrBuff order cbaStr) ++
          (order.encode 2 (cutLength w.deferredBytes w.nextCode text) ++
            (Writer.formatted text).take (cutLength w.deferredBytes w.nextCode text))) := by
  have hroom : w.deferredBytes + hdrLength w.nextCode + 7 ≤ cbaDeferBuff := by
    by_contra hover
    rw [writeStrBuff_overrun hsize hused (Nat.lt_of_not_le hover)] at hcall
    cases hcall
  obtain ⟨w'', hcall', hspec⟩ := writeStrBuff_spec order text hsize hroom
  cases hcall.symm.trans hcall'
  exact ⟨hroom, rfl, hspec⟩

theorem writeStrBuff_extends (hsize : w.deferredBuffer.length = cbaDeferBuff)
    (hused : w.deferredBytes ≤ cbaDeferBuff)
    {text : List UInt8} {actions : List Action} (hcall : w.writeStrBuff order text = some (actions, w')) :
    Extends w w' ∧ w'.deferredBytes ≤ cbaDeferBuff ∧ w.deferredBytes < w'.deferredBytes := by
  obtain ⟨hroom, -, -, -, -, hbytes, hbuffer⟩ := writeStrBuff_some hsize hused hcall
  obtain ⟨hlow, -⟩ := hdrLength_le w.nextCode
  have hfits : cutLength w.deferredBytes w.nextCode text ≤
      cbaDeferBuff - w.deferredBytes - hdrLength w.nextCode - 7 := Nat.min_le_right _ _
  have hfront : (w.deferredBuffer.take w.deferredBytes).length = w.deferredBytes := by
    rw [List.length_take]
    omega
  refine ⟨⟨by omega, ?_⟩, by omega, by omega⟩
  have htake := congrArg (List.take w.deferredBytes) hbuffer
  rwa [List.take_take, Nat.min_eq_left (by omega), List.take_left' hfront] at htake

theorem calls_extends (hsize : w.deferredBuffer.length = cbaDeferBuff)
    (hused : w.deferredBytes ≤ cbaDeferBuff)
    (hsome : w.deferredBytes ≠ 0) {actions : List Action}
    (hcalls : w.calls order (deferCalls items) = some (actions, w')) : Extends w w' := by
  induction items generalizing w actions with
  | nil =>
    obtain rfl : w = w' := (Prod.mk.inj (Option.some.inj hcalls)).2
    exact ⟨Nat.le_refl _, rfl⟩
  | cons item items ih =>
    obtain ⟨c, text⟩ := item
    rw [calls_defer hsome] at hcalls
    obtain ⟨⟨acts, w₁⟩, hcall, hcalls⟩ := Option.bind_eq_some_iff.mp hcalls
    obtain ⟨⟨more, w₂⟩, hrest, heq⟩ := Option.bind_eq_some_iff.mp hcalls
    cases heq
    obtain ⟨hfirst, hused₁, hmore⟩ := writeStrBuff_extends (w := { w with nextCode := c }) hsize hused hcall
    obtain ⟨-, -, -, -, hsize₁, -, -⟩ := writeStrBuff_some (w := { w with nextCode := c }) hsize hused hcall
    have hlater := ih hsize₁ hused₁ (Nat.ne_of_gt (Nat.lt_of_le_of_lt (Nat.zero_le _) hmore)) hrest
    refine ⟨hfirst.more.trans hlater.more, ?_⟩
    have hsame := congrArg (List.take w.deferredBytes) hlater.same
    rw [List.take_take, List.take_take, Nat.min_eq_left hfirst.more] at hsame
    exact hsame.trans hfirst.same

/-! ### All texts -/

theorem encodeAtoms_append (tid : UInt8) (as bs : List Atom) :
    encodeAtoms order tid (as ++ bs) = encodeAtoms order tid as ++ encodeAtoms order tid bs := List.flatMap_append

theorem strAtoms_cons (c : Int32) (codes : List Int32) (text : List UInt8) (texts : List (List UInt8)) :
    strAtoms (c :: codes) (text :: texts) = .packet (codeField c) (.str text) :: strAtoms codes texts := rfl

theorem deferredText_starts (order : ByteOrder) (tid : UInt8) (p : Pending) (text : List UInt8) :
    p.deferredText order tid text <+: text :=
  ((List.take_prefix _ _).trans (List.takeWhile_prefix _)).trans (List.take_prefix _ _)

theorem deferredText_eq (h : Refines order w p) (text : List UInt8) :
    p.deferredText order w.threadId text =
      (Writer.formatted text).take (cutLength w.deferredBytes w.nextCode text) := by
  unfold Pending.deferredText cutLength
  rw [h.length, ← h.code, List.take_eq_take_iff]
  omega

/-- With room for every text the calls defer whole packets. -/
theorem defers_whole (h : Refines order w p) (hsome : w.deferredBytes ≠ 0)
    (hfits : Fits order w.deferredBytes items) :
    ∃ w' texts c, w.calls order (deferCalls items) = some ([], w') ∧ w'.threadId = w.threadId ∧
      List.Forall₂ (· <+: ·) texts (items.map Prod.snd) ∧
      Refines order w' ⟨c, p.deferred ++ strAtoms (items.map Prod.fst) texts⟩ := by
  induction items generalizing w p with
  | nil =>
    refine ⟨w, [], p.code, rfl, rfl, .nil, ?_⟩
    rw [List.map_nil, strAtoms, List.zipWith_nil_left, List.append_nil]
    exact h
  | cons item items ih =>
    obtain ⟨c, text⟩ := item
    obtain ⟨hok, hfits⟩ := hfits
    have hcode := h.setCode c
    obtain ⟨w₁, hcall, htid, hrefines⟩ := hcode.writeStrBuff hok
    obtain ⟨-, -, -, -, -, hbytes, -⟩ := writeStrBuff_some hcode.size hcode.fits hcall
    rw [← hbytes] at hfits
    obtain ⟨-, -, hmore⟩ := writeStrBuff_extends hcode.size hcode.fits hcall
    obtain ⟨w', texts, c', hcalls, htid', hprefix, hrefines'⟩ :=
      ih hrefines (Nat.ne_of_gt (Nat.lt_of_le_of_lt (Nat.zero_le _) hmore)) hfits
    refine ⟨w', Pending.deferredText order w.threadId ⟨c, p.deferred⟩ text :: texts, c', ?_,
      htid'.trans htid,
      .cons (deferredText_starts ..) hprefix, ?_⟩
    · rw [calls_defer hsome, hcall, Option.bind_some, hcalls]
      rfl
    · rw [List.map_cons, strAtoms_cons]
      rw [List.append_assoc] at hrefines'
      exact hrefines'

/-- A text behind which the buffer holds its packet had room for it. -/
theorem deferOk_of_whole {w₁ : Writer} {text t : List UInt8}
    (rest : List UInt8) {actions : List Action} (h : Refines order w p)
    (hcall : w.writeStrBuff order text = some (actions, w₁)) (hlater : Extends w₁ w')
    (hused : w'.deferredBytes ≤ cbaDeferBuff)
    (hwhole : w'.deferredBuffer.take w'.deferredBytes = encodeAtoms order w.threadId p.deferred ++
      ((Atom.packet (codeField w.nextCode) (.str t)).bytes order w.threadId ++ rest)) :
    DeferOk order w.deferredBytes w.nextCode text ∧
      t = (Writer.formatted text).take (cutLength w.deferredBytes w.nextCode text) := by
  obtain ⟨hroom, -, -, -, -, -, hbuffer⟩ := writeStrBuff_some h.size h.fits hcall
  generalize hn : cutLength w.deferredBytes w.nextCode text = n at hbuffer
  have hcut : n = min (Writer.formatted text).length
    (cbaDeferBuff - w.deferredBytes - hdrLength w.nextCode - 7) := hn.symm
  have hmax : cbaDeferBuff = 2048 := rfl
  have hhdr := length_hdrBuff order w cbaStr
  obtain ⟨hlow, -⟩ := hdrLength_le w.nextCode
  have hne : w.hdrBuff order cbaStr ≠ [] := List.ne_nil_of_length_pos (by omega)
  have hpacket := hdrBuff_payload order w (.str t)
  -- the packet of the text stands where the buffer has the bytes that were stored for it
  have hprefix : w₁.deferredBuffer.take w₁.deferredBytes <+: w'.deferredBuffer.take w'.deferredBytes := by
    rw [← hlater.same]
    exact List.take_prefix_take_left hlater.more
  rw [hbuffer, hwhole, h.deferred, List.prefix_append_right_inj, ← hpacket] at hprefix
  obtain ⟨tail, htail⟩ := hprefix
  simp only [Packet.kind, Packet.payload, List.append_assoc] at htail
  obtain ⟨hheader, htail⟩ := List.append_inj htail (length_zeroed n hne)
  obtain ⟨hlengths, htail⟩ := List.append_inj htail
    (by rw [ByteOrder.length_encode, ByteOrder.length_encode])
  have hshort : t.length ≤ cbaDeferBuff := by
    have hlength := congrArg List.length hwhole
    rw [List.length_append, List.length_append, ← hpacket, Packet.payload] at hlength
    simp only [List.length_append, List.length_take] at hlength
    omega
  have hlength : n = t.length := by
    have hdecoded := congrArg order.decode hlengths
    rw [ByteOrder.decode_encode_mod, ByteOrder.decode_encode_mod] at hdecoded
    omega
  have htake : ((Writer.formatted text).take n).length = t.length := by
    rw [List.length_take]
    omega
  obtain ⟨htext, -⟩ := List.append_inj htail htake
  refine ⟨⟨hroom, ?_⟩, htext.symm⟩
  by_cases hends : HdrEndsInZero order w.nextCode
  · exact .inr hends
  · have hpos : n ≠ 0 := fun h0 => zeroed_ne hends (h0 ▸ hheader)
    exact .inl ⟨List.ne_nil_of_length_pos (by omega), by omega⟩

/-- Only whole packets are deferred if what is deferred in the end is whole packets. -/
theorem fits_of_whole {texts : List (List UInt8)} {actions : List Action} (h : Refines order w p)
    (hsome : w.deferredBytes ≠ 0) (hlength : texts.length = items.length)
    (hcalls : w.calls order (deferCalls items) = some (actions, w'))
    (hused : w'.deferredBytes ≤ cbaDeferBuff)
    (hwhole : w'.deferredBuffer.take w'.deferredBytes =
      encodeAtoms order w.threadId (p.deferred ++ strAtoms (items.map Prod.fst) texts)) :
    Fits order w.deferredBytes items := by
  induction items generalizing w p texts actions with
  | nil => trivial
  | cons item items ih =>
    obtain ⟨c, text⟩ := item
    obtain ⟨t, texts, rfl⟩ := List.exists_cons_of_length_pos (l := texts)
      (by rw [hlength]; exact Nat.succ_pos _)
    rw [calls_defer hsome] at hcalls
    obtain ⟨⟨acts, w₁⟩, hcall, hcalls⟩ := Option.bind_eq_some_iff.mp hcalls
    obtain ⟨⟨more, w₂⟩, hrest, heq⟩ := Option.bind_eq_some_iff.mp hcalls
    cases heq
    have hcode := h.setCode c
    obtain ⟨hroom, rfl, htid, -, hsize₁, hbytes, hbuffer⟩ := writeStrBuff_some hcode.size hcode.fits hcall
    obtain ⟨-, hused₁, hmore⟩ := writeStrBuff_extends hcode.size hcode.fits hcall
    have hsome₁ : w₁.deferredBytes ≠ 0 := Nat.ne_of_gt (Nat.lt_of_le_of_lt (Nat.zero_le _) hmore)
    have hlater := calls_extends hsize₁ hused₁ hsome₁ hrest
    obtain ⟨hok, htext⟩ : DeferOk order w.deferredBytes c text ∧
        t = (Writer.formatted text).take (cutLength w.deferredBytes c text) := by
      refine deferOk_of_whole (encodeAtoms order w.threadId (strAtoms (items.map Prod.fst) texts)) hcode hcall hlater
        hused ?_
      rw [hwhole, encodeAtoms_append]
      rfl
    obtain ⟨w₂, hcall₂, -, hrefines⟩ := hcode.writeStrBuff hok
    cases hcall.symm.trans hcall₂
    have htexts : Pending.deferredText order w.threadId ⟨c, p.deferred⟩ text = t :=
      (deferredText_eq hcode text).trans htext.symm
    refine ⟨hok, ?_⟩
    have hfits := ih hrefines hsome₁ (Nat.succ.inj hlength) hrest (by
      rw [hwhole, htid]
      simp only [htexts, List.append_assoc]
      rfl)
    rwa [hbytes] at hfits

/-- Behind a head the buffer has the head, whatever it had before. -/
theorem head_refines (order : ByteOrder) (hsize : w.deferredBuffer.length = cbaDeferBuff)
    (module : List UInt8) :
    ∃ w', w.head order module = some ([], w') ∧ w'.threadId = w.threadId ∧
      w'.deferredBytes = hdrLength w.nextCode + 1 + module.length % 256 ∧
      Refines order w' ⟨0, [headAtom w.nextCode module]⟩ := by
  have hempty : Refines order { w with deferredBytes := 0 } ⟨w.nextCode, []⟩ :=
    ⟨rfl, hsize, Nat.zero_le _, rfl⟩
  obtain ⟨w', hcall, htid, hrefines⟩ := hempty.head module
  refine ⟨w', hcall, htid, ?_, hrefines⟩
  have hlength := hrefines.length
  have hpacket := hdrBuff_payload order w (.head (module.take (module.length % 256)))
  have htake : (module.take (module.length % 256)).length = module.length % 256 :=
    List.length_take_of_le (Nat.mod_le _ _)
  rw [← hlength, htid]
  simp only [Pending.next, encodeAtoms, List.flatMap_cons, List.flatMap_nil, List.append_nil]
  rw [← hpacket, List.length_append, length_hdrBuff, Packet.payload, List.length_cons, htake]
  omega

theorem defersWhole_iff_fits (hsize : w.deferredBuffer.length = cbaDeferBuff) (module : List UInt8) :
    DefersWhole order w module items ↔
      Fits order (hdrLength w.nextCode + 1 + module.length % 256) items := by
  obtain ⟨w₁, hhead, htid, hbytes, hrefines⟩ := head_refines order hsize module
  obtain ⟨hlow, -⟩ := hdrLength_le w.nextCode
  have hsome : w₁.deferredBytes ≠ 0 := by omega
  have hcalls : w.calls order (.head module :: deferCalls items) = w₁.calls order (deferCalls items) := by
    simp only [Writer.calls, Writer.call, hhead, Option.bind_eq_bind, Option.bind_some,
      List.nil_append, Option.pure_def]
    cases w₁.calls order (deferCalls items) <;> rfl
  rw [← hbytes, DefersWhole, hcalls]
  constructor
  · rintro ⟨w', texts, hrest, hused, hprefix, hwhole⟩
    rw [← htid] at hwhole
    have hlength := hprefix.length_eq
    rw [List.length_map] at hlength
    exact fits_of_whole hrefines hsome hlength hrest hused hwhole
  · intro hfits
    obtain ⟨w', texts, c, hrest, htid', hprefix, hrefines'⟩ := defers_whole hrefines hsome hfits
    have hwhole := hrefines'.deferred
    rw [htid', htid] at hwhole
    exact ⟨w', texts, hrest, hrefines'.fits, hprefix, hwhole⟩

/-- What is deferred behind a head is whole packets exactly if each text finds room. -/
theorem defers_whole_iff (order : ByteOrder) (tid : UInt8) (code : Int32)
    (buffer : Vector UInt8 cbaDeferBuff)
    (used : Nat) (module : List UInt8) (items : List (Int32 × List UInt8)) :
    DefersWhole order ⟨tid, code, buffer.toList, used⟩ module items ↔
      Fits order (hdrLength code + 1 + module.length % 256) items :=
  defersWhole_iff_fits buffer.length_toList module

/-- An empty text without a code: the zero falls on the type of its packet, which is a head then. -/
theorem empty_text_becomes_head :
    ((Writer.init 1).calls .little [.head [97], .deferStr []]).map
        (fun r => r.2.deferredBuffer.take r.2.deferredBytes) = some [1, 0, 1, 97, 1, 0, 0, 0] ∧
      ¬ DefersWhole .little (Writer.init 1) [97] [(0, [])] := by
  refine ⟨by decide +kernel, fun h => ?_⟩
  have hfits := (defersWhole_iff_fits List.length_replicate [97]).mp h
  exact absurd hfits (by decide)

end Cscan.Cba
