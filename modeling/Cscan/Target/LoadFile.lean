import Cscan.Target.Table

/-! What `load_range_cfg` makes of a file: the record whose words the file begins with, and what becomes of a
file that ends before the last word that it announces. -/

namespace Cscan.Target

open Cscan.Lib

def littleWords (words : List UInt32) : List UInt8 :=
  words.flatMap fun v => ByteOrder.little.encode 4 v.toNat

theorem length_littleWords (words : List UInt32) : (littleWords words).length = 4 * words.length := by
  induction words with
  | nil => rfl
  | cons v words ih =>
    rw [littleWords, List.flatMap_cons, List.length_append, ByteOrder.length_encode, List.length_cons]
    rw [littleWords] at ih
    omega

theorem littleWords_cons (v : UInt32) (words : List UInt32) (rest : List UInt8) :
    littleWords (v :: words) ++ rest = ByteOrder.little.encode 4 v.toNat ++ (littleWords words ++ rest) := by
  rw [littleWords, List.flatMap_cons, List.append_assoc]
  rfl

/-- A file that is long enough begins with as many words. -/
theorem exists_littleWords {n : Nat} {file : List UInt8} (hlength : 4 * n ≤ file.length) :
    ∃ words rest, words.length = n ∧ file = littleWords words ++ rest := by
  induction n generalizing file with
  | zero => exact ⟨[], file, rfl, rfl⟩
  | succ n ih =>
    have htake : (file.take 4).length = 4 := List.length_take_of_le (by omega)
    have hdrop : 4 * n ≤ (file.drop 4).length := by
      rw [List.length_drop]
      omega
    obtain ⟨words, rest, hwords, hrest⟩ := ih hdrop
    have hword := ByteOrder.encode_decode .little (file.take 4)
    have hlt : ByteOrder.little.decode (file.take 4) < 2 ^ 32 := by
      have h := fromLow_lt (file.take 4)
      rw [htake] at h
      simpa [ByteOrder.decode] using h
    refine ⟨UInt32.ofNat (ByteOrder.little.decode (file.take 4)) :: words, rest,
      by rw [List.length_cons, hwords], ?_⟩
    rw [littleWords_cons, UInt32.toNat_ofNat_of_lt' hlt, ← hrest]
    rw [htake] at hword
    rw [hword, List.take_append_drop]

/-! ### Reading words -/

/-- A machine of either byte order reads back a word that was written little-endian. -/
theorem freadle_encode (order : ByteOrder) {n : Nat} (h : n < 2 ^ 32) (rest : List UInt8) :
    freadle order 4 (ByteOrder.little.encode 4 n ++ rest) = some (n, rest) := by
  have hlen := ByteOrder.length_encode .little 4 n
  have htake : (ByteOrder.little.encode 4 n ++ rest).take 4 = ByteOrder.little.encode 4 n :=
    List.take_left' hlen
  have hdrop : (ByteOrder.little.encode 4 n ++ rest).drop 4 = rest := List.drop_left' hlen
  have hword : ByteOrder.little.decode (ByteOrder.little.encode 4 n) = n :=
    ByteOrder.decode_encode (by simpa using h)
  have hswap := ByteOrder.encode_decode order (ByteOrder.little.encode 4 n)
  rw [hlen] at hswap
  rw [freadle, if_pos (by rw [List.length_append, hlen]; omega), htake, hdrop]
  cases order
  · simp [hword]
  · simp [hswap, hword]

theorem freadle_words (order : ByteOrder) (v : UInt32) (words : List UInt32) (rest : List UInt8) :
    freadle order 4 (littleWords (v :: words) ++ rest) = some (v.toNat, littleWords words ++ rest) := by
  rw [littleWords_cons, freadle_encode order v.toNat_lt]

theorem loadWords_words (order : ByteOrder) (vs : List UInt32) (rest : List UInt8) (i : Nat)
    (words : List UInt32) (hlen : words.length = i + vs.length) :
    loadWords order vs.length i words (littleWords vs ++ rest) = some (words.take i ++ vs) := by
  induction vs generalizing i words with
  | nil =>
    rw [List.length_nil, Nat.add_zero] at hlen
    simp [loadWords, ← hlen]
  | cons v vs ih =>
    rw [List.length_cons] at hlen ⊢
    have hset : (words.set i v).take (i + 1) = words.take i ++ [v] := by
      rw [List.take_add_one, List.take_set_of_le (Nat.le_refl i), List.getElem?_set_self (by omega)]
      rfl
    rw [loadWords, freadle_words]
    simp only [UInt32.ofNat_toNat]
    rw [if_pos (by omega), ih (i + 1) _ (by rw [List.length_set]; omega), hset, List.append_assoc]
    rfl

/-! ### Reading a record -/

def RangeCfg.words (cfg : RangeCfg) : List UInt32 :=
  UInt32.ofNat (cfg.num % 2 ^ 32).toNat :: cfg.maxIdx :: cfg.mask :: cfg.ranges

/-- The file holds the header and all the words that it announces, and `cfg` is these. -/
structure Whole (file : List UInt8) (cfg : RangeCfg) : Prop where
  int : cfg.num < 2 ^ 31
  length : cfg.ranges.length = 2 * cfg.num
  words : littleWords cfg.words <+: file

/-- The count that the file announces. -/
def announced (file : List UInt8) : Int := toInt32 (ByteOrder.little.decode (file.take 4))

variable {order : ByteOrder} {malloc : Nat → Option (Nat → UInt32)} {file : List UInt8} {cfg : RangeCfg}

theorem toInt32_num {num : Int} (h0 : 0 ≤ num) (h1 : num < 2 ^ 31) :
    toInt32 (UInt32.ofNat (num % 2 ^ 32).toNat).toNat = num := by
  have hlt : (num % 2 ^ 32).toNat < 2 ^ 32 := by omega
  rw [UInt32.toNat_ofNat_of_lt' hlt, toInt32, if_pos (by omega)]
  omega

theorem announced_words (v : UInt32) (words : List UInt32) (rest : List UInt8) :
    announced (littleWords (v :: words) ++ rest) = toInt32 v.toNat := by
  have htake : (littleWords (v :: words) ++ rest).take 4 = ByteOrder.little.encode 4 v.toNat := by
    rw [littleWords_cons]
    exact List.take_left' (ByteOrder.length_encode ..)
  rw [announced, htake, ByteOrder.decode_encode (by simpa using v.toNat_lt)]

theorem Whole.announced (h : Whole file cfg) :
    announced file = cfg.num ∧ 0 ≤ cfg.num ∧ 12 + 8 * cfg.num ≤ file.length := by
  obtain ⟨hint, hlength, rest, rfl⟩ := h
  have hlen := length_littleWords cfg.words
  refine ⟨?_, by omega, ?_⟩
  · rw [RangeCfg.words, announced_words, toInt32_num (by omega) hint]
  · rw [List.length_append, hlen]
    simp only [RangeCfg.words, List.length_cons]
    omega

/-- A file that is as long as it announces holds a record. -/
theorem exists_whole (h0 : 0 ≤ announced file) (hlength : 12 + 8 * announced file ≤ file.length) :
    ∃ cfg, Whole file cfg := by
  have hbytes : 4 * (3 + 2 * (announced file).toNat) ≤ file.length := by omega
  obtain ⟨words, rest, hwords, hfile⟩ := exists_littleWords hbytes
  obtain ⟨n, words, rfl⟩ := List.exists_cons_of_length_pos (l := words) (by omega)
  obtain ⟨maxIdx, words, rfl⟩ := List.exists_cons_of_length_pos (l := words)
    (by rw [List.length_cons] at hwords; omega)
  obtain ⟨mask, ranges, rfl⟩ := List.exists_cons_of_length_pos (l := words)
    (by simp only [List.length_cons] at hwords; omega)
  have hn : toInt32 n.toNat = announced file := by rw [hfile, announced_words]
  have hlt := n.toNat_lt
  have hnum : UInt32.ofNat (toInt32 n.toNat % 2 ^ 32).toNat = n := by
    have h : (toInt32 n.toNat % 2 ^ 32).toNat = n.toNat := by
      unfold toInt32
      split_ifs <;> omega
    rw [h, UInt32.ofNat_toNat]
  refine ⟨⟨toInt32 n.toNat, maxIdx, mask, ranges⟩, ⟨?_, ?_, rest, ?_⟩⟩
  · show toInt32 n.toNat < 2 ^ 31
    unfold toInt32
    split_ifs <;> omega
  · simp only [List.length_cons] at hwords
    show (ranges.length : Int) = 2 * toInt32 n.toNat
    omega
  · rw [hfile, RangeCfg.words, hnum]

theorem allocSize_of_nonneg {num : Int} (h0 : 0 ≤ num) (h1 : num < 2 ^ 30) :
    allocSize num = 12 + 8 * num.toNat := by
  unfold allocSize
  omega

/-- A file that is whole is read whole if there is memory for it. -/
theorem Whole.load (order : ByteOrder) (h : Whole file cfg) (hshort : cfg.num < 2 ^ 30)
    (hmem : (malloc (allocSize cfg.num)).isSome) : loadRangeCfg order malloc (some file) = .record cfg := by
  obtain ⟨-, hnum0, -⟩ := h.announced
  obtain ⟨hint, hlength, rest, rfl⟩ := h
  obtain ⟨word, hword⟩ := Option.isSome_iff_exists.mp hmem
  have hnum := toInt32_num hnum0 hint
  have hsize := allocSize_of_nonneg hnum0 hshort
  have hcount : (cfg.num * 2).toNat = cfg.ranges.length := by omega
  have hslots : (freshRecord (allocSize cfg.num) word).ranges.length = 0 + cfg.ranges.length := by
    simp only [freshRecord, List.length_map, List.length_range]
    omega
  have hload := loadWords_words order cfg.ranges rest 0 _ hslots
  simp only [loadRangeCfg, RangeCfg.words]
  rw [freadle_words]
  simp only [hnum, hword]
  rw [if_neg (by omega), if_neg (by omega), freadle_words]
  simp only
  rw [if_neg (by omega), freadle_words]
  simp only
  rw [if_neg (by omega), hcount, hload]
  simp

theorem loadRangeCfg_short (hlength : file.length < 4) : loadRangeCfg order malloc (some file) = .null := by
  rw [loadRangeCfg, freadle, if_neg (by omega)]

theorem readCount (order : ByteOrder) (hlength : 4 ≤ file.length) :
    ∃ (n : UInt32) (rest : List UInt8), announced file = toInt32 n.toNat ∧
      freadle order 4 file = some (n.toNat, rest) := by
  obtain ⟨words, rest, hwords, rfl⟩ := exists_littleWords (show 4 * 1 ≤ file.length from hlength)
  obtain ⟨n, rfl⟩ := List.length_eq_one_iff.mp hwords
  exact ⟨n, rest, announced_words n [] rest, freadle_words order n [] rest⟩

theorem loadRangeCfg_overflow (hlength : 4 ≤ file.length)
    (hint : ¬ (-2 ^ 31 ≤ announced file * 2 ∧ announced file * 2 < 2 ^ 31)) :
    loadRangeCfg order malloc (some file) = .undefined := by
  obtain ⟨n, rest, hnum, hread⟩ := readCount order hlength
  rw [hnum] at hint
  simp only [loadRangeCfg, hread]
  rw [if_pos (by omega)]

theorem loadRangeCfg_null (hlength : 4 ≤ file.length)
    (hint : -2 ^ 31 ≤ announced file * 2 ∧ announced file * 2 < 2 ^ 31)
    (hmem : malloc (allocSize (announced file)) = none) : loadRangeCfg order malloc (some file) = .null := by
  obtain ⟨n, rest, hnum, hread⟩ := readCount order hlength
  rw [hnum] at hint hmem
  simp only [loadRangeCfg, hread, hmem]
  rw [if_neg (by omega)]

/-- With memory there is a record, however much of the file there is. -/
theorem loadRangeCfg_filled (order : ByteOrder) {word : Nat → UInt32} (hlength : 4 ≤ file.length)
    (hint : -2 ^ 31 ≤ announced file * 2 ∧ announced file * 2 < 2 ^ 31)
    (hmem : malloc (allocSize (announced file)) = some word) :
    loadRangeCfg order malloc (some file) = .undefined ∨
      ∃ cfg, loadRangeCfg order malloc (some file) = .record cfg ∧ cfg.num = announced file := by
  obtain ⟨n, rest, hnum, hread⟩ := readCount order hlength
  rw [hnum] at hint hmem ⊢
  simp only [loadRangeCfg, hread, hmem]
  rw [if_neg (by omega)]
  split
  · exact .inl rfl
  split
  · exact .inr ⟨_, rfl, rfl⟩
  split
  · exact .inl rfl
  split
  · exact .inr ⟨_, rfl, rfl⟩
  split
  · exact .inl rfl
  split
  · exact .inl rfl
  · exact .inr ⟨_, rfl, rfl⟩

/-- A record comes from a file with a count that does not overflow, and with memory. -/
theorem exists_malloc_of_record (hload : loadRangeCfg order malloc (some file) = .record cfg) :
    4 ≤ file.length ∧ (-2 ^ 31 ≤ announced file * 2 ∧ announced file * 2 < 2 ^ 31) ∧
      ∃ word, malloc (allocSize (announced file)) = some word := by
  have hlength : 4 ≤ file.length := by
    by_contra hshort
    rw [loadRangeCfg_short (by omega)] at hload
    cases hload
  have hint : -2 ^ 31 ≤ announced file * 2 ∧ announced file * 2 < 2 ^ 31 := by
    by_contra hwide
    rw [loadRangeCfg_overflow hlength hwide] at hload
    cases hload
  refine ⟨hlength, hint, ?_⟩
  rw [← Option.isSome_iff_exists, Option.isSome_iff_ne_none]
  intro hnone
  rw [loadRangeCfg_null hlength hint hnone] at hload
  cases hload

end Cscan.Target
