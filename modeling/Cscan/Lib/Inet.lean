import Cscan.Lib.Scanf

/-! `inet_aton` of the C library, on texts that are lists of characters: numbers in the notation of C with
dots between them, of which the last one fills the bytes that are left; and `inet_ntop`, whose texts
`inet_aton` reads back. -/

namespace Cscan.Lib.Inet

/-- The text up to the first zero. -/
def cString (text : List Char) : List Char := text.takeWhile (· ≠ '\x00')

/-! ### Numbers in the notation of C -/

/-- The value of a hexadecimal digit, and 16 for what is none. -/
def digitValue (c : Char) : Nat :=
  if c.isDigit then c.toNat - '0'.toNat
  else if 'a' ≤ c ∧ c ≤ 'f' then c.toNat - 'a'.toNat + 10
  else if 'A' ≤ c ∧ c ≤ 'F' then c.toNat - 'A'.toNat + 10
  else 16

/-- The base of a number, and the text from its digits on: `0x` in front of a digit is for 16, `0` for 8. -/
def radix : List Char → Nat × List Char
  | '0' :: x :: c :: cs =>
    if (x = 'x' ∨ x = 'X') ∧ digitValue c < 16 then (16, c :: cs) else (8, '0' :: x :: c :: cs)
  | '0' :: cs => (8, '0' :: cs)
  | cs => (10, cs)

/-- `strtoul(text, &end, 0)` for a text that begins with a digit, without the bound of the type: the number
and the text behind it. -/
def strtoul (text : List Char) : Nat × List Char :=
  let (base, text) := radix text
  let digits := text.takeWhile (digitValue · < base)
  (digits.foldl (fun n c => base * n + digitValue c) 0, text.drop digits.length)

/-! ### Addresses -/

/-- The loop of `inet_aton` over the numbers: those with a dot behind them, the last one and the text
behind it. There are at most three dots, so four turns are enough. -/
def atonLoop : Nat → List Nat → List Char → Option (List Nat × Nat × List Char)
  | 0, _, _ => none
  | fuel + 1, parts, text =>
    if text.head?.any Char.isDigit then
      let (val, rest) := strtoul text
      if val < 2 ^ 32 then
        match Scanf.literal '.' rest with
        | some rest => if parts.length ≤ 2 ∧ val ≤ 255 then atonLoop fuel (parts ++ [val]) rest else none
        | none => some (parts, val, rest)
      else none
    else none

/-- The address whose bytes from number `k` on, counted from the last one, are the numbers in front of the
last one. -/
def address : Nat → List Nat → Nat → Nat
  | _, [], val => val
  | k, p :: parts, val => p * 256 ^ k + address (k - 1) parts val

/-- The text behind an address does not count if it begins with white space. -/
def Ends (rest : List Char) : Prop := rest.head?.all Scanf.isSpace = true

instance (rest : List Char) : Decidable (Ends rest) := inferInstanceAs (Decidable (_ = _))

/-- `inet_aton`: the address in the byte order of the host. -/
def inetAton (text : List Char) : Option UInt32 :=
  match atonLoop 4 [] text with
  | none => none
  | some (parts, val, rest) =>
    if Ends rest ∧ val < 256 ^ (4 - parts.length) then some (UInt32.ofNat (address 3 parts val)) else none

/-! ### What is accepted -/

/-- The numbers in front of the last one are bytes. -/
theorem atonLoop_bytes {fuel : Nat} {parts parts' : List Nat} {text rest : List Char} {val : Nat}
    (h : atonLoop fuel parts text = some (parts', val, rest)) (hlen : parts.length ≤ 3)
    (hbytes : ∀ p ∈ parts, p < 256) : parts'.length ≤ 3 ∧ ∀ p ∈ parts', p < 256 := by
  induction fuel generalizing parts text with
  | zero => cases h
  | succ fuel ih =>
    simp only [atonLoop] at h
    cases hdot : Scanf.literal '.' (strtoul text).2 with
    | none =>
      simp only [hdot] at h
      split_ifs at h
      cases h
      exact ⟨hlen, hbytes⟩
    | some rest =>
      simp only [hdot] at h
      split_ifs at h with _ _ hbyte
      apply ih h
      · rw [List.length_append, List.length_singleton]
        omega
      · intro p hp
        rcases List.mem_append.mp hp with hp | hp
        · exact hbytes p hp
        · rw [List.mem_singleton.mp hp]
          omega

theorem address_lt {parts : List Nat} {val k : Nat} (hlen : parts.length ≤ k)
    (hbytes : ∀ p ∈ parts, p < 256) (hval : val < 256 ^ (k + 1 - parts.length)) :
    address k parts val < 256 ^ (k + 1) := by
  induction parts generalizing k with
  | nil => exact hval
  | cons p parts ih =>
    obtain ⟨hp, hparts⟩ := List.forall_mem_cons.mp hbytes
    rw [List.length_cons] at hlen hval
    obtain ⟨j, rfl⟩ : ∃ j, k = j + 1 := ⟨k - 1, by omega⟩
    have hrest := ih (show parts.length ≤ j by omega) hparts
      (by rwa [show j + 1 + 1 - (parts.length + 1) = j + 1 - parts.length by omega] at hval)
    have hmul := Nat.mul_le_mul_right (256 ^ (j + 1)) (Nat.le_of_lt_succ hp)
    rw [address, Nat.add_sub_cancel, pow_succ 256 (j + 1)]
    omega

theorem address_eq_zero {parts : List Nat} {val k : Nat} :
    address k parts val = 0 ↔ (∀ p ∈ parts, p = 0) ∧ val = 0 := by
  induction parts generalizing k with
  | nil => simp [address]
  | cons p parts ih => simp [address, ih, and_assoc]

/-- The text begins with an address in which not all numbers are zero. -/
def IsAddress (text : List Char) : Prop :=
  ∃ parts val rest, atonLoop 4 [] text = some (parts, val, rest) ∧ Ends rest ∧
    val < 256 ^ (4 - parts.length) ∧ ¬ ((∀ p ∈ parts, p = 0) ∧ val = 0)

theorem isAddress_iff {text : List Char} : IsAddress text ↔ ∃ ip, inetAton text = some ip ∧ ip ≠ 0 := by
  unfold IsAddress inetAton
  cases hloop : atonLoop 4 [] text with
  | none => simp
  | some r =>
    obtain ⟨parts, val, rest⟩ := r
    obtain ⟨hlen, hbytes⟩ := atonLoop_bytes hloop (by simp) (by simp)
    by_cases hends : Ends rest ∧ val < 256 ^ (4 - parts.length)
    · have hlt := address_lt hlen hbytes hends.2
      have hzero : UInt32.ofNat (address 3 parts val) ≠ 0 ↔ ¬ ((∀ p ∈ parts, p = 0) ∧ val = 0) := by
        rw [← address_eq_zero (k := 3), ne_eq, ← UInt32.toNat_inj, UInt32.toNat_ofNat_of_lt' hlt]
        exact Iff.rfl
      simp only [if_pos hends]
      constructor
      · rintro ⟨parts, val, rest, heq, -, -, hne⟩
        obtain ⟨rfl, rfl, rfl⟩ := by simpa using heq
        exact ⟨_, rfl, hzero.mpr hne⟩
      · rintro ⟨ip, hip, hne⟩
        obtain rfl := Option.some.inj hip
        exact ⟨parts, val, rest, rfl, hends.1, hends.2, hzero.mp hne⟩
    · simp only [if_neg hends]
      constructor
      · rintro ⟨parts, val, rest, heq, hrest, hval, -⟩
        obtain ⟨rfl, rfl, rfl⟩ := by simpa using heq
        exact absurd ⟨hrest, hval⟩ hends
      · rintro ⟨ip, hip, -⟩
        cases hip

/-! ### Dotted quads -/

/-- `inet_ntop` for `AF_INET`: the four bytes in decimal. -/
def inetNtop (ip : UInt32) : List Char :=
  Nat.toDigits 10 (ip.toNat / 2 ^ 24) ++ '.' :: (Nat.toDigits 10 (ip.toNat / 2 ^ 16 % 256) ++
    '.' :: (Nat.toDigits 10 (ip.toNat / 2 ^ 8 % 256) ++ '.' :: Nat.toDigits 10 (ip.toNat % 256)))

theorem toDigits_head {n : Nat} (hpos : 0 < n) : ∃ c cs, Nat.toDigits 10 n = c :: cs ∧ c ≠ '0' := by
  have hdigit : ∀ n < 10, 0 < n → n.digitChar ≠ '0' := by decide
  induction n using Nat.strong_induction_on with
  | _ n ih =>
    by_cases hsmall : n < 10
    · exact ⟨n.digitChar, [], Nat.toDigits_of_lt_base hsmall, hdigit n hsmall hpos⟩
    · obtain ⟨c, cs, hcs, hc⟩ := ih (n / 10) (by omega) (by omega)
      rw [Nat.toDigits_of_base_le (by decide) (by omega), hcs]
      exact ⟨c, cs ++ [(n % 10).digitChar], rfl, hc⟩

theorem isDigit_toDigits {n : Nat} : ∀ c ∈ Nat.toDigits 10 n, c.isDigit = true :=
  fun _ hc => Nat.isDigit_of_mem_toDigits (by decide) (by decide) hc

theorem digitValue_of_isDigit {c : Char} (h : c.isDigit = true) :
    digitValue c = c.toNat - '0'.toNat ∧ digitValue c < 10 := by
  have hvalue : digitValue c = c.toNat - '0'.toNat := if_pos h
  obtain ⟨hlow, hhigh⟩ := Scanf.isDigit_bounds h
  refine ⟨hvalue, ?_⟩
  have hle : c.toNat ≤ '9'.toNat := hhigh
  rw [hvalue]
  simp only [Char.reduceToNat] at hle ⊢
  omega

/-- The text behind a number begins with nothing that could be a part of it. -/
def Apart (rest : List Char) : Prop := ∀ c ∈ rest.head?, digitValue c = 16 ∧ c ≠ 'x' ∧ c ≠ 'X'

theorem radix_toDigits (n : Nat) {rest : List Char} (hrest : Apart rest) :
    ∃ base, radix (Nat.toDigits 10 n ++ rest) = (base, Nat.toDigits 10 n ++ rest) ∧
      (base = 10 ∨ n = 0 ∧ base = 8) := by
  rcases Nat.eq_zero_or_pos n with rfl | hpos
  · refine ⟨8, ?_, .inr ⟨rfl, rfl⟩⟩
    rw [Nat.toDigits_zero, List.singleton_append]
    rcases rest with - | ⟨x, - | ⟨c, cs⟩⟩
    · rfl
    · rfl
    · obtain ⟨-, hx, hX⟩ := hrest x rfl
      simp [radix, hx, hX]
  · obtain ⟨c, cs, hcs, hc⟩ := toDigits_head hpos
    refine ⟨10, ?_, .inl rfl⟩
    rw [hcs, List.cons_append]
    unfold radix
    split
    · exact absurd (List.cons.inj ‹_›).1 hc
    · exact absurd (List.cons.inj ‹_›).1 hc
    · rfl

/-- A number in decimal is read as it is, without the text behind it. -/
theorem strtoul_toDigits (n : Nat) {rest : List Char} (hrest : Apart rest) :
    strtoul (Nat.toDigits 10 n ++ rest) = (n, rest) := by
  obtain ⟨base, hradix, hbase⟩ := radix_toDigits n hrest
  have htake : (Nat.toDigits 10 n ++ rest).takeWhile (digitValue · < base) = Nat.toDigits 10 n := by
    rw [List.takeWhile_append_of_pos]
    · cases rest with
      | nil => exact List.append_nil _
      | cons c rest =>
        obtain ⟨hc, -⟩ := hrest c rfl
        have hnot : ¬ digitValue c < base := by
          rcases hbase with rfl | ⟨-, rfl⟩ <;> omega
        rw [List.takeWhile_cons_of_neg (by simpa using hnot), List.append_nil]
    · intro c hc
      rcases hbase with rfl | ⟨rfl, rfl⟩
      · simpa using (digitValue_of_isDigit (isDigit_toDigits c hc)).2
      · rw [Nat.toDigits_zero, List.mem_singleton] at hc
        subst hc
        decide
  have hvalue : (Nat.toDigits 10 n).foldl (fun v c => base * v + digitValue c) 0 = n := by
    rcases hbase with rfl | ⟨rfl, rfl⟩
    · have hfold : (Nat.toDigits 10 n).foldl (fun v c => 10 * v + digitValue c) 0 =
          Nat.ofDigitChars 10 (Nat.toDigits 10 n) 0 := by
        rw [Nat.ofDigitChars_eq_foldl]
        refine List.foldl_ext _ _ _ fun v c hc => ?_
        rw [(digitValue_of_isDigit (isDigit_toDigits c hc)).1]
      rw [hfold, Nat.ofDigitChars_ten_toDigits]
    · rfl
  simp only [strtoul, hradix, htake, hvalue, List.drop_left]

theorem head_toDigits (n : Nat) (rest : List Char) : (Nat.toDigits 10 n ++ rest).head?.any Char.isDigit := by
  obtain ⟨c, cs, hcs⟩ := List.exists_cons_of_ne_nil (Nat.toDigits_ne_nil (n := n) (b := 10))
  have hc : c.isDigit = true := isDigit_toDigits c (by rw [hcs]; exact List.mem_cons_self)
  simp [hcs, hc]

theorem atonLoop_dot {n fuel : Nat} {parts : List Nat} (hparts : parts.length ≤ 2) (hn : n ≤ 255)
    (rest : List Char) :
    atonLoop (fuel + 1) parts (Nat.toDigits 10 n ++ '.' :: rest) = atonLoop fuel (parts ++ [n]) rest := by
  have hapart : Apart ('.' :: rest) := fun c hc => by
    obtain rfl := Option.some.inj hc
    decide
  have hlt : n < 2 ^ 32 := by omega
  simp only [atonLoop, head_toDigits, if_true, strtoul_toDigits n hapart, if_pos hlt, Scanf.literal,
    if_pos (show parts.length ≤ 2 ∧ n ≤ 255 from ⟨hparts, hn⟩)]

theorem atonLoop_last {n fuel : Nat} (parts : List Nat) (hn : n < 2 ^ 32) :
    atonLoop (fuel + 1) parts (Nat.toDigits 10 n) = some (parts, n, []) := by
  have hhead := head_toDigits n []
  have hread : strtoul (Nat.toDigits 10 n ++ []) = (n, []) := strtoul_toDigits n fun c hc => by cases hc
  rw [List.append_nil] at hhead hread
  simp only [atonLoop, hhead, if_true, hread, if_pos hn, Scanf.literal]

theorem inetAton_inetNtop (ip : UInt32) : inetAton (inetNtop ip) = some ip := by
  have hlt := ip.toNat_lt
  have hloop : atonLoop 4 [] (inetNtop ip) =
      some ([ip.toNat / 2 ^ 24, ip.toNat / 2 ^ 16 % 256, ip.toNat / 2 ^ 8 % 256], ip.toNat % 256, []) := by
    rw [inetNtop, atonLoop_dot (by simp) (by omega), atonLoop_dot (by simp) (by omega),
      atonLoop_dot (by simp) (by omega), atonLoop_last _ (by omega)]
    rfl
  have haddress : address 3 [ip.toNat / 2 ^ 24, ip.toNat / 2 ^ 16 % 256, ip.toNat / 2 ^ 8 % 256]
      (ip.toNat % 256) = ip.toNat := by
    simp only [address]
    omega
  have hends : Ends [] := rfl
  have hbyte : ip.toNat % 256 < 256 ^ (4 - 3) := by omega
  simp only [inetAton, hloop]
  rw [if_pos ⟨hends, hbyte⟩, haddress, UInt32.ofNat_toNat]

/-- The text fits in the buffer of `inet_ntop`, with the zero behind it. -/
theorem length_inetNtop (ip : UInt32) : (inetNtop ip).length ≤ 15 := by
  have hlt := ip.toNat_lt
  have hbyte : ∀ n < 256, (Nat.toDigits 10 n).length ≤ 3 := fun n hn => by
    rw [Nat.length_toDigits_le_iff (by decide) (by decide)]
    omega
  have h1 := hbyte (ip.toNat / 2 ^ 24) (by omega)
  have h2 := hbyte (ip.toNat / 2 ^ 16 % 256) (by omega)
  have h3 := hbyte (ip.toNat / 2 ^ 8 % 256) (by omega)
  have h4 := hbyte (ip.toNat % 256) (by omega)
  simp only [inetNtop, List.length_append, List.length_cons]
  omega

theorem inetNtop_mem {ip : UInt32} {c : Char} (hc : c ∈ inetNtop ip) : c.isDigit = true ∨ c = '.' := by
  simp only [inetNtop, List.mem_append, List.mem_cons] at hc
  rcases hc with hc | rfl | hc | rfl | hc | rfl | hc
  · exact .inl (isDigit_toDigits c hc)
  · exact .inr rfl
  · exact .inl (isDigit_toDigits c hc)
  · exact .inr rfl
  · exact .inl (isDigit_toDigits c hc)
  · exact .inr rfl
  · exact .inl (isDigit_toDigits c hc)

theorem inetNtop_head (ip : UInt32) : ∃ c cs, inetNtop ip = c :: cs ∧ c.isDigit = true := by
  obtain ⟨c, cs, hcs⟩ := List.exists_cons_of_ne_nil (Nat.toDigits_ne_nil (n := ip.toNat / 2 ^ 24) (b := 10))
  refine ⟨c, _, by rw [inetNtop, hcs, List.cons_append],
    isDigit_toDigits c (by rw [hcs]; exact List.mem_cons_self)⟩

end Cscan.Lib.Inet
