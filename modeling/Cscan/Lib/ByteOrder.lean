import Mathlib.Tactic.Ring
import Mathlib.Tactic.NormNum
import Mathlib.Tactic.Positivity
import Mathlib.Tactic.Zify

/-! Words of a fixed number of bytes in either byte order: unsigned words as natural numbers, signed
words as integers in two's complement, and the round trips between words and bytes. -/

namespace Cscan.Lib

inductive ByteOrder
  | little
  | big
deriving DecidableEq, Repr

/-- The `w` low bytes of `n`, least significant byte first. -/
def lowBytes : Nat → Nat → List UInt8
  | 0, _ => []
  | w + 1, n => UInt8.ofNat n :: lowBytes w (n / 256)

def fromLow : List UInt8 → Nat
  | [] => 0
  | b :: bs => b.toNat + 256 * fromLow bs

@[simp] theorem length_lowBytes (w n : Nat) : (lowBytes w n).length = w := by
  induction w generalizing n with
  | zero => rfl
  | succ w ih => simp [lowBytes, ih]

theorem fromLow_lowBytes (w n : Nat) : fromLow (lowBytes w n) = n % 256 ^ w := by
  induction w generalizing n with
  | zero => simp [lowBytes, fromLow, Nat.mod_one]
  | succ w ih =>
    have hbyte : (UInt8.ofNat n).toNat = n % 256 := by simp
    rw [lowBytes, fromLow, ih, hbyte, pow_succ', Nat.mod_mul]

theorem lowBytes_fromLow (bs : List UInt8) : lowBytes bs.length (fromLow bs) = bs := by
  induction bs with
  | nil => rfl
  | cons b bs ih =>
    have hb : b.toNat < 256 := b.toNat_lt
    have hdiv : (b.toNat + 256 * fromLow bs) / 256 = fromLow bs := by omega
    have hbyte : UInt8.ofNat (b.toNat + 256 * fromLow bs) = b := by
      apply UInt8.toNat_inj.mp
      rw [UInt8.toNat_ofNat']
      omega
    rw [List.length_cons, fromLow, lowBytes, hdiv, hbyte, ih]

theorem fromLow_lt (bs : List UInt8) : fromLow bs < 256 ^ bs.length := by
  induction bs with
  | nil => simp [fromLow]
  | cons b bs ih =>
    have hb : b.toNat < 256 := b.toNat_lt
    rw [fromLow, List.length_cons, pow_succ]
    omega

namespace ByteOrder

/-- The `w` bytes of the unsigned word `n` as a machine of byte order `order` stores them. -/
def encode (order : ByteOrder) (w n : Nat) : List UInt8 :=
  match order with
  | little => lowBytes w n
  | big => (lowBytes w n).reverse

/-- The unsigned word that a machine of byte order `order` loads from `bs`. -/
def decode (order : ByteOrder) (bs : List UInt8) : Nat :=
  match order with
  | little => fromLow bs
  | big => fromLow bs.reverse

@[simp] theorem length_encode (order : ByteOrder) (w n : Nat) :
    (order.encode w n).length = w := by
  cases order <;> simp [encode]

theorem decode_encode_mod (order : ByteOrder) (w n : Nat) :
    order.decode (order.encode w n) = n % 256 ^ w := by
  cases order <;> simp [encode, decode, fromLow_lowBytes]

theorem decode_encode {order : ByteOrder} {w n : Nat} (h : n < 256 ^ w) :
    order.decode (order.encode w n) = n := by
  rw [decode_encode_mod, Nat.mod_eq_of_lt h]

theorem encode_decode (order : ByteOrder) (bs : List UInt8) :
    order.encode bs.length (order.decode bs) = bs := by
  cases order
  · exact lowBytes_fromLow bs
  · have h := lowBytes_fromLow bs.reverse
    rw [List.length_reverse] at h
    simp [encode, decode, h]

theorem decode_lt (order : ByteOrder) (bs : List UInt8) : order.decode bs < 256 ^ bs.length := by
  cases order
  · exact fromLow_lt bs
  · simpa [decode] using fromLow_lt bs.reverse

/-- Any bytes are those of a word. -/
theorem exists_encode (order : ByteOrder) {w : Nat} {bs : List UInt8} (h : bs.length = w) :
    ∃ n < 256 ^ w, bs = order.encode w n := by
  obtain rfl := h
  exact ⟨order.decode bs, decode_lt order bs, (encode_decode order bs).symm⟩

def encodeInt (order : ByteOrder) (w : Nat) (z : Int) : List UInt8 :=
  order.encode w (z % 256 ^ w).toNat

/-- The signed word that a machine of byte order `order` loads from `bs`. -/
def decodeInt (order : ByteOrder) (bs : List UInt8) : Int :=
  if 2 * order.decode bs < 256 ^ bs.length then (order.decode bs : Int)
  else (order.decode bs : Int) - 256 ^ bs.length

@[simp] theorem length_encodeInt (order : ByteOrder) (w : Nat) (z : Int) :
    (order.encodeInt w z).length = w := length_encode order w _

theorem decodeInt_encodeInt {order : ByteOrder} {w : Nat} {z : Int}
    (hlow : -(256 ^ w) ≤ 2 * z) (hhigh : 2 * z < 256 ^ w) :
    order.decodeInt (order.encodeInt w z) = z := by
  have hpos : (0 : Int) < 256 ^ w := by positivity
  have hnonneg := Int.emod_nonneg z hpos.ne'
  have hlt := Int.emod_lt_of_pos z hpos
  have hword : order.decode (order.encodeInt w z) = (z % 256 ^ w).toNat := by
    refine decode_encode ?_
    zify
    rwa [Int.toNat_of_nonneg hnonneg]
  have hcast : ((z % 256 ^ w).toNat : Int) = z % 256 ^ w := Int.toNat_of_nonneg hnonneg
  simp only [decodeInt, hword, length_encodeInt]
  rcases le_or_gt 0 z with hz | hz
  · have hmod : z % 256 ^ w = z := Int.emod_eq_of_lt hz (by omega)
    rw [if_pos (by zify; rw [hcast, hmod]; exact hhigh), hcast, hmod]
  · have hmod : z % 256 ^ w = z + 256 ^ w := by
      rw [← Int.add_emod_right, Int.emod_eq_of_lt (by omega) (by omega)]
    rw [if_neg (by zify; rw [hcast, hmod]; omega), hcast, hmod]
    ring

/-- The signed word that the bytes of an unsigned word stand for. -/
theorem decodeInt_encode {order : ByteOrder} {w n : Nat} (h : n < 256 ^ w) :
    order.decodeInt (order.encode w n) = if 2 * n < 256 ^ w then (n : Int) else (n : Int) - 256 ^ w := by
  simp only [decodeInt, decode_encode h, length_encode]

theorem eq_encode_of_decodeInt {order : ByteOrder} {bs : List UInt8} {n : Nat}
    (h : order.decodeInt bs = n) : bs = order.encode bs.length n := by
  have hlt := decode_lt order bs
  have hword : order.decode bs = n := by
    unfold decodeInt at h
    zify at hlt ⊢
    split_ifs at h <;> omega
  rw [← hword, encode_decode]

end ByteOrder

end Cscan.Lib
