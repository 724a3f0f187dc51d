import Mathlib.Data.List.Basic

/-! Stores into a buffer of fixed size, which fail where a byte would fall outside of it. -/

namespace Cscan.Lib

variable {α : Type*}

/-- The buffer with `bytes` at position `i`. -/
def store (buf : List α) (i : Nat) (bytes : List α) : Option (List α) :=
  if i + bytes.length ≤ buf.length then
    some (buf.take i ++ bytes ++ buf.drop (i + bytes.length))
  else none

theorem store_eq {buf bytes : List α} {i : Nat} (h : i + bytes.length ≤ buf.length) :
    store buf i bytes = some (buf.take i ++ bytes ++ buf.drop (i + bytes.length)) := if_pos h

theorem length_store {buf buf' bytes : List α} {i : Nat} (h : store buf i bytes = some buf') :
    buf'.length = buf.length := by
  unfold store at h
  split_ifs at h with hle
  cases h
  simp
  omega

/-- What is in front of the store stays, and then come the bytes. -/
theorem take_store {buf buf' bytes : List α} {i : Nat} (h : store buf i bytes = some buf') :
    buf'.take (i + bytes.length) = buf.take i ++ bytes := by
  unfold store at h
  split_ifs at h with hle
  cases h
  have hlength : (buf.take i ++ bytes).length = i + bytes.length := by
    simp
    omega
  rw [← hlength, List.take_left]

/-- A store leaves what is in front of it. -/
theorem take_store_of_le {buf buf' bytes : List α} {i k : Nat} (hk : k ≤ i)
    (h : store buf i bytes = some buf') : buf'.take k = buf.take k := by
  have htake := congrArg (List.take k) (take_store h)
  rw [List.take_take, Nat.min_eq_left (by omega), List.take_append_of_le_length] at htake
  · rw [htake, List.take_take, Nat.min_eq_left hk]
  · unfold store at h
    split_ifs at h with hle
    simp
    omega

/-- What is behind the store stays. -/
theorem drop_store {buf buf' bytes : List α} {i k : Nat} (hk : i + bytes.length ≤ k)
    (h : store buf i bytes = some buf') : buf'.drop k = buf.drop k := by
  unfold store at h
  split_ifs at h with hle
  cases h
  have hfront : (buf.take i ++ bytes).length = i + bytes.length := by
    simp
    omega
  obtain ⟨d, rfl⟩ := Nat.exists_eq_add_of_le hk
  rw [← List.drop_drop, List.drop_left' hfront, List.drop_drop]

/-- The `length` bytes at position `i`. -/
def load (buf : List α) (i length : Nat) : Option (List α) :=
  if i + length ≤ buf.length then some ((buf.drop i).take length) else none

/-- Item `i` of a buffer of items of one size. -/
def slot (size : Nat) (buf : List α) (i : Nat) : List α := (buf.drop (size * i)).take size

theorem load_slot {size count i : Nat} {buf : List α} (hlength : buf.length = count * size)
    (hi : i < count) : load buf (size * i) size = some (slot size buf i) := by
  have hfits : size * (i + 1) ≤ size * count := Nat.mul_le_mul_left size hi
  rw [Nat.mul_succ] at hfits
  exact if_pos (by rw [hlength, Nat.mul_comm count]; exact hfits)

/-- A store leaves an item that ends in front of it. -/
theorem slot_of_le {size i k : Nat} {buf buf' bytes : List α} (h : store buf i bytes = some buf')
    (hk : size * (k + 1) ≤ i) : slot size buf' k = slot size buf k := by
  rw [Nat.mul_succ] at hk
  rw [slot, slot, List.take_drop, List.take_drop, take_store_of_le hk h]

/-- A store leaves an item that starts behind it. -/
theorem slot_of_ge {size i k : Nat} {buf buf' bytes : List α} (h : store buf i bytes = some buf')
    (hk : i + bytes.length ≤ size * k) : slot size buf' k = slot size buf k := by
  rw [slot, slot, drop_store hk h]

/-- A store of item `i` leaves the other items. -/
theorem store_slot {size count i : Nat} {buf bytes : List α} (hlength : buf.length = count * size)
    (hi : i < count) (hbytes : bytes.length = size) :
    ∃ buf', store buf (size * i) bytes = some buf' ∧ buf'.length = count * size ∧
      slot size buf' i = bytes ∧ ∀ j, j ≠ i → slot size buf' j = slot size buf j := by
  have hfits : size * (i + 1) ≤ buf.length := by
    rw [hlength, Nat.mul_comm count]
    exact Nat.mul_le_mul_left size hi
  rw [Nat.mul_succ] at hfits
  have hstore := @store_eq _ buf bytes (size * i) (by rwa [hbytes])
  have hfront : (buf.take (size * i)).length = size * i := List.length_take_of_le (by omega)
  refine ⟨_, hstore, (length_store hstore).trans hlength, ?_, fun j hj => ?_⟩
  · rw [slot, List.append_assoc, List.drop_left' hfront, List.take_left' hbytes]
  · rcases Nat.lt_or_gt_of_ne hj with hlt | hgt
    · exact slot_of_le hstore (Nat.mul_le_mul_left size hlt)
    · have hfront : size * (i + 1) ≤ size * j := Nat.mul_le_mul_left size hgt
      rw [Nat.mul_succ] at hfront
      exact slot_of_ge hstore (by rwa [hbytes])

/-- `memmove` of `length` bytes from position `source` to position `target`. -/
def memmove (buf : List α) (target source length : Int) : Option (List α) :=
  if 0 ≤ target ∧ 0 ≤ source ∧ 0 ≤ length then
    (load buf source.toNat length.toNat).bind (store buf target.toNat)
  else none

/-- A move of items from item `j` to item `i`. -/
theorem memmove_slots {size count i j n : Nat} {buf : List α} (hlength : buf.length = count * size)
    (hi : i + n ≤ count) (hj : j + n ≤ count) :
    ∃ buf', memmove buf (size * i : Nat) (size * j : Nat) (size * n : Nat) = some buf' ∧
      buf'.length = count * size ∧ ∀ k, slot size buf' k =
        if i ≤ k ∧ k < i + n then slot size buf (j + (k - i)) else slot size buf k := by
  have hbound : ∀ {m}, m ≤ count → size * m ≤ buf.length := fun hm => by
    rw [hlength, Nat.mul_comm count]
    exact Nat.mul_le_mul_left size hm
  have hsource := hbound hj
  have htarget := hbound hi
  rw [Nat.mul_add] at hsource htarget
  have hbytes : ((buf.drop (size * j)).take (size * n)).length = size * n := by
    rw [List.length_take, List.length_drop]
    omega
  have hstore := @store_eq _ buf ((buf.drop (size * j)).take (size * n)) (size * i) (by rwa [hbytes])
  refine ⟨_, ?_, (length_store hstore).trans hlength, fun k => ?_⟩
  · have hload : load buf (size * j) (size * n) = some ((buf.drop (size * j)).take (size * n)) :=
      if_pos hsource
    rw [memmove, if_pos (by omega), Int.toNat_natCast, Int.toNat_natCast, Int.toNat_natCast, hload]
    exact hstore
  · have hfront : (buf.take (size * i)).length = size * i := List.length_take_of_le (by omega)
    split_ifs with hk
    · obtain ⟨m, rfl⟩ := Nat.exists_eq_add_of_le hk.1
      have hm : size * (m + 1) ≤ size * n := Nat.mul_le_mul_left size (by omega)
      rw [Nat.mul_succ] at hm
      rw [slot, slot, List.append_assoc, Nat.mul_add, ← List.drop_drop, List.drop_left' hfront,
        List.drop_append_of_le_length (by omega), List.take_append_of_le_length (by
          rw [List.length_drop]
          omega), List.drop_take, List.take_take, List.drop_drop, Nat.min_eq_left (by omega),
        Nat.add_sub_cancel_left, Nat.mul_add]
    · rcases Nat.lt_or_ge k i with hlt | hge
      · exact slot_of_le hstore (Nat.mul_le_mul_left size hlt)
      · have hle : size * (i + n) ≤ size * k := Nat.mul_le_mul_left size (by omega)
        rw [Nat.mul_add] at hle
        exact slot_of_ge hstore (by rwa [hbytes])

end Cscan.Lib
