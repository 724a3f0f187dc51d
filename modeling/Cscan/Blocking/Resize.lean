import Cscan.Blocking.Queue
import Cscan.Lib.CInt

/-! `not_supported_resize` of `queue.c`, on a queue that nobody else uses meanwhile. The products of `item_size` and
of indexes below the capacity are `int` since the size of the buffer is; the other sums and products are checked. -/

namespace Cscan.Blocking

open Cscan.Lib

namespace Queue

/-- `realloc`: the old bytes as far as they fit, and then what the memory has. -/
def realloc (items : List UInt8) (memory : Nat → UInt8) (size : Nat) : List UInt8 :=
  items.take size ++ (List.range (size - items.length)).map memory

/-- The first stage of a shrinking: `new_length`, and the new `next_idx`. -/
def trim (q : Queue) (target : Nat) : Option (Int × Int) := do
  let sum ← checked (q.capacity + q.nextIdx)
  let newLength := min (target : Int) (1 + (sum - q.startIdx - 1) % q.capacity)
  let next ← checked (q.startIdx + newLength)
  some (newLength, next % q.capacity)

/-- The second stage. The two pointers of the first `memmove` are the wrong way round. -/
def shift (q : Queue) (delta newLength nextIdx : Int) : Option Queue :=
  if nextIdx < q.startIdx then
    let startLoc := q.itemSize * q.startIdx
    let newLoc := startLoc + q.itemSize * delta
    (memmove q.items startLoc newLoc (q.itemSize * (q.capacity - q.startIdx))).map fun items =>
      { q with items := items, startIdx := q.startIdx + delta, nextIdx := nextIdx }
  else if q.startIdx < nextIdx then
    (memmove q.items 0 (q.itemSize * q.startIdx) (q.itemSize * newLength)).map fun items =>
      { q with items := items, startIdx := 0, nextIdx := nextIdx - q.startIdx }
  else some { q with nextIdx := nextIdx }

/-- The branch with `delta < 0`. -/
def shrink (q : Queue) (target : Nat) : Option Queue := do
  let (newLength, nextIdx) ← q.trim target
  q.shift (target - q.capacity) newLength nextIdx

/-- The branch with `delta > 0`, in the new buffer. -/
def grow (q : Queue) (target : Nat) : Option Queue := do
  let delta : Int := target - q.capacity
  let toMove := min delta q.startIdx
  let items ← memmove q.items (q.itemSize * q.capacity) 0 (q.itemSize * toMove)
  let items ← (if toMove < q.nextIdx then
      memmove items 0 (q.itemSize * toMove) (q.itemSize * (q.nextIdx - toMove))
    else some items)
  let sum ← checked (target + q.nextIdx)
  some { q with items := items, nextIdx := (sum - toMove) % target }

/-- `not_supported_resize`, with what it returns. `memory` is what `realloc` finds behind the old bytes, if it does
not fail. -/
def resize (q : Queue) (target : Nat) (memory : Option (Nat → UInt8)) : Option (Queue × Bool) := do
  let delta : Int := target - q.capacity
  let q' ← (if delta < 0 ∧ q.startIdx ≠ -1 then q.shrink target else some q)
  let size ← checked (target * q.itemSize)
  match memory with
  | none => some (q', false)
  | some memory =>
    let q' := { q' with items := realloc q'.items memory size.toNat }
    let q' ← (if 0 < delta ∧ q'.startIdx ≠ -1 ∧ q'.nextIdx ≤ q'.startIdx then q'.grow target else some q')
    some ({ q' with capacity := target }, true)

/-- After the resize the queue holds its content, at the new capacity the oldest items that fit. -/
def Keeps (q : Queue) (content : List Item) (target : Nat) (memory : Option (Nat → UInt8)) : Prop :=
  ∃ q' resized, q.resize target memory = some (q', resized) ∧ q'.itemSize = q.itemSize ∧
    q'.capacity = (if resized then target else q.capacity) ∧
    q'.Represents (if resized then content.take target else content)

/-- Item `i` of the buffer. -/
def cell (q : Queue) (i : Nat) : Item := slot q.itemSize q.items i

/-- Where the item that the swapped `memmove` leaves in cell `i` comes from. -/
def movedFrom (start delta i : Nat) : Nat := if start ≤ i then i - delta else i

/-- A grown queue is the old one if its items do not reach around the end of the buffer, and else if no more is
appended than lies in front of `start_idx`. -/
def Grows (q : Queue) (target : Nat) (memory : Option (Nat → UInt8)) : Prop :=
  memory = none ∨ q.startIdx < q.nextIdx ∨
    ((target : Int) - q.capacity ≤ q.startIdx ∧ IsInt (target + q.nextIdx))

/-- The items that are left behind the swapped `memmove` are the right ones. -/
def Coincides (q : Queue) (content : List Item) (target : Nat) (memory : Option (Nat → UInt8)) : Prop :=
  let start := q.startIdx.toNat
  let delta := q.capacity - target
  match memory with
  | some _ => ∀ i, start ≤ i → i < q.capacity → q.cell (movedFrom start delta (i - delta)) = q.cell i
  | none => content.length = q.capacity ∧ ∀ k < q.capacity,
      q.cell (movedFrom start delta ((start - delta + k) % q.capacity)) = q.cell ((start + k) % q.capacity)

/-- A shrunk queue has the items that it should if those that are kept end in front of the end of the buffer and
leave room, or no buffer of the new capacity is there for them. -/
def Shrinks (q : Queue) (content : List Item) (target : Nat) (memory : Option (Nat → UInt8)) : Prop :=
  let kept := min target content.length
  IsInt (q.capacity + q.nextIdx) ∧ IsInt (q.startIdx + kept) ∧
    if q.startIdx + kept < q.capacity then
      content.length < target ∨ (content.length = target ∧ memory = none)
    else q.Coincides content target memory

/-- When `not_supported_resize` keeps the content. -/
def Resizes (q : Queue) (content : List Item) (target : Nat) (memory : Option (Nat → UInt8)) : Prop :=
  IsInt (target * q.itemSize) ∧ (content = [] ∨ q.capacity = target ∨
    (q.capacity < target ∧ q.Grows target memory) ∨ (target < q.capacity ∧ q.Shrinks content target memory))

/-! ### The two branches -/

variable {q : Queue} {content : List Item} {target start : Nat}

/-- An index that has passed the end once. -/
theorem wrapped_mod {n i : Nat} (hwraps : n ≤ i) (hlt : i < n + n) : i % n = i - n := by
  rw [Nat.mod_eq_sub_mod hwraps, Nat.mod_eq_of_lt (by omega)]

theorem Represents.ring_eq (h : q.Represents content) (hstart : q.startIdx = start) :
    content ≠ [] ∧ start < q.capacity ∧ q.nextIdx = ((start + content.length) % q.capacity : Nat) ∧
      content = ring q.capacity start content.length q.cell := by
  rcases h.indexes with ⟨-, hempty, -⟩ | ⟨start', hlt, hstart', hne, -, hnext, hring⟩
  · omega
  · obtain rfl : start = start' := by omega
    exact ⟨hne, hlt, hnext, hring.symm⟩

/-- The length that `not_supported_resize` computes from the indexes. -/
theorem Represents.length_mod (h : q.Represents content) (hstart : q.startIdx = start) :
    1 + (q.capacity + q.nextIdx - q.startIdx - 1) % q.capacity = content.length := by
  obtain ⟨hne, hlt, hnext, -⟩ := h.ring_eq hstart
  have hpos := List.length_pos_of_ne_nil hne
  have hle := h.length_le
  rw [hnext, hstart]
  by_cases hwraps : start + content.length < q.capacity
  · rw [Nat.mod_eq_of_lt hwraps, show (q.capacity + ((start + content.length : Nat) : Int) - start - 1) =
      ((content.length : Int) - 1) + q.capacity by omega, Int.add_emod_right,
        Int.emod_eq_of_lt (by omega) (by omega)]
    omega
  · rw [wrapped_mod (by omega) (by omega),
      show (q.capacity + ((start + content.length - q.capacity : Nat) : Int) - start - 1) =
        (content.length : Int) - 1 by omega, Int.emod_eq_of_lt (by omega) (by omega)]
    omega

theorem Represents.trim_eq (h : q.Represents content) (hstart : q.startIdx = start) {kept : Nat}
    (hkept : kept = min target content.length) :
    q.trim target = if IsInt (q.capacity + q.nextIdx) ∧ IsInt (q.startIdx + kept) then
      some ((kept : Int), (((start + kept) % q.capacity : Nat) : Int)) else none := by
  have hlength : min (target : Int) (1 + (q.capacity + q.nextIdx - q.startIdx - 1) % q.capacity) = kept := by
    rw [h.length_mod hstart]
    omega
  unfold trim
  by_cases hsum : IsInt (q.capacity + q.nextIdx)
  · rw [checked_eq hsum]
    simp only [Option.bind_eq_bind, Option.bind_some, hlength]
    by_cases hnext : IsInt (q.startIdx + kept)
    · rw [checked_eq hnext, if_pos ⟨hsum, hnext⟩, hstart]
      rfl
    · rw [checked_eq_none_iff.mpr hnext, if_neg fun h => hnext h.2]
      rfl
  · rw [checked_eq_none_iff.mpr hsum, if_neg fun h => hsum h.1]
    rfl

/-- Kept items that do not reach the end of the buffer are moved to its front. -/
theorem Represents.shift_front (h : q.Represents content) (hstart : q.startIdx = start) {kept : Nat}
    (hpos : 0 < kept) (hfits : start + kept < q.capacity) (delta : Int) :
    ∃ items, q.shift delta kept ((start + kept : Nat) : Int) =
        some { q with items := items, startIdx := 0, nextIdx := kept } ∧
      items.length = q.capacity * q.itemSize ∧ ∀ k < kept, slot q.itemSize items k = q.cell (start + k) := by
  obtain ⟨items, hmove, hlength, hslots⟩ := memmove_slots (i := 0) (j := start) (n := kept) h.memory
    (by omega) (by omega)
  refine ⟨items, ?_, hlength, fun k hk => ?_⟩
  · have hmove' : memmove q.items 0 (q.itemSize * q.startIdx) (q.itemSize * kept) = some items := by
      rw [← hmove, hstart]
      push_cast
      rw [mul_zero]
    have hnext : ((start + kept : Nat) : Int) - q.startIdx = kept := by omega
    rw [shift, if_neg (by omega), if_pos (by omega), hmove', Option.map_some, hnext]
  · rw [hslots, if_pos (by omega), Nat.sub_zero]
    rfl

/-- Kept items that reach the end of the buffer: the indexes are right, but the cells from `start_idx` on are
overwritten instead of copied. -/
theorem Represents.shift_back (h : q.Represents content) (hstart : q.startIdx = start) {kept : Nat}
    (hlt : start < q.capacity) (htarget : target < q.capacity) (hkept : kept ≤ target)
    (hreaches : q.capacity ≤ start + kept) :
    ∃ items, q.shift ((target : Int) - q.capacity) kept (((start + kept - q.capacity) : Nat) : Int) =
        some { q with
          items := items
          startIdx := ((start - (q.capacity - target) : Nat) : Int)
          nextIdx := ((start + kept - q.capacity : Nat) : Int) } ∧
      items.length = q.capacity * q.itemSize ∧
      ∀ i < q.capacity, slot q.itemSize items i = q.cell (movedFrom start (q.capacity - target) i) := by
  obtain ⟨items, hmove, hlength, hslots⟩ := memmove_slots (i := start) (j := start - (q.capacity - target))
    (n := q.capacity - start) h.memory (by omega) (by omega)
  refine ⟨items, ?_, hlength, fun i hi => ?_⟩
  · have hmove' : memmove q.items (q.itemSize * q.startIdx)
        (q.itemSize * q.startIdx + q.itemSize * ((target : Int) - q.capacity))
        (q.itemSize * (q.capacity - q.startIdx)) = some items := by
      rw [← hmove, hstart, ← mul_add]
      congr 1
      · rw [Nat.cast_mul]
        exact congrArg _ (by omega)
      · rw [Nat.cast_mul]
        exact congrArg _ (by omega)
    have hnew : q.startIdx + ((target : Int) - q.capacity) =
      ((start - (q.capacity - target) : Nat) : Int) := by omega
    rw [shift, if_pos (by omega)]
    simp only [hmove', Option.map_some, hnew]
  · rw [hslots, movedFrom]
    by_cases hge : start ≤ i
    · rw [if_pos (by omega), if_pos hge]
      exact congrArg _ (by omega)
    · rw [if_neg (by omega), if_neg hge]
      rfl

theorem slot_realloc {items : List UInt8} {size count i : Nat} (memory : Nat → UInt8)
    (hlength : items.length = count * size) (hi : i < count) (htarget : i < target) :
    slot size (realloc items memory (target * size)) i = slot size items i := by
  have hcount : size * (i + 1) ≤ items.length := by
    rw [hlength, Nat.mul_comm count]
    exact Nat.mul_le_mul_left size hi
  have hsize : size * (i + 1) ≤ target * size := by
    rw [Nat.mul_comm target]
    exact Nat.mul_le_mul_left size htarget
  rw [Nat.mul_succ] at hcount hsize
  have htake : (items.take (target * size)).length = min (target * size) items.length := List.length_take
  rw [slot, slot, List.take_drop, List.take_drop, realloc, List.take_append_of_le_length (by omega),
    List.take_take,
    Nat.min_eq_left hsize]

theorem length_realloc (items : List UInt8) (memory : Nat → UInt8) (size : Nat) :
    (realloc items memory size).length = size := by
  rw [realloc, List.length_append, List.length_take, List.length_map, List.length_range]
  omega

/-- No more is appended than lies in front of `start_idx`: the items from the front of the buffer go on behind its
old end, and around the new one. -/
theorem grow_some {items : List UInt8} (hstart : q.startIdx = start) {next : Nat} (hnext : q.nextIdx = next)
    (hmemory : items.length = target * q.itemSize) (hlt : start < q.capacity) (hle : next ≤ start)
    (htarget : q.capacity < target) (hroom : target - q.capacity ≤ start) (hsum : IsInt (target + q.nextIdx)) :
    ∃ items', ({ q with items := items } : Queue).grow target =
        some { q with items := items', nextIdx := ((q.capacity + next) % target : Nat) } ∧
      items'.length = target * q.itemSize ∧
      (∀ i, start ≤ i → i < q.capacity → slot q.itemSize items' i = slot q.itemSize items i) ∧
      ∀ k < next, slot q.itemSize items' ((q.capacity + k) % target) = slot q.itemSize items k := by
  obtain ⟨delta, hdelta⟩ : ∃ delta, delta = target - q.capacity := ⟨_, rfl⟩
  obtain ⟨copied, hcopy, hlength, hslots⟩ := memmove_slots (i := q.capacity) (j := 0) (n := delta) hmemory
    (by omega) (by omega)
  have hmin : min ((target : Int) - q.capacity) q.startIdx = delta := by omega
  have hcopy' : memmove items (q.itemSize * q.capacity) 0 (q.itemSize * delta) = some copied := by
    rw [← hcopy]
    push_cast
    rw [mul_zero]
  have hnew : (target + q.nextIdx - delta) % (target : Int) = ((q.capacity + next) % target : Nat) := by
    rw [show (target + q.nextIdx - delta : Int) = ((q.capacity + next : Nat) : Int) by omega]
    rfl
  obtain ⟨items', hmove, hlength', hitems⟩ : ∃ items', (if (delta : Int) < q.nextIdx then
        memmove copied 0 (q.itemSize * delta) (q.itemSize * (q.nextIdx - delta))
      else some copied) = some items' ∧
      items'.length = target * q.itemSize ∧ ∀ i, slot q.itemSize items' i =
        if i < next - delta then slot q.itemSize items (delta + i) else slot q.itemSize copied i := by
    by_cases hmore : delta < next
    · obtain ⟨items', hmove, hlength', hitems⟩ :=
        memmove_slots (i := 0) (j := delta) (n := next - delta) hlength (by omega) (by omega)
      refine ⟨items', ?_, hlength', fun i => ?_⟩
      · rw [if_pos (by omega), ← hmove]
        push_cast
        rw [mul_zero, hnext, Nat.cast_sub hmore.le]
      · rw [hitems]
        by_cases hi : i < next - delta
        · rw [if_pos (by omega), if_pos hi, hslots, if_neg (by omega), Nat.sub_zero]
        · rw [if_neg (by omega), if_neg hi]
    · exact ⟨copied, if_neg (by omega), hlength, fun i => by rw [if_neg (by omega)]⟩
  refine ⟨items', ?_, hlength', fun i hi hcap => ?_, fun k hk => ?_⟩
  · simp only [grow, hmin, hcopy', Option.bind_eq_bind, Option.bind_some, hmove, checked_eq hsum, hnew]
  · rw [hitems, if_neg (by omega), hslots, if_neg (by omega)]
  · rw [hitems]
    by_cases hend : q.capacity + k < target
    · rw [Nat.mod_eq_of_lt hend, if_neg (by omega), hslots, if_pos (by omega), Nat.zero_add,
      Nat.add_sub_cancel_left]
    · rw [wrapped_mod (by omega) (by omega), if_pos (by omega)]
      exact congrArg _ (by omega)

/-- With more to append as many cells are copied as lie in front of `start_idx`, and `next_idx` is too large. -/
theorem grow_far {items : List UInt8} (hstart : q.startIdx = start) (hroom : start ≤ target - q.capacity)
    (htarget : q.capacity < target) {q' : Queue}
      (h : ({ q with items := items } : Queue).grow target = some q') :
    q'.startIdx = start ∧ q'.nextIdx = (target + q.nextIdx - start) % target := by
  have hmin : min ((target : Int) - q.capacity) q.startIdx = start := by omega
  simp only [grow, hmin, Option.bind_eq_bind, Option.bind_eq_some_iff, checked_eq_some_iff,
    Option.some.injEq] at h
  obtain ⟨copied, -, items, -, sum, ⟨-, rfl⟩, rfl⟩ := h
  exact ⟨hstart, rfl⟩

/-- The sum for the new `next_idx` is computed in every case. -/
theorem grow_isInt {items : List UInt8} {q' : Queue}
    (h : ({ q with items := items } : Queue).grow target = some q') :
    IsInt (target + q.nextIdx) := by
  simp only [grow, Option.bind_eq_bind, Option.bind_eq_some_iff, checked_eq_some_iff] at h
  obtain ⟨copied, -, items, -, sum, ⟨hsum, -⟩, -⟩ := h
  exact hsum

/-! ### The whole function -/

theorem resize_eq (hsize : IsInt (target * q.itemSize)) (memory : Option (Nat → UInt8)) :
    q.resize target memory =
      (if target < q.capacity ∧ q.startIdx ≠ -1 then q.shrink target else some q).bind fun q' =>
        match memory with
        | none => some (q', false)
        | some memory =>
          (if q.capacity < target ∧ q'.startIdx ≠ -1 ∧ q'.nextIdx ≤ q'.startIdx then
              ({ q' with items := realloc q'.items memory (target * q.itemSize) } : Queue).grow target
            else some { q' with items := realloc q'.items memory (target * q.itemSize) }).bind fun q' =>
              some ({ q' with capacity := target }, true) := by
  have hneg : ((target : Int) - q.capacity < 0) = (target < q.capacity) := by
    simp
  have hpos : (0 < (target : Int) - q.capacity) = (q.capacity < target) := by
    simp
  have hcount : ((target : Int) * q.itemSize).toNat = target * q.itemSize := by
    rw [← Nat.cast_mul, Int.toNat_natCast]
  simp only [resize, hneg, hpos, checked_eq hsize, Option.bind_eq_bind, Option.bind_some, hcount]

/-- A queue represents what another one does if its indexes span as many cells and these hold the same. -/
theorem represents_iff {items : List UInt8} {capacity itemSize capacity' first : Nat} {startIdx nextIdx : Int}
    {cell : Nat → Item} (hstart : startIdx = start) (hmemory : items.length = capacity * itemSize)
    (hlt : start < capacity) (hne : content ≠ []) (hle : content.length ≤ capacity)
    (hring : content = ring capacity' first content.length cell) :
    (⟨items, capacity, itemSize, startIdx, nextIdx⟩ : Queue).Represents content ↔
      nextIdx = ((start + content.length) % capacity : Nat) ∧
      ∀ k < content.length, slot itemSize items ((start + k) % capacity) = cell ((first + k) % capacity') := by
  rw [← ring_congr_iff, ← hring]
  constructor
  · intro hrep
    obtain ⟨-, -, hnext, hcells⟩ := hrep.ring_eq hstart
    exact ⟨hnext, hcells.symm⟩
  · rintro ⟨hnext, hcells⟩
    exact ⟨(by omega : 1 ≤ capacity), hmemory, Or.inr ⟨start, hlt, hstart, hne, hle, hnext, hcells⟩⟩

theorem keeps_iff_of_eq {memory : Option (Nat → UInt8)} {q' : Queue} {resized : Bool}
    (hresize : q.resize target memory = some (q', resized)) (hitemSize : q'.itemSize = q.itemSize)
    (hcapacity : q'.capacity = if resized then target else q.capacity) :
    q.Keeps content target memory ↔ q'.Represents (if resized then content.take target else content) := by
  constructor
  · rintro ⟨q'', resized', hq'', -, -, hrep⟩
    obtain ⟨rfl, rfl⟩ := Prod.mk.inj (Option.some.inj (hresize.symm.trans hq''))
    exact hrep
  · exact fun hrep => ⟨q', resized, hresize, hitemSize, hcapacity, hrep⟩

/-- Nothing is moved, and no more items come than the new buffer has room for. -/
theorem keeps_empty (h : q.Represents []) (htarget : 1 ≤ target) (hsize : IsInt (target * q.itemSize))
    (memory : Option (Nat → UInt8)) : q.Keeps [] target memory := by
  obtain ⟨hstart, hnext⟩ : q.startIdx = -1 ∧ q.nextIdx = 0 := by
    rcases h.indexes with ⟨-, hstart, hnext⟩ | ⟨-, -, -, hne, -⟩
    · exact ⟨hstart, hnext⟩
    · exact absurd rfl hne
  have hresize := resize_eq hsize memory
  rw [if_neg (by simp [hstart]), Option.bind_some] at hresize
  cases memory with
  | none => exact ⟨q, false, hresize, rfl, rfl, h⟩
  | some memory =>
    dsimp only at hresize
    rw [if_neg (by simp [hstart]), Option.bind_some] at hresize
    exact ⟨_, true, hresize, rfl, rfl, htarget, length_realloc _ _ _, Or.inl ⟨by simp, hstart, hnext⟩⟩

theorem keeps_same (h : q.Represents content) (hstart : q.startIdx = start)
    (hsize : IsInt (target * q.itemSize))
    (htarget : q.capacity = target) (memory : Option (Nat → UInt8)) : q.Keeps content target memory := by
  subst htarget
  obtain ⟨hne, hlt, hnext, hring⟩ := h.ring_eq hstart
  have hresize := resize_eq hsize memory
  rw [if_neg (by omega), Option.bind_some] at hresize
  cases memory with
  | none => exact ⟨q, false, hresize, rfl, rfl, h⟩
  | some memory =>
    dsimp only at hresize
    rw [if_neg (by omega), Option.bind_some] at hresize
    refine ⟨_, true, hresize, rfl, rfl, ?_⟩
    rw [if_pos rfl, List.take_of_length_le h.length_le]
    refine (represents_iff hstart (length_realloc _ _ _) hlt hne h.length_le hring).mpr ⟨hnext, fun k _ => ?_⟩
    have hmod : (start + k) % q.capacity < q.capacity := Nat.mod_lt _ (by omega)
    exact slot_realloc memory h.memory hmod hmod

/-- Items that do not wrap around stay where they are. -/
theorem Represents.straight (h : q.Represents content) (hstart : q.startIdx = start) {items : List UInt8}
    (hlength : items.length = target * q.itemSize) (htarget : q.capacity < target)
    (hcell : ∀ i < q.capacity, slot q.itemSize items i = q.cell i)
    (hwraps : start + content.length < q.capacity) :
    (⟨items, target, q.itemSize, q.startIdx, q.nextIdx⟩ : Queue).Represents content := by
  obtain ⟨hne, hlt, hnext, hring⟩ := h.ring_eq hstart
  rw [Nat.mod_eq_of_lt hwraps] at hnext
  refine (represents_iff hstart hlength (by omega) hne (by omega) hring).mpr ⟨?_, fun k hk => ?_⟩
  · rw [Nat.mod_eq_of_lt (by omega)]
    exact hnext
  · rw [Nat.mod_eq_of_lt (by omega), Nat.mod_eq_of_lt (by omega)]
    exact hcell _ (by omega)

/-- Items that wrap around are found again behind the others, where they were moved. -/
theorem Represents.wrapped (h : q.Represents content) (hstart : q.startIdx = start) {items : List UInt8}
    (hlength : items.length = target * q.itemSize) (htarget : q.capacity < target)
    (hwraps : q.capacity ≤ start + content.length)
    (hfirst : ∀ i, start ≤ i → i < q.capacity → slot q.itemSize items i = q.cell i)
    (hrest : ∀ k < start + content.length - q.capacity,
      slot q.itemSize items ((q.capacity + k) % target) = q.cell k) :
    (⟨items, target, q.itemSize, q.startIdx, ((start + content.length) % target : Nat)⟩ : Queue).Represents
      content := by
  obtain ⟨hne, hlt, -, hring⟩ := h.ring_eq hstart
  have hle := h.length_le
  refine (represents_iff hstart hlength (by omega) hne (by omega) hring).mpr ⟨rfl, fun k hk => ?_⟩
  show slot q.itemSize items ((start + k) % target) = _
  by_cases hk' : start + k < q.capacity
  · have htargetk : (start + k) % target = start + k := Nat.mod_eq_of_lt (by omega)
    rw [htargetk, Nat.mod_eq_of_lt hk']
    exact hfirst _ (by omega) hk'
  · have hback : (start + k) % target = (q.capacity + (start + k - q.capacity)) % target :=
      congrArg (· % target) (by omega)
    rw [hback, wrapped_mod (not_lt.mp hk') (by omega)]
    exact hrest _ (by omega)

/-- Without the room behind `start_idx` the new `next_idx` is not behind the last item. -/
theorem Represents.far (h : q.Represents content) (hstart : q.startIdx = start) (htarget : q.capacity < target)
    (hwraps : q.capacity ≤ start + content.length) (hroom : start < target - q.capacity) {items : List UInt8}
    {grown : Queue} (hgrow : ({ q with items := items } : Queue).grow target = some grown) :
    ¬ ({ grown with capacity := target } : Queue).Represents content := by
  intro hrep
  obtain ⟨hne, hlt, hnext, -⟩ := h.ring_eq hstart
  have hpos := List.length_pos_of_ne_nil hne
  have hle := h.length_le
  rw [wrapped_mod hwraps (by omega)] at hnext
  obtain ⟨hstart', hnext'⟩ := grow_far hstart (by omega) htarget hgrow
  obtain ⟨-, -, hrepnext, -⟩ := hrep.ring_eq hstart'
  have hindex : (start + content.length) % target = start + content.length := Nat.mod_eq_of_lt (by omega)
  have hfar : (target + q.nextIdx - start) % (target : Int) = ((start + content.length : Nat) : Int) := by
    rw [← hnext', ← hindex]
    exact hrepnext
  by_cases hfull : content.length = q.capacity
  · have hall : (target + ((start + content.length - q.capacity : Nat) : Int) - start) = target := by omega
    rw [hnext, hall, Int.emod_self] at hfar
    omega
  · rw [hnext, Int.emod_eq_of_lt (by omega) (by omega)] at hfar
    omega

theorem keeps_grown_iff (h : q.Represents content) (hstart : q.startIdx = start)
    (hsize : IsInt (target * q.itemSize)) (htarget : q.capacity < target) (memory : Option (Nat → UInt8)) :
    q.Keeps content target memory ↔ q.Grows target memory := by
  obtain ⟨hne, hlt, hnext, -⟩ := h.ring_eq hstart
  have hpos := List.length_pos_of_ne_nil hne
  have hle := h.length_le
  have hresize := resize_eq hsize memory
  rw [if_neg (by omega), Option.bind_some] at hresize
  cases memory with
  | none => exact iff_of_true ⟨q, false, hresize, rfl, rfl, h⟩ (Or.inl rfl)
  | some memory =>
    dsimp only at hresize
    have hwhole : content.take target = content := List.take_of_length_le (by omega)
    have hcell : ∀ i < q.capacity, slot q.itemSize
      (realloc q.items memory (target * q.itemSize)) i = q.cell i :=
      fun i hi => slot_realloc memory h.memory hi (by omega)
    by_cases hwraps : start + content.length < q.capacity
    · rw [Nat.mod_eq_of_lt hwraps] at hnext
      rw [if_neg (by omega), Option.bind_some] at hresize
      refine iff_of_true ⟨_, true, hresize, rfl, rfl, ?_⟩ (Or.inr (Or.inl (by omega)))
      rw [if_pos rfl, hwhole]
      exact h.straight hstart (length_realloc _ _ _) htarget hcell hwraps
    rw [wrapped_mod (by omega) (by omega)] at hnext
    rw [if_pos (by omega)] at hresize
    have hgrows : q.Grows target (some memory) ↔
        (target - q.capacity ≤ start ∧ IsInt (target + q.nextIdx)) := by
      constructor
      · rintro (hnone | hlt' | ⟨hroom, hsum⟩)
        · cases hnone
        · omega
        · exact ⟨by omega, hsum⟩
      · rintro ⟨hroom, hsum⟩
        exact Or.inr (Or.inr ⟨by omega, hsum⟩)
    rw [hgrows]
    by_cases hrooms : target - q.capacity ≤ start ∧ IsInt (target + q.nextIdx)
    · obtain ⟨hroom, hsum⟩ := hrooms
      refine iff_of_true ?_ ⟨hroom, hsum⟩
      obtain ⟨items, hgrow, hlength, hfirst, hrest⟩ := grow_some hstart hnext
        (length_realloc q.items memory (target * q.itemSize)) hlt (by omega) htarget hroom hsum
      rw [hgrow, Option.bind_some] at hresize
      refine ⟨_, true, hresize, rfl, rfl, ?_⟩
      have hsame : q.capacity + (start + content.length - q.capacity) = start + content.length := by omega
      rw [if_pos rfl, hwhole, hsame]
      exact h.wrapped hstart hlength htarget (by omega)
        (fun i hi hlt => (hfirst i hi hlt).trans (hcell i hlt))
        fun k hk => (hrest k hk).trans (hcell k (by omega))
    · refine iff_of_false ?_ hrooms
      rintro ⟨q', resized, hq', -, hcapacity, hrep⟩
      rw [hresize] at hq'
      obtain ⟨grown, hgrow, hgrown⟩ := Option.bind_eq_some_iff.mp hq'
      obtain ⟨rfl, rfl⟩ := Prod.mk.inj (Option.some.inj hgrown)
      have hroom : ¬ target - q.capacity ≤ start := fun hroom => hrooms ⟨hroom, grow_isInt hgrow⟩
      rw [if_pos rfl, hwhole] at hrep
      exact h.far hstart htarget (by omega) (by omega) hgrow hrep

/-- The oldest items that the new buffer has room for. -/
theorem Represents.take_ring (h : q.Represents content) (hstart : q.startIdx = start) {kept : Nat}
    (hkept : kept = min target content.length) (hpositive : 1 ≤ target) :
    content.take target ≠ [] ∧ (content.take target).length = kept ∧
      content.take target = ring q.capacity start (content.take target).length q.cell := by
  obtain ⟨hne, -, -, hring⟩ := h.ring_eq hstart
  have hpos := List.length_pos_of_ne_nil hne
  have htake : (content.take target).length = kept := by rw [List.length_take, hkept]
  refine ⟨List.ne_nil_of_length_pos (by omega), htake, ?_⟩
  rw [htake]
  conv_lhs => rw [hring]
  rw [ring_take, hkept]

/-- Items moved to the front of the buffer: `next_idx` is right unless it is the new capacity. -/
theorem Represents.front_iff (h : q.Represents content) (hstart : q.startIdx = start) {kept : Nat}
    (hkept : kept = min target content.length) (hpositive : 1 ≤ target)
    (hfits : start + kept < q.capacity) {items : List UInt8} (hlength : items.length = target * q.itemSize)
    (hslots : ∀ k < kept, slot q.itemSize items k = q.cell (start + k)) :
    (⟨items, target, q.itemSize, 0, kept⟩ : Queue).Represents (content.take target) ↔
      content.length < target := by
  obtain ⟨hne, htake, htaken⟩ := h.take_ring hstart hkept hpositive
  rw [represents_iff Nat.cast_zero.symm hlength (by omega) hne (by omega) htaken, htake, Nat.zero_add]
  have hcells : ∀ k < kept, slot q.itemSize items ((0 + k) % target) = q.cell ((start + k) % q.capacity) := by
    intro k hk
    rw [Nat.zero_add, Nat.mod_eq_of_lt (by omega), Nat.mod_eq_of_lt (by omega)]
    exact hslots k hk
  rw [and_iff_left hcells]
  by_cases hroom : content.length < target
  · rw [Nat.mod_eq_of_lt (by omega)]
    exact iff_of_true rfl hroom
  · have hfull : kept = target := by omega
    rw [hfull, Nat.mod_self]
    exact iff_of_false (by omega) hroom

/-- If `realloc` fails then, the items that were not kept are gone. -/
theorem Represents.front_failed_iff (h : q.Represents content) (hstart : q.startIdx = start) {kept : Nat}
    (hkept : kept = min target content.length) (hpositive : 1 ≤ target) (htarget : target < q.capacity)
    (hfits : start + kept < q.capacity) {items : List UInt8} (hlength : items.length = q.capacity * q.itemSize)
    (hslots : ∀ k < kept, slot q.itemSize items k = q.cell (start + k)) :
    (⟨items, q.capacity, q.itemSize, 0, kept⟩ : Queue).Represents content ↔ content.length ≤ target := by
  obtain ⟨hne, -, -, hring⟩ := h.ring_eq hstart
  have hpos := List.length_pos_of_ne_nil hne
  have hle := h.length_le
  rw [represents_iff Nat.cast_zero.symm hlength (by omega) hne hle hring, Nat.zero_add]
  constructor
  · rintro ⟨hnext, -⟩
    by_contra hmore
    by_cases hfull : content.length = q.capacity
    · rw [hfull, Nat.mod_self] at hnext
      omega
    · rw [Nat.mod_eq_of_lt (by omega)] at hnext
      omega
  · intro hroom
    obtain rfl : kept = content.length := by omega
    refine ⟨by rw [Nat.mod_eq_of_lt (by omega)], fun k hk => ?_⟩
    rw [Nat.zero_add, Nat.mod_eq_of_lt (by omega), Nat.mod_eq_of_lt (by omega)]
    exact hslots k hk

/-- Items up to the end of the buffer: the indexes are right at the new capacity. -/
theorem Represents.back_iff (h : q.Represents content) (hstart : q.startIdx = start) {kept : Nat}
    (hkept : kept = min target content.length) (hpositive : 1 ≤ target) (htarget : target < q.capacity)
    (hreaches : q.capacity ≤ start + kept) {items : List UInt8} (hlength : items.length = target * q.itemSize)
    (hslots : ∀ i < target, slot q.itemSize items i = q.cell (movedFrom start (q.capacity - target) i)) :
    (⟨items, target, q.itemSize, ((start - (q.capacity - target) : Nat) : Int),
        ((start + kept - q.capacity : Nat) : Int)⟩ : Queue).Represents (content.take target) ↔
      ∀ i, start ≤ i → i < q.capacity →
        q.cell (movedFrom start (q.capacity - target) (i - (q.capacity - target))) = q.cell i := by
  obtain ⟨-, hlt, -, -⟩ := h.ring_eq hstart
  obtain ⟨hne, htake, htaken⟩ := h.take_ring hstart hkept hpositive
  obtain ⟨delta, hdelta⟩ : ∃ delta, delta = q.capacity - target := ⟨_, rfl⟩
  rw [← hdelta] at hslots ⊢
  have hnext : start + kept - q.capacity = (start - delta + kept) % target := by
    rw [wrapped_mod (by omega) (by omega)]
    omega
  rw [represents_iff rfl hlength (by omega) hne (by omega) htaken, htake, ← hnext, and_iff_right rfl]
  constructor
  · intro hcells i hi hcap
    have hcell := hcells (i - start) (by omega)
    rw [Nat.mod_eq_of_lt (by omega), Nat.mod_eq_of_lt (by omega), hslots _ (by omega),
      show start + (i - start) = i by omega, show start - delta + (i - start) = i - delta by omega] at hcell
    exact hcell
  · intro hcells k hk
    by_cases hfirst : start + k < q.capacity
    · rw [Nat.mod_eq_of_lt (by omega), Nat.mod_eq_of_lt hfirst, hslots _ (by omega),
        ← hcells (start + k) (by omega) hfirst, show start - delta + k = start + k - delta by omega]
    · rw [wrapped_mod (by omega) (by omega), hslots _ (by omega),
        wrapped_mod (by omega) (by omega), movedFrom, if_neg (by omega)]
      exact congrArg _ (by omega)

/-- At the old capacity the moved `start_idx` is right for a full queue only. -/
theorem Represents.back_failed_iff (h : q.Represents content) (hstart : q.startIdx = start) {kept : Nat}
    (hkept : kept = min target content.length) (hpositive : 1 ≤ target) (htarget : target < q.capacity)
    (hreaches : q.capacity ≤ start + kept) {items : List UInt8}
      (hlength : items.length = q.capacity * q.itemSize)
    (hslots : ∀ i < q.capacity, slot q.itemSize items i = q.cell (movedFrom start (q.capacity - target) i)) :
    (⟨items, q.capacity, q.itemSize, ((start - (q.capacity - target) : Nat) : Int),
        ((start + kept - q.capacity : Nat) : Int)⟩ : Queue).Represents content ↔
      content.length = q.capacity ∧ ∀ k < q.capacity,
        q.cell (movedFrom start (q.capacity - target) ((start - (q.capacity - target) + k) % q.capacity)) =
          q.cell ((start + k) % q.capacity) := by
  obtain ⟨hne, hlt, -, hring⟩ := h.ring_eq hstart
  have hle := h.length_le
  obtain ⟨delta, hdelta⟩ : ∃ delta, delta = q.capacity - target := ⟨_, rfl⟩
  rw [← hdelta] at hslots ⊢
  rw [represents_iff rfl hlength (by omega) hne hle hring]
  have hnext : ((start + kept - q.capacity : Nat) : Int) =
    ((start - delta + content.length) % q.capacity : Nat) ↔
      content.length = q.capacity := by
    rw [Nat.cast_inj]
    by_cases hfull : content.length = q.capacity
    · rw [hfull, Nat.add_mod_right, Nat.mod_eq_of_lt (by omega)]
      omega
    · refine iff_of_false ?_ hfull
      by_cases hsum : start - delta + content.length < q.capacity
      · rw [Nat.mod_eq_of_lt hsum]
        omega
      · rw [wrapped_mod (by omega) (by omega)]
        omega
  rw [hnext]
  refine and_congr_right fun hfull => ?_
  rw [hfull]
  refine forall₂_congr fun k hk => ?_
  rw [hslots _ (Nat.mod_lt _ (by omega))]

theorem keeps_shrunk_iff (h : q.Represents content) (hstart : q.startIdx = start)
    (hsize : IsInt (target * q.itemSize)) (hpositive : 1 ≤ target) (htarget : target < q.capacity)
    (memory : Option (Nat → UInt8)) : q.Keeps content target memory ↔ q.Shrinks content target memory := by
  obtain ⟨hne, hlt, -, -⟩ := h.ring_eq hstart
  have hpos := List.length_pos_of_ne_nil hne
  have hle := h.length_le
  obtain ⟨kept, hkept⟩ : ∃ kept, kept = min target content.length := ⟨_, rfl⟩
  have hresize := resize_eq hsize memory
  rw [if_pos (by omega), shrink, h.trim_eq hstart hkept] at hresize
  unfold Shrinks
  rw [← hkept]
  by_cases hints : IsInt (q.capacity + q.nextIdx) ∧ IsInt (q.startIdx + kept)
  swap
  · rw [if_neg hints] at hresize
    refine iff_of_false ?_ fun h => hints ⟨h.1, h.2.1⟩
    rintro ⟨q', resized, hq', -⟩
    cases hresize.symm.trans hq'
  rw [if_pos hints, Option.bind_eq_bind, Option.bind_some] at hresize
  dsimp only at hresize
  simp only [hints.1, hints.2, true_and]
  by_cases hfits : start + kept < q.capacity
  · obtain ⟨items, hshift, hlength, hslots⟩ :=
      h.shift_front hstart (by omega : 0 < kept) hfits ((target : Int) - q.capacity)
    rw [Nat.mod_eq_of_lt hfits, hshift, Option.bind_some] at hresize
    rw [if_pos (by omega)]
    cases memory with
    | none =>
      rw [keeps_iff_of_eq hresize rfl rfl, if_neg Bool.false_ne_true,
        h.front_failed_iff hstart hkept hpositive htarget hfits hlength hslots, and_iff_left rfl,
          Nat.le_iff_lt_or_eq]
    | some memory =>
      dsimp only at hresize
      rw [if_neg (by omega), Option.bind_some] at hresize
      have hslots' : ∀ k < kept, slot q.itemSize
        (realloc items memory (target * q.itemSize)) k = q.cell (start + k) :=
        fun k hk => (slot_realloc memory hlength (by omega) (by omega)).trans (hslots k hk)
      rw [keeps_iff_of_eq hresize rfl rfl, if_pos rfl,
        h.front_iff hstart hkept hpositive hfits (length_realloc _ _ _) hslots']
      refine ⟨Or.inl, fun hor => hor.resolve_right fun hnone => ?_⟩
      cases hnone.2
  · obtain ⟨items, hshift, hlength, hslots⟩ :=
      h.shift_back hstart hlt htarget (by omega : kept ≤ target) (by omega)
    have hmod : (start + kept) % q.capacity = start + kept - q.capacity := by
      rw [wrapped_mod (by omega) (by omega)]
    have hstart' : q.startIdx.toNat = start := by omega
    rw [hmod, hshift, Option.bind_some] at hresize
    rw [if_neg (by omega)]
    unfold Coincides
    rw [hstart']
    cases memory with
    | none =>
      rw [keeps_iff_of_eq hresize rfl rfl, if_neg Bool.false_ne_true,
        h.back_failed_iff hstart hkept hpositive htarget (by omega) hlength hslots]
    | some memory =>
      dsimp only at hresize
      rw [if_neg (by omega), Option.bind_some] at hresize
      have hslots' : ∀ i < target, slot q.itemSize (realloc items memory (target * q.itemSize)) i =
          q.cell (movedFrom start (q.capacity - target) i) :=
        fun i hi => (slot_realloc memory hlength (by omega) hi).trans (hslots i (by omega))
      rw [keeps_iff_of_eq hresize rfl rfl, if_pos rfl,
        h.back_iff hstart hkept hpositive htarget (by omega) (length_realloc _ _ _) hslots']

/-- When a queue is resized with its content. -/
theorem keeps_iff (h : q.Represents content) (hpositive : 1 ≤ target) (memory : Option (Nat → UInt8)) :
    q.Keeps content target memory ↔ q.Resizes content target memory := by
  unfold Resizes
  by_cases hsize : IsInt (target * q.itemSize)
  swap
  · refine iff_of_false ?_ fun h => hsize h.1
    rintro ⟨q', resized, hresize, -⟩
    simp only [resize, Option.bind_eq_bind, Option.bind_eq_some_iff, checked_eq_some_iff] at hresize
    obtain ⟨-, -, -, ⟨hsize', -⟩, -⟩ := hresize
    exact hsize hsize'
  rw [and_iff_right hsize]
  rcases h.indexes with ⟨rfl, -, -⟩ | ⟨start, -, hstart, hne, -⟩
  · exact iff_of_true (keeps_empty h hpositive hsize memory) (Or.inl rfl)
  rw [or_iff_right hne]
  rcases lt_trichotomy q.capacity target with hlt | heq | hgt
  · rw [keeps_grown_iff h hstart hsize hlt memory, or_iff_right hlt.ne, and_iff_right hlt,
      or_iff_left fun h => hlt.not_gt h.1]
  · exact iff_of_true (keeps_same h hstart hsize heq memory) (Or.inl heq)
  · rw [keeps_shrunk_iff h hstart hsize hpositive hgt memory, or_iff_right hgt.ne',
    or_iff_right fun h => hgt.not_gt h.1,
      and_iff_right hgt]

/-- Two places, and three items of which the first is taken: full, and around the end of the buffer. -/
def fullQueue : Option Queue := do
  let (q, _) ← (initQueue zeroed 2 1).put [1]
  let (q, _) ← q.put [2]
  let (q, _, _) ← q.get
  let (q, _) ← q.put [3]
  some q

theorem fullQueue_eq : fullQueue = some ⟨[3, 2], 2, 1, 1, 1⟩ := by decide

theorem fullQueue_represents : (⟨[3, 2], 2, 1, 1, 1⟩ : Queue).Represents [[2], [3]] :=
  ⟨by decide, rfl, Or.inr ⟨1, by decide, rfl, by decide, by decide, rfl, rfl⟩⟩

/-- One more place than before is not more than there are in front of `start_idx`. -/
theorem keeps_iff_full : (⟨[3, 2], 2, 1, 1, 1⟩ : Queue).Keeps [[2], [3]] 3 (some fun _ => 0) :=
  (keeps_iff fullQueue_represents (by decide) _).mpr
    ⟨by decide, Or.inr (Or.inr (Or.inl ⟨by decide, Or.inr (Or.inr ⟨by decide, by decide⟩)⟩))⟩

/-- Twice the capacity is: `next_idx` becomes 0, and behind the two items the queue has a third one. -/
theorem grown_keeps_not : ∃ q, fullQueue = some q ∧ q.Represents [[2], [3]] ∧
    q.resize 4 (some fun _ => 0) = some (⟨[3, 2, 3, 0], 4, 1, 1, 0⟩, true) ∧
    ¬ q.Keeps [[2], [3]] 4 (some fun _ => 0) := by
  refine ⟨_, fullQueue_eq, fullQueue_represents, by decide, ?_⟩
  rintro ⟨q', resized, hresize, -, -, hrep⟩
  obtain ⟨rfl, rfl⟩ := Prod.mk.inj (Option.some.inj hresize)
  obtain ⟨-, -, hnext, -⟩ := hrep.ring_eq (Nat.cast_one (R := Int)).symm
  revert hnext
  decide

end Queue

end Cscan.Blocking
