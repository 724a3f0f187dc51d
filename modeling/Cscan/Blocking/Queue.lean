import Cscan.Lib.Buffer
import Cscan.Lib.Ring
import Mathlib.Data.Int.Basic

/-! The queue of `queue.c`: items of one size in a ring of bytes. What `queue_put` and `queue_get` do
while they hold the lock, behind their loops. -/

namespace Cscan.Blocking

open Cscan.Lib

abbrev Item := List UInt8

structure Queue where
  items : List UInt8
  capacity : Nat
  itemSize : Nat
  startIdx : Int
  nextIdx : Int
deriving DecidableEq, Repr

/-- The argument of `malloc`: `capacity * item_size` is an `int`, which becomes a `size_t`. -/
def mallocSize (capacity itemSize : Nat) : Nat :=
  (Int32.ofNat capacity * Int32.ofNat itemSize).toInt64.toUInt64.toNat

/-- `malloc` gives the bytes of a new block for its size. There are none behind a null pointer. -/
def initQueue (malloc : Nat → List UInt8) (capacity itemSize : Nat) : Queue :=
  ⟨malloc (mallocSize capacity itemSize), capacity, itemSize, -1, 0⟩

/-! ### The memory of a queue -/

/-- `malloc` succeeds, but no block has `2 ^ 63` bytes or more. -/
def Allocates (malloc : Nat → List UInt8) : Prop :=
  ∀ size, (malloc size).length = if size < 2 ^ 63 then size else 0

/-- Blocks of zeros. -/
def zeroed (size : Nat) : List UInt8 := List.replicate (if size < 2 ^ 63 then size else 0) 0

theorem zeroed_allocates : Allocates zeroed := fun _ => List.length_replicate ..

theorem mallocSize_bmod (capacity itemSize : Nat) :
    (mallocSize capacity itemSize : Int).bmod (2 ^ 64) = ((capacity * itemSize : Nat) : Int).bmod (2 ^ 32) := by
  have hsize := Int32.toInt_toInt64 (Int32.ofNat (capacity * itemSize))
  rw [Int32.toInt_ofNat', Int32.ofNat_mul] at hsize
  exact (BitVec.toInt_eq_toNat_bmod _).symm.trans hsize

section Memory

variable {malloc : Nat → List UInt8} {capacity itemSize : Nat}

/-- The block has room for the items if the product is no greater than an `int`. -/
theorem Allocates.length_eq (h : Allocates malloc) (hproduct : capacity * itemSize < 2 ^ 31) :
    (malloc (mallocSize capacity itemSize)).length = capacity * itemSize := by
  have hlt : mallocSize capacity itemSize < 2 ^ 64 := UInt64.toNat_lt _
  have hsize := mallocSize_bmod capacity itemSize
  rw [Int.bmod_def, Int.bmod_def] at hsize
  rw [h]
  generalize capacity * itemSize = product at hsize hproduct ⊢
  split_ifs at hsize ⊢ <;> omega

/-- Otherwise the block is too small for them, or there is none. -/
theorem Allocates.length_lt (h : Allocates malloc) (hproduct : 2 ^ 31 ≤ capacity * itemSize) :
    (malloc (mallocSize capacity itemSize)).length < capacity * itemSize := by
  have hsize := mallocSize_bmod capacity itemSize
  rw [Int.bmod_def, Int.bmod_def] at hsize
  rw [h]
  generalize capacity * itemSize = product at hsize hproduct ⊢
  split_ifs at hsize ⊢ <;> omega

end Memory

namespace Queue

/-- The condition of the loop in `queue_put`. -/
def Full (q : Queue) : Prop := q.startIdx = q.nextIdx

/-- The condition of the loop in `queue_get`. -/
def Empty (q : Queue) : Prop := q.startIdx = -1

instance (q : Queue) : Decidable q.Full := inferInstanceAs (Decidable (_ = _))

instance (q : Queue) : Decidable q.Empty := inferInstanceAs (Decidable (_ = _))

/-- `queue_put` from its loop on, with `was_empty`. -/
def put (q : Queue) (item : Item) : Option (Queue × Bool) :=
  let wasEmpty := decide q.Empty
  let q := if q.Empty then { q with startIdx := q.nextIdx } else q
  (store q.items (q.itemSize * q.nextIdx.toNat) item).map fun items =>
    ({ q with items := items, nextIdx := (q.nextIdx + 1) % q.capacity }, wasEmpty)

/-- `queue_get` from its loop on, with `was_full`. -/
def get (q : Queue) : Option (Queue × Item × Bool) :=
  (load q.items (q.itemSize * q.startIdx.toNat) q.itemSize).map fun out =>
    let wasFull := decide q.Full
    let startIdx := (q.startIdx + 1) % q.capacity
    (if startIdx = q.nextIdx then { q with startIdx := -1, nextIdx := 0 }
      else { q with startIdx := startIdx }, out, wasFull)

/-- The number of items from `start_idx` to `next_idx`. -/
def length (q : Queue) : Nat :=
  if q.startIdx = -1 then 0
  else if q.startIdx = q.nextIdx then q.capacity
  else ((q.capacity + q.nextIdx - q.startIdx) % q.capacity).toNat

/-- The items from `start_idx` to `next_idx` around the ring. -/
def stored (q : Queue) : List Item :=
  ring q.capacity q.startIdx.toNat q.length (slot q.itemSize q.items)

/-! ### The list that the ring represents -/

structure Represents (q : Queue) (content : List Item) : Prop where
  capacity : 1 ≤ q.capacity
  memory : q.items.length = q.capacity * q.itemSize
  indexes : (content = [] ∧ q.startIdx = -1 ∧ q.nextIdx = 0) ∨
    ∃ start, start < q.capacity ∧ q.startIdx = start ∧ content ≠ [] ∧ content.length ≤ q.capacity ∧
      q.nextIdx = ((start + content.length) % q.capacity : Nat) ∧
      ring q.capacity start content.length (slot q.itemSize q.items) = content

variable {q : Queue} {content : List Item} {item : Item}

theorem init_represents {malloc : Nat → List UInt8} {capacity itemSize : Nat} (hcapacity : 1 ≤ capacity)
    (hmemory : (malloc (mallocSize capacity itemSize)).length = capacity * itemSize) :
    (initQueue malloc capacity itemSize).Represents [] :=
  ⟨hcapacity, hmemory, Or.inl ⟨rfl, rfl, rfl⟩⟩

theorem Represents.length_le (h : q.Represents content) : content.length ≤ q.capacity := by
  rcases h.indexes with ⟨rfl, -, -⟩ | ⟨start, -, -, -, hle, -, -⟩
  · exact Nat.zero_le _
  · exact hle

theorem Represents.empty_iff (h : q.Represents content) : q.Empty ↔ content = [] := by
  unfold Empty
  rcases h.indexes with ⟨hnil, hstart, -⟩ | ⟨start, -, hstart, hne, -, -, -⟩
  · exact iff_of_true hstart hnil
  · exact iff_of_false (by omega) hne

theorem Represents.full_iff (h : q.Represents content) : q.Full ↔ content.length = q.capacity := by
  have hcapacity := h.capacity
  unfold Full
  rcases h.indexes with ⟨rfl, hstart, hnext⟩ | ⟨start, hlt, hstart, hne, hle, hnext, -⟩
  · rw [hstart, hnext]
    exact iff_of_false (by decide) (by simp; omega)
  · rw [hstart, hnext, Int.ofNat_inj, eq_comm]
    exact ring_full_iff hlt (List.length_pos_of_ne_nil hne) hle

theorem Represents.length_eq (h : q.Represents content) : q.length = content.length := by
  unfold length
  rcases h.indexes with ⟨rfl, hstart, -⟩ | ⟨start, hlt, hstart, hne, hle, hnext, -⟩
  · exact if_pos hstart
  rw [if_neg (by omega)]
  by_cases hfull : content.length = q.capacity
  · have hindexes : q.startIdx = q.nextIdx := h.full_iff.mpr hfull
    rw [if_pos hindexes, hfull]
  · have hindexes : ¬ q.startIdx = q.nextIdx := fun heq => hfull (h.full_iff.mp heq)
    rw [if_neg hindexes, hstart, hnext]
    have hlength : content.length < q.capacity := by omega
    by_cases hwraps : start + content.length < q.capacity
    · rw [Nat.mod_eq_of_lt hwraps]
      have hsum : (q.capacity + ((start + content.length : Nat) : Int) - start) % q.capacity =
          content.length := by
        rw [show (q.capacity + ((start + content.length : Nat) : Int) - start) =
          content.length + q.capacity by omega, Int.add_emod_right]
        exact Int.emod_eq_of_lt (by omega) (by omega)
      omega
    · have hmod : (start + content.length) % q.capacity = start + content.length - q.capacity := by
        rw [Nat.mod_eq_sub_mod (by omega), Nat.mod_eq_of_lt (by omega)]
      have hsum : (q.capacity + ((start + content.length - q.capacity : Nat) : Int) - start) =
          content.length := by omega
      rw [hmod, hsum, Int.emod_eq_of_lt (by omega) (by omega)]
      rfl

theorem Represents.stored_eq (h : q.Represents content) : q.stored = content := by
  unfold stored
  rw [h.length_eq]
  rcases h.indexes with ⟨rfl, -, -⟩ | ⟨start, -, hstart, -, -, -, hring⟩
  · rfl
  · rw [hstart]
    exact hring

/-- A put into a ring that has room appends the item. -/
theorem Represents.put (h : q.Represents content) (hroom : content.length < q.capacity)
    (hitem : item.length = q.itemSize) :
    ∃ q', q.put item = some (q', decide (content = [])) ∧ q'.Represents (content ++ [item]) ∧
      q'.capacity = q.capacity ∧ q'.itemSize = q.itemSize := by
  have hempty : decide q.Empty = decide (content = []) := decide_eq_decide.mpr h.empty_iff
  -- with an empty ring the first item goes to slot 0, which becomes the start
  obtain ⟨start, hlt, hstart, hnext, hring⟩ : ∃ start, start < q.capacity ∧
      (if q.Empty then q.nextIdx else q.startIdx) = start ∧
      q.nextIdx = ((start + content.length) % q.capacity : Nat) ∧
      ring q.capacity start content.length (slot q.itemSize q.items) = content := by
    rcases h.indexes with ⟨rfl, hstart, hnext⟩ | ⟨start, hlt, hstart, hne, -, hnext, hring⟩
    · have hcapacity := h.capacity
      have hempty : q.Empty := hstart
      exact ⟨0, by omega, by rw [if_pos hempty, hnext]; rfl, by rw [hnext]; simp, rfl⟩
    · have hempty : ¬ q.Empty := fun hempty => hne (h.empty_iff.mp hempty)
      exact ⟨start, hlt, by rw [if_neg hempty, hstart], hnext, hring⟩
  have hindex : (start + content.length) % q.capacity < q.capacity := Nat.mod_lt _ (by omega)
  obtain ⟨items, hstore, hlength, hslot, hothers⟩ := store_slot h.memory hindex hitem
  have hitems : ring q.capacity start (content ++ [item]).length (slot q.itemSize items) =
      content ++ [item] := by
    rw [List.length_append, List.length_singleton,
      ring_write hroom (fun i _ hne => hothers i hne), hring, hslot]
  refine ⟨{ q with
    items := items
    startIdx := if q.Empty then q.nextIdx else q.startIdx
    nextIdx := (q.nextIdx + 1) % q.capacity }, ?_, ⟨h.capacity, hlength, Or.inr ?_⟩, rfl, rfl⟩
  · unfold Queue.put
    rw [hempty]
    by_cases hnil : q.Empty
    · simp only [if_pos hnil, hnext, Int.toNat_natCast, hstore, Option.map_some]
    · simp only [if_neg hnil, hnext, Int.toNat_natCast, hstore, Option.map_some]
  · refine ⟨start, hlt, hstart, List.append_ne_nil_of_right_ne_nil _ (List.cons_ne_nil _ _), ?_, ?_, hitems⟩
    · rw [List.length_append, List.length_singleton]
      exact hroom
    · rw [List.length_append, List.length_singleton, ← Nat.add_assoc, hnext, Int.natCast_emod,
        Int.natCast_emod]
      push_cast
      rw [Int.emod_add_emod]

/-- A get takes the first item. -/
theorem Represents.get (h : q.Represents (item :: content)) :
    ∃ q', q.get = some (q', item, decide (content.length + 1 = q.capacity)) ∧
      q'.Represents content ∧ q'.capacity = q.capacity ∧ q'.itemSize = q.itemSize := by
  have hfull : decide q.Full = decide (content.length + 1 = q.capacity) :=
    decide_eq_decide.mpr h.full_iff
  rcases h.indexes with ⟨hnil, -, -⟩ | ⟨start, hlt, hstart, -, hle, hnext, hring⟩
  · cases hnil
  rw [List.length_cons, ring_succ, Nat.mod_eq_of_lt hlt] at hring
  obtain ⟨hitem, hrest⟩ := List.cons.inj hring
  rw [List.length_cons] at hle hnext
  have hload : load q.items (q.itemSize * q.startIdx.toNat) q.itemSize = some item := by
    rw [hstart, Int.toNat_natCast, load_slot h.memory hlt, hitem]
  have hadvance : (q.startIdx + 1) % q.capacity = ((start + 1) % q.capacity : Nat) := by
    rw [hstart]
    rfl
  have hnext' : (q.startIdx + 1) % q.capacity = q.nextIdx ↔ content = [] := by
    rw [hadvance, hnext, Int.ofNat_inj, show start + (content.length + 1) = start + 1 + content.length by omega]
    constructor
    · intro heq
      have := @ring_index_inj q.capacity (start + 1) 0 content.length (by omega) (by omega) heq
      exact List.length_eq_zero_iff.mp this.symm
    · rintro rfl
      rfl
  unfold Queue.get
  rw [hload, Option.map_some, hfull]
  dsimp only
  by_cases hnil : content = []
  · rw [if_pos (hnext'.mpr hnil)]
    exact ⟨_, rfl, ⟨h.capacity, h.memory, Or.inl ⟨hnil, rfl, rfl⟩⟩, rfl, rfl⟩
  · rw [if_neg (fun heq => hnil (hnext'.mp heq))]
    refine ⟨_, rfl, ⟨h.capacity, h.memory, Or.inr ?_⟩, rfl, rfl⟩
    refine ⟨(start + 1) % q.capacity, Nat.mod_lt _ (by omega), hadvance, hnil, ?_, ?_, hrest⟩
    · show content.length ≤ q.capacity
      omega
    · show q.nextIdx = _
      rw [hnext, Nat.mod_add_mod]
      exact congrArg (fun n => ((n % q.capacity : Nat) : Int)) (by omega)

end Queue

end Cscan.Blocking
