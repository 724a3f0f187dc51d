import Cscan.Blocking.Threads

/-! In whatever way the steps of the threads interleave, the queue hands out the items in the order in
which it accepted them, and the ring holds those that are left. -/

namespace Cscan.Blocking

open Cscan.Lib Queue Sys

/-- An update takes an item out exactly if it does not put one. -/
theorem Queue.update_count {q q' : Queue} {op : Op} {result : Option Item} {due : Bool}
    (h : q.update op = some (q', result, due)) : (putItems op).length + result.toList.length = 1 := by
  cases op with
  | put item =>
    obtain ⟨r, -, hr⟩ := Option.map_eq_some_iff.mp h
    cases hr
    rfl
  | get =>
    obtain ⟨r, -, hr⟩ := Option.map_eq_some_iff.mp h
    cases hr
    rfl

theorem Queue.update_isSome {q q' : Queue} {op : Op} {result : Option Item} {due : Bool}
    (h : q.update op = some (q', result, due)) : result.isSome ↔ op = .get := by
  have hcount := Queue.update_count h
  cases op <;> cases result <;> simp [putItems] at hcount ⊢

/-- What the update of an operation does whose loop has ended. -/
theorem Queue.Represents.update {q : Queue} {content : List Item} {op : Op} (h : q.Represents content)
    (hready : ¬ q.Lacks op.cond) (hitem : ∀ item, op = .put item → item.length = q.itemSize) :
    ∃ q' result due content', q.update op = some (q', result, due) ∧ q'.Represents content' ∧
      q'.capacity = q.capacity ∧ q'.itemSize = q.itemSize ∧
      content ++ putItems op = result.toList ++ content' ∧
      (due = true ↔ q.Lacks op.cond.other) ∧ ¬ q'.Lacks op.cond.other := by
  cases op with
  | put item =>
    have hfull : ¬ content.length = q.capacity := mt h.full_iff.mpr hready
    have hroom : content.length < q.capacity := by
      have hle := h.length_le
      omega
    obtain ⟨q', hput, hrep, hcapacity, hsize⟩ := h.put hroom (hitem item rfl)
    refine ⟨q', none, decide (content = []), content ++ [item], ?_, hrep, hcapacity, hsize, rfl, ?_, ?_⟩
    · rw [Queue.update, hput]
      rfl
    · rw [decide_eq_true_eq]
      exact h.empty_iff.symm
    · exact fun hempty => List.append_ne_nil_of_right_ne_nil _ (List.cons_ne_nil _ _)
        (hrep.empty_iff.mp hempty)
  | get =>
    obtain ⟨item, content', rfl⟩ := List.exists_cons_of_ne_nil (mt h.empty_iff.mpr hready)
    obtain ⟨q', hget, hrep, hcapacity, hsize⟩ := h.get
    refine ⟨q', some item, decide (content'.length + 1 = q.capacity), content', ?_, hrep, hcapacity, hsize,
      List.append_nil _, ?_, ?_⟩
    · rw [Queue.update, hget]
      rfl
    · rw [decide_eq_true_eq]
      exact h.full_iff.symm
    · intro hfull
      have hlength := hrep.full_iff.mp hfull
      have hle := h.length_le
      rw [List.length_cons] at hle
      omega

variable {ι : Type*} [DecidableEq ι] {s s' : Sys ι} {i : ι} {p : Phase}

@[simp] theorem Sys.move_phase_self : (s.move i p).phase i = p := Function.update_self ..

theorem Sys.move_phase_ne {j : ι} (h : j ≠ i) : (s.move i p).phase j = s.phase j :=
  Function.update_of_ne h ..

/-- The threads between a check and an unlock have the lock. -/
def Locked (s : Sys ι) : Prop := ∀ i, (s.phase i).Holds ↔ s.owner = some i

theorem Locked.move (h : Locked s) (hp : p.Holds ↔ (s.phase i).Holds) : Locked (s.move i p) := by
  intro j
  by_cases hj : j = i
  · subst hj
    rw [move_phase_self, hp]
    exact h j
  · rw [move_phase_ne hj]
    exact h j

theorem Locked.acquire (h : Locked s) (hfree : s.owner = none) (hp : p.Holds) :
    Locked { s.move i p with owner := some i } := by
  intro j
  by_cases hj : j = i
  · subst hj
    exact iff_of_true (move_phase_self (s := s) ▸ hp) rfl
  · have hphase : ¬ (s.phase j).Holds := fun hholds => nomatch hfree.symm.trans ((h j).mp hholds)
    exact iff_of_false (move_phase_ne (s := s) (p := p) hj ▸ hphase) fun heq => hj (Option.some.inj heq).symm

theorem Locked.release (h : Locked s) (hholds : (s.phase i).Holds) (hp : ¬ p.Holds) :
    Locked { s.move i p with owner := none } := by
  intro j
  refine iff_of_false ?_ (fun heq => nomatch heq)
  by_cases hj : j = i
  · subst hj
    exact move_phase_self (s := s) ▸ hp
  · have hphase : ¬ (s.phase j).Holds := fun hholds' =>
      hj (Option.some.inj (((h j).mp hholds').symm.trans ((h i).mp hholds)))
    exact move_phase_ne (s := s) (p := p) hj ▸ hphase

/-- The invariant of every run. -/
structure Sound (capacity itemSize : Nat) (s : Sys ι) : Prop where
  slots : s.queue.capacity = capacity
  size : s.queue.itemSize = itemSize
  content : ∃ content, s.queue.Represents content ∧ s.accepted = s.returned ++ content
  locked : Locked s
  ready : ∀ i op, s.phase i = .update op → ¬ s.queue.Lacks op.cond
  items : ∀ i item, (s.phase i).op = some (.put item) → item.length = itemSize

variable {capacity itemSize : Nat}

omit [DecidableEq ι] in
theorem start_sound {malloc : Nat → List UInt8} (hcapacity : 1 ≤ capacity)
    (hmemory : (malloc (mallocSize capacity itemSize)).length = capacity * itemSize) :
    Sound capacity itemSize (start (ι := ι) (initQueue malloc capacity itemSize)) where
  slots := rfl
  size := rfl
  content := ⟨[], init_represents hcapacity hmemory, rfl⟩
  locked _ := iff_of_false id fun h => nomatch h
  ready _ _ h := nomatch h
  items _ _ h := nomatch h

/-- What `Sound` asks of the new phase of a thread when the queue stays. -/
theorem Sound.move {owner : Option ι} (h : Sound capacity itemSize s)
    (hlocked : Locked { s.move i p with owner := owner })
    (hready : ∀ op, p = .update op → ¬ s.queue.Lacks op.cond)
    (hitems : ∀ item, p.op = some (.put item) → item.length = itemSize) :
    Sound capacity itemSize { s.move i p with owner := owner } := by
  refine ⟨h.slots, h.size, h.content, hlocked, fun j op hj => ?_, fun j item hj => ?_⟩
  · by_cases hji : j = i
    · subst hji
      exact hready op (move_phase_self.symm.trans hj)
    · exact h.ready j op ((move_phase_ne hji).symm.trans hj)
  · have hj : ((s.move i p).phase j).op = some (.put item) := hj
    by_cases hji : j = i
    · subst hji
      rw [move_phase_self] at hj
      exact hitems item hj
    · rw [move_phase_ne hji] at hj
      exact h.items j item hj

theorem Sound.moves {l : Label ι} (h : Sound capacity itemSize s) (hallows : Allows s l)
    (hmoves : s.Moves l s') : Sound capacity itemSize s' := by
  have hitem : ∀ {i : ι} {op : Op}, (s.phase i).op = some op →
      ∀ item, some op = some (.put item) → item.length = itemSize := fun hop item hput =>
    h.items _ item (hop.trans hput)
  cases hmoves with
  | @call i op _ hphase =>
    refine h.move (h.locked.move (by rw [hphase]; exact Iff.rfl)) (fun _ h => nomatch h) fun item hput => ?_
    obtain rfl : op = .put item := Option.some.inj hput
    exact hallows.trans h.size
  | enter hfree hphase =>
    exact h.move (h.locked.acquire hfree trivial) (fun _ h => nomatch h) (hitem (by rw [hphase]; rfl))
  | again hfree hphase =>
    exact h.move (h.locked.acquire hfree trivial) (fun _ h => nomatch h) (hitem (by rw [hphase]; rfl))
  | block hphase hlacks =>
    exact h.move (h.locked.release (by rw [hphase]; trivial) id) (fun _ h => nomatch h)
      (hitem (by rw [hphase]; rfl))
  | pass hphase hready =>
    refine h.move (h.locked.move (by rw [hphase]; exact Iff.rfl)) ?_ (hitem (by rw [hphase]; rfl))
    intro op hop
    exact Phase.update.inj hop ▸ hready
  | wake hphase =>
    exact h.move (h.locked.move (by rw [hphase]; exact Iff.rfl)) (fun _ h => nomatch h)
      (hitem (by rw [hphase]; rfl))
  | @update i op q result due hphase hqueue =>
    obtain ⟨content, hrep, haccepted⟩ := h.content
    have hready := h.ready i op hphase
    have hholds : (s.phase i).Holds := by rw [hphase]; trivial
    obtain ⟨q', result', due', content', hupdate, hrep', hslots, hsize, hitems, -, -⟩ :=
      hrep.update hready fun item hput =>
        (h.items i item (by rw [hphase, hput]; rfl)).trans h.size.symm
    obtain ⟨rfl, rfl, rfl⟩ : q' = q ∧ result' = result ∧ due' = due := by
      simpa using hupdate.symm.trans hqueue
    have hmoved := h.move (p := if due' then .signal op.cond.other result' else .out result')
      (h.locked.release hholds (by cases due' <;> exact id)) (by cases due' <;> exact fun _ h => nomatch h)
      (by cases due' <;> exact fun _ h => nomatch h)
    refine ⟨hslots.trans h.slots, hsize.trans h.size, ⟨content', hrep', ?_⟩, hmoved.locked, ?_,
      hmoved.items⟩
    · show s.accepted ++ putItems op = s.returned ++ result'.toList ++ content'
      rw [haccepted, List.append_assoc, List.append_assoc, hitems]
    · -- no other thread is behind its loop
      intro j op' hj
      exact nomatch (hmoved.locked j).mp (by rw [hj]; trivial)
  | @signal i k op result hphase hwaits =>
    have hwoken : Sound capacity itemSize (s.move k (.woken op true)) :=
      h.move (h.locked.move (by rw [hwaits]; exact Iff.rfl)) (fun _ h => nomatch h)
        (hitem (by rw [hwaits]; rfl))
    have hne : i ≠ k := by
      rintro rfl
      exact nomatch hphase.symm.trans hwaits
    refine hwoken.move (hwoken.locked.move ?_) (fun _ h => nomatch h) (fun _ h => nomatch h)
    rw [move_phase_ne hne, hphase]
    exact Iff.rfl
  | unheard hphase =>
    exact h.move (h.locked.move (by rw [hphase]; exact Iff.rfl)) (fun _ h => nomatch h)
      (fun _ h => nomatch h)

/-- What the queue holds, and how its indexes show it. -/
structure FifoState (capacity : Nat) (s : Sys ι) : Prop where
  difference : s.accepted = s.returned ++ s.queue.stored
  bounded : s.queue.stored.length ≤ capacity
  empty : s.queue.startIdx = -1 ↔ s.queue.stored = []
  full : s.queue.startIdx = s.queue.nextIdx ↔ s.queue.stored.length = capacity
  /-- The copies of an update stay inside of the memory. -/
  updates : ∀ i op, s.phase i = .update op → (s.step (.update i)).isSome

theorem Sound.fifoState (h : Sound capacity itemSize s) : FifoState capacity s := by
  obtain ⟨content, hrep, haccepted⟩ := h.content
  have hstored := hrep.stored_eq
  refine ⟨by rw [hstored, haccepted], ?_, ?_, ?_, fun i op hphase => ?_⟩
  · rw [hstored, ← h.slots]
    exact hrep.length_le
  · rw [hstored]
    exact hrep.empty_iff
  · rw [hstored, ← h.slots]
    exact hrep.full_iff
  · obtain ⟨q, result, due, -, hupdate, -⟩ := hrep.update (h.ready i op hphase) fun item hput =>
      (h.items i item (by rw [hphase, hput]; rfl)).trans h.size.symm
    simp [step, hphase, hupdate]

/-! ### Queues with too little memory -/

/-- `n` items lie from the first slot on in a ring of `bytes` bytes, and no thread is in a call. -/
structure Filled (capacity itemSize bytes n : Nat) (s : Sys ι) : Prop where
  slots : s.queue.capacity = capacity
  size : s.queue.itemSize = itemSize
  memory : s.queue.items.length = bytes
  start : s.queue.startIdx = if n = 0 then -1 else 0
  next : s.queue.nextIdx = n
  free : s.owner = none
  phases : ∀ j, ∃ result, s.phase j = .out result

/-- The steps that are no calls. -/
def Inside (s : Sys ι) (l : Label ι) : Prop := Allows s l ∧ ∀ i op, l ≠ .call i op

variable {bytes n : Nat} {item : Item}

omit [DecidableEq ι] in
theorem start_filled (malloc : Nat → List UInt8) (capacity itemSize : Nat) :
    Filled capacity itemSize (malloc (mallocSize capacity itemSize)).length 0
      (start (ι := ι) (initQueue malloc capacity itemSize)) :=
  ⟨rfl, rfl, rfl, rfl, rfl, rfl, fun _ => ⟨none, rfl⟩⟩

theorem Filled.call (h : Filled capacity itemSize bytes n s) (op : Op) :
    s.step (.call i op) = some (s.move i (.enter op)) := by
  obtain ⟨result, hphase⟩ := h.phases i
  simp [step, hphase]

/-- A thread in front of the copy of its put. -/
def copying (s : Sys ι) (i : ι) (item : Item) : Sys ι :=
  { s.move i (.update (.put item)) with owner := some i }

theorem Filled.reaches_copying (h : Filled capacity itemSize bytes n s) :
    Reaches step Inside (s.move i (.enter (.put item))) (copying s i item) := by
  have hready : ¬ s.queue.Lacks .notFull := by
    show s.queue.startIdx ≠ s.queue.nextIdx
    rw [h.start, h.next]
    split_ifs <;> omega
  have hacquire : (s.move i (.enter (.put item))).step (.acquire i) =
      some { s.move i (.check (.put item) false) with owner := some i } := by
    simp [step, move, h.free]
  have hcheck : ({ s.move i (.check (.put item) false) with owner := some i } : Sys ι).step (.check i) =
      some (copying s i item) := by
    simp [step, move, copying, Op.cond, hready]
  exact (Reaches.start.step (l := .acquire i) ⟨trivial, by simp⟩ hacquire).step (l := .check i)
    ⟨trivial, by simp⟩ hcheck

omit [DecidableEq ι] in
/-- The copy would leave the memory. -/
theorem Filled.overruns (h : Filled capacity itemSize bytes n s) (hitem : item.length = itemSize)
    (hfull : bytes < itemSize * n + itemSize) : s.queue.put item = none := by
  have hstore : ¬ s.queue.itemSize * n + item.length ≤ s.queue.items.length := by
    rw [h.size, h.memory, hitem]
    omega
  unfold Queue.put
  dsimp only
  split_ifs <;> simp [h.next, store, hstore]

omit [DecidableEq ι] in
/-- Where there is memory for the item it is copied, and the first one makes a signal due. -/
theorem Filled.copies (h : Filled capacity itemSize bytes n s) (hitem : item.length = itemSize)
    (hslot : n + 1 < capacity) (hroom : itemSize * n + itemSize ≤ bytes) :
    ∃ items, items.length = bytes ∧ s.queue.put item = some ({ s.queue with
      items := items, startIdx := 0, nextIdx := ((n + 1 : Nat) : Int) }, decide (n = 0)) := by
  obtain ⟨items, hstore⟩ : ∃ items,
      store s.queue.items (s.queue.itemSize * s.queue.nextIdx.toNat) item = some items := by
    refine ⟨_, store_eq ?_⟩
    rw [h.size, h.memory, h.next, hitem]
    exact hroom
  have hnext : (s.queue.nextIdx + 1) % s.queue.capacity = ((n + 1 : Nat) : Int) := by
    rw [h.next, h.slots]
    exact Int.emod_eq_of_lt (by omega) (by omega)
  have hempty : s.queue.Empty ↔ n = 0 := by
    show s.queue.startIdx = -1 ↔ _
    rw [h.start]
    split_ifs with hzero <;> simp [hzero]
  have hstart : (if s.queue.Empty then s.queue.nextIdx else s.queue.startIdx) = 0 := by
    rw [h.next, h.start]
    split_ifs <;> simp_all
  have hdue : decide s.queue.Empty = decide (n = 0) := decide_eq_decide.mpr hempty
  refine ⟨items, (length_store hstore).trans h.memory, ?_⟩
  rw [← hdue, ← hstart, ← hnext]
  unfold Queue.put
  split_ifs with hnil <;> simp [hnil, hstore]

/-- Nobody waits for the signal of a thread. -/
theorem Filled.unheard (h : Filled capacity itemSize bytes n s) {t : Sys ι} {cond : Cond} {result : Option Item}
    (hphase : t.phase = Function.update s.phase i (.signal cond result)) :
    Allows t (.signal i none) ∧ t.step (.signal i none) = some (t.move i (.out result)) := by
  refine ⟨?_, by simp [step, hphase]⟩
  simp only [Allows, hphase, Function.update_self, Unheard]
  intro k hk
  by_cases hki : k = i
  · rw [hki, Function.update_self] at hk
    cases hk
  · obtain ⟨result', hout⟩ := h.phases k
    rw [Function.update_of_ne hki, hout] at hk
    cases hk

/-- A put leaves one more item in the ring. -/
theorem Filled.put (h : Filled capacity itemSize bytes n s) (hitem : item.length = itemSize)
    (hslot : n + 1 < capacity) (hroom : itemSize * n + itemSize ≤ bytes) :
    ∃ s', Reaches step Inside (s.move i (.enter (.put item))) s' ∧
      Filled capacity itemSize bytes (n + 1) s' := by
  obtain ⟨items, hlength, hput⟩ := h.copies hitem hslot hroom
  have hcopying : Reaches step Inside (s.move i (.enter (.put item))) (copying s i item) := h.reaches_copying
  have hcopy : (copying s i item).step (.update i) = some
      { s.move i (if decide (n = 0) then .signal .notEmpty none else .out none) with
        queue := { s.queue with items := items, startIdx := 0, nextIdx := ((n + 1 : Nat) : Int) }
        owner := none
        accepted := s.accepted ++ [item] } := by
    simp [step, copying, move, Queue.update, hput, putItems, Op.cond, Cond.other]
  have hcopied := hcopying.step (l := Label.update i) ⟨trivial, by simp⟩ hcopy
  have hout : ∀ j, ∃ result, Function.update s.phase i (.out none) j = .out result := by
    intro j
    by_cases hj : j = i
    · exact ⟨none, by rw [hj, Function.update_self]⟩
    · rw [Function.update_of_ne hj]
      exact h.phases j
  by_cases hzero : n = 0
  · rw [decide_eq_true hzero, if_pos rfl] at hcopied
    refine ⟨_, hcopied.step (l := Label.signal i none) ⟨(h.unheard rfl).1, by simp⟩ (h.unheard rfl).2,
      h.slots, h.size, hlength, rfl, rfl, rfl, ?_⟩
    simpa [move] using hout
  · rw [decide_eq_false hzero, if_neg Bool.false_ne_true] at hcopied
    exact ⟨_, hcopied, h.slots, h.size, hlength, (if_neg (Nat.succ_ne_zero n)).symm, rfl, rfl, hout⟩

/-- One thread puts items as long as there is memory for them. -/
theorem exists_filled {malloc : Nat → List UInt8} (i : ι)
    (hsmall : (malloc (mallocSize capacity itemSize)).length < capacity * itemSize)
    (hroom : itemSize * n ≤ (malloc (mallocSize capacity itemSize)).length) :
    ∃ s : Sys ι, Reaches step Allows (start (initQueue malloc capacity itemSize)) s ∧
      Filled capacity itemSize (malloc (mallocSize capacity itemSize)).length n s := by
  induction n with
  | zero => exact ⟨_, .start, start_filled malloc capacity itemSize⟩
  | succ n ih =>
    have hslot : n + 1 < capacity := Nat.lt_of_mul_lt_mul_left (Nat.lt_of_le_of_lt hroom (Nat.mul_comm .. ▸ hsmall))
    rw [Nat.mul_succ] at hroom
    obtain ⟨s, hs, hfilled⟩ := ih (by omega)
    have hitem : (List.replicate itemSize (0 : UInt8)).length = itemSize := List.length_replicate ..
    obtain ⟨s', hs', hfilled'⟩ := hfilled.put (i := i) hitem hslot hroom
    have hallows : Allows s (.call i (.put (List.replicate itemSize 0))) := hitem.trans hfilled.size.symm
    exact ⟨s', hs'.lift id id (hs.step hallows (hfilled.call _)) fun _ _ _ hguard hstep => ⟨hguard.1, hstep⟩,
      hfilled'⟩

/-- Where the memory is too small a put comes to a copy that leaves it. -/
theorem exists_overrun {malloc : Nat → List UInt8} (i : ι)
    (hsmall : (malloc (mallocSize capacity itemSize)).length < capacity * itemSize) :
    ∃ s : Sys ι, Reaches step Allows (start (initQueue malloc capacity itemSize)) s ∧
      ∃ op, s.phase i = .update op ∧ s.step (.update i) = none := by
  have hpos : 0 < itemSize := Nat.pos_of_ne_zero fun hzero => by simp [hzero] at hsmall
  have hbytes := Nat.div_add_mod (malloc (mallocSize capacity itemSize)).length itemSize
  have hmod := Nat.mod_lt (malloc (mallocSize capacity itemSize)).length hpos
  obtain ⟨s, hs, hfilled⟩ := exists_filled i hsmall (Nat.mul_div_le ..)
  have hitem : (List.replicate itemSize (0 : UInt8)).length = itemSize := List.length_replicate ..
  have hallows : Allows s (.call i (.put (List.replicate itemSize 0))) := hitem.trans hfilled.size.symm
  have hoverruns := hfilled.overruns hitem (by omega)
  have hnone : (copying s i (List.replicate itemSize 0)).step (.update i) = none := by
    simp [step, copying, move, Queue.update, hoverruns]
  have hcopying : Reaches step Allows (start (initQueue malloc capacity itemSize))
      (copying s i (List.replicate itemSize 0)) :=
    hfilled.reaches_copying.lift id id (hs.step hallows (hfilled.call _))
      fun _ _ _ hguard hstep => ⟨hguard.1, hstep⟩
  exact ⟨_, hcopying, .put (List.replicate itemSize 0), move_phase_self, hnone⟩

/-- Whatever the threads put and get and however their steps interleave, the queue is a bounded FIFO, provided that
its size in bytes is no greater than an `int`. -/
theorem queue_is_fifo_iff [Nonempty ι] {malloc : Nat → List UInt8} (hmalloc : Allocates malloc)
    (hcapacity : 1 ≤ capacity) :
    (∀ s : Sys ι, Reaches step Allows (start (initQueue malloc capacity itemSize)) s → FifoState capacity s) ↔
      capacity * itemSize < 2 ^ 31 := by
  constructor
  · intro hall
    by_contra hlarge
    obtain ⟨i⟩ := ‹Nonempty ι›
    obtain ⟨s, hs, op, hphase, hnone⟩ := exists_overrun i (hmalloc.length_lt (Nat.le_of_not_lt hlarge))
    have hupdates := (hall s hs).updates i op hphase
    rw [hnone] at hupdates
    exact Bool.false_ne_true hupdates
  · intro hproduct s hs
    exact (hs.invariant (Sound capacity itemSize) (start_sound hcapacity (hmalloc.length_eq hproduct))
      fun _ _ _ hsound hallows hstep => hsound.moves hallows (Moves.of_step hstep)).fifoState

/-- The steps of a call that does not wait. -/
def callSteps (i : ι) (op : Op) : List (Label ι) := [.call i op, .acquire i, .check i, .update i]

/-- One thread puts two items, the other one takes the first, and the third one wraps around. -/
def wrappingSchedule : List (Label Bool) :=
  callSteps false (.put [1]) ++ [.signal false none] ++ callSteps false (.put [2]) ++
    callSteps true .get ++ [.signal true none] ++ callSteps false (.put [3])

theorem queue_is_fifo_wraps :
    ∃ s : Sys Bool, Reaches step Allows (start (initQueue zeroed 2 1)) s ∧
      (s.queue.startIdx, s.queue.nextIdx) = (1, 1) ∧ s.queue.stored = [[2], [3]] ∧
      FifoState 2 s := by
  have hview : (runSchedule (fun s l => if Allows s l then step s l else none)
      (start (initQueue zeroed 2 1)) wrappingSchedule).map
      (fun s => (s.queue.startIdx, s.queue.nextIdx, s.queue.stored)) = some (1, 1, [[2], [3]]) := by
    decide +kernel
  obtain ⟨s, hrun, hs⟩ := Option.map_eq_some_iff.mp hview
  simp only [Prod.mk.injEq] at hs
  have hreaches := reaches_of_runSchedule .start hrun
  exact ⟨s, hreaches, by rw [hs.1, hs.2.1], hs.2.2,
    (queue_is_fifo_iff zeroed_allocates (by decide)).mpr (by decide) s hreaches⟩

/-- A ring of 536870913 slots for `struct result` has 8 bytes: the first item fits, and the second one does not. -/
theorem second_put_overruns : mallocSize 536870913 8 = 8 ∧
    ∃ s : Sys Bool, Reaches step Allows (start (initQueue zeroed 536870913 8)) s ∧
      s.accepted = [[1, 1, 1, 1, 1, 1, 1, 1]] ∧ s.phase false = .update (.put [2, 2, 2, 2, 2, 2, 2, 2]) ∧
      s.step (.update false) = none ∧ ¬ FifoState 536870913 s := by
  have hview : (runSchedule (fun s l => if Allows s l then step s l else none)
      (start (initQueue zeroed 536870913 8)) (callSteps false (.put [1, 1, 1, 1, 1, 1, 1, 1]) ++
        [.signal false none, .call false (.put [2, 2, 2, 2, 2, 2, 2, 2]), .acquire false, .check false])).map
      (fun s => (s.accepted, s.phase false, (s.step (.update false)).isNone)) =
        some ([[1, 1, 1, 1, 1, 1, 1, 1]], .update (.put [2, 2, 2, 2, 2, 2, 2, 2]), true) := by
    decide +kernel
  obtain ⟨s, hrun, hs⟩ := Option.map_eq_some_iff.mp hview
  simp only [Prod.mk.injEq, Option.isNone_iff_eq_none] at hs
  obtain ⟨haccepted, hphase, hnone⟩ := hs
  refine ⟨by decide +kernel, s, reaches_of_runSchedule .start hrun, haccepted, hphase, hnone, fun h => ?_⟩
  have hupdates := h.updates false _ hphase
  rw [hnone] at hupdates
  exact Bool.false_ne_true hupdates

end Cscan.Blocking
