import Cscan.Blocking.Wakeups

/-! Runs that lose a wake-up: with two threads blocked on one condition a single signal wakes up one of
them, and the second item has no signal. -/

namespace Cscan.Blocking

open Cscan.Lib Queue Sys

variable {ι : Type*} [DecidableEq ι]

/-- No thread has the lock, and the ring and the threads are as given. -/
structure At (capacity itemSize : Nat) (phase : ι → Phase) (content : List Item) (s : Sys ι) : Prop where
  queue : s.queue.Represents content
  slots : s.queue.capacity = capacity
  size : s.queue.itemSize = itemSize
  free : s.owner = none
  phase : s.phase = phase

/-- A call that waits for the condition. -/
def opFor (itemSize : Nat) : Cond → Op
  | .notEmpty => .get
  | .notFull => .put (List.replicate itemSize 0)

@[simp] theorem opFor_cond (itemSize : Nat) (cond : Cond) : (opFor itemSize cond).cond = cond := by
  cases cond <;> rfl

@[simp] theorem Cond.other_other (cond : Cond) : cond.other.other = cond := by
  cases cond <;> rfl

variable {capacity itemSize : Nat} {role : ι → Cond} {q : Queue} {phase : ι → Phase}
  {content : List Item} {s : Sys ι} {i k : ι} {op : Op} {cond : Cond}

/-- One more step of a run, but for a call or a signal that nobody hears. -/
theorem Runs.step {s' : Sys ι} {l : Label ι} (h : Runs role q s) (hstep : s.step l = some s')
    (hallows : Allows s l) (hrole : KeepsRole role l) : Runs role q s' :=
  Reaches.step h ⟨hallows, hrole⟩ hstep

theorem At.call {result : Option Item} (h : At capacity itemSize phase content s)
    (hrun : Runs role q s) (hphase : phase i = .out result) :
    ∃ s', Runs role q s' ∧
      At capacity itemSize (Function.update phase i (.enter (opFor itemSize (role i)))) content s' := by
  have hstep : s.step (.call i (opFor itemSize (role i))) =
      some (s.move i (.enter (opFor itemSize (role i)))) := by
    simp [Sys.step, h.phase, hphase]
  refine ⟨_, hrun.step hstep ?_ (opFor_cond _ _), h.queue, h.slots, h.size, h.free, ?_⟩
  · cases role i with
    | notEmpty => trivial
    | notFull => exact (List.length_replicate ..).trans h.size.symm
  · rw [Sys.move, h.phase]

/-- A thread that finds that the condition does not hold waits for it. -/
theorem At.block (h : At capacity itemSize phase content s) (hrun : Runs role q s)
    (hphase : phase i = .enter op) (hlacks : s.queue.Lacks op.cond) :
    ∃ s', Runs role q s' ∧ s'.queue = s.queue ∧
      At capacity itemSize (Function.update phase i (.waiting op)) content s' := by
  have hacquire : s.step (.acquire i) = some { s.move i (.check op false) with owner := some i } := by
    simp [Sys.step, h.phase, h.free, hphase]
  have hcheck : ({ s.move i (.check op false) with owner := some i } : Sys ι).step (.check i) =
      some { s.move i (.waiting op) with owner := none } := by
    simp [Sys.step, Sys.move, hlacks]
  refine ⟨_, (hrun.step hacquire trivial trivial).step hcheck trivial trivial, rfl, h.queue, h.slots,
    h.size, rfl, ?_⟩
  rw [← h.phase]
  rfl

/-- A thread that finds that the condition holds goes on to its update. -/
theorem At.pass {signalled : Bool} (h : At capacity itemSize phase content s) (hrun : Runs role q s)
    (hphase : phase i = .enter op ∨ phase i = .woken op signalled) (hready : ¬ s.queue.Lacks op.cond) :
    ∃ s', Runs role q s' ∧ s'.queue = s.queue ∧ s'.phase = Function.update phase i (.update op) := by
  obtain ⟨b, hacquire⟩ : ∃ b, s.step (.acquire i) =
      some { s.move i (.check op b) with owner := some i } := by
    rcases hphase with hphase | hphase
    · exact ⟨false, by simp [Sys.step, h.phase, h.free, hphase]⟩
    · exact ⟨signalled, by simp [Sys.step, h.phase, h.free, hphase]⟩
  have hcheck : ({ s.move i (.check op b) with owner := some i } : Sys ι).step (.check i) =
      some { s.move i (.update op) with owner := some i } := by
    simp [Sys.step, Sys.move, hready]
  refine ⟨_, (hrun.step hacquire trivial trivial).step hcheck trivial trivial, rfl, ?_⟩
  rw [← h.phase]
  rfl

/-- The update that follows, and what is then left of the call. -/
theorem At.update (signalled : Bool) (h : At capacity itemSize phase content s) (hrun : Runs role q s)
    (hphase : phase i = .enter op ∨ phase i = .woken op signalled) (hready : ¬ s.queue.Lacks op.cond)
    (hitem : ∀ item, op = .put item → item.length = itemSize) :
    ∃ s' result content', Runs role q s' ∧
      content'.length + 1 = content.length + 2 * (putItems op).length ∧
      (s.queue.Lacks op.cond.other → At capacity itemSize
        (Function.update phase i (.signal op.cond.other result)) content' s') ∧
      (¬ s.queue.Lacks op.cond.other → At capacity itemSize
        (Function.update phase i (.out result)) content' s') := by
  obtain ⟨t, hrun', hqueue, hphase'⟩ := h.pass hrun hphase hready
  obtain ⟨q', result, due, content', hupdate, hrep, hslots, hsize, hitems, hdue, -⟩ :=
    h.queue.update hready fun item hput => (hitem item hput).trans h.size.symm
  have hstep : t.step (.update i) = some
      { t.move i (if due then .signal op.cond.other result else .out result) with
        queue := q'
        owner := none
        accepted := t.accepted ++ putItems op
        returned := t.returned ++ result.toList } := by
    simp [Sys.step, hphase', hqueue, hupdate]
  have hlength : content'.length + 1 = content.length + 2 * (putItems op).length := by
    have hcount := Queue.update_count hupdate
    have hitems := congrArg List.length hitems
    simp only [List.length_append] at hitems
    omega
  refine ⟨_, result, content', hrun'.step hstep trivial trivial, hlength, fun hlacks => ?_, fun hlacks => ?_⟩
  · refine ⟨hrep, hslots.trans h.slots, hsize.trans h.size, rfl, ?_⟩
    show Function.update t.phase i _ = _
    rw [hphase', Function.update_idem, if_pos (hdue.mpr hlacks)]
  · refine ⟨hrep, hslots.trans h.slots, hsize.trans h.size, rfl, ?_⟩
    show Function.update t.phase i _ = _
    rw [hphase', Function.update_idem, if_neg (mt hdue.mp hlacks)]

theorem At.signal {result : Option Item} (h : At capacity itemSize phase content s)
    (hrun : Runs role q s) (hphase : phase i = .signal op.cond result) (hwaits : phase k = .waiting op) :
    ∃ s', Runs role q s' ∧ s'.queue = s.queue ∧ At capacity itemSize
      (Function.update (Function.update phase k (.woken op true)) i (.out result)) content s' := by
  have hstep : s.step (.signal i (some k)) =
      some ((s.move k (.woken op true)).move i (.out result)) := by
    simp [Sys.step, h.phase, hphase, hwaits]
  refine ⟨_, hrun.step hstep trivial trivial, rfl, h.queue, h.slots, h.size, h.free, ?_⟩
  rw [← h.phase]
  rfl

/-- All threads are outside of the functions. -/
def Quiet (phase : ι → Phase) : Prop := ∀ i, ∃ result, phase i = .out result

omit [DecidableEq ι] in
theorem Quiet.not_waiting (h : Quiet phase) (k : ι) : ¬ (phase k).WaitsFor cond := by
  obtain ⟨result, hk⟩ := h k
  rw [hk]
  exact id

theorem Quiet.update {result : Option Item} (h : Quiet phase) :
    Quiet (Function.update phase i (.out result)) := by
  intro j
  by_cases hj : j = i
  · subst hj
    exact ⟨result, Function.update_self ..⟩
  · rw [Function.update_of_ne hj]
    exact h j

omit [DecidableEq ι] in
theorem At.lacks_iff (h : At capacity itemSize phase content s) :
    s.queue.Lacks cond ↔ content.length = if cond = .notEmpty then 0 else capacity := by
  cases cond with
  | notEmpty => exact h.queue.empty_iff.trans List.length_eq_zero_iff.symm
  | notFull => exact h.slots ▸ h.queue.full_iff

theorem opFor_item {item : Item} (h : opFor itemSize cond = .put item) : item.length = itemSize := by
  cases cond with
  | notEmpty => cases h
  | notFull =>
    obtain rfl := Op.put.inj h
    exact List.length_replicate ..

/-- A put that does not wait, from a state in which no other thread is in a call. -/
theorem At.quietPut (h : At capacity itemSize phase content s) (hrun : Runs role q s)
    (hquiet : Quiet phase) (hi : role i = .notFull) (hroom : content.length < capacity) :
    ∃ s' phase' content', Runs role q s' ∧ Quiet phase' ∧ content'.length = content.length + 1 ∧
      At capacity itemSize phase' content' s' := by
  obtain ⟨result, hphase⟩ := hquiet i
  obtain ⟨t, hrun, hcall⟩ := h.call hrun hphase
  rw [hi] at hcall
  have hready : ¬ t.queue.Lacks (opFor itemSize .notFull).cond := by
    rw [hcall.lacks_iff]
    simp
    omega
  obtain ⟨u, result', content', hrun, hlength, hdue, hquiet'⟩ :=
    hcall.update false hrun (Or.inl (Function.update_self ..)) hready fun _ => opFor_item
  rw [Function.update_idem] at hdue hquiet'
  have hlength : content'.length = content.length + 1 := by
    simp only [opFor, putItems, List.length_singleton] at hlength
    omega
  by_cases hlacks : t.queue.Lacks (opFor itemSize .notFull).cond.other
  · -- nobody hears the signal
    have hsignal := hdue hlacks
    have hstep : u.step (.signal i none) = some (u.move i (.out result')) := by
      simp [Sys.step, hsignal.phase]
    have hunheard : Allows u (.signal i none) := by
      simp only [Allows, hsignal.phase, Function.update_self, Unheard]
      intro k hk
      by_cases hki : k = i
      · subst hki
        rw [Function.update_self] at hk
        exact hk
      · rw [Function.update_of_ne hki] at hk
        exact hquiet.not_waiting k hk
    refine ⟨_, Function.update phase i (.out result'), content', hrun.step hstep hunheard trivial,
      hquiet.update, hlength, hsignal.queue, hsignal.slots, hsignal.size, hsignal.free, ?_⟩
    rw [Sys.move, hsignal.phase, Function.update_idem]
  · exact ⟨u, _, content', hrun, hquiet.update, hlength, hquiet' hlacks⟩

/-- A producer fills the ring up to any number of items. -/
theorem fills (hrun : Runs role q s) (h : At capacity itemSize phase content s) (hquiet : Quiet phase)
    (hi : role i = .notFull) {n : Nat} (hlow : content.length ≤ n) (hhigh : n ≤ capacity) :
    ∃ s' phase' content', Runs role q s' ∧ Quiet phase' ∧ content'.length = n ∧
      At capacity itemSize phase' content' s' := by
  induction n with
  | zero => exact ⟨s, phase, content, hrun, hquiet, Nat.le_zero.mp hlow, h⟩
  | succ n ih =>
    by_cases heq : content.length = n + 1
    · exact ⟨s, phase, content, hrun, hquiet, heq, h⟩
    · obtain ⟨t, phase', content', hrun, hquiet, hlength, hat⟩ := ih (by omega) (by omega)
      obtain ⟨u, phase'', content'', hrun, hquiet, hlength', hat⟩ := hat.quietPut hrun hquiet hi (by omega)
      exact ⟨u, phase'', content'', hrun, hquiet, by omega, hat⟩

/-- A run to a state in which the condition does not hold and no thread is in a call. -/
theorem reaches_lack {malloc : Nat → List UInt8} (hcapacity : 1 ≤ capacity)
    (hmemory : (malloc (mallocSize capacity itemSize)).length = capacity * itemSize) (hi : role i = cond) :
    ∃ s phase content, Runs role (initQueue malloc capacity itemSize) s ∧ Quiet phase ∧
      At capacity itemSize phase content s ∧ s.queue.Lacks cond := by
  have hstart : At capacity itemSize (fun _ => .out none) []
      (Sys.start (ι := ι) (initQueue malloc capacity itemSize)) :=
    ⟨init_represents hcapacity hmemory, rfl, rfl, rfl, rfl⟩
  have hquiet : Quiet (fun _ : ι => .out none) := fun _ => ⟨none, rfl⟩
  have hrun : Runs role (initQueue malloc capacity itemSize)
      (.start (initQueue malloc capacity itemSize)) := .start
  cases cond with
  | notEmpty => exact ⟨_, _, [], .start, hquiet, hstart, hstart.queue.empty_iff.mpr rfl⟩
  | notFull =>
    obtain ⟨s, phase, content, hrun, hquiet, hlength, hat⟩ :=
      fills hrun hstart hquiet hi (Nat.zero_le capacity) (Nat.le_refl _)
    exact ⟨s, phase, content, hrun, hquiet, hat, hat.lacks_iff.mpr hlength⟩

/-- A call that waits. -/
theorem At.callBlock {result : Option Item} (h : At capacity itemSize phase content s)
    (hrun : Runs role q s) (hphase : phase i = .out result) (hi : role i = cond)
    (hlacks : content.length = if cond = .notEmpty then 0 else capacity) :
    ∃ s', Runs role q s' ∧
      At capacity itemSize (Function.update phase i (.waiting (opFor itemSize cond))) content s' := by
  obtain ⟨t, hrun, hcall⟩ := h.call hrun hphase
  rw [hi] at hcall
  have hlacks : t.queue.Lacks (opFor itemSize cond).cond := by
    rw [opFor_cond]
    exact hcall.lacks_iff.mpr hlacks
  obtain ⟨u, hrun, -, hblock⟩ := hcall.block hrun (Function.update_self ..) hlacks
  rw [Function.update_idem] at hblock
  exact ⟨u, hrun, hblock⟩

/-- Two threads wait for the condition, and a third one's update and signal wakes up the first. -/
theorem wakes_one {malloc : Nat → List UInt8} {j : ι} (hcapacity : 1 ≤ capacity)
    (hmemory : (malloc (mallocSize capacity itemSize)).length = capacity * itemSize) (hne : i ≠ j) (hi : role i = cond)
    (hj : role j = cond) (hk : role k = cond.other) :
    ∃ s phase content, Runs role (initQueue malloc capacity itemSize) s ∧
      At capacity itemSize phase content s ∧ phase i = .woken (opFor itemSize cond) true ∧
      phase j = .waiting (opFor itemSize cond) ∧
      (∀ l, l ≠ i → l ≠ j → ∃ result, phase l = .out result) ∧
      content.length = if cond = .notEmpty then 1 else capacity - 1 := by
  have hother : cond.other ≠ cond := by cases cond <;> decide
  have hki : k ≠ i := by
    rintro rfl
    exact hother (hk.symm.trans hi)
  have hkj : k ≠ j := by
    rintro rfl
    exact hother (hk.symm.trans hj)
  obtain ⟨s, phase, content, hrun, hquiet, h, hlacks⟩ := reaches_lack hcapacity hmemory hi
  have hlength := h.lacks_iff.mp hlacks
  obtain ⟨ri, hpi⟩ := hquiet i
  obtain ⟨rj, hpj⟩ := hquiet j
  obtain ⟨rk, hpk⟩ := hquiet k
  obtain ⟨s, hrun, h⟩ := h.callBlock hrun hpi hi hlength
  obtain ⟨s, hrun, h⟩ := h.callBlock hrun
    ((Function.update_of_ne hne.symm ..).trans hpj) hj hlength
  obtain ⟨s, hrun, h⟩ := h.call (i := k) hrun
    ((Function.update_of_ne hkj ..).trans ((Function.update_of_ne hki ..).trans hpk))
  rw [hk] at h
  have hready : ¬ s.queue.Lacks (opFor itemSize cond.other).cond := by
    rw [opFor_cond, h.lacks_iff, hlength]
    cases cond <;> simp [Cond.other] <;> omega
  obtain ⟨s', result, content', hrun, hlength', hdue, -⟩ :=
    h.update false hrun (Or.inl (Function.update_self ..)) hready fun _ => opFor_item
  have hlacks : s.queue.Lacks (opFor itemSize cond.other).cond.other := by
    rw [opFor_cond, Cond.other_other]
    exact h.lacks_iff.mpr hlength
  have h := hdue hlacks
  rw [opFor_cond, Cond.other_other, Function.update_idem] at h
  have hwaits : ∀ l, l ≠ k → Function.update (Function.update (Function.update phase i
      (.waiting (opFor itemSize cond))) j (.waiting (opFor itemSize cond))) k (.signal cond result) l =
      if l = i ∨ l = j then .waiting (opFor itemSize cond) else phase l := by
    intro l hl
    rw [Function.update_of_ne hl]
    by_cases hlj : l = j
    · rw [hlj, Function.update_self, if_pos (Or.inr rfl)]
    · rw [Function.update_of_ne hlj]
      by_cases hli : l = i
      · rw [hli, Function.update_self, if_pos (Or.inl rfl)]
      · rw [Function.update_of_ne hli, if_neg (not_or.mpr ⟨hli, hlj⟩)]
  have hsignal : Function.update (Function.update (Function.update phase i
      (.waiting (opFor itemSize cond))) j (.waiting (opFor itemSize cond))) k (.signal cond result) k =
      .signal (opFor itemSize cond).cond result := by
    rw [opFor_cond]
    exact Function.update_self ..
  obtain ⟨s'', hrun, -, h⟩ := h.signal hrun hsignal ((hwaits i hki.symm).trans (if_pos (Or.inl rfl)))
  refine ⟨s'', _, content', hrun, h, ?_, ?_, fun l hli hlj => ?_, ?_⟩
  · rw [Function.update_of_ne hki.symm, Function.update_self]
  · rw [Function.update_of_ne hkj.symm, Function.update_of_ne hne.symm, hwaits j hkj.symm,
      if_pos (Or.inr rfl)]
  · by_cases hlk : l = k
    · exact ⟨result, by rw [hlk, Function.update_self]⟩
    · rw [Function.update_of_ne hlk, Function.update_of_ne hli, hwaits l hlk,
        if_neg (not_or.mpr ⟨hli, hlj⟩)]
      exact hquiet l
  · cases cond with
    | notEmpty =>
      have hnone : content.length = 0 := hlength
      have hone : content'.length + 1 = content.length + 2 * 1 := hlength'
      show content'.length = 1
      omega
    | notFull =>
      have hall : content.length = capacity := hlength
      have hone : content'.length + 1 = content.length + 2 * 0 := hlength'
      show content'.length = capacity - 1
      omega

/-! ### When no wake-up is lost -/

theorem not_oneEach (h : ¬ OneEach role) :
    ∃ cond i j k, i ≠ j ∧ role i = cond ∧ role j = cond ∧ role k = cond.other := by
  by_contra hnone
  refine h fun cond => ?_
  by_contra hcond
  rw [not_or] at hcond
  obtain ⟨k, hk⟩ := not_forall.mp hcond.2
  refine hcond.1 fun i j hi hj => ?_
  by_contra hne
  exact hnone ⟨cond, i, j, k, hne, hi, hj, not_not.mp hk⟩

/-- The thread that was woken up goes on to its update: nobody wakes up the other one. -/
theorem loses_wakeup {malloc : Nat → List UInt8} (hcapacity : 1 ≤ capacity)
    (hmemory : (malloc (mallocSize capacity itemSize)).length = capacity * itemSize) (h : ¬ OneEach role) :
    ∃ s, Runs role (initQueue malloc capacity itemSize) s ∧ ¬ NoLostWakeup s := by
  obtain ⟨cond, i, j, k, hne, hi, hj, hk⟩ := not_oneEach h
  obtain ⟨s, phase, content, hrun, h, hpi, hpj, hout, hlength⟩ := wakes_one hcapacity hmemory hne hi hj hk
  have hready : ¬ s.queue.Lacks cond := by
    rw [h.lacks_iff, hlength]
    cases cond <;> simp
    omega
  obtain ⟨t, hrun, hqueue, hphase⟩ := h.pass hrun (Or.inr hpi) (by rwa [opFor_cond])
  refine ⟨t, hrun, fun hno => ?_⟩
  obtain ⟨l, hl⟩ := hno cond (hqueue ▸ hready) ⟨j, by
    rw [hphase, Function.update_of_ne hne.symm, hpj]
    exact opFor_cond ..⟩
  rw [hphase] at hl
  by_cases hli : l = i
  · rw [hli, Function.update_self] at hl
    exact hl
  rw [Function.update_of_ne hli] at hl
  by_cases hlj : l = j
  · rw [hlj, hpj] at hl
    exact hl
  · obtain ⟨result, hpl⟩ := hout l hli hlj
    rw [hpl] at hl
    exact hl

/-- With two slots a second item comes without a signal, and the thread that was woken up takes one of
them: the other one stays blocked and no thread is in the queue's code. -/
theorem loses_wakeup_unlocked {malloc : Nat → List UInt8} (hcapacity : 2 ≤ capacity)
    (hmemory : (malloc (mallocSize capacity itemSize)).length = capacity * itemSize) (h : ¬ OneEach role) :
    ∃ s, Runs role (initQueue malloc capacity itemSize) s ∧ s.owner = none ∧ ¬ NoLostWakeup s := by
  obtain ⟨cond, i, j, k, hne, hi, hj, hk⟩ := not_oneEach h
  obtain ⟨s, phase, content, hrun, h, hpi, hpj, hout, hlength⟩ :=
    wakes_one (by omega) hmemory hne hi hj hk
  have hother : cond.other ≠ cond := by cases cond <;> decide
  have hki : k ≠ i := by
    rintro rfl
    exact hother (hk.symm.trans hi)
  have hkj : k ≠ j := by
    rintro rfl
    exact hother (hk.symm.trans hj)
  obtain ⟨rk, hpk⟩ := hout k hki hkj
  obtain ⟨s, hrun, h⟩ := h.call hrun hpk
  rw [hk] at h
  have hready : ¬ s.queue.Lacks (opFor itemSize cond.other).cond := by
    rw [opFor_cond, h.lacks_iff, hlength]
    cases cond <;> simp [Cond.other] <;> omega
  have hquiet : ¬ s.queue.Lacks (opFor itemSize cond.other).cond.other := by
    rw [opFor_cond, Cond.other_other, h.lacks_iff, hlength]
    cases cond <;> simp
    omega
  obtain ⟨s, result, content', hrun, hlength', -, hout'⟩ :=
    h.update false hrun (Or.inl (Function.update_self ..)) hready fun _ => opFor_item
  have h := hout' hquiet
  rw [Function.update_idem] at h
  have hpi : Function.update phase k (.out result) i = .woken (opFor itemSize cond) true :=
    (Function.update_of_ne hki.symm ..).trans hpi
  have htwo : content'.length = if cond = .notEmpty then 2 else capacity - 2 := by
    cases cond with
    | notEmpty =>
      have hone : content.length = 1 := hlength
      have hmore : content'.length + 1 = content.length + 2 * 1 := hlength'
      show content'.length = 2
      omega
    | notFull =>
      have hone : content.length = capacity - 1 := hlength
      have hless : content'.length + 1 = content.length + 2 * 0 := hlength'
      show content'.length = capacity - 2
      omega
  have hready : ¬ s.queue.Lacks (opFor itemSize cond).cond := by
    rw [opFor_cond, h.lacks_iff, htwo]
    cases cond <;> simp
    omega
  obtain ⟨s', result', content'', hrun, hlength'', hdue, hnone⟩ :=
    h.update true hrun (Or.inr hpi) hready fun _ => opFor_item
  obtain ⟨p, hp, h⟩ : ∃ p : Phase, ¬ p.Alerts cond ∧ At capacity itemSize
      (Function.update (Function.update phase k (.out result)) i p) content'' s' := by
    by_cases hlacks : s.queue.Lacks (opFor itemSize cond).cond.other
    · refine ⟨_, ?_, hdue hlacks⟩
      rw [opFor_cond]
      exact hother
    · exact ⟨_, id, hnone hlacks⟩
  refine ⟨s', hrun, h.free, fun hno => ?_⟩
  have hready : ¬ s'.queue.Lacks cond := by
    rw [h.lacks_iff]
    cases cond with
    | notEmpty =>
      have htwo : content'.length = 2 := htwo
      have hless : content''.length + 1 = content'.length + 2 * 0 := hlength''
      show ¬ content''.length = 0
      omega
    | notFull =>
      have htwo : content'.length = capacity - 2 := htwo
      have hmore : content''.length + 1 = content'.length + 2 * 1 := hlength''
      show ¬ content''.length = capacity
      omega
  have hpj' : s'.phase j = .waiting (opFor itemSize cond) := by
    rw [h.phase, Function.update_of_ne hne.symm, Function.update_of_ne hkj.symm, hpj]
  obtain ⟨l, hl⟩ := hno cond hready ⟨j, by rw [hpj']; exact opFor_cond ..⟩
  by_cases hlj : l = j
  · rw [hlj, hpj'] at hl
    exact hl
  rw [h.phase] at hl
  by_cases hli : l = i
  · rw [hli, Function.update_self] at hl
    exact hp hl
  rw [Function.update_of_ne hli] at hl
  by_cases hlk : l = k
  · rw [hlk, Function.update_self] at hl
    exact hl
  · rw [Function.update_of_ne hlk] at hl
    obtain ⟨r, hpl⟩ := hout l hli hlj
    rw [hpl] at hl
    exact hl

/-- No wake-up is lost in any run exactly if there is one thread on each side, or none on one of them. In
the states in which no thread has the lock that holds for a ring of one slot too. -/
theorem no_lost_wakeup_iff {malloc : Nat → List UInt8} (hcapacity : 1 ≤ capacity)
    (hmemory : (malloc (mallocSize capacity itemSize)).length = capacity * itemSize) :
    ((∀ s, Runs role (initQueue malloc capacity itemSize) s → NoLostWakeup s) ↔ OneEach role) ∧
      ((∀ s, Runs role (initQueue malloc capacity itemSize) s → s.owner = none → NoLostWakeup s) ↔
        OneEach role ∨ capacity = 1) := by
  refine ⟨⟨fun hall => ?_, fun hone s hrun => ?_⟩, ⟨fun hall => ?_, ?_⟩⟩
  · by_contra hone
    obtain ⟨s, hrun, hlost⟩ := loses_wakeup hcapacity hmemory hone
    exact hlost (hall s hrun)
  · exact (hrun.guarded hcapacity hmemory).noLostWakeup hone
  · by_contra hnone
    rw [not_or] at hnone
    obtain ⟨s, hrun, hfree, hlost⟩ := loses_wakeup_unlocked (by omega) hmemory hnone.1
    exact hlost (hall s hrun hfree)
  · rintro (hone | rfl) s hrun hfree
    · exact (hrun.guarded hcapacity hmemory).noLostWakeup hone
    · exact (hrun.guarded hcapacity hmemory).noLostWakeup_of_one hfree

/-- The main thread and one worker. -/
theorem no_lost_wakeup_pair :
    OneEach (fun main : Bool => if main then .notFull else .notEmpty) ∧
      ∀ s, Runs (fun main : Bool => if main then .notFull else .notEmpty)
        (initQueue zeroed 3 1) s → NoLostWakeup s := by
  have hone : OneEach (fun main : Bool => if main then .notFull else .notEmpty) := fun cond =>
    Or.inl (by cases cond <;> decide)
  exact ⟨hone, (@no_lost_wakeup_iff Bool _ 3 1 _ zeroed (by decide) (by decide +kernel)).1.mpr hone⟩

/-- One producer and two consumers. -/
def trioRole (i : Fin 3) : Cond := if i = 0 then .notFull else .notEmpty

/-- Both consumers wait; the producer puts two items, and the consumer that it wakes up takes one. -/
def losingSchedule : List (Label (Fin 3)) :=
  [.call 1 .get, .acquire 1, .check 1, .call 2 .get, .acquire 2, .check 2] ++
    callSteps 0 (.put [7]) ++ [.signal 0 (some 1)] ++ callSteps 0 (.put [8]) ++
    [.acquire 1, .check 1, .update 1, .signal 1 none]

instance (role : ι → Cond) : ∀ l, Decidable (KeepsRole role l)
  | .call i op => inferInstanceAs (Decidable (op.cond = role i))
  | .acquire _ => isTrue trivial
  | .check _ => isTrue trivial
  | .wake _ => isTrue trivial
  | .update _ => isTrue trivial
  | .signal _ _ => isTrue trivial

/-- An item is in the queue, one consumer is blocked, and no thread is in a call besides. -/
theorem second_item_wakes_nobody :
    ∃ s, Runs trioRole (initQueue zeroed 2 1) s ∧ s.owner = none ∧ s.queue.stored = [[8]] ∧
      s.phase 2 = .waiting .get ∧ ¬ NoLostWakeup s := by
  have hview : (runSchedule (fun s l => if Allows s l ∧ KeepsRole trioRole l then step s l else none)
      (start (initQueue zeroed 2 1)) losingSchedule).map
      (fun s => (s.owner, s.queue.stored, s.phase 2, decide (¬ s.queue.Lacks .notEmpty ∧
        s.phase 0 = .out none ∧ s.phase 1 = .out (some [7])))) =
        some (none, [[8]], .waiting .get, true) := by
    decide +kernel
  obtain ⟨s, hrun, hs⟩ := Option.map_eq_some_iff.mp hview
  simp only [Prod.mk.injEq, decide_eq_true_eq] at hs
  obtain ⟨hfree, hstored, htwo, hready, hzero, hone⟩ := hs
  refine ⟨s, reaches_of_runSchedule .start hrun, hfree, hstored, htwo, fun hno => ?_⟩
  obtain ⟨i, hi⟩ := hno .notEmpty hready ⟨2, by rw [htwo]; exact rfl⟩
  match i, hi with
  | 0, hi => exact (hzero ▸ hi : (Phase.out none).Alerts .notEmpty)
  | 1, hi => exact (hone ▸ hi : (Phase.out (some [7])).Alerts .notEmpty)
  | 2, hi => exact (htwo ▸ hi : (Phase.waiting .get).Alerts .notEmpty)

end Cscan.Blocking
