import Cscan.Blocking.Fifo

/-! Whether a thread can stay blocked although its condition holds. A signal is sent only when the queue
stops to be empty or full, so it wakes up one of the threads that wait, and the next item none. -/

namespace Cscan.Blocking

open Cscan.Lib Queue Sys

variable {ι : Type*} [DecidableEq ι]

/-- A producer waits for `notFull`, a consumer for `notEmpty`: each thread calls one of the functions. -/
def KeepsRole (role : ι → Cond) : Label ι → Prop
  | .call i op => op.cond = role i
  | _ => True

/-- A signal on `cond` is due, or a thread that had one has not checked the condition yet. -/
def Phase.Alerts : Phase → Cond → Prop
  | .signal cond' _, cond => cond' = cond
  | .woken op true, cond => op.cond = cond
  | .check op true, cond => op.cond = cond
  | _, _ => False

/-- If a condition holds and a thread is blocked on it, a wake-up is on its way. -/
def NoLostWakeup (s : Sys ι) : Prop :=
  ∀ cond, ¬ s.queue.Lacks cond → (∃ k, (s.phase k).WaitsFor cond) → ∃ i, (s.phase i).Alerts cond

/-- For each condition there is at most one thread that waits for it, or none that signals it. -/
def OneEach (role : ι → Cond) : Prop :=
  ∀ cond, (∀ i j, role i = cond → role j = cond → i = j) ∨ ∀ i, role i ≠ cond.other

/-- The thread sends a signal, has one, or is between its check and its update. -/
def Phase.Helps : Phase → Cond → Prop
  | .update op, cond => op.cond = cond
  | p, cond => p.Alerts cond

variable {s s' : Sys ι} {i : ι} {p : Phase} {cond : Cond} {role : ι → Cond}

/-- A thread is blocked on the condition only if it does not hold or a wake-up is on its way. -/
def Helped (s : Sys ι) (cond : Cond) : Prop :=
  ¬ s.queue.Lacks cond → (∃ k, (s.phase k).WaitsFor cond) → ∃ i, (s.phase i).Helps cond

/-- Every call is one of the thread's role. -/
def InRole (role : ι → Cond) (s : Sys ι) : Prop := ∀ i op, (s.phase i).op = some op → op.cond = role i

theorem InRole.move {owner : Option ι} (h : InRole role s)
    (hp : ∀ op, p.op = some op → op.cond = role i) : InRole role { s.move i p with owner := owner } := by
  intro j op hj
  have hj : ((s.move i p).phase j).op = some op := hj
  by_cases hji : j = i
  · subst hji
    rw [move_phase_self] at hj
    exact hp op hj
  · rw [move_phase_ne hji] at hj
    exact h j op hj

theorem InRole.moves {l : Label ι} (h : InRole role s) (hrole : KeepsRole role l)
    (hmoves : s.Moves l s') : InRole role s' := by
  have hkept : ∀ {i : ι} {op : Op}, (s.phase i).op = some op →
      ∀ op', some op = some op' → op'.cond = role i := fun hop op' heq => h _ op' (hop.trans heq)
  cases hmoves with
  | call hphase => exact h.move fun op heq => Option.some.inj heq ▸ hrole
  | enter _ hphase => exact h.move (hkept (by rw [hphase]; rfl))
  | again _ hphase => exact h.move (hkept (by rw [hphase]; rfl))
  | block hphase _ => exact h.move (hkept (by rw [hphase]; rfl))
  | pass hphase _ => exact h.move (hkept (by rw [hphase]; rfl))
  | wake hphase => exact h.move (hkept (by rw [hphase]; rfl))
  | @update i op q result due hphase hqueue =>
    intro j op' hj
    have hended : InRole role
        (s.move i (if due then .signal op.cond.other result else .out result)) :=
      h.move (by cases due <;> exact fun _ h => nomatch h)
    exact hended j op' hj
  | @signal i k op result hphase hwaits =>
    have hwoken : InRole role (s.move k (.woken op true)) := h.move (hkept (by rw [hwaits]; rfl))
    exact hwoken.move fun _ h => nomatch h
  | unheard hphase => exact h.move fun _ h => nomatch h

/-- What `Helped` asks of the new phase of a thread when the queue stays. -/
theorem Helped.move {owner : Option ι} (h : Helped s cond)
    (hwaits : p.WaitsFor cond → s.queue.Lacks cond)
    (hhelps : ¬ s.queue.Lacks cond → (s.phase i).Helps cond → p.Helps cond) :
    Helped { s.move i p with owner := owner } cond := by
  rintro hready ⟨k, hk⟩
  have hk : ((s.move i p).phase k).WaitsFor cond := hk
  have hwaiting : (s.phase k).WaitsFor cond := by
    by_cases hki : k = i
    · subst hki
      rw [move_phase_self] at hk
      exact absurd (hwaits hk) hready
    · rwa [move_phase_ne hki] at hk
  obtain ⟨j, hj⟩ := h hready ⟨k, hwaiting⟩
  refine ⟨j, show ((s.move i p).phase j).Helps cond from ?_⟩
  by_cases hji : j = i
  · subst hji
    rw [move_phase_self]
    exact hhelps hready hj
  · rwa [move_phase_ne hji]

theorem Cond.eq_other_of_ne {c c' : Cond} (h : c ≠ c') : c' = c.other := by
  cases c <;> cases c' <;> first | rfl | exact absurd rfl h

/-- A ring of one slot is empty or full. -/
theorem Queue.Represents.lacks_of_one {q : Queue} {content : List Item} (h : q.Represents content)
    (hone : q.capacity = 1) (hready : ¬ q.Lacks cond.other) : q.Lacks cond := by
  have hle := h.length_le
  cases cond with
  | notEmpty =>
    have hroom : content.length ≠ q.capacity := mt h.full_iff.mpr hready
    exact h.empty_iff.mpr (List.length_eq_zero_iff.mp (by omega))
  | notFull =>
    have hpos := List.length_pos_of_ne_nil (mt h.empty_iff.mpr hready)
    exact h.full_iff.mpr (by omega)

theorem waitsFor_iff : p.WaitsFor cond ↔ ∃ op, p = .waiting op ∧ op.cond = cond := by
  cases p <;> simp [Phase.WaitsFor]

omit [DecidableEq ι] in
theorem InRole.waiting {k : ι} (h : InRole role s) (hk : (s.phase k).WaitsFor cond) :
    role k = cond := by
  obtain ⟨op, hop, rfl⟩ := waitsFor_iff.mp hk
  exact (h k op (by rw [hop]; rfl)).symm

variable {capacity itemSize : Nat}

theorem Helped.updated {op : Op} {q : Queue} {result : Option Item} {due : Bool} (h : Helped s cond)
    (hsound : Sound capacity itemSize s) (hinrole : InRole role s)
    (hone : (∀ i j, role i = cond → role j = cond → i = j) ∨ capacity = 1)
    (hphase : s.phase i = .update op) (hqueue : s.queue.update op = some (q, result, due)) :
    Helped { s.move i (if due then .signal op.cond.other result else .out result) with
      queue := q
      owner := none
      accepted := s.accepted ++ putItems op
      returned := s.returned ++ result.toList } cond := by
  obtain ⟨content, hrep, -⟩ := hsound.content
  obtain ⟨q', result', due', content', hupdate, hrep', hslots, -, -, hdue, hother⟩ :=
    hrep.update (hsound.ready i op hphase) fun item hput =>
      (hsound.items i item (by rw [hphase, hput]; rfl)).trans hsound.size.symm
  obtain ⟨rfl, rfl, rfl⟩ : q' = q ∧ result' = result ∧ due' = due := by
    simpa using hupdate.symm.trans hqueue
  generalize hp : (if due' = true then Phase.signal op.cond.other result' else Phase.out result') = p
  rintro hready ⟨k, hk⟩
  have hready : ¬ q'.Lacks cond := hready
  have hk : ((s.move i p).phase k).WaitsFor cond := hk
  have hki : k ≠ i := by
    rintro rfl
    rw [move_phase_self, ← hp] at hk
    cases due' <;> exact hk
  rw [move_phase_ne hki] at hk
  show ∃ j, ((s.move i p).phase j).Helps cond
  by_cases hcond : op.cond = cond
  · exfalso
    rcases hone with hunique | hcapacity
    · have hi : role i = cond := (hinrole i op (by rw [hphase]; rfl)).symm.trans hcond
      exact hki (hunique k i (hinrole.waiting hk) hi)
    · rw [hcond] at hother
      exact hready (hrep'.lacks_of_one (by rw [hslots, hsound.slots, hcapacity]) hother)
  · obtain rfl := Cond.eq_other_of_ne hcond
    by_cases hlacks : s.queue.Lacks op.cond.other
    · -- the queue was empty or full, so the signal is due
      refine ⟨i, ?_⟩
      rw [move_phase_self, ← hp, if_pos (hdue.mpr hlacks)]
      exact rfl
    · obtain ⟨j, hj⟩ := h hlacks ⟨k, hk⟩
      have hji : j ≠ i := by
        rintro rfl
        rw [hphase] at hj
        exact hcond hj
      exact ⟨j, by rwa [move_phase_ne hji]⟩

theorem Helped.moves {l : Label ι} (h : Helped s cond) (hsound : Sound capacity itemSize s)
    (hinrole : InRole role s)
    (hone : (∀ i j, role i = cond → role j = cond → i = j) ∨ capacity = 1)
    (hallows : Allows s l) (hmoves : s.Moves l s') : Helped s' cond := by
  cases hmoves with
  | call hphase => exact h.move False.elim fun _ => by rw [hphase]; exact False.elim
  | enter _ hphase => exact h.move False.elim fun _ => by rw [hphase]; exact False.elim
  | @again i op signalled _ hphase =>
    refine h.move False.elim fun _ => ?_
    rw [hphase]
    cases signalled <;> exact id
  | @block i op signalled hphase hlacks =>
    refine h.move (fun hwaits => hwaits ▸ hlacks) fun hready hhelps => ?_
    rw [hphase] at hhelps
    cases signalled
    · exact hhelps.elim
    · exact absurd (hhelps ▸ hlacks) hready
  | @pass i op signalled hphase _ =>
    refine h.move False.elim fun _ => ?_
    rw [hphase]
    cases signalled
    · exact False.elim
    · exact id
  | wake hphase => exact h.move False.elim fun _ => by rw [hphase]; exact False.elim
  | @update i op q result due hphase hqueue =>
    exact h.updated hsound hinrole hone hphase hqueue
  | @signal i k op result hphase hwaits =>
    have hne : i ≠ k := by
      rintro rfl
      exact nomatch hphase.symm.trans hwaits
    by_cases hcond : op.cond = cond
    · refine fun _ _ => ⟨k, ?_⟩
      rw [move_phase_ne hne.symm, move_phase_self]
      exact hcond
    · have hwoken : Helped (s.move k (.woken op true)) cond :=
        h.move False.elim fun _ => by rw [hwaits]; exact False.elim
      refine hwoken.move False.elim fun _ hhelps => ?_
      rw [move_phase_ne hne, hphase] at hhelps
      exact absurd hhelps hcond
  | @unheard i c result hphase =>
    by_cases hcond : c = cond
    · subst hcond
      rw [Allows, hphase] at hallows
      rintro - ⟨k, hk⟩
      by_cases hki : k = i
      · subst hki
        rw [move_phase_self] at hk
        exact hk.elim
      · rw [move_phase_ne hki] at hk
        exact absurd hk (hallows k)
    · exact h.move False.elim fun _ hhelps => by rw [hphase] at hhelps; exact absurd hhelps hcond

/-- Without threads that signal the condition, the ones that wait for it wait because it does not hold. -/
def Stuck (s : Sys ι) (cond : Cond) : Prop := (∃ k, (s.phase k).WaitsFor cond) → s.queue.Lacks cond

theorem Stuck.move {owner : Option ι} (h : Stuck s cond)
    (hwaits : p.WaitsFor cond → s.queue.Lacks cond) :
    Stuck { s.move i p with owner := owner } cond := by
  rintro ⟨k, hk⟩
  have hk : ((s.move i p).phase k).WaitsFor cond := hk
  by_cases hki : k = i
  · subst hki
    rw [move_phase_self] at hk
    exact hwaits hk
  · rw [move_phase_ne hki] at hk
    exact h ⟨k, hk⟩

theorem Stuck.moves {l : Label ι} (h : Stuck s cond) (hsound : Sound capacity itemSize s)
    (hinrole : InRole role s) (hnone : ∀ i, role i ≠ cond.other) (hmoves : s.Moves l s') :
    Stuck s' cond := by
  cases hmoves with
  | call _ => exact h.move False.elim
  | enter _ _ => exact h.move False.elim
  | again _ _ => exact h.move False.elim
  | block _ hlacks => exact h.move fun hwaits => hwaits ▸ hlacks
  | pass _ _ => exact h.move False.elim
  | wake _ => exact h.move False.elim
  | @update i op q result due hphase hqueue =>
    have hready := hsound.ready i op hphase
    have hcond : op.cond = cond := by
      by_contra hne
      exact hnone i ((hinrole i op (by rw [hphase]; rfl)).symm.trans
        (Cond.eq_other_of_ne (Ne.symm hne)))
    rw [hcond] at hready
    -- while the condition holds no thread waits for it
    rintro ⟨k, hk⟩
    exfalso
    have hout : Stuck (s.move i (if due then .signal op.cond.other result else .out result)) cond :=
      h.move (by cases due <;> exact False.elim)
    exact hready (hout ⟨k, hk⟩)
  | @signal i k op result hphase hwaits =>
    have hwoken : Stuck (s.move k (.woken op true)) cond := h.move False.elim
    exact hwoken.move False.elim
  | unheard _ => exact h.move False.elim

/-! ### Runs -/

/-- The runs of threads that keep to their roles. -/
def Runs (role : ι → Cond) (q : Queue) : Sys ι → Prop :=
  Reaches step (fun s l => Allows s l ∧ KeepsRole role l) (start q)

/-- The invariant of such runs. -/
structure Guarded (capacity itemSize : Nat) (role : ι → Cond) (s : Sys ι) : Prop where
  sound : Sound capacity itemSize s
  inRole : InRole role s
  helped : ∀ cond, ((∀ i j, role i = cond → role j = cond → i = j) ∨ capacity = 1) → Helped s cond
  stuck : ∀ cond, (∀ i, role i ≠ cond.other) → Stuck s cond

omit [DecidableEq ι] in
theorem start_guarded {malloc : Nat → List UInt8} (hcapacity : 1 ≤ capacity)
    (hmemory : (malloc (mallocSize capacity itemSize)).length = capacity * itemSize) (role : ι → Cond) :
    Guarded capacity itemSize role (start (initQueue malloc capacity itemSize)) :=
  ⟨start_sound hcapacity hmemory, (fun _ _ h => nomatch h), fun _ _ _ ⟨_, hk⟩ => hk.elim,
    fun _ _ ⟨_, hk⟩ => hk.elim⟩

theorem Guarded.step {l : Label ι} (h : Guarded capacity itemSize role s) (hallows : Allows s l)
    (hrole : KeepsRole role l) (hstep : s.step l = some s') : Guarded capacity itemSize role s' := by
  have hmoves := Moves.of_step hstep
  exact ⟨h.sound.moves hallows hmoves, h.inRole.moves hrole hmoves,
    fun cond hone => (h.helped cond hone).moves h.sound h.inRole hone hallows hmoves,
    fun cond hnone => (h.stuck cond hnone).moves h.sound h.inRole hnone hmoves⟩

theorem Runs.guarded {malloc : Nat → List UInt8} (hcapacity : 1 ≤ capacity)
    (hmemory : (malloc (mallocSize capacity itemSize)).length = capacity * itemSize)
    (h : Runs role (initQueue malloc capacity itemSize) s) : Guarded capacity itemSize role s :=
  Reaches.invariant (Guarded capacity itemSize role) (start_guarded hcapacity hmemory role)
    (fun _ _ _ hinv hguard hstep => hinv.step hguard.1 hguard.2 hstep) h

omit [DecidableEq ι] in
theorem helps_iff : p.Helps cond ↔ p.Alerts cond ∨ ∃ op, p = .update op ∧ op.cond = cond := by
  cases p <;> simp [Phase.Helps, Phase.Alerts]

omit [DecidableEq ι] in
/-- With one thread on each side, or none on one of them, no wake-up is lost. -/
theorem Guarded.noLostWakeup (h : Guarded capacity itemSize role s) (hone : OneEach role) :
    NoLostWakeup s := by
  rintro cond hready ⟨k, hk⟩
  rcases hone cond with hunique | hnone
  · obtain ⟨i, hi⟩ := h.helped cond (Or.inl hunique) hready ⟨k, hk⟩
    rcases helps_iff.mp hi with halerts | ⟨op, hphase, hcond⟩
    · exact ⟨i, halerts⟩
    · have hi : role i = cond := (h.inRole i op (by rw [hphase]; rfl)).symm.trans hcond
      obtain rfl := hunique i k hi (h.inRole.waiting hk)
      rw [hphase] at hk
      exact hk.elim
  · exact absurd (h.stuck cond hnone ⟨k, hk⟩) hready

omit [DecidableEq ι] in
/-- With one slot no wake-up is lost, but a thread that was woken up may be about to take the only item. -/
theorem Guarded.noLostWakeup_of_one (h : Guarded 1 itemSize role s) (hfree : s.owner = none) :
    NoLostWakeup s := by
  intro cond hready hwaits
  obtain ⟨i, hi⟩ := h.helped cond (Or.inr rfl) hready hwaits
  rcases helps_iff.mp hi with halerts | ⟨op, hphase, -⟩
  · exact ⟨i, halerts⟩
  · have howner := (h.sound.locked i).mp (by rw [hphase]; trivial)
    exact nomatch hfree.symm.trans howner

end Cscan.Blocking
