import Cscan.Options.Items

/-! The parameters that `parse_args` derives from positive numbers are usable exactly if the products that it
computes are in range, and the rate is for one socket at least. -/

namespace Cscan.Options

open Cscan.Lib

/-! ### What is given -/

def Item.timeout : Item → Option Int
  | .value .connectTimeout text => some (number text)
  | _ => none

/-- A rate, or a number of sockets. -/
def Item.sends : Item → Option (Int ⊕ Int)
  | .value .packetsPerSecond text => some (.inl (number text))
  | .value .maxPendingSockets text => some (.inr (number text))
  | _ => none

/-- The part of the timeout, or 0 for an interval that is fixed. -/
def Item.share : Item → Option Int
  | .value .autoInterval text => some (number text)
  | .value .connectInterval _ => some 0
  | _ => none

def Item.fixed : Item → Option Int
  | .value .connectInterval text => some (number text)
  | _ => none

def Item.pending : Item → Option Int
  | .value .maxPendingResults text => some (number text)
  | _ => none

/-- The options `-r`, `-m`, `-t`, `-a`, `-ct` and `-pr`. -/
def measured : List ValueOption :=
  [.packetsPerSecond, .maxPendingSockets, .connectTimeout, .autoInterval, .connectInterval,
    .maxPendingResults]

/-- If it is an option that measures, its number is positive. -/
def Item.Positive : Item → Prop
  | .plain _ => True
  | .value o text => o ∈ measured → 0 < number text

instance : ∀ i : Item, Decidable i.Positive
  | .plain _ => isTrue trivial
  | .value _ _ => inferInstanceAs (Decidable (_ → _))

section Given

variable (is : List Item)

/-- The last timeout that is given, or the default. -/
def timeout : Int := (latest Item.timeout is).getD 800

def sends : Int ⊕ Int := (latest Item.sends is).getD (.inl 520)

def share : Int := (latest Item.share is).getD 90

/-- The rate is for one socket at least within the timeout, and the products are in range. -/
def SendsInRange (timeout : Int) : Int ⊕ Int → Prop
  | .inl rate => 1000 ≤ rate * timeout ∧ rate * timeout < 2 ^ 31
  | .inr sockets => 1000 * sockets < 2 ^ 31

instance (timeout : Int) : ∀ sends, Decidable (SendsInRange timeout sends)
  | .inl _ => inferInstanceAs (Decidable (_ ∧ _))
  | .inr _ => inferInstanceAs (Decidable (_ < _))

structure InBounds : Prop where
  readable : ∀ i ∈ is, i.Readable
  sends : SendsInRange (timeout is) (sends is)
  share : share is ≠ 0 → share is * timeout is * 10 < 2 ^ 31

end Given

/-! ### The variables behind the loop -/

def Settings.sends (s : Settings) : Int ⊕ Int :=
  if s.packetsPerSecond = 0 then .inr s.maxPendingSockets else .inl s.packetsPerSecond

def SendsPositive : Int ⊕ Int → Prop
  | .inl rate => 0 < rate
  | .inr sockets => 0 < sockets

/-- The numbers are positive, but for the share of the timeout if the interval is fixed. -/
structure Ready (s : Settings) : Prop where
  timeout : 0 < s.connectTimeout
  sends : SendsPositive s.sends
  share : 0 ≤ s.autoInterval
  fixed : 0 < s.connectInterval
  pending : 0 < s.maxPendingResults

section Loop

variable {env : Env} {is : List Item} {s : Settings}

/-- The variables behind the loop over options with positive numbers. -/
theorem ready_of_loop (hpos : ∀ i ∈ is, i.Positive)
    (hrun : is.foldlM (apply env.order) (defaults env) = some s) :
    Ready s ∧ s.connectTimeout = timeout is ∧ s.sends = sends is ∧ s.autoInterval = share is := by
  have htimeout : s.connectTimeout = timeout is := by
    refine variable_latest (fun _ _ _ _ => rfl) (fun _ => rfl) (fun o text _ s s' h => ?_) hrun
    cases o <;> first | (rw [number_of_assign h]; rfl) | (rw [← Option.some.inj h]; rfl)
  have hshare : s.autoInterval = share is := by
    refine variable_latest (fun _ _ _ _ => rfl) (fun _ => rfl) (fun o text _ s s' h => ?_) hrun
    cases o <;> first | (rw [number_of_assign h]; rfl) | (rw [← Option.some.inj h]; rfl)
  have hfixed : s.connectInterval = (latest Item.fixed is).getD 500 := by
    refine variable_latest (fun _ _ _ _ => rfl) (fun _ => rfl) (fun o text _ s s' h => ?_) hrun
    cases o <;> first | (rw [number_of_assign h]; rfl) | (rw [← Option.some.inj h]; rfl)
  have hpending : s.maxPendingResults = (latest Item.pending is).getD 50 := by
    refine variable_latest (fun _ _ _ _ => rfl) (fun _ => rfl) (fun o text _ s s' h => ?_) hrun
    cases o <;> first | (rw [number_of_assign h]; rfl) | (rw [← Option.some.inj h]; rfl)
  have hsends : s.sends = sends is := by
    refine variable_latest (fun _ _ _ _ => rfl) (fun _ => rfl) (fun o text hi s s' h => ?_) hrun
    cases o with
    | packetsPerSecond =>
      have hne : number text ≠ 0 := (hpos _ hi (by decide)).ne'
      rw [number_of_assign h]
      exact if_neg hne
    | _ => first | (rw [number_of_assign h]; rfl) | (rw [← Option.some.inj h]; rfl)
  refine ⟨⟨?_, ?_, ?_, ?_, ?_⟩, htimeout, hsends, hshare⟩
  · rw [htimeout]
    refine latest_getD (show (0 : Int) < 800 by decide) fun i hi b hb => ?_
    cases i with
    | plain arg => cases hb
    | value o text =>
      cases o with
      | connectTimeout =>
        cases hb
        exact hpos _ hi (by decide)
      | _ => cases hb
  · rw [hsends]
    refine latest_getD (show (0 : Int) < 520 by decide) fun i hi b hb => ?_
    cases i with
    | plain arg => cases hb
    | value o text =>
      cases o with
      | packetsPerSecond =>
        cases hb
        exact hpos _ hi (by decide)
      | maxPendingSockets =>
        cases hb
        exact hpos _ hi (by decide)
      | _ => cases hb
  · rw [hshare]
    refine latest_getD (show (0 : Int) ≤ 90 by decide) fun i hi b hb => ?_
    cases i with
    | plain arg => cases hb
    | value o text =>
      cases o with
      | autoInterval =>
        cases hb
        exact (hpos _ hi (by decide)).le
      | connectInterval =>
        cases hb
        exact Int.le_refl 0
      | _ => cases hb
  · rw [hfixed]
    refine latest_getD (show (0 : Int) < 500 by decide) fun i hi b hb => ?_
    cases i with
    | plain arg => cases hb
    | value o text =>
      cases o with
      | connectInterval =>
        cases hb
        exact hpos _ hi (by decide)
      | _ => cases hb
  · rw [hpending]
    refine latest_getD (show (0 : Int) < 50 by decide) fun i hi b hb => ?_
    cases i with
    | plain arg => cases hb
    | value o text =>
      cases o with
      | maxPendingResults =>
        cases hb
        exact hpos _ hi (by decide)
      | _ => cases hb

end Loop

/-! ### The derived parameters -/

/-- The parameters are usable: a share of the timeout that is in force is kept up to less than one socket. -/
structure Sound (s : Settings) : Prop where
  sockets : 1 ≤ s.maxPendingSockets
  pending : 1 ≤ s.maxPendingResults
  interval : 0 ≤ s.connectInterval
  share : s.autoInterval ≠ 0 →
    s.connectInterval * s.maxPendingSockets ≤ s.autoInterval * s.connectTimeout * 10 ∧
      s.autoInterval * s.connectTimeout * 10 < (s.connectInterval + 1) * s.maxPendingSockets

section Derive

variable {env : Env} {argv : List (List Char)} {s : Settings}

theorem deriveRate_rate (hrate : 0 < s.packetsPerSecond) (htimeout : 0 < s.connectTimeout) :
    deriveRate s = if s.packetsPerSecond * s.connectTimeout < 2 ^ 31 then
      some { s with maxPendingSockets := s.packetsPerSecond * s.connectTimeout / 1000 } else none := by
  have hpos := Int.mul_pos hrate htimeout
  rw [deriveRate, if_pos hrate.ne']
  by_cases hlt : s.packetsPerSecond * s.connectTimeout < 2 ^ 31
  · have hint : IsInt (s.packetsPerSecond * s.connectTimeout) := ⟨by omega, hlt⟩
    rw [if_pos hlt, checked_eq hint]
    simp only [Option.bind_eq_bind, Option.bind_some, divide_eq hpos.le hint (show (0 : Int) < 1000 by decide)]
  · rw [if_neg hlt, checked_eq_none_iff.mpr fun hint => hlt hint.2]
    rfl

theorem deriveRate_sockets (hrate : s.packetsPerSecond = 0) (hsockets : 0 < s.maxPendingSockets)
    (htimeout : 0 < s.connectTimeout) :
    deriveRate s = if 1000 * s.maxPendingSockets < 2 ^ 31 then
      some { s with packetsPerSecond := 1000 * s.maxPendingSockets / s.connectTimeout } else none := by
  rw [deriveRate, if_neg (not_not_intro hrate)]
  by_cases hlt : 1000 * s.maxPendingSockets < 2 ^ 31
  · have hint : IsInt (1000 * s.maxPendingSockets) := ⟨by omega, hlt⟩
    rw [if_pos hlt, checked_eq hint]
    simp only [Option.bind_eq_bind, Option.bind_some, divide_eq (show 0 ≤ 1000 * s.maxPendingSockets by omega)
      hint htimeout]
  · rw [if_neg hlt, checked_eq_none_iff.mpr fun hint => hlt hint.2]
    rfl

theorem deriveInterval_share (hshare : 0 < s.autoInterval) (htimeout : 0 < s.connectTimeout)
    (hsockets : 0 < s.maxPendingSockets) :
    deriveInterval s = if s.autoInterval * s.connectTimeout * 10 < 2 ^ 31 then
      some { s with
        connectInterval := s.autoInterval * s.connectTimeout * 10 / s.maxPendingSockets } else none := by
  have hpos := Int.mul_pos hshare htimeout
  rw [deriveInterval, if_pos hshare.ne']
  by_cases hlt : s.autoInterval * s.connectTimeout * 10 < 2 ^ 31
  · have hint : IsInt (s.autoInterval * s.connectTimeout) := ⟨by omega, by omega⟩
    have hint' : IsInt (s.autoInterval * s.connectTimeout * 10) := ⟨by omega, hlt⟩
    rw [if_pos hlt, checked_eq hint]
    simp only [Option.bind_eq_bind, Option.bind_some, checked_eq hint', divide_eq
      (show 0 ≤ s.autoInterval * s.connectTimeout * 10 by omega) hint' hsockets]
  · rw [if_neg hlt]
    by_cases hint : IsInt (s.autoInterval * s.connectTimeout)
    · rw [checked_eq hint]
      simp only [Option.bind_eq_bind, Option.bind_some, checked_eq_none_iff.mpr fun hint' => hlt hint'.2]
      rfl
    · rw [checked_eq_none_iff.mpr hint]
      rfl

/-- Without sockets the division has no result. -/
theorem deriveInterval_none (hshare : s.autoInterval ≠ 0) (hsockets : s.maxPendingSockets = 0) :
    deriveInterval s = none := by
  rw [deriveInterval, if_pos hshare]
  have hdivide : ∀ a, divide a s.maxPendingSockets = none := fun a => if_pos hsockets
  simp [hdivide]

theorem deriveStats_eq (s : Settings) : ∃ every, deriveStats s = { s with statsEvery := every } := by
  unfold deriveStats
  split_ifs
  · exact ⟨_, rfl⟩
  · exact ⟨_, rfl⟩
  · exact ⟨s.statsEvery, rfl⟩

theorem configure_eq_some_iff : configure env argv = some s ↔
    ∃ s₁ s₂ s₃, (items argv.tail).foldlM (apply env.order) (defaults env) = some s₁ ∧
      deriveRate s₁ = some s₂ ∧ deriveInterval s₂ = some s₃ ∧ deriveStats s₃ = s := by
  rw [configure, parseLoop_eq]
  simp only [Option.bind_eq_bind, Option.bind_eq_some_iff, Option.some_inj]
  constructor
  · rintro ⟨s₁, h₁, s₂, h₂, s₃, h₃, h⟩
    exact ⟨s₁, s₂, s₃, h₁, h₂, h₃, h⟩
  · rintro ⟨s₁, s₂, s₃, h₁, h₂, h₃, h⟩
    exact ⟨s₁, h₁, s₂, h₂, s₃, h₃, h⟩

/-- The interval from a share of the timeout, for a number of sockets. -/
theorem sound_of_interval {s' : Settings} (hsockets : 1 ≤ s.maxPendingSockets)
    (hpending : 0 < s.maxPendingResults) (hfixed : 0 < s.connectInterval) (hshare : 0 ≤ s.autoInterval)
    (htimeout : 0 < s.connectTimeout) (h : deriveInterval s = some s') : Sound s' := by
  rcases hshare.lt_or_eq with hpos | hzero
  · have hproduct := Int.mul_pos hpos htimeout
    rw [deriveInterval_share hpos htimeout (by omega)] at h
    split_ifs at h
    cases h
    refine ⟨hsockets, hpending, Int.ediv_nonneg (by omega) (by omega), fun _ => ⟨?_, ?_⟩⟩
    · exact Int.ediv_mul_le _ (by omega)
    · exact Int.lt_ediv_add_one_mul_self _ (by omega)
  · rw [deriveInterval, if_neg (not_not_intro hzero.symm)] at h
    cases h
    exact ⟨hsockets, hpending, hfixed.le, fun hne => absurd hzero.symm hne⟩

theorem deriveInterval_iff (hsockets : 1 ≤ s.maxPendingSockets) (hpending : 0 < s.maxPendingResults)
    (hfixed : 0 < s.connectInterval) (hshare : 0 ≤ s.autoInterval) (htimeout : 0 < s.connectTimeout) :
    (∃ s', deriveInterval s = some s' ∧ Sound s') ↔
      (s.autoInterval ≠ 0 → s.autoInterval * s.connectTimeout * 10 < 2 ^ 31) := by
  rcases hshare.lt_or_eq with hpos | hzero
  · have hinterval := deriveInterval_share hpos htimeout (by omega)
    constructor
    · rintro ⟨s', h, -⟩ -
      rw [hinterval] at h
      split_ifs at h with hlt
      exact hlt
    · intro hlt
      rw [if_pos (hlt hpos.ne')] at hinterval
      exact ⟨_, hinterval, sound_of_interval hsockets hpending hfixed hshare htimeout hinterval⟩
  · have hinterval : deriveInterval s = some s := if_neg (not_not_intro hzero.symm)
    refine iff_of_true ⟨s, hinterval, ?_⟩ fun hne => absurd hzero.symm hne
    exact sound_of_interval hsockets hpending hfixed hshare htimeout hinterval

/-- Without sockets the parameters are not sound, whether the division is reached or not. -/
theorem not_sound_of_no_sockets {s' : Settings} (hsockets : s.maxPendingSockets = 0)
    (h : deriveInterval s = some s') : ¬ Sound s' := by
  by_cases hshare : s.autoInterval = 0
  · rw [deriveInterval, if_neg (not_not_intro hshare)] at h
    cases h
    exact fun hsound => absurd (hsockets ▸ hsound.sockets) (by decide)
  · rw [deriveInterval_none hshare hsockets] at h
    cases h

theorem derives_iff (hs : Ready s) :
    (∃ s₂, deriveRate s = some s₂ ∧ ∃ s₃, deriveInterval s₂ = some s₃ ∧ Sound s₃) ↔
      SendsInRange s.connectTimeout s.sends ∧
        (s.autoInterval ≠ 0 → s.autoInterval * s.connectTimeout * 10 < 2 ^ 31) := by
  have hsends := hs.sends
  unfold Settings.sends at hsends ⊢
  by_cases hrate : s.packetsPerSecond = 0
  · rw [if_pos hrate] at hsends ⊢
    have hsockets : 0 < s.maxPendingSockets := hsends
    rw [deriveRate_sockets hrate hsockets hs.timeout]
    by_cases hlt : 1000 * s.maxPendingSockets < 2 ^ 31
    · simp only [if_pos hlt, Option.some_inj, exists_eq_left', SendsInRange]
      have hinterval := @deriveInterval_iff
        { s with packetsPerSecond := 1000 * s.maxPendingSockets / s.connectTimeout }
        hsockets hs.pending hs.fixed hs.share hs.timeout
      exact hinterval.trans (and_iff_right hlt).symm
    · simp only [if_neg hlt, SendsInRange]
      exact iff_of_false (fun ⟨_, h, _⟩ => by cases h) fun h => hlt h.1
  · rw [if_neg hrate] at hsends ⊢
    have hpos : 0 < s.packetsPerSecond := hsends
    rw [deriveRate_rate hpos hs.timeout]
    by_cases hlt : s.packetsPerSecond * s.connectTimeout < 2 ^ 31
    · simp only [if_pos hlt, Option.some_inj, exists_eq_left', SendsInRange]
      by_cases hone : 1000 ≤ s.packetsPerSecond * s.connectTimeout
      · have hsockets : 1 ≤ s.packetsPerSecond * s.connectTimeout / 1000 := by omega
        have hinterval := @deriveInterval_iff
          { s with maxPendingSockets := s.packetsPerSecond * s.connectTimeout / 1000 }
          hsockets hs.pending hs.fixed hs.share hs.timeout
        exact hinterval.trans (and_iff_right ⟨hone, hlt⟩).symm
      · have hproduct := Int.mul_pos hpos hs.timeout
        have hsockets : s.packetsPerSecond * s.connectTimeout / 1000 = 0 := by omega
        refine iff_of_false ?_ fun h => hone h.1.1
        rintro ⟨s', h, hsound⟩
        exact not_sound_of_no_sockets hsockets h hsound
    · simp only [if_neg hlt, SendsInRange]
      exact iff_of_false (fun ⟨_, h, _⟩ => by cases h) fun h => hlt h.1.2

end Derive

/-! ### When the parameters are usable -/

/-- Where no help is asked for, the arithmetic of `parse_args` has a result, with usable parameters, and what
is left is to load the tables. -/
def Usable (env : Env) (argv : List (List Char)) : Prop :=
  ¬ AsksHelp argv → ∃ s, configure env argv = some s ∧ Sound s ∧
    ∀ fuel, parseArgs env fuel argv = loadTables env fuel s

theorem Sound.stats {s : Settings} : Sound (deriveStats s) ↔ Sound s := by
  obtain ⟨every, heq⟩ := deriveStats_eq s
  rw [heq]
  exact ⟨fun h => ⟨h.sockets, h.pending, h.interval, h.share⟩,
    fun h => ⟨h.sockets, h.pending, h.interval, h.share⟩⟩

/-- With positive numbers the derived parameters are usable exactly if help is asked for, or the numbers and
the products are in range and the rate is for one socket at least. -/
theorem parameters_usable_iff (env : Env) (argv : List (List Char)) (hpos : ∀ i ∈ items argv.tail, i.Positive) :
    Usable env argv ↔ AsksHelp argv ∨ InBounds (items argv.tail) := by
  by_cases hhelp : AsksHelp argv
  · exact iff_of_true (fun hnot => absurd hhelp hnot) (Or.inl hhelp)
  rw [or_iff_right hhelp]
  constructor
  · intro h
    obtain ⟨s, hs, hsound, -⟩ := h hhelp
    obtain ⟨s₁, s₂, s₃, h₁, h₂, h₃, rfl⟩ := configure_eq_some_iff.mp hs
    obtain ⟨hready, htimeout, hsends, hshare⟩ := ready_of_loop hpos h₁
    have hbounds := (derives_iff hready).mp ⟨s₂, h₂, s₃, h₃, Sound.stats.mp hsound⟩
    rw [htimeout, hsends, hshare] at hbounds
    exact ⟨(foldlM_isSome env.order (defaults env)).mp (by rw [h₁]; rfl), hbounds.1, hbounds.2⟩
  · intro h _
    obtain ⟨s₁, h₁⟩ := Option.isSome_iff_exists.mp
      ((foldlM_isSome env.order (defaults env)).mpr h.readable)
    obtain ⟨hready, htimeout, hsends, hshare⟩ := ready_of_loop hpos h₁
    obtain ⟨s₂, h₂, s₃, h₃, hsound⟩ := (derives_iff hready).mpr
      (by rw [htimeout, hsends, hshare]; exact ⟨h.sends, h.share⟩)
    have hconfigure : configure env argv = some (deriveStats s₃) :=
      configure_eq_some_iff.mpr ⟨s₁, s₂, s₃, h₁, h₂, h₃, rfl⟩
    refine ⟨_, hconfigure, Sound.stats.mpr hsound, fun fuel => ?_⟩
    rw [parseArgs, if_neg hhelp, hconfigure]

/-- An environment without files, and with empty tables. -/
def bareEnv : Env where
  order := .little
  enabledModules := ['p', 'r', 'i', 'n', 't']
  modulesConfig := []
  files := fun _ => none
  malloc := fun _ => none
  builtinRanges := ⟨0, 0, 0, []⟩
  builtinPorts := ⟨0, 0, 0, []⟩

/-- `cscan -r 1000 -t 500`. -/
def fastArgs : List (List Char) :=
  [['c', 's', 'c', 'a', 'n'], ['-', 'r'], ['1', '0', '0', '0'], ['-', 't'], ['5', '0', '0']]

/-- `cscan -r 1 -t 100`. -/
def slowArgs : List (List Char) :=
  [['c', 's', 'c', 'a', 'n'], ['-', 'r'], ['1'], ['-', 't'], ['1', '0', '0']]

theorem parameters_usable_fast : Usable bareEnv fastArgs :=
  (parameters_usable_iff bareEnv fastArgs (by decide)).mpr
    (Or.inr ⟨by decide, by decide, by decide⟩)

/-- With one packet a second and a timeout of 100 ms there is no socket, and the interval is divided by 0. -/
theorem slow_rate_divides_by_zero :
    (∀ i ∈ items slowArgs.tail, i.Positive) ∧ ¬ AsksHelp slowArgs ∧ configure bareEnv slowArgs = none ∧
      ¬ Usable bareEnv slowArgs := by
  have hhelp : ¬ AsksHelp slowArgs := by decide
  have hnone : configure bareEnv slowArgs = none := by decide +kernel
  refine ⟨by decide, hhelp, hnone, fun h => ?_⟩
  obtain ⟨s, hs, -⟩ := h hhelp
  rw [hnone] at hs
  cases hs

end Cscan.Options
