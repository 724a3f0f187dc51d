import Cscan.Options.CommandLine
import Cscan.Options.Derived

/-! The order of the options on a command line. It does not matter where an option that overrides another one
comes to the same with it, and where `-of` is not given. -/

namespace Cscan.Options

open Cscan.Lib

/-! ### The derived parameters -/

section Derive

variable {s s' : Settings}

theorem deriveRate_eq_some_iff : deriveRate s = some s' ↔
    (s.packetsPerSecond ≠ 0 ∧ IsInt (s.packetsPerSecond * s.connectTimeout) ∧
      { s with maxPendingSockets := (s.packetsPerSecond * s.connectTimeout).tdiv 1000 } = s') ∨
    (s.packetsPerSecond = 0 ∧ IsInt (1000 * s.maxPendingSockets) ∧ s.connectTimeout ≠ 0 ∧
      IsInt ((1000 * s.maxPendingSockets).tdiv s.connectTimeout) ∧
      { s with packetsPerSecond := (1000 * s.maxPendingSockets).tdiv s.connectTimeout } = s') := by
  unfold deriveRate
  by_cases hrate : s.packetsPerSecond = 0
  · rw [if_neg (not_not_intro hrate)]
    simp only [Option.bind_eq_bind, Option.bind_eq_some_iff, checked_eq_some_iff, divide_eq_some_iff, hrate,
      ne_eq, not_true_eq_false, false_and, false_or, true_and, Option.some_inj]
    constructor
    · rintro ⟨_, ⟨hint, rfl⟩, _, ⟨hne, hint', rfl⟩, rfl⟩
      exact ⟨hint, hne, hint', rfl⟩
    · rintro ⟨hint, hne, hint', rfl⟩
      exact ⟨_, ⟨hint, rfl⟩, _, ⟨hne, hint', rfl⟩, rfl⟩
  · rw [if_pos hrate]
    simp only [Option.bind_eq_bind, Option.bind_eq_some_iff, checked_eq_some_iff, divide_eq_some_iff, hrate,
      ne_eq, not_false_eq_true, false_and, or_false, true_and, Option.some_inj]
    constructor
    · rintro ⟨_, ⟨hint, rfl⟩, _, ⟨-, -, rfl⟩, rfl⟩
      exact ⟨hint, rfl⟩
    · rintro ⟨hint, rfl⟩
      exact ⟨_, ⟨hint, rfl⟩, _, ⟨by decide, isInt_tdiv hint (by decide), rfl⟩, rfl⟩

theorem deriveInterval_eq_some_iff : deriveInterval s = some s' ↔
    (s.autoInterval = 0 ∧ s = s') ∨
    (s.autoInterval ≠ 0 ∧ IsInt (s.autoInterval * s.connectTimeout) ∧
      IsInt (s.autoInterval * s.connectTimeout * 10) ∧ s.maxPendingSockets ≠ 0 ∧
      IsInt ((s.autoInterval * s.connectTimeout * 10).tdiv s.maxPendingSockets) ∧
      { s with connectInterval := (s.autoInterval * s.connectTimeout * 10).tdiv s.maxPendingSockets } = s') := by
  unfold deriveInterval
  by_cases hshare : s.autoInterval = 0
  · rw [if_neg (not_not_intro hshare)]
    simp [hshare]
  · rw [if_pos hshare]
    simp only [Option.bind_eq_bind, Option.bind_eq_some_iff, checked_eq_some_iff, divide_eq_some_iff, hshare,
      ne_eq, not_false_eq_true, false_and, false_or, true_and, Option.some_inj]
    constructor
    · rintro ⟨_, ⟨hint, rfl⟩, _, ⟨hint', rfl⟩, _, ⟨hne, hint'', rfl⟩, rfl⟩
      exact ⟨hint, hint', hne, hint'', rfl⟩
    · rintro ⟨hint, hint', hne, hint'', rfl⟩
      exact ⟨_, ⟨hint, rfl⟩, _, ⟨hint', rfl⟩, _, ⟨hne, hint'', rfl⟩, rfl⟩

/-- The interval can be computed from a share of the timeout, unless this is 0. -/
def Spreads (share timeout sockets : Int) : Prop :=
  share ≠ 0 → IsInt (share * timeout) ∧ IsInt (share * timeout * 10) ∧ sockets ≠ 0 ∧
    IsInt ((share * timeout * 10).tdiv sockets)

/-- The parameters can be derived from these numbers. -/
def Derivable (rate sockets timeout share : Int) : Prop :=
  if rate = 0 then
    IsInt (1000 * sockets) ∧ timeout ≠ 0 ∧ IsInt ((1000 * sockets).tdiv timeout) ∧
      Spreads share timeout sockets
  else IsInt (rate * timeout) ∧ Spreads share timeout ((rate * timeout).tdiv 1000)

theorem exists_deriveInterval_iff :
    (∃ s', deriveInterval s = some s') ↔ Spreads s.autoInterval s.connectTimeout s.maxPendingSockets := by
  simp only [deriveInterval_eq_some_iff, Spreads]
  by_cases hshare : s.autoInterval = 0
  · simp [hshare]
  · simp [hshare]

theorem exists_derived_iff :
    (∃ s₂ s₃, deriveRate s = some s₂ ∧ deriveInterval s₂ = some s₃) ↔
      Derivable s.packetsPerSecond s.maxPendingSockets s.connectTimeout s.autoInterval := by
  unfold Derivable
  by_cases hrate : s.packetsPerSecond = 0
  · rw [if_pos hrate]
    constructor
    · rintro ⟨s₂, s₃, h₂, h₃⟩
      have hspreads := exists_deriveInterval_iff.mp ⟨s₃, h₃⟩
      rcases deriveRate_eq_some_iff.mp h₂ with ⟨hne, -⟩ | ⟨-, hint, hne, hint', rfl⟩
      · exact absurd hrate hne
      · exact ⟨hint, hne, hint', hspreads⟩
    · rintro ⟨hint, hne, hint', hspreads⟩
      have hsome := deriveRate_eq_some_iff.mpr (Or.inr ⟨hrate, hint, hne, hint', rfl⟩)
      obtain ⟨s₃, h₃⟩ := (@exists_deriveInterval_iff
        { s with packetsPerSecond := (1000 * s.maxPendingSockets).tdiv s.connectTimeout }).mpr hspreads
      exact ⟨_, s₃, hsome, h₃⟩
  · rw [if_neg hrate]
    constructor
    · rintro ⟨s₂, s₃, h₂, h₃⟩
      have hspreads := exists_deriveInterval_iff.mp ⟨s₃, h₃⟩
      rcases deriveRate_eq_some_iff.mp h₂ with ⟨-, hint, rfl⟩ | ⟨hzero, -⟩
      · exact ⟨hint, hspreads⟩
      · exact absurd hzero hrate
    · rintro ⟨hint, hspreads⟩
      have hsome := deriveRate_eq_some_iff.mpr (Or.inl ⟨hrate, hint, rfl⟩)
      obtain ⟨s₃, h₃⟩ := (@exists_deriveInterval_iff
        { s with maxPendingSockets := (s.packetsPerSecond * s.connectTimeout).tdiv 1000 }).mpr hspreads
      exact ⟨_, s₃, hsome, h₃⟩

/-- A rate comes to the same as a number of sockets. -/
def Agree (sockets rate timeout : Int) : Prop :=
  IsInt (rate * timeout) ∧ (rate * timeout).tdiv 1000 = sockets ∧ (1000 * sockets).tdiv timeout = rate

theorem deriveRate_agree {rate : Int} (hrate : rate ≠ 0) (hzero : s.packetsPerSecond = 0)
    (h : Agree s.maxPendingSockets rate s.connectTimeout) (hsome : (deriveRate s).isSome) :
    deriveRate { s with packetsPerSecond := rate } = deriveRate s := by
  obtain ⟨hint, hsockets, hback⟩ := h
  obtain ⟨s₂, h₂⟩ := Option.isSome_iff_exists.mp hsome
  rcases deriveRate_eq_some_iff.mp h₂ with ⟨hne, -⟩ | ⟨-, -, -, -, rfl⟩
  · exact absurd hzero hne
  · rw [h₂, deriveRate_eq_some_iff]
    refine Or.inl ⟨hrate, hint, ?_⟩
    simp only [hsockets, hback]

/-! What the derivation leaves alone. -/

theorem deriveRate_get (h : deriveRate s = some s') {o : ValueOption} (hrate : o ≠ .packetsPerSecond)
    (hsockets : o ≠ .maxPendingSockets) : s'.get o = s.get o := by
  rcases deriveRate_eq_some_iff.mp h with ⟨-, -, rfl⟩ | ⟨-, -, -, -, rfl⟩
  · cases o <;> first | rfl | exact absurd rfl hsockets
  · cases o <;> first | rfl | exact absurd rfl hrate

theorem deriveInterval_get (h : deriveInterval s = some s') {o : ValueOption}
    (ho : o ≠ .connectInterval) : s'.get o = s.get o := by
  rcases deriveInterval_eq_some_iff.mp h with ⟨-, rfl⟩ | ⟨-, -, -, -, -, rfl⟩
  · rfl
  · cases o <;> first | rfl | exact absurd rfl ho

theorem deriveStats_get (s : Settings) (o : ValueOption) : (deriveStats s).get o = s.get o := by
  obtain ⟨every, heq⟩ := deriveStats_eq s
  rw [heq]
  cases o <;> rfl

theorem derived_kept {s₂ s₃ : Settings} (h₂ : deriveRate s = some s₂) (h₃ : deriveInterval s₂ = some s₃) :
    s₃.fromStdin = s.fromStdin ∧ s₃.listOnly = s.listOnly ∧ s₃.daemonize = s.daemonize ∧
      s₃.statsEvery = s.statsEvery ∧ s₃.statsEveryCba = s.statsEveryCba := by
  have hrate : s₂.fromStdin = s.fromStdin ∧ s₂.listOnly = s.listOnly ∧ s₂.daemonize = s.daemonize ∧
      s₂.statsEvery = s.statsEvery ∧ s₂.statsEveryCba = s.statsEveryCba := by
    rcases deriveRate_eq_some_iff.mp h₂ with ⟨-, -, rfl⟩ | ⟨-, -, -, -, rfl⟩
    · exact ⟨rfl, rfl, rfl, rfl, rfl⟩
    · exact ⟨rfl, rfl, rfl, rfl, rfl⟩
  rcases deriveInterval_eq_some_iff.mp h₃ with ⟨-, rfl⟩ | ⟨-, -, -, -, -, rfl⟩
  · exact hrate
  · exact hrate

end Derive

/-! ### Arrangements of the options -/

namespace Item

def numberOf (o : ValueOption) : Item → Option Int
  | .plain _ => none
  | .value o' text => if o' = o then some (number text) else none

/-- The item is one of the two options that override another one. -/
def overriding : Item → Bool
  | .value .maxPendingSockets _ => true
  | .value .connectInterval _ => true
  | _ => false

end Item

/-- The number that is in force for an option in any order: 0 if it is overridden. -/
def inForce (o : ValueOption) (default : Int) (is : List Item) : Int :=
  if is.any (Item.overrides o) then 0 else (latest (Item.numberOf o) is).getD default

/-- The options with those that override others behind them. -/
def late (is : List Item) : List Item := is.filter (! ·.overriding) ++ is.filter Item.overriding

def early (is : List Item) : List Item := is.filter Item.overriding ++ is.filter (! ·.overriding)

theorem early_perm (is : List Item) : (early is).Perm is := List.filter_append_perm ..

theorem late_perm (is : List Item) : (late is).Perm is := List.perm_append_comm.trans (early_perm is)

theorem overrides_eq_true {i : Item} {o : ValueOption} (h : i.overrides o = true) :
    i.overriding = true ∧ ((o = .packetsPerSecond ∧ ∃ text, i = .value .maxPendingSockets text) ∨
      (o = .autoInterval ∧ ∃ text, i = .value .connectInterval text)) := by
  cases i with
  | plain arg => cases h
  | value o' text =>
    cases o' with
    | maxPendingSockets =>
      cases o with
      | packetsPerSecond => exact ⟨rfl, Or.inl ⟨rfl, text, rfl⟩⟩
      | _ => cases h
    | connectInterval =>
      cases o with
      | autoInterval => exact ⟨rfl, Or.inr ⟨rfl, text, rfl⟩⟩
      | _ => cases h
    | _ => cases h

theorem any_overrides {is : List Item} {o : ValueOption} (hrate : o ≠ .packetsPerSecond)
    (hshare : o ≠ .autoInterval) : is.any (Item.overrides o) = false := by
  rw [List.any_eq_false]
  intro i _ hi
  rcases (overrides_eq_true hi).2 with ⟨ho, -⟩ | ⟨ho, -⟩
  · exact hrate ho
  · exact hshare ho

theorem sets_eq_some {order : ByteOrder} {o : ValueOption} {i : Item} {a : Content}
    (h : i.sets order o = some a) :
    (∃ text, i = .value o text ∧ a = content order text o) ∨ (i.overrides o = true ∧ a = .number 0) := by
  cases i with
  | plain arg => cases h
  | value o' text =>
    simp only [Item.sets] at h
    split_ifs at h with heq hover
    · subst heq
      exact Or.inl ⟨text, rfl, (Option.some.inj h).symm⟩
    · exact Or.inr ⟨hover, (Option.some.inj h).symm⟩

theorem content_numeric {order : ByteOrder} {text : List Char} {o : ValueOption} (h : o.numeric = true) :
    content order text o = .number (number text) := if_pos h

section Once

variable {order : ByteOrder} {is is' : List Item} {o : ValueOption} {s s₁ s₂ : Settings}
  (honce : (is.map Item.name).Nodup)
include honce

/-- Each option has one value. -/
theorem text_unique {text text' : List Char} (h : .value o text ∈ is) (h' : .value o text' ∈ is) :
    text = text' := by
  have heq := List.inj_on_of_nodup_map honce h h' rfl
  cases heq
  rfl

/-- The items set a variable to one thing, if what is overridden is 0. -/
theorem sets_agree (hzero : ∀ text, .value o text ∈ is → is.any (Item.overrides o) = true →
    content order text o = .number 0) :
    ∀ i ∈ is, ∀ j ∈ is, ∀ a b, i.sets order o = some a → j.sets order o = some b → a = b := by
  intro i hi j hj a b ha hb
  rcases sets_eq_some ha with ⟨text, rfl, rfl⟩ | ⟨hover, rfl⟩
  · rcases sets_eq_some hb with ⟨text', rfl, rfl⟩ | ⟨hover, rfl⟩
    · rw [text_unique honce hi hj]
    · exact hzero text hi (List.any_eq_true.mpr ⟨j, hj, hover⟩)
  · rcases sets_eq_some hb with ⟨text', rfl, rfl⟩ | ⟨-, rfl⟩
    · exact (hzero text' hj (List.any_eq_true.mpr ⟨i, hi, hover⟩)).symm
    · rfl

theorem latest_sets {text : List Char} (hnot : is.any (Item.overrides o) = false) (h : .value o text ∈ is) :
    latest (Item.sets order o) is = some (content order text o) := by
  rw [latest_eq_some_iff (sets_agree honce fun _ _ hover => absurd hover (by simp [hnot]))]
  exact ⟨_, h, if_pos rfl⟩

/-- The variable of an option when those that override others come last. -/
theorem loop_late (h : (late is).foldlM (apply order) s = some s₁) :
    s₁.get o = if is.any (Item.overrides o) then .number 0
      else (latest (Item.sets order o) is).getD (s.get o) := by
  rw [loop_get o h]
  by_cases hover : is.any (Item.overrides o) = true
  · obtain ⟨i, hi, hi'⟩ := List.any_eq_true.mp hover
    have hset : i.sets order o = some (.number 0) := by
      rcases (overrides_eq_true hi').2 with ⟨rfl, text, rfl⟩ | ⟨rfl, text, rfl⟩
      · rfl
      · rfl
    have hmem : i ∈ is.filter Item.overriding := List.mem_filter.mpr ⟨hi, (overrides_eq_true hi').1⟩
    rw [if_pos hover, late, latest_append_of_mem hmem hset]
    · rfl
    · intro j hj b hb
      rcases sets_eq_some hb with ⟨text, rfl, -⟩ | ⟨-, rfl⟩
      · -- an option that is overridden overrides nothing
        have hoverriding := (List.mem_filter.mp hj).2
        rcases (overrides_eq_true hi').2 with ⟨rfl, -⟩ | ⟨rfl, -⟩
        · cases hoverriding
        · cases hoverriding
      · rfl
  · rw [if_neg hover, latest_perm (late_perm is)]
    exact sets_agree honce fun _ _ hover' => absurd hover' hover

/-- The numbers behind the loop in that order. -/
theorem loop_late_number {d : Int} (ho : o.numeric = true) (hd : s.get o = .number d)
    (h : (late is).foldlM (apply order) s = some s₁) : s₁.get o = .number (inForce o d is) := by
  rw [loop_late honce h, inForce]
  by_cases hover : is.any (Item.overrides o) = true
  · rw [if_pos hover, if_pos hover]
  · have hsets : ∀ i ∈ is, i.sets order o = (i.numberOf o).map Content.number := by
      intro i hi
      cases i with
      | plain arg => rfl
      | value o' text =>
        have hnot : ¬ o'.overrides o = true := fun h => hover (List.any_eq_true.mpr ⟨_, hi, h⟩)
        simp only [Item.sets, Item.numberOf, if_neg hnot, content_numeric ho]
        split_ifs
        · rfl
        · rfl
    rw [if_neg hover, if_neg hover, latest_map hsets, hd]
    cases latest (Item.numberOf o) is with
    | none => rfl
    | some z => rfl

end Once

/-! ### What the options promise -/

/-- The variable of an option holds the value that is given, unless another option overrides it. -/
def Item.Shown (order : ByteOrder) (is : List Item) (s : Settings) : Item → Prop
  | .plain arg => flag arg s = s
  | .value o text =>
    (o = .newStatsEvery → s.statsEvery = number text) ∧
      if is.any (Item.overrides o) then o = .autoInterval → s.autoInterval = 0
      else s.get o = content order text o

/-- The configuration is the same in every order of the options, and shows each of them. -/
def OrderFree (env : Env) (program : List Char) (is : List Item) : Prop :=
  ∃ s, (∀ is', is'.Perm is → ¬ AsksHelp (commandLine program is') ∧
      configure env (commandLine program is') = some s ∧
      ∀ fuel, parseArgs env fuel (commandLine program is') = loadTables env fuel s) ∧
    ∀ i ∈ is, i.Shown env.order is s

/-- What keeps the order from mattering: `-of` is not given, nor 0 for `-st`; the numbers are in range; and
what `-ct` and `-m` override comes to the same with them. -/
structure Harmless (is : List Item) : Prop where
  filesDir : ∀ text, .value .outputFilesDir text ∉ is
  stats : ∀ text, .value .newStatsEvery text ∈ is → number text ≠ 0
  share : ∀ text text', .value .connectInterval text ∈ is → .value .autoInterval text' ∈ is →
    number text' = 0
  rate : ∀ text text', .value .maxPendingSockets text ∈ is → .value .packetsPerSecond text' ∈ is →
    number text' = 0 ∨ Agree (number text) (number text') (inForce .connectTimeout 800 is)
  readable : ∀ i ∈ is, i.Readable
  derivable : Derivable (inForce .packetsPerSecond 520 is) (inForce .maxPendingSockets 0 is)
    (inForce .connectTimeout 800 is) (inForce .autoInterval 90 is)

theorem ValueOption.name_noHelp (o : ValueOption) : ¬ (['-', 'h'] <+: o.name ∨ ['-', '-', 'h'] <+: o.name) := by
  cases o <;> decide

theorem not_asksHelp {program : List Char} {is : List Item} (hdoc : ∀ i ∈ is, i.Documented) :
    ¬ AsksHelp (commandLine program is) := by
  cases is with
  | nil => simp [AsksHelp, commandLine]
  | cons i is =>
    have hi := hdoc i List.mem_cons_self
    rintro ⟨arg, harg, hhelp⟩
    have hname : i.name = arg := by
      cases i with
      | plain arg' => exact Option.some.inj harg
      | value o text => exact Option.some.inj harg
    subst hname
    cases i with
    | plain arg =>
      rcases List.mem_cons.mp hi with rfl | hi
      · exact absurd hhelp (by decide)
      rcases List.mem_cons.mp hi with rfl | hi
      · exact absurd hhelp (by decide)
      rcases List.mem_singleton.mp hi with rfl
      exact absurd hhelp (by decide)
    | value o text => exact o.name_noHelp hhelp

theorem configure_commandLine {env : Env} {program : List Char} {is : List Item} {s : Settings}
    (hdoc : ∀ i ∈ is, i.Documented) (hof : ∀ text, .value .outputFilesDir text ∉ is) :
    configure env (commandLine program is) = some s ↔
      ∃ s₁ s₂ s₃, is.foldlM (apply env.order) (defaults env) = some s₁ ∧ deriveRate s₁ = some s₂ ∧
        deriveInterval s₂ = some s₃ ∧ deriveStats s₃ = s := by
  have hitems : items (commandLine program is).tail = is := items_args hdoc hof
  rw [configure_eq_some_iff, hitems]

/-- Where the rate is overridden, the loop over that order ends with the number of sockets instead. -/
theorem loop_overridden {env : Env} {is : List Item} {s₁ : Settings} {sockets : List Char}
    (honce : (is.map Item.name).Nodup) (hsockets : .value .maxPendingSockets sockets ∈ is)
    (h : (late is).foldlM (apply env.order) (defaults env) = some s₁) :
    s₁.packetsPerSecond = 0 ∧ s₁.maxPendingSockets = number sockets ∧
      s₁.connectTimeout = inForce .connectTimeout 800 is := by
  have hover : is.any (Item.overrides .packetsPerSecond) = true := List.any_eq_true.mpr ⟨_, hsockets, rfl⟩
  have hrate : s₁.get .packetsPerSecond = _ := loop_late honce h
  have hnot : is.any (Item.overrides .maxPendingSockets) = false := any_overrides (by decide) (by decide)
  have hcount : s₁.get .maxPendingSockets = _ := loop_late honce h
  rw [if_pos hover] at hrate
  rw [hnot, latest_sets honce hnot hsockets] at hcount
  exact ⟨Content.number.inj hrate, Content.number.inj hcount,
    Content.number.inj (loop_late_number honce (o := .connectTimeout) rfl rfl h)⟩

section Harmless

variable {env : Env} {program : List Char} {is is' : List Item} {s s₁ s₂ s₃ t : Settings}

/-- In another order the loop ends with the same variables, but for a rate that is overridden. -/
theorem loop_perm (honce : (is.map Item.name).Nodup) (hfree : Harmless is) (hperm : is'.Perm is)
    (h : (late is).foldlM (apply env.order) (defaults env) = some s₁)
    (h' : is'.foldlM (apply env.order) (defaults env) = some t) :
    t = s₁ ∨ ∃ rate, rate ≠ 0 ∧ s₁.packetsPerSecond = 0 ∧ t = { s₁ with packetsPerSecond := rate } ∧
      Agree s₁.maxPendingSockets rate s₁.connectTimeout := by
  have hboth : is'.Perm (late is) := hperm.trans (late_perm is).symm
  have hget : ∀ o, (∀ text, .value o text ∈ is → is.any (Item.overrides o) = true →
      content env.order text o = .number 0) → t.get o = s₁.get o := by
    intro o hzero
    rw [loop_get o h', loop_get o h, latest_perm hperm (sets_agree honce hzero),
      latest_perm (late_perm is) (sets_agree honce hzero)]
  have hflags : ∀ arg, latest (Item.raises arg) is' = latest (Item.raises arg) (late is) := by
    intro arg
    refine latest_perm hboth fun i _ j _ a b ha hb => ?_
    rw [(raises_eq_some ha).1, (raises_eq_some hb).1]
  obtain ⟨hstdin, hlist, hdaemonize, hstats, hcba⟩ := loop_flags h
  obtain ⟨hstdin', hlist', hdaemonize', hstats', hcba'⟩ := loop_flags h'
  have hother : ∀ o, o ≠ .packetsPerSecond → t.get o = s₁.get o := by
    intro o ho
    refine hget o fun text htext hover => ?_
    obtain ⟨i, hi, hi'⟩ := List.any_eq_true.mp hover
    rcases (overrides_eq_true hi').2 with ⟨rfl, -⟩ | ⟨rfl, text', rfl⟩
    · exact absurd rfl ho
    · rw [content_numeric rfl, hfree.share text' text hi htext]
  have hext : t = { s₁ with packetsPerSecond := t.packetsPerSecond } := by
    refine Settings.ext_get (fun o => ?_) ?_ ?_ ?_ (hstats'.trans hstats.symm) (hcba'.trans hcba.symm)
    · by_cases ho : o = .packetsPerSecond
      · rw [ho]
        rfl
      · rw [hother o ho]
        cases o <;> first | rfl | exact absurd rfl ho
    · rw [hstdin', hflags]
      exact hstdin.symm
    · rw [hlist', hflags]
      exact hlist.symm
    · rw [hdaemonize', hflags]
      exact hdaemonize.symm
  by_cases hzero : ∀ text, .value .packetsPerSecond text ∈ is →
      is.any (Item.overrides .packetsPerSecond) = true → content env.order text .packetsPerSecond = .number 0
  · have hrate : t.packetsPerSecond = s₁.packetsPerSecond := Content.number.inj (hget _ hzero)
    rw [hrate] at hext
    exact Or.inl hext
  push Not at hzero
  obtain ⟨text, htext, hover, hne⟩ := hzero
  have hnumber : number text ≠ 0 := fun heq => hne (by rw [content_numeric rfl, heq])
  obtain ⟨i, hi, hi'⟩ := List.any_eq_true.mp hover
  obtain ⟨sockets, rfl⟩ : ∃ sockets, i = .value .maxPendingSockets sockets := by
    rcases (overrides_eq_true hi').2 with ⟨-, h⟩ | ⟨heq, -⟩
    · exact h
    · cases heq
  obtain ⟨hrate, hsockets, htimeout⟩ := loop_overridden honce hi h
  have hagree := (hfree.rate sockets text hi htext).resolve_left hnumber
  have hset : Item.sets env.order .packetsPerSecond (.value .packetsPerSecond text) =
      some (.number (number text)) := rfl
  have hlast := loop_get .packetsPerSecond h'
  cases hlatest : latest (Item.sets env.order .packetsPerSecond) is' with
  | none =>
    have hnone := latest_eq_none_iff.mp hlatest _ (hperm.mem_iff.mpr htext)
    rw [hset] at hnone
    cases hnone
  | some a =>
    rw [hlatest] at hlast
    obtain ⟨j, hj, ha⟩ := exists_of_latest hlatest
    rcases sets_eq_some ha with ⟨text', rfl, rfl⟩ | ⟨-, rfl⟩
    · obtain rfl := text_unique honce htext (hperm.mem_iff.mp hj)
      obtain heq : t.packetsPerSecond = number text := Content.number.inj hlast
      rw [heq] at hext
      refine Or.inr ⟨_, hnumber, hrate, hext, ?_⟩
      rwa [hsockets, htimeout]
    · obtain heq : t.packetsPerSecond = 0 := Content.number.inj hlast
      rw [heq, ← hrate] at hext
      exact Or.inl hext

/-- A flag that is given is set in the end. -/
theorem shown_plain {arg : List Char} (hdoc : (Item.plain arg).Documented) (harg : .plain arg ∈ is)
    (h : (late is).foldlM (apply env.order) (defaults env) = some s₁) (h₂ : deriveRate s₁ = some s₂)
    (h₃ : deriveInterval s₂ = some s₃) : flag arg (deriveStats s₃) = deriveStats s₃ := by
  have hraised : latest (Item.raises arg) (late is) = some true := by
    rw [latest_eq_some_iff fun i _ j _ a b ha hb => by rw [(raises_eq_some ha).1, (raises_eq_some hb).1]]
    exact ⟨_, (late_perm is).mem_iff.mpr harg, if_pos rfl⟩
  obtain ⟨hstdin, hlist, hdaemonize, -⟩ := loop_flags h
  obtain ⟨hstdin', hlist', hdaemonize', -⟩ := derived_kept h₂ h₃
  obtain ⟨every, hstats⟩ := deriveStats_eq s₃
  rw [hstats]
  rcases List.mem_cons.mp hdoc with rfl | hdoc
  · rw [hraised, ← hstdin'] at hstdin
    exact congrArg (fun raised => { s₃ with statsEvery := every, fromStdin := raised }) hstdin.symm
  rcases List.mem_cons.mp hdoc with rfl | hdoc
  · rw [hraised, ← hlist'] at hlist
    exact congrArg (fun raised => { s₃ with statsEvery := every, listOnly := raised }) hlist.symm
  rcases List.mem_singleton.mp hdoc with rfl
  rw [hraised, ← hdaemonize'] at hdaemonize
  exact congrArg (fun raised => { s₃ with statsEvery := every, daemonize := raised }) hdaemonize.symm

theorem loop_given {o : ValueOption} {text : List Char} (honce : (is.map Item.name).Nodup)
    (hnot : is.any (Item.overrides o) = false) (ho : .value o text ∈ is)
    (h : (late is).foldlM (apply env.order) (defaults env) = some s₁) :
    s₁.get o = content env.order text o := by
  have hlate := loop_late (o := o) honce h
  rw [hnot, latest_sets honce hnot ho] at hlate
  exact hlate

/-- Where neither a rate nor a number of sockets overrides it, a rate of 0 is derived from no sockets. -/
theorem derived_rate {text : List Char} (honce : (is.map Item.name).Nodup)
    (hnot : is.any (Item.overrides .packetsPerSecond) = false) (ho : .value .packetsPerSecond text ∈ is)
    (h : (late is).foldlM (apply env.order) (defaults env) = some s₁) (h₂ : deriveRate s₁ = some s₂) :
    s₂.packetsPerSecond = number text := by
  have hrate : s₁.packetsPerSecond = number text := Content.number.inj (loop_given honce hnot ho h)
  rcases deriveRate_eq_some_iff.mp h₂ with ⟨-, -, rfl⟩ | ⟨hzero, -, -, -, rfl⟩
  · exact hrate
  · have hnone : latest (Item.sets env.order .maxPendingSockets) is = none := by
      rw [latest_eq_none_iff]
      intro i hi
      cases hset : i.sets env.order .maxPendingSockets with
      | none => rfl
      | some a =>
        rcases sets_eq_some hset with ⟨sockets, rfl, -⟩ | ⟨hover, -⟩
        · exact absurd (List.any_eq_true.mpr ⟨_, hi, rfl⟩) (ne_true_of_eq_false hnot)
        · exact absurd (List.any_eq_true.mpr ⟨i, hi, hover⟩)
            (ne_true_of_eq_false (any_overrides (by decide) (by decide)))
    have hlate := loop_late (o := .maxPendingSockets) honce h
    rw [any_overrides (by decide) (by decide), hnone] at hlate
    have hsockets : s₁.maxPendingSockets = 0 := Content.number.inj hlate
    rw [← hrate, hzero]
    simp [hsockets]

/-- An option that is given is shown in the end. -/
theorem shown_value {o : ValueOption} {text : List Char} (honce : (is.map Item.name).Nodup)
    (hfree : Harmless is) (ho : .value o text ∈ is)
    (h : (late is).foldlM (apply env.order) (defaults env) = some s₁) (h₂ : deriveRate s₁ = some s₂)
    (h₃ : deriveInterval s₂ = some s₃) : (Item.value o text).Shown env.order is (deriveStats s₃) := by
  constructor
  · rintro rfl
    have hgiven := loop_given honce (any_overrides (by decide) (by decide)) ho h
    rw [← deriveRate_get h₂ (by decide) (by decide), ← deriveInterval_get h₃ (by decide)] at hgiven
    have hevery : s₃.newStatsEvery = number text := Content.number.inj hgiven
    have hne : s₃.newStatsEvery ≠ 0 := hevery ▸ hfree.stats text ho
    rw [deriveStats, if_pos hne]
    exact hevery
  by_cases hover : is.any (Item.overrides o) = true
  · rw [if_pos hover]
    rintro rfl
    have hlate := loop_late (o := .autoInterval) honce h
    rw [if_pos hover, ← deriveRate_get h₂ (by decide) (by decide),
      ← deriveInterval_get h₃ (by decide), ← deriveStats_get] at hlate
    exact Content.number.inj hlate
  · rw [if_neg hover, deriveStats_get]
    have hgiven := loop_given honce (Bool.eq_false_iff.mpr hover) ho h
    by_cases hinterval : o = .connectInterval
    · subst hinterval
      -- the share that is overridden is 0, and the interval stays
      have hshare := loop_late (o := .autoInterval) honce h
      rw [if_pos (List.any_eq_true.mpr ⟨_, ho, rfl⟩), ← deriveRate_get h₂ (by decide) (by decide)] at hshare
      rcases deriveInterval_eq_some_iff.mp h₃ with ⟨-, rfl⟩ | ⟨hne, -⟩
      · rw [deriveRate_get h₂ (by decide) (by decide), hgiven]
      · exact absurd (Content.number.inj hshare) hne
    rw [deriveInterval_get h₃ hinterval]
    by_cases hrate : o = .packetsPerSecond
    · subst hrate
      exact congrArg Content.number (derived_rate honce (Bool.eq_false_iff.mpr hover) ho h h₂)
    by_cases hsockets : o = .maxPendingSockets
    · subst hsockets
      obtain ⟨hzero, -⟩ := loop_overridden honce ho h
      rcases deriveRate_eq_some_iff.mp h₂ with ⟨hne, -⟩ | ⟨-, -, -, -, rfl⟩
      · exact absurd hzero hne
      · exact hgiven
    rw [deriveRate_get h₂ hrate hsockets, hgiven]

theorem late_derivable (honce : (is.map Item.name).Nodup)
    (h : (late is).foldlM (apply env.order) (defaults env) = some s₁) :
    Derivable s₁.packetsPerSecond s₁.maxPendingSockets s₁.connectTimeout s₁.autoInterval =
      Derivable (inForce .packetsPerSecond 520 is) (inForce .maxPendingSockets 0 is)
        (inForce .connectTimeout 800 is) (inForce .autoInterval 90 is) := by
  have hrate : s₁.get .packetsPerSecond = .number (inForce .packetsPerSecond 520 is) :=
    loop_late_number honce rfl rfl h
  have hsockets : s₁.get .maxPendingSockets = .number (inForce .maxPendingSockets 0 is) :=
    loop_late_number honce rfl rfl h
  have htimeout : s₁.get .connectTimeout = .number (inForce .connectTimeout 800 is) :=
    loop_late_number honce rfl rfl h
  have hshare : s₁.get .autoInterval = .number (inForce .autoInterval 90 is) :=
    loop_late_number honce rfl rfl h
  rw [Content.number.inj hrate, Content.number.inj hsockets, Content.number.inj htimeout,
    Content.number.inj hshare]

theorem Harmless.orderFree (hdoc : ∀ i ∈ is, i.Documented) (honce : (is.map Item.name).Nodup)
    (hfree : Harmless is) : OrderFree env program is := by
  have hreadable : ∀ i ∈ late is, i.Readable := fun i hi => hfree.readable i ((late_perm is).mem_iff.mp hi)
  obtain ⟨s₁, h⟩ := Option.isSome_iff_exists.mp
    ((foldlM_isSome env.order (defaults env)).mpr hreadable)
  have hderivable := hfree.derivable
  rw [← late_derivable honce h] at hderivable
  obtain ⟨s₂, s₃, h₂, h₃⟩ := exists_derived_iff.mpr hderivable
  refine ⟨deriveStats s₃, fun is' hperm => ?_, fun i hi => ?_⟩
  · have hdoc' : ∀ i ∈ is', i.Documented := fun i hi => hdoc i (hperm.mem_iff.mp hi)
    have hhelp : ¬ AsksHelp (commandLine program is') := not_asksHelp hdoc'
    obtain ⟨t, ht⟩ := Option.isSome_iff_exists.mp
      ((foldlM_isSome env.order (defaults env)).mpr fun i hi => hfree.readable i (hperm.mem_iff.mp hi))
    have hrate : deriveRate t = some s₂ := by
      rcases loop_perm honce hfree hperm h ht with rfl | ⟨rate, hne, hzero, rfl, hagree⟩
      · exact h₂
      · rw [deriveRate_agree hne hzero hagree (by rw [h₂]; rfl), h₂]
    have hconfigure : configure env (commandLine program is') = some (deriveStats s₃) :=
      (configure_commandLine hdoc' fun text hmem => hfree.filesDir text (hperm.mem_iff.mp hmem)).mpr
        ⟨t, s₂, s₃, ht, hrate, h₃, rfl⟩
    refine ⟨hhelp, hconfigure, fun fuel => ?_⟩
    rw [parseArgs, if_neg hhelp, hconfigure]
  · cases i with
    | plain arg => exact shown_plain (hdoc _ hi) hi h h₂ h₃
    | value o text => exact shown_value honce hfree hi h h₂ h₃

/-- A variable that is overridden holds its own value when the others come first. -/
theorem loop_early {o : ValueOption} {text : List Char} (honce : (is.map Item.name).Nodup)
    (hover : is.any (Item.overrides o) = true) (ho : .value o text ∈ is)
    (h : (early is).foldlM (apply env.order) (defaults env) = some t) :
    t.get o = content env.order text o := by
  obtain ⟨i, hi, hi'⟩ := List.any_eq_true.mp hover
  have hbehind : (Item.value o text).overriding = false := by
    rcases (overrides_eq_true hi').2 with ⟨rfl, -⟩ | ⟨rfl, -⟩
    · rfl
    · rfl
  have hmem : Item.value o text ∈ is.filter (! ·.overriding) :=
    List.mem_filter.mpr ⟨ho, by rw [hbehind]; rfl⟩
  have hset : (Item.value o text).sets env.order o = some (content env.order text o) := if_pos rfl
  rw [loop_get o h, early, latest_append_of_mem hmem hset]
  · rfl
  · intro j hj b hb
    obtain ⟨hj, hnot⟩ := List.mem_filter.mp hj
    rcases sets_eq_some hb with ⟨text', rfl, rfl⟩ | ⟨hover', -⟩
    · rw [text_unique honce ho hj]
    · rw [(overrides_eq_true hover').1] at hnot
      cases hnot

/-- No command line sets the directory for output files. -/
theorem configure_filesDir {argv : List (List Char)} (h : configure env argv = some s) :
    s.outputFilesDir = none := by
  obtain ⟨s₁, s₂, s₃, h₁, h₂, h₃, rfl⟩ := configure_eq_some_iff.mp h
  have hloop := loop_get .outputFilesDir h₁
  rw [latest_eq_none_iff.mpr, ← deriveRate_get h₂ (by decide) (by decide),
    ← deriveInterval_get h₃ (by decide), ← deriveStats_get] at hloop
  · exact Content.text.inj hloop
  · intro i hi
    cases hset : i.sets env.order .outputFilesDir with
    | none => rfl
    | some a =>
      rcases sets_eq_some hset with ⟨text, rfl, -⟩ | ⟨hover, -⟩
      · exact absurd hi (outputFilesDir_not_mem_items _ text)
      · rcases (overrides_eq_true hover).2 with ⟨heq, -⟩ | ⟨heq, -⟩
        · cases heq
        · cases heq

/-- An option that is not overridden is shown by its variable. -/
theorem Item.Shown.get {o : ValueOption} {text : List Char} (h : (Item.value o text).Shown env.order is s)
    (hnot : is.any (Item.overrides o) = false) : s.get o = content env.order text o := by
  have hget := h.2
  rwa [hnot, if_neg Bool.false_ne_true] at hget

/-- A 0 that is given for the statistics is not shown: the default takes its place. -/
theorem stats_ne_zero {text : List Char}
    (hshown : (Item.value .newStatsEvery text).Shown env.order is (deriveStats s₃))
    (h : (late is).foldlM (apply env.order) (defaults env) = some s₁) (h₂ : deriveRate s₁ = some s₂)
    (h₃ : deriveInterval s₂ = some s₃) : number text ≠ 0 := by
  intro hzero
  have hstats := hshown.1 rfl
  have hget := hshown.get (any_overrides (by decide) (by decide))
  rw [deriveStats_get, content_numeric rfl, hzero] at hget
  have hnew : s₃.newStatsEvery = 0 := Content.number.inj hget
  obtain ⟨-, -, -, hevery, hcba⟩ := loop_flags h
  obtain ⟨-, -, -, hevery', hcba'⟩ := derived_kept h₂ h₃
  rw [deriveStats, if_neg (not_not_intro hnew), hzero] at hstats
  split_ifs at hstats
  · have hcount : (10000 : Int) = 0 := (hcba'.trans hcba).symm.trans hstats
    exact absurd hcount (by decide)
  · have hcount : (1000 : Int) = 0 := (hevery'.trans hevery).symm.trans hstats
    exact absurd hcount (by decide)

/-- A share that is overridden is 0 if it stays 0 behind the option that overrides it. -/
theorem share_zero {text text' : List Char} (honce : (is.map Item.name).Nodup)
    (hfixed : .value .connectInterval text ∈ is) (hshare : .value .autoInterval text' ∈ is)
    (hshown : (Item.value .autoInterval text').Shown env.order is (deriveStats s₃))
    (h : (early is).foldlM (apply env.order) (defaults env) = some s₁) (h₂ : deriveRate s₁ = some s₂)
    (h₃ : deriveInterval s₂ = some s₃) : number text' = 0 := by
  have hover : is.any (Item.overrides .autoInterval) = true := List.any_eq_true.mpr ⟨_, hfixed, rfl⟩
  have hzero := hshown.2
  rw [if_pos hover] at hzero
  have hget := loop_early honce hover hshare h
  rw [← deriveRate_get h₂ (by decide) (by decide), ← deriveInterval_get h₃ (by decide),
    ← deriveStats_get, content_numeric rfl] at hget
  have hnumber : (deriveStats s₃).autoInterval = number text' := Content.number.inj hget
  rw [← hnumber, hzero rfl]

/-- What the interval and the statistics leave of the rate and the number of sockets. -/
theorem derived_sockets (h₃ : deriveInterval s₂ = some s₃) :
    (deriveStats s₃).packetsPerSecond = s₂.packetsPerSecond ∧
      (deriveStats s₃).maxPendingSockets = s₂.maxPendingSockets := by
  have hrate := deriveStats_get s₃ .packetsPerSecond
  have hsockets := deriveStats_get s₃ .maxPendingSockets
  rw [deriveInterval_get h₃ (by decide)] at hrate hsockets
  exact ⟨Content.number.inj hrate, Content.number.inj hsockets⟩

/-- A rate that overrides the sockets in one order, and is overridden in the other one, comes to the same. -/
theorem rate_agree {text text' : List Char} {t₁ t₂ t₃ : Settings} (honce : (is.map Item.name).Nodup)
    (hsockets : .value .maxPendingSockets text ∈ is) (hrate : .value .packetsPerSecond text' ∈ is)
    (hne : number text' ≠ 0)
    (hshown : (Item.value .maxPendingSockets text).Shown env.order is (deriveStats s₃))
    (h : (late is).foldlM (apply env.order) (defaults env) = some s₁) (h₂ : deriveRate s₁ = some s₂)
    (h₃ : deriveInterval s₂ = some s₃) (ht : (early is).foldlM (apply env.order) (defaults env) = some t₁)
    (ht₂ : deriveRate t₁ = some t₂) (ht₃ : deriveInterval t₂ = some t₃)
    (heq : deriveStats t₃ = deriveStats s₃) :
    Agree (number text) (number text') (inForce .connectTimeout 800 is) := by
  have hover : is.any (Item.overrides .packetsPerSecond) = true := List.any_eq_true.mpr ⟨_, hsockets, rfl⟩
  have hnot : is.any (Item.overrides .connectTimeout) = false := any_overrides (by decide) (by decide)
  have hnumber : t₁.packetsPerSecond = number text' := Content.number.inj (loop_early honce hover hrate ht)
  obtain ⟨hzero, hcount, htimeout⟩ := loop_overridden honce hsockets h
  have hget : t₁.get .connectTimeout = s₁.get .connectTimeout := by
    have hagree := @sets_agree env.order is .connectTimeout honce fun _ _ h => absurd h (by simp [hnot])
    rw [loop_get _ ht, loop_get _ h, latest_perm (early_perm is) hagree, latest_perm (late_perm is) hagree]
  have htimeout' : t₁.connectTimeout = inForce .connectTimeout 800 is :=
    (Content.number.inj hget).trans htimeout
  have hshow := hshown.get (any_overrides (by decide) (by decide))
  rw [content_numeric rfl] at hshow
  have hsame : (deriveStats s₃).maxPendingSockets = number text := Content.number.inj hshow
  obtain ⟨hfirst, hfirst'⟩ := derived_sockets ht₃
  obtain ⟨hlast, -⟩ := derived_sockets h₃
  rw [heq] at hfirst hfirst'
  rcases deriveRate_eq_some_iff.mp ht₂ with ⟨-, hint, rfl⟩ | ⟨hrate', -⟩
  · rcases deriveRate_eq_some_iff.mp h₂ with ⟨hrate', -⟩ | ⟨-, -, -, -, rfl⟩
    · exact absurd hzero hrate'
    -- the number of sockets is the one that the rate gives, and the rate the one that they give
    · rw [← htimeout', ← hnumber]
      refine ⟨hint, hfirst'.symm.trans hsame, ?_⟩
      rw [← hcount, htimeout', ← htimeout, ← hfirst]
      exact hlast.symm
  · exact absurd (hnumber.symm.trans hrate') hne

theorem OrderFree.harmless (hdoc : ∀ i ∈ is, i.Documented) (honce : (is.map Item.name).Nodup)
    (h : OrderFree env program is) : Harmless is := by
  obtain ⟨s, hall, hshown⟩ := h
  have hof : ∀ text, .value .outputFilesDir text ∉ is := by
    intro text htext
    have hget := (hshown _ htext).get (any_overrides (by decide) (by decide))
    have hnone := configure_filesDir (hall is (List.Perm.refl is)).2.1
    rw [Settings.get, hnone] at hget
    exact absurd (Content.text.inj hget) (by simp)
  have hruns : ∀ is' : List Item, is'.Perm is → ∃ s₁ s₂ s₃,
      is'.foldlM (apply env.order) (defaults env) = some s₁ ∧ deriveRate s₁ = some s₂ ∧
        deriveInterval s₂ = some s₃ ∧ deriveStats s₃ = s := fun is' hperm =>
    (configure_commandLine (fun i hi => hdoc i (hperm.mem_iff.mp hi))
      fun text hmem => hof text (hperm.mem_iff.mp hmem)).mp (hall is' hperm).2.1
  obtain ⟨s₁, s₂, s₃, h₁, h₂, h₃, rfl⟩ := hruns (late is) (late_perm is)
  obtain ⟨t₁, t₂, t₃, ht₁, ht₂, ht₃, ht⟩ := hruns (early is) (early_perm is)
  constructor
  · exact hof
  · exact fun text htext => stats_ne_zero (hshown _ htext) h₁ h₂ h₃
  · intro text text' hfixed hshare
    have hshown' := hshown _ hshare
    rw [← ht] at hshown'
    exact share_zero honce hfixed hshare hshown' ht₁ ht₂ ht₃
  · intro text text' hsockets hrate
    by_cases hne : number text' = 0
    · exact Or.inl hne
    · exact Or.inr (rate_agree honce hsockets hrate hne (hshown _ hsockets) h₁ h₂ h₃ ht₁ ht₂ ht₃ ht)
  · intro i hi
    have hsome : ((late is).foldlM (apply env.order) (defaults env)).isSome := by rw [h₁]; rfl
    exact (foldlM_isSome env.order (defaults env)).mp hsome i ((late_perm is).mem_iff.mpr hi)
  · rw [← late_derivable honce h₁]
    exact exists_derived_iff.mp ⟨s₂, s₃, h₂, h₃⟩

end Harmless

/-- The order of documented options does not matter exactly where they do no harm. -/
theorem order_free_iff (env : Env) (program : List Char) {is : List Item} (hdoc : ∀ i ∈ is, i.Documented)
    (honce : (is.map Item.name).Nodup) : OrderFree env program is ↔ Harmless is :=
  ⟨fun h => h.harmless hdoc honce, fun h => h.orderFree hdoc honce⟩

def cscan : List Char := ['c', 's', 'c', 'a', 'n']

/-- With the timeout of 800 ms, `-m 400` and `-r 500` come to the same. -/
theorem order_free_agree : OrderFree bareEnv cscan
    [.plain ['-', 'x'], .value .maxPendingSockets ['4', '0', '0'],
      .value .packetsPerSecond ['5', '0', '0']] :=
  (order_free_iff _ _ (by simp [Item.Documented]) (by decide)).mpr
    { filesDir := by simp
      stats := by simp
      share := by simp
      rate := by
        simp only [List.mem_cons, Item.value.injEq, reduceCtorEq, true_and, false_and, List.not_mem_nil,
          or_false, false_or]
        rintro _ _ rfl rfl
        exact Or.inr ⟨by decide, by decide, by decide⟩
      readable := by decide
      derivable := ⟨by decide, by decide, by decide, fun _ => ⟨by decide, by decide, by decide, by decide⟩⟩ }

/-- `-of` sets no directory; and `-r` behind `-m`, or `-a` behind `-ct`, is not overridden. -/
theorem order_matters :
    ¬ OrderFree bareEnv cscan [.value .outputFilesDir ['o', 'u', 't']] ∧
    (configure bareEnv (commandLine cscan [.value .outputFilesDir ['o', 'u', 't']])).map
      Settings.outputFilesDir = some none ∧
    (configure bareEnv (commandLine cscan
      [.value .packetsPerSecond ['1', '0', '0', '0'], .value .maxPendingSockets ['5']])).map
        Settings.maxPendingSockets = some 5 ∧
    (configure bareEnv (commandLine cscan
      [.value .maxPendingSockets ['5'], .value .packetsPerSecond ['1', '0', '0', '0']])).map
        Settings.maxPendingSockets = some 800 ∧
    (configure bareEnv (commandLine cscan
      [.value .autoInterval ['5', '0'], .value .connectInterval ['7']])).map
        Settings.connectInterval = some 7 ∧
    (configure bareEnv (commandLine cscan
      [.value .connectInterval ['7'], .value .autoInterval ['5', '0']])).map
        Settings.connectInterval = some 961 := by
  refine ⟨?_, by decide +kernel, by decide +kernel, by decide +kernel, by decide +kernel, by decide +kernel⟩
  rintro ⟨s, hall, hshown⟩
  have hget := (hshown _ List.mem_cons_self).get (any_overrides (by decide) (by decide))
  rw [Settings.get, configure_filesDir (hall _ (List.Perm.refl _)).2.1] at hget
  exact absurd (Content.text.inj hget) (by simp)

end Cscan.Options
