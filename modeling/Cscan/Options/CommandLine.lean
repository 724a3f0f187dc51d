import Cscan.Options.Items

/-! Command lines made of the options in the help text, and the variables behind the loop. The loop takes all
of these options but `-of`. -/

namespace Cscan.Options

open Cscan.Lib

/-! ### Options in the help text -/

def ValueOption.name : ValueOption → List Char
  | .connectTimeout => ['-', 't']
  | .packetsPerSecond => ['-', 'r']
  | .maxPendingSockets => ['-', 'm']
  | .maxPendingResults => ['-', 'p', 'r']
  | .bindPort => ['-', 'b']
  | .bindIp => ['-', 'b', 'i']
  | .bindMaxRetries => ['-', 'b', 't']
  | .autoInterval => ['-', 'a']
  | .connectInterval => ['-', 'c', 't']
  | .socketListExcess => ['-', 'e']
  | .canaryIp => ['-', 'c']
  | .canaryPort => ['-', 'c', 'p']
  | .canaryAfter => ['-', 'c', 'a']
  | .enabledModules => ['-', 'm', 'o', 'd']
  | .modulesConfig => ['-', 'm', 'c', 'f', 'g']
  | .rangesFile => ['-', 'f']
  | .portsFile => ['-', 'p', 'f']
  | .portspec => ['-', 'p']
  | .outputCbaFile => ['-', 'o']
  | .outputFilesDir => ['-', 'o', 'f']
  | .newStatsEvery => ['-', 's', 't']

namespace Item

def name : Item → List Char
  | .plain arg => arg
  | .value o _ => o.name

/-- The option on the command line. -/
def args : Item → List (List Char)
  | .plain arg => [arg]
  | .value o text => [o.name, text]

/-- The flags of the help text are `-x`, `-l` and `-d`. -/
def Documented : Item → Prop
  | .plain arg => arg ∈ [['-', 'x'], ['-', 'l'], ['-', 'd']]
  | .value _ _ => True

end Item

def commandLine (program : List Char) (is : List Item) : List (List Char) := program :: is.flatMap Item.args

theorem valueOption_name {o : ValueOption} (h : o ≠ .outputFilesDir) : valueOption o.name = some o := by
  cases o <;> first | rfl | exact absurd rfl h

theorem ite_ne_some {c : Prop} [Decidable c] {o o' : ValueOption} {rest : Option ValueOption}
    (h : c → o ≠ o') (hrest : ¬ c → rest ≠ some o') : (if c then some o else rest) ≠ some o' := by
  by_cases hc : c
  · rw [if_pos hc]
    exact fun heq => h hc (Option.some.inj heq)
  · rw [if_neg hc]
    exact hrest hc

/-- The branch for the directory is never taken: the one before it has the same test. -/
theorem valueOption_ne (arg : List Char) : valueOption arg ≠ some .outputFilesDir := by
  unfold valueOption
  repeat refine ite_ne_some (fun _ => by decide) fun hnot => ?_
  refine ite_ne_some (fun hc => absurd hc hnot) fun _ => ?_
  refine ite_ne_some (fun _ => by decide) fun _ => ?_
  simp

theorem items_plain {arg : List Char} (h : valueOption arg = none) (args : List (List Char)) :
    items (arg :: args) = .plain arg :: items args := by
  cases args with
  | nil => rfl
  | cons value args => simp only [items, h]

/-- The loop takes the options as they are meant if `-of` is not among them. -/
theorem items_args {is : List Item} (hdoc : ∀ i ∈ is, i.Documented)
    (hof : ∀ text, .value .outputFilesDir text ∉ is) : items (is.flatMap Item.args) = is := by
  induction is with
  | nil => rfl
  | cons i is ih =>
    obtain ⟨hi, his⟩ := List.forall_mem_cons.mp hdoc
    have hrest := ih his fun text hmem => hof text (List.mem_cons_of_mem _ hmem)
    rw [List.flatMap_cons]
    cases i with
    | plain arg =>
      have hnone : valueOption arg = none := by
        rcases List.mem_cons.mp hi with rfl | hi
        · rfl
        rcases List.mem_cons.mp hi with rfl | hi
        · rfl
        rcases List.mem_singleton.mp hi with rfl
        rfl
      show items (arg :: is.flatMap Item.args) = _
      rw [items_plain hnone, hrest]
    | value o text =>
      have ho : o ≠ .outputFilesDir := fun heq => hof text (heq ▸ List.mem_cons_self)
      show items (o.name :: text :: is.flatMap Item.args) = _
      simp only [items, valueOption_name ho, hrest]

/-- The loop takes no argument for the option of the directory. -/
theorem outputFilesDir_not_mem_items (args : List (List Char)) (text : List Char) :
    Item.value .outputFilesDir text ∉ items args := by
  induction args using items.induct with
  | case1 => simp [items]
  | case2 arg => simp [items]
  | case3 arg value args o ho ih =>
    simp only [items, ho, List.mem_cons, not_or]
    refine ⟨fun heq => ?_, ih⟩
    cases heq
    exact valueOption_ne arg ho
  | case4 arg value args ho ih =>
    simp only [items, ho, List.mem_cons, not_or]
    exact ⟨by simp, ih⟩

/-! ### What the variables hold -/

/-- The content of a variable. -/
inductive Content
  | number (z : Int)
  | address (ip : UInt32)
  | text (text : Option (List Char))
deriving DecidableEq, Repr

/-- The variable of an option. -/
def Settings.get (s : Settings) : ValueOption → Content
  | .connectTimeout => .number s.connectTimeout
  | .packetsPerSecond => .number s.packetsPerSecond
  | .maxPendingSockets => .number s.maxPendingSockets
  | .maxPendingResults => .number s.maxPendingResults
  | .bindPort => .number s.bindPort
  | .bindIp => .address s.bindIpN
  | .bindMaxRetries => .number s.bindMaxRetries
  | .autoInterval => .number s.autoInterval
  | .connectInterval => .number s.connectInterval
  | .socketListExcess => .number s.socketListExcess
  | .canaryIp => .address s.canaryIp
  | .canaryPort => .number s.canaryPort
  | .canaryAfter => .number s.canaryAfter
  | .enabledModules => .text (some s.enabledModules)
  | .modulesConfig => .text (some s.modulesConfig)
  | .rangesFile => .text s.rangesFile
  | .portsFile => .text s.portsFile
  | .portspec => .text s.portspec
  | .outputCbaFile => .text s.outputCbaFile
  | .outputFilesDir => .text s.outputFilesDir
  | .newStatsEvery => .number s.newStatsEvery

/-- What the variable of an option is to hold when the text is given for it. -/
def content (order : ByteOrder) (text : List Char) (o : ValueOption) : Content :=
  if o.numeric then .number (number text)
  else match o with
    | .bindIp => .address (htonl order (Scan.parseIp4 text))
    | .canaryIp => .address (Scan.parseIp4 text)
    | _ => .text (some text)

/-- `-m` overrides `-r`, and `-ct` overrides `-a`. -/
def ValueOption.overrides : ValueOption → ValueOption → Bool
  | .maxPendingSockets, .packetsPerSecond => true
  | .connectInterval, .autoInterval => true
  | _, _ => false

namespace Item

def overrides (o : ValueOption) : Item → Bool
  | .plain _ => false
  | .value o' _ => o'.overrides o

/-- What a turn of the loop sets the variable of an option to. -/
def sets (order : ByteOrder) (o : ValueOption) : Item → Option Content
  | .plain _ => none
  | .value o' text =>
    if o' = o then some (content order text o) else if o'.overrides o then some (.number 0) else none

/-- A flag is set. -/
def raises (arg : List Char) : Item → Option Bool
  | .plain arg' => if arg' = arg then some true else none
  | .value _ _ => none

end Item

theorem raises_eq_some {arg : List Char} {i : Item} {a : Bool} (h : i.raises arg = some a) :
    a = true ∧ i = .plain arg := by
  cases i with
  | value o text => cases h
  | plain arg' =>
    simp only [Item.raises] at h
    split_ifs at h with heq
    exact ⟨(Option.some.inj h).symm, heq ▸ rfl⟩

section Loop

variable {order : ByteOrder} {is : List Item} {s s' : Settings}

theorem assign_get {o o' : ValueOption} {text : List Char} (h : assign order text s o' = some s') :
    s'.get o = (Item.sets order o (.value o' text)).getD (s.get o) := by
  cases o' <;> first
    | (rw [number_of_assign h]; cases o <;> rfl)
    | (rw [← Option.some.inj h]; cases o <;> rfl)

/-- The variables behind the loop. -/
theorem loop_get (o : ValueOption) (h : is.foldlM (apply order) s = some s') :
    s'.get o = (latest (Item.sets order o) is).getD (s.get o) :=
  variable_latest (fun s a b c => by cases o <;> rfl) (fun _ => rfl) (fun _ _ _ _ _ h => assign_get h) h

/-- The flags behind the loop, and what it leaves alone. -/
theorem loop_flags (h : is.foldlM (apply order) s = some s') :
    s'.fromStdin = (latest (Item.raises ['-', 'x']) is).getD s.fromStdin ∧
      s'.listOnly = (latest (Item.raises ['-', 'l']) is).getD s.listOnly ∧
      s'.daemonize = (latest (Item.raises ['-', 'd']) is).getD s.daemonize ∧
      s'.statsEvery = s.statsEvery ∧ s'.statsEveryCba = s.statsEveryCba := by
  have hassign : ∀ {o : ValueOption} {text : List Char} {s s' : Settings}, assign order text s o = some s' →
      (s'.fromStdin, s'.listOnly, s'.daemonize) = (s.fromStdin, s.listOnly, s.daemonize) := by
    intro o text s s' h
    cases o <;> first | (rw [number_of_assign h]) | (rw [← Option.some.inj h])
  have hflags : ∀ i ∈ is, ∀ s s', apply order s i = some s' →
      s'.fromStdin = (i.raises ['-', 'x']).getD s.fromStdin ∧
        s'.listOnly = (i.raises ['-', 'l']).getD s.listOnly ∧
        s'.daemonize = (i.raises ['-', 'd']).getD s.daemonize := by
    intro i _ s s' happly
    cases i with
    | value o text =>
      have hsame := hassign happly
      simp only [Prod.mk.injEq] at hsame
      exact hsame
    | plain arg =>
      obtain rfl := Option.some.inj happly
      unfold flag Item.raises
      by_cases hx : arg = ['-', 'x']
      · subst hx
        exact ⟨rfl, rfl, rfl⟩
      by_cases hd : arg = ['-', 'd']
      · subst hd
        exact ⟨rfl, rfl, rfl⟩
      by_cases hl : arg = ['-', 'l']
      · subst hl
        exact ⟨rfl, rfl, rfl⟩
      simp only [if_neg hx, if_neg hd, if_neg hl]
      exact ⟨rfl, rfl, rfl⟩
  have hkept : (s'.statsEvery, s'.statsEveryCba) =
      (latest (fun _ : Item => (none : Option (Int × Int))) is).getD (s.statsEvery, s.statsEveryCba) := by
    refine @variable_latest _ order is (fun s => (s.statsEvery, s.statsEveryCba)) (fun _ => none) s s'
      (fun _ _ _ _ => rfl) (fun _ => rfl) (fun o text _ s s' h => ?_) h
    cases o <;> first | (rw [number_of_assign h]; rfl) | (rw [← Option.some.inj h]; rfl)
  rw [latest_eq_none_iff.mpr fun _ _ => rfl] at hkept
  obtain ⟨hstats, hcba⟩ := Prod.mk.inj hkept
  exact ⟨foldlM_latest (fun i hi s s' h => (hflags i hi s s' h).1) h,
    foldlM_latest (fun i hi s s' h => (hflags i hi s s' h).2.1) h,
    foldlM_latest (fun i hi s s' h => (hflags i hi s s' h).2.2) h, hstats, hcba⟩

end Loop

attribute [ext] Settings

/-- Settings are the variables of the options, the flags, and the two defaults for the statistics. -/
theorem Settings.ext_get {s s' : Settings} (h : ∀ o, s.get o = s'.get o)
    (hstdin : s.fromStdin = s'.fromStdin) (hlist : s.listOnly = s'.listOnly)
    (hdaemonize : s.daemonize = s'.daemonize) (hstats : s.statsEvery = s'.statsEvery)
    (hcba : s.statsEveryCba = s'.statsEveryCba) : s = s' := by
  exact Settings.ext (Content.number.inj (h .packetsPerSecond)) (Content.number.inj (h .maxPendingResults))
    (Content.number.inj (h .maxPendingSockets)) (Content.number.inj (h .connectTimeout))
    (Content.number.inj (h .socketListExcess)) (Content.number.inj (h .autoInterval))
    (Content.number.inj (h .connectInterval)) (Content.address.inj (h .bindIp))
    (Content.number.inj (h .bindPort)) (Content.number.inj (h .bindMaxRetries)) hstdin hlist hdaemonize
    (Content.address.inj (h .canaryIp)) (Content.number.inj (h .canaryPort))
    (Content.number.inj (h .canaryAfter)) hstats hcba (Content.text.inj (h .outputCbaFile))
    (Content.text.inj (h .outputFilesDir)) (Option.some.inj (Content.text.inj (h .enabledModules)))
    (Option.some.inj (Content.text.inj (h .modulesConfig))) (Content.text.inj (h .rangesFile))
    (Content.text.inj (h .portsFile)) (Content.text.inj (h .portspec)) (Content.number.inj (h .newStatsEvery))

end Cscan.Options
