import Cscan.Lib.Latest
import Cscan.Options.Args

/-! The loop over the options takes the arguments one by one, or an option together with its value. -/

namespace Cscan.Options

open Cscan.Lib

/-- What one turn of the loop takes: an argument that can only be a flag, or an option with its value. -/
inductive Item
  | plain (arg : List Char)
  | value (o : ValueOption) (text : List Char)
deriving DecidableEq, Repr

/-- What the turns of the loop take of the arguments. -/
def items : List (List Char) → List Item
  | [] => []
  | [arg] => [.plain arg]
  | arg :: value :: args =>
    match valueOption arg with
    | some o => .value o value :: items args
    | none => .plain arg :: items (value :: args)

/-- What a turn does to the variables. -/
def apply (order : ByteOrder) (s : Settings) : Item → Option Settings
  | .plain arg => some (flag arg s)
  | .value o text => assign order text s o

/-- An option that takes a value is no flag. -/
theorem flag_of_valueOption {arg : List Char} {o : ValueOption} (h : valueOption arg = some o)
    (s : Settings) : flag arg s = s := by
  have hother : ∀ arg', valueOption arg' = none → arg ≠ arg' := by
    rintro arg' hnone rfl
    rw [hnone] at h
    cases h
  rw [flag, if_neg (hother _ (by decide)), if_neg (hother _ (by decide)), if_neg (hother _ (by decide))]

/-- The loop does what its turns do, one after the other. -/
theorem parseLoop_eq (order : ByteOrder) (args : List (List Char)) (s : Settings) :
    parseLoop order args s = (items args).foldlM (apply order) s := by
  induction args using items.induct generalizing s with
  | case1 => rfl
  | case2 arg => rfl
  | case3 arg value args o ho ih =>
    simp only [parseLoop, items, ho, flag_of_valueOption ho, List.foldlM_cons, apply]
    exact congrArg _ (funext ih)
  | case4 arg value args ho ih =>
    simp only [parseLoop, items, ho, List.foldlM_cons, apply]
    exact ih _

/-! ### Options with numbers -/

def ValueOption.numeric : ValueOption → Bool
  | .bindIp => false
  | .canaryIp => false
  | .enabledModules => false
  | .modulesConfig => false
  | .rangesFile => false
  | .portsFile => false
  | .portspec => false
  | .outputCbaFile => false
  | .outputFilesDir => false
  | _ => true

/-- A number that is given is an `int`. -/
def Item.Readable : Item → Prop
  | .plain _ => True
  | .value o text => o.numeric = true → IsInt (number text)

instance : ∀ i : Item, Decidable i.Readable
  | .plain _ => isTrue trivial
  | .value _ _ => inferInstanceAs (Decidable (_ → _))

theorem assign_isSome {order : ByteOrder} {text : List Char} {s : Settings} {o : ValueOption} :
    (assign order text s o).isSome ↔ Item.Readable (.value o text) := by
  by_cases hint : IsInt (number text)
  · cases o <;> simp [assign, atoi, Item.Readable, ValueOption.numeric, checked_eq hint, hint]
  · cases o <;> simp [assign, atoi, Item.Readable, ValueOption.numeric, hint]

theorem apply_isSome (order : ByteOrder) (s : Settings) {i : Item} :
    (apply order s i).isSome ↔ i.Readable := by
  cases i with
  | plain arg => exact iff_of_true rfl trivial
  | value o text => exact assign_isSome

theorem foldlM_isSome (order : ByteOrder) (s : Settings) {is : List Item} :
    (is.foldlM (apply order) s).isSome ↔ ∀ i ∈ is, i.Readable := by
  induction is generalizing s with
  | nil => simp
  | cons i is ih =>
    rw [List.foldlM_cons, List.forall_mem_cons, ← apply_isSome order s]
    cases happly : apply order s i with
    | none => simp
    | some t => simpa using ih t

/-! ### The variables behind the loop -/

theorem number_of_assign {f : Int → Settings} {text : List Char} {s' : Settings}
    (h : (atoi text).map f = some s') : s' = f (number text) := by
  obtain ⟨z, hz, rfl⟩ := Option.map_eq_some_iff.mp h
  obtain ⟨-, rfl⟩ := checked_eq_some_iff.mp hz
  rfl

theorem flag_eq (arg : List Char) (s : Settings) :
    ∃ a b c, flag arg s = { s with fromStdin := a, daemonize := b, listOnly := c } := by
  unfold flag
  split_ifs
  · exact ⟨true, s.daemonize, s.listOnly, rfl⟩
  · exact ⟨s.fromStdin, true, s.listOnly, rfl⟩
  · exact ⟨s.fromStdin, s.daemonize, true, rfl⟩
  · exact ⟨s.fromStdin, s.daemonize, s.listOnly, rfl⟩

/-- A variable that the options set, and no flag, has the latest value behind the loop. -/
theorem variable_latest {α : Type} {order : ByteOrder} {is : List Item} {part : Settings → α}
    {sets : Item → Option α} {s s' : Settings}
    (hflag : ∀ s a b c, part { s with fromStdin := a, daemonize := b, listOnly := c } = part s)
    (hplain : ∀ arg, sets (.plain arg) = none)
    (hassign : ∀ o text, .value o text ∈ is → ∀ s s', assign order text s o = some s' →
      part s' = (sets (.value o text)).getD (part s))
    (hrun : is.foldlM (apply order) s = some s') : part s' = (latest sets is).getD (part s) := by
  refine foldlM_latest (fun i hi s s' happly => ?_) hrun
  cases i with
  | plain arg =>
    obtain rfl := Option.some.inj happly
    obtain ⟨a, b, c, heq⟩ := flag_eq arg s
    rw [hplain, heq, hflag]
    rfl
  | value o text => exact hassign o text hi s s' happly

end Cscan.Options
