import Cscan.Blocking.Queue
import Cscan.Lib.Runs
import Mathlib.Data.Fintype.Basic
import Mathlib.Logic.Function.Basic

/-! Threads that call `queue_put` and `queue_get`. A step is what a thread does between two points at
which another one can come in: it takes the lock, checks the condition and waits or goes on, wakes up,
updates the queue and unlocks it, or sends the signal behind the unlock. -/

namespace Cscan.Blocking

open Cscan.Lib Queue

/-- The two condition variables. -/
inductive Cond
  | notEmpty
  | notFull
deriving DecidableEq, Repr

def Cond.other : Cond → Cond
  | .notEmpty => .notFull
  | .notFull => .notEmpty

/-- A call of one of the two functions. -/
inductive Op
  | put (item : Item)
  | get
deriving DecidableEq, Repr

/-- The condition that the loop of the function waits for. -/
def Op.cond : Op → Cond
  | .put _ => .notFull
  | .get => .notEmpty

namespace Queue

/-- The condition of the loop that waits on `c`. -/
def Lacks (q : Queue) : Cond → Prop
  | .notEmpty => q.Empty
  | .notFull => q.Full

instance (q : Queue) : ∀ c, Decidable (q.Lacks c)
  | .notEmpty => inferInstanceAs (Decidable q.Empty)
  | .notFull => inferInstanceAs (Decidable q.Full)

/-- The function from its loop to the unlock: the queue then, the item of a get, and whether a signal is
due. -/
def update (q : Queue) : Op → Option (Queue × Option Item × Bool)
  | .put item => (q.put item).map fun r => (r.1, none, r.2)
  | .get => q.get.map fun r => (r.1, some r.2.1, r.2.2)

end Queue

/-- Where a thread is. `signalled` tells a wake-up by a signal from a spurious one. -/
inductive Phase
  /-- In none of the functions; a get has returned the item. -/
  | out (result : Option Item)
  | enter (op : Op)
  | check (op : Op) (signalled : Bool)
  | waiting (op : Op)
  | woken (op : Op) (signalled : Bool)
  | update (op : Op)
  | signal (cond : Cond) (result : Option Item)
deriving DecidableEq, Repr

namespace Phase

/-- The thread has the lock. -/
def Holds : Phase → Prop
  | .check _ _ => True
  | .update _ => True
  | _ => False

/-- The thread is blocked on the condition variable. -/
def WaitsFor : Phase → Cond → Prop
  | .waiting op, cond => op.cond = cond
  | _, _ => False

instance : ∀ (p : Phase) (cond : Cond), Decidable (p.WaitsFor cond)
  | .waiting op, cond => inferInstanceAs (Decidable (op.cond = cond))
  | .out _, _ => isFalse id
  | .enter _, _ => isFalse id
  | .check _ _, _ => isFalse id
  | .woken _ _, _ => isFalse id
  | .update _, _ => isFalse id
  | .signal _ _, _ => isFalse id

/-- The call that the thread is in, up to its update. -/
def op : Phase → Option Op
  | .enter op => some op
  | .check op _ => some op
  | .waiting op => some op
  | .woken op _ => some op
  | .update op => some op
  | _ => none

end Phase

variable {ι : Type*} [DecidableEq ι]

/-- The last two fields are the items in the order in which the critical sections put and got them. -/
structure Sys (ι : Type*) where
  queue : Queue
  owner : Option ι
  phase : ι → Phase
  accepted : List Item
  returned : List Item

inductive Label (ι : Type*)
  | call (i : ι) (op : Op)
  | acquire (i : ι)
  | check (i : ι)
  | wake (i : ι)
  | update (i : ι)
  /-- The thread that the signal wakes up, if any. -/
  | signal (i : ι) (k : Option ι)
deriving DecidableEq, Repr

namespace Sys

def start (q : Queue) : Sys ι := ⟨q, none, fun _ => .out none, [], []⟩

def move (s : Sys ι) (i : ι) (p : Phase) : Sys ι := { s with phase := Function.update s.phase i p }

/-- The items that the update of `op` puts. -/
def putItems : Op → List Item
  | .put item => [item]
  | .get => []

def step (s : Sys ι) : Label ι → Option (Sys ι)
  | .call i op =>
    match s.phase i with
    | .out _ => some (s.move i (.enter op))
    | _ => none
  | .acquire i =>
    if s.owner = none then
      match s.phase i with
      | .enter op => some { s.move i (.check op false) with owner := some i }
      | .woken op signalled => some { s.move i (.check op signalled) with owner := some i }
      | _ => none
    else none
  | .check i =>
    match s.phase i with
    | .check op _ =>
      if s.queue.Lacks op.cond then some { s.move i (.waiting op) with owner := none }
      else some (s.move i (.update op))
    | _ => none
  | .wake i =>
    match s.phase i with
    | .waiting op => some (s.move i (.woken op false))
    | _ => none
  | .update i =>
    match s.phase i with
    | .update op =>
      (s.queue.update op).map fun (q, result, due) =>
        { s.move i (if due then .signal op.cond.other result else .out result) with
          queue := q
          owner := none
          accepted := s.accepted ++ putItems op
          returned := s.returned ++ result.toList }
    | _ => none
  | .signal i k =>
    match s.phase i with
    | .signal cond result =>
      match k with
      | none => some (s.move i (.out result))
      | some k =>
        match s.phase k with
        | .waiting op =>
          if op.cond = cond then some ((s.move k (.woken op true)).move i (.out result)) else none
        | _ => none
    | _ => none

/-- No thread waits for the signal that is due. -/
def Unheard (s : Sys ι) : Phase → Prop
  | .signal cond _ => ∀ k, ¬ (s.phase k).WaitsFor cond
  | _ => True

instance [Fintype ι] (s : Sys ι) : ∀ p, Decidable (Unheard s p)
  | .signal cond _ => inferInstanceAs (Decidable (∀ k, ¬ (s.phase k).WaitsFor cond))
  | .out _ => isTrue trivial
  | .enter _ => isTrue trivial
  | .check _ _ => isTrue trivial
  | .waiting _ => isTrue trivial
  | .woken _ _ => isTrue trivial
  | .update _ => isTrue trivial

/-- Items have the size of the queue, and a signal wakes up a thread if one waits for it. -/
def Allows (s : Sys ι) : Label ι → Prop
  | .call _ (.put item) => item.length = s.queue.itemSize
  | .signal i none => Unheard s (s.phase i)
  | _ => True

instance [Fintype ι] (s : Sys ι) : ∀ l, Decidable (Allows s l)
  | .call _ (.put item) => inferInstanceAs (Decidable (item.length = s.queue.itemSize))
  | .signal i none => inferInstanceAs (Decidable (Unheard s (s.phase i)))
  | .call _ .get => isTrue trivial
  | .acquire _ => isTrue trivial
  | .check _ => isTrue trivial
  | .wake _ => isTrue trivial
  | .update _ => isTrue trivial
  | .signal _ (some _) => isTrue trivial

/-- The steps one by one. -/
inductive Moves (s : Sys ι) : Label ι → Sys ι → Prop
  | call {i : ι} {op : Op} {result : Option Item} (hphase : s.phase i = .out result) :
      Moves s (.call i op) (s.move i (.enter op))
  | enter {i : ι} {op : Op} (hfree : s.owner = none) (hphase : s.phase i = .enter op) :
      Moves s (.acquire i) { s.move i (.check op false) with owner := some i }
  | again {i : ι} {op : Op} {signalled : Bool} (hfree : s.owner = none)
      (hphase : s.phase i = .woken op signalled) :
      Moves s (.acquire i) { s.move i (.check op signalled) with owner := some i }
  | block {i : ι} {op : Op} {signalled : Bool} (hphase : s.phase i = .check op signalled)
      (hlacks : s.queue.Lacks op.cond) :
      Moves s (.check i) { s.move i (.waiting op) with owner := none }
  | pass {i : ι} {op : Op} {signalled : Bool} (hphase : s.phase i = .check op signalled)
      (hready : ¬ s.queue.Lacks op.cond) : Moves s (.check i) (s.move i (.update op))
  | wake {i : ι} {op : Op} (hphase : s.phase i = .waiting op) :
      Moves s (.wake i) (s.move i (.woken op false))
  | update {i : ι} {op : Op} {q : Queue} {result : Option Item} {due : Bool}
      (hphase : s.phase i = .update op) (hqueue : s.queue.update op = some (q, result, due)) :
      Moves s (.update i)
        { s.move i (if due then .signal op.cond.other result else .out result) with
          queue := q
          owner := none
          accepted := s.accepted ++ putItems op
          returned := s.returned ++ result.toList }
  | signal {i k : ι} {op : Op} {result : Option Item} (hphase : s.phase i = .signal op.cond result)
      (hwaits : s.phase k = .waiting op) :
      Moves s (.signal i (some k)) ((s.move k (.woken op true)).move i (.out result))
  | unheard {i : ι} {cond : Cond} {result : Option Item} (hphase : s.phase i = .signal cond result) :
      Moves s (.signal i none) (s.move i (.out result))

theorem Moves.of_step {s s' : Sys ι} {l : Label ι} (h : s.step l = some s') : s.Moves l s' := by
  cases l with
  | call i op =>
    cases hphase : s.phase i <;> simp only [step, hphase] at h <;> cases h
    exact .call hphase
  | acquire i =>
    simp only [step] at h
    split_ifs at h with hfree
    cases hphase : s.phase i <;> simp only [hphase] at h <;> cases h
    · exact .enter hfree hphase
    · exact .again hfree hphase
  | check i =>
    cases hphase : s.phase i <;> simp only [step, hphase] at h <;> try cases h
    split_ifs at h with hlacks <;> cases h
    · exact .block hphase hlacks
    · exact .pass hphase hlacks
  | wake i =>
    cases hphase : s.phase i <;> simp only [step, hphase] at h <;> cases h
    exact .wake hphase
  | update i =>
    cases hphase : s.phase i <;> simp only [step, hphase] at h <;> try cases h
    obtain ⟨⟨q, result, due⟩, hqueue, rfl⟩ := Option.map_eq_some_iff.mp h
    exact .update hphase hqueue
  | signal i k =>
    cases hphase : s.phase i <;> simp only [step, hphase] at h <;> try cases h
    cases k with
    | none =>
      cases h
      exact .unheard hphase
    | some k =>
      cases hwaits : s.phase k <;> simp only [hwaits] at h <;> try cases h
      split_ifs at h with hcond
      cases h
      subst hcond
      exact .signal hphase hwaits

end Sys

end Cscan.Blocking
