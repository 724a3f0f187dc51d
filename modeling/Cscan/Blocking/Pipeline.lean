import Cscan.Blocking.Wakeups
import Cscan.Lib.ByteOrder
import Mathlib.Data.Fintype.Basic

/-! The main thread queues results and then the end marker; `process_thread` takes them from the queue,
calls `modules_exec` for each and stops at the marker. -/

namespace Cscan.Blocking

open Cscan.Lib Queue Sys

/-- `struct result`. -/
structure Result where
  ip : UInt32
  port : Int32
deriving DecidableEq, Repr

namespace Result

/-- The bytes that `queue_put` copies. -/
def bytes (order : ByteOrder) (r : Result) : Item :=
  order.encode 4 r.ip.toNat ++ order.encode 4 r.port.toUInt32.toNat

def ofBytes (order : ByteOrder) (item : Item) : Result :=
  ⟨UInt32.ofNat (order.decode (item.take 4)), (UInt32.ofNat (order.decode (item.drop 4))).toInt32⟩

/-- The argument of the last `queue_result`. -/
def endMarker : Result := ⟨0, 0⟩

theorem length_bytes (order : ByteOrder) (r : Result) : (r.bytes order).length = 8 := by
  simp [bytes]

theorem ofBytes_bytes (order : ByteOrder) (r : Result) : ofBytes order (r.bytes order) = r := by
  have hip : r.ip.toNat < 256 ^ 4 := r.ip.toNat_lt
  have hport : r.port.toUInt32.toNat < 256 ^ 4 := r.port.toUInt32.toNat_lt
  unfold ofBytes bytes
  rw [List.take_left' (ByteOrder.length_encode ..), List.drop_left' (ByteOrder.length_encode ..),
    ByteOrder.decode_encode hip, ByteOrder.decode_encode hport]
  simp

theorem bytes_injective (order : ByteOrder) : Function.Injective (bytes order) :=
  Function.LeftInverse.injective (ofBytes_bytes order)

end Result

inductive Thread
  | main
  | worker
deriving DecidableEq, Repr

instance : Fintype Thread := ⟨{.main, .worker}, fun t => by cases t <;> simp⟩

/-- Where `process_thread` is in its loop. -/
inductive Worker
  | loop
  | getting
  | exited
deriving DecidableEq, Repr

/-- `todo` are the arguments of the calls of `queue_result` that main has still to make, and `execs` those
of the calls of `modules_exec`. -/
structure Pipeline where
  sys : Sys Thread
  todo : List Result
  execs : List Result
  worker : Worker

inductive Action
  | queueResult
  | getResult
  /-- The worker looks at what it got. -/
  | handle
  | queue (l : Label Thread)
deriving DecidableEq, Repr

namespace Pipeline

def start (malloc : Nat → List UInt8) (capacity : Nat) (results : List Result) : Pipeline :=
  ⟨.start (initQueue malloc capacity 8), results ++ [.endMarker], [], .loop⟩

def step (order : ByteOrder) (p : Pipeline) : Action → Option Pipeline
  | .queueResult =>
    match p.todo with
    | [] => none
    | r :: todo => (p.sys.step (.call .main (.put (r.bytes order)))).map fun sys =>
        { p with sys := sys, todo := todo }
  | .getResult =>
    if p.worker = .loop then
      (p.sys.step (.call .worker .get)).map fun sys => { p with sys := sys, worker := .getting }
    else none
  | .handle =>
    match p.worker, p.sys.phase .worker with
    | .getting, .out (some item) =>
      let r := Result.ofBytes order item
      if r.ip = 0 then some { p with worker := .exited }
      else some { p with execs := p.execs ++ [r], worker := .loop }
    | _, _ => none
  | .queue (.call _ _) => none
  | .queue l => (p.sys.step l).map fun sys => { p with sys := sys }

/-- A signal wakes up a thread if one waits for it. -/
def Allows (p : Pipeline) : Action → Prop
  | .queue l => p.sys.Allows l
  | _ => True

instance (p : Pipeline) : ∀ a, Decidable (p.Allows a)
  | .queue l => inferInstanceAs (Decidable (p.sys.Allows l))
  | .queueResult => isTrue trivial
  | .getResult => isTrue trivial
  | .handle => isTrue trivial

/-- Nothing is left to do. -/
structure Final (p : Pipeline) : Prop where
  todo : p.todo = []
  main : ∃ result, p.sys.phase .main = .out result
  worker : p.worker = .exited

end Pipeline

/-! ### What the steps inside of the queue's functions do to a call -/

section Calls

variable {ι : Type*} [DecidableEq ι] {s s' : Sys ι} {l : Label ι} {i : ι}

/-- What a call of a thread has returned, or will return behind its signal. -/
def Phase.result : Phase → Option Item
  | .out result => result
  | .signal _ result => result
  | _ => none

/-- The steps that are no call and no update leave the calls as they are. -/
structure Kept (s s' : Sys ι) : Prop where
  op : ∀ j, (s'.phase j).op = (s.phase j).op
  result : ∀ j, (s'.phase j).result = (s.phase j).result
  out : ∀ j result, s.phase j = .out result → s'.phase j = .out result
  accepted : s'.accepted = s.accepted
  returned : s'.returned = s.returned

theorem Kept.move {owner : Option ι} {p : Phase} (hop : p.op = (s.phase i).op)
    (hresult : p.result = (s.phase i).result) (hout : ∀ result, s.phase i ≠ .out result) :
    Kept s { s.move i p with owner := owner } := by
  have hphase : ∀ j, ({ s.move i p with owner := owner } : Sys ι).phase j =
      if j = i then p else s.phase j := fun j => Function.update_apply ..
  refine ⟨fun j => ?_, fun j => ?_, fun j result hj => ?_, rfl, rfl⟩
  · rw [hphase]
    split_ifs with hji
    · rw [hop, hji]
    · rfl
  · rw [hphase]
    split_ifs with hji
    · rw [hresult, hji]
    · rfl
  · have hji : j ≠ i := by
      rintro rfl
      exact hout result hj
    rw [hphase, if_neg hji, hj]

omit [DecidableEq ι] in
theorem Kept.trans {s'' : Sys ι} (h : Kept s s') (h' : Kept s' s'') : Kept s s'' :=
  ⟨fun j => (h'.op j).trans (h.op j), fun j => (h'.result j).trans (h.result j),
    fun j result hj => h'.out j result (h.out j result hj), h'.accepted.trans h.accepted,
    h'.returned.trans h.returned⟩

theorem Kept.of_moves (h : s.Moves l s') (hcall : ∀ i op, l ≠ .call i op)
    (hupdate : ∀ i, l ≠ .update i) : Kept s s' := by
  cases h with
  | call _ => exact absurd rfl (hcall _ _)
  | enter _ hphase => exact .move (by rw [hphase]; rfl) (by rw [hphase]; rfl) (by rw [hphase]; nofun)
  | again _ hphase => exact .move (by rw [hphase]; rfl) (by rw [hphase]; rfl) (by rw [hphase]; nofun)
  | block hphase _ => exact .move (by rw [hphase]; rfl) (by rw [hphase]; rfl) (by rw [hphase]; nofun)
  | pass hphase _ => exact .move (by rw [hphase]; rfl) (by rw [hphase]; rfl) (by rw [hphase]; nofun)
  | wake hphase => exact .move (by rw [hphase]; rfl) (by rw [hphase]; rfl) (by rw [hphase]; nofun)
  | update _ _ => exact absurd rfl (hupdate _)
  | @signal i k op result hphase hwaits =>
    have hne : i ≠ k := by
      rintro rfl
      exact nomatch hphase.symm.trans hwaits
    have hwoken : Kept s (s.move k (.woken op true)) :=
      .move (by rw [hwaits]; rfl) (by rw [hwaits]; rfl) (by rw [hwaits]; nofun)
    have hsignal : (s.move k (.woken op true)).phase i = .signal op.cond result :=
      (move_phase_ne hne).trans hphase
    exact hwoken.trans (.move (by rw [hsignal]; rfl) (by rw [hsignal]; rfl) (by rw [hsignal]; nofun))
  | unheard hphase => exact .move (by rw [hphase]; rfl) (by rw [hphase]; rfl) (by rw [hphase]; nofun)

/-- An update ends the call of one thread. -/
structure Updated (s s' : Sys ι) (i : ι) (op : Op) (result : Option Item) : Prop where
  before : s.phase i = .update op
  ended : (s'.phase i).op = none
  returns : (s'.phase i).result = result
  others : ∀ j, j ≠ i → s'.phase j = s.phase j
  accepted : s'.accepted = s.accepted ++ putItems op
  returned : s'.returned = s.returned ++ result.toList
  isSome : result.isSome ↔ op = .get

theorem Updated.of_moves (h : s.Moves (.update i) s') : ∃ op result, Updated s s' i op result := by
  cases h with
  | @update _ op q result due hphase hqueue =>
    refine ⟨op, result, hphase, ?_, ?_, fun j hj => Function.update_of_ne hj .., rfl, rfl,
      Queue.update_isSome hqueue⟩
    · show ((s.move i _).phase i).op = none
      rw [move_phase_self]
      cases due <;> rfl
    · show ((s.move i _).phase i).result = result
      rw [move_phase_self]
      cases due <;> rfl

end Calls

/-! ### The invariant of the pipeline -/

namespace Pipeline

variable {order : ByteOrder} {results : List Result} {capacity : Nat} {p p' : Pipeline}

/-- The item of the call of `queue_put` that main is in. -/
def putting (p : Pipeline) : List Item :=
  match (p.sys.phase .main).op with
  | some op => putItems op
  | none => []

/-- What the worker has taken from the queue and not handled yet. -/
def holding (order : ByteOrder) (p : Pipeline) : List Item :=
  match p.worker with
  | .loop => []
  | .getting => (p.sys.phase .worker).result.toList
  | .exited => [Result.endMarker.bytes order]

structure Delivers (order : ByteOrder) (results : List Result) (p : Pipeline) : Prop where
  sent : (results ++ [Result.endMarker]).map (Result.bytes order) =
    p.sys.accepted ++ putting p ++ p.todo.map (Result.bytes order)
  got : p.sys.returned = p.execs.map (Result.bytes order) ++ holding order p
  nonzero : ∀ r ∈ p.execs, r.ip ≠ 0
  loops : p.worker ≠ .getting → ∃ result, p.sys.phase .worker = .out result
  gets : p.worker = .getting → (p.sys.phase .worker).op = none → ∃ item,
    (p.sys.phase .worker).result = some item

def threadRole : Thread → Cond
  | .main => .notFull
  | .worker => .notEmpty

theorem oneEach_threadRole : OneEach threadRole := fun cond => Or.inl fun i j hi hj => by
  cases i <;> cases j <;> first | rfl | (subst hi; cases hj)

/-- The invariant of every run. -/
structure Inv (order : ByteOrder) (capacity : Nat) (results : List Result) (p : Pipeline) : Prop where
  guarded : Guarded capacity 8 threadRole p.sys
  delivers : Delivers order results p

theorem start_inv {malloc : Nat → List UInt8} (hmalloc : Allocates malloc) (hcapacity : 1 ≤ capacity)
    (hproduct : capacity * 8 < 2 ^ 31) : Inv order capacity results (start malloc capacity results) where
  guarded := start_guarded hcapacity (hmalloc.length_eq hproduct) threadRole
  delivers := ⟨rfl, rfl, by simp [start], fun _ => ⟨none, rfl⟩, nofun⟩

theorem Delivers.kept {s : Sys Thread} (h : Delivers order results p) (hkept : Kept p.sys s) :
    Delivers order results { p with sys := s } where
  sent := by
    rw [h.sent, putting, putting, hkept.accepted, hkept.op]
  got := by
    have hholding : holding order { p with sys := s } = holding order p := by
      simp only [holding, hkept.result]
    rw [hkept.returned, hholding, h.got]
  nonzero := h.nonzero
  loops hworker := (h.loops hworker).imp fun result hphase => hkept.out _ result hphase
  gets hworker hop := by
    rw [hkept.op] at hop
    obtain ⟨item, hitem⟩ := h.gets hworker hop
    exact ⟨item, (hkept.result _).trans hitem⟩

theorem Delivers.updated {s : Sys Thread} {i : Thread} {op : Op} {result : Option Item}
    (h : Delivers order results p) (hguarded : Guarded capacity 8 threadRole p.sys)
    (hupdated : Updated p.sys s i op result) : Delivers order results { p with sys := s } := by
  have hrole : op.cond = threadRole i := hguarded.inRole i op (by rw [hupdated.before]; rfl)
  have hothers := hupdated.others
  cases i with
  | main =>
    obtain ⟨item, rfl⟩ : ∃ item, op = .put item := by
      cases op with
      | put item => exact ⟨item, rfl⟩
      | get => cases hrole
    obtain rfl : result = none := by
      cases result with
      | none => rfl
      | some item => cases hupdated.isSome.mp rfl
    have hworker := hothers .worker (by decide)
    have hputting : putting p = [item] := by rw [putting, hupdated.before]; rfl
    refine ⟨?_, ?_, h.nonzero, ?_, ?_⟩
    · rw [h.sent, hputting, putting, hupdated.ended, hupdated.accepted]
      simp [putItems]
    · rw [hupdated.returned, h.got, holding, holding, hworker]
      exact List.append_nil _
    · rw [hworker]
      exact h.loops
    · rw [hworker]
      exact h.gets
  | worker =>
    obtain rfl : op = .get := by
      cases op with
      | put item => cases hrole
      | get => rfl
    have hgetting : p.worker = .getting := by
      by_contra hne
      obtain ⟨result, hphase⟩ := h.loops hne
      cases hphase.symm.trans hupdated.before
    have hholding : holding order p = [] := by rw [holding, hgetting, hupdated.before]; rfl
    refine ⟨?_, ?_, h.nonzero, fun hne => absurd hgetting hne, fun _ _ => ?_⟩
    · rw [h.sent, putting, putting, hothers .main (by decide), hupdated.accepted]
      exact congrArg (· ++ _ ++ _) (List.append_nil _).symm
    · rw [hupdated.returned, h.got, hholding, holding, hgetting, hupdated.returns, List.append_nil]
    · rw [hupdated.returns]
      exact Option.isSome_iff_exists.mp (hupdated.isSome.mpr rfl)

/-- What the worker has got is one of the results or the end marker. -/
theorem Delivers.result_mem {item : Item} (h : Delivers order results p)
    (hsound : Sound capacity 8 p.sys) (hitem : item ∈ p.sys.returned) :
    Result.ofBytes order item ∈ results ++ [.endMarker] ∧
      (Result.ofBytes order item).bytes order = item := by
  obtain ⟨content, -, haccepted⟩ := hsound.content
  have hmem : item ∈ (results ++ [Result.endMarker]).map (Result.bytes order) := by
    rw [h.sent, haccepted]
    simp [hitem]
  obtain ⟨r, hr, rfl⟩ := List.mem_map.mp hmem
  rw [Result.ofBytes_bytes]
  exact ⟨hr, rfl⟩

theorem Inv.queue {s : Sys Thread} {l : Label Thread} (h : Inv order capacity results p)
    (hcall : ∀ i op, l ≠ .call i op) (hallows : p.sys.Allows l) (hstep : p.sys.step l = some s) :
    Inv order capacity results { p with sys := s } := by
  have hrole : KeepsRole threadRole l := by
    cases l with
    | call i op => exact absurd rfl (hcall i op)
    | acquire i => trivial
    | check i => trivial
    | wake i => trivial
    | update i => trivial
    | signal i k => trivial
  refine ⟨h.guarded.step hallows hrole hstep, ?_⟩
  have hmoves := Moves.of_step hstep
  by_cases hupdate : ∃ i, l = .update i
  · obtain ⟨i, rfl⟩ := hupdate
    obtain ⟨op, result, hupdated⟩ := Updated.of_moves hmoves
    exact h.delivers.updated h.guarded hupdated
  · exact h.delivers.kept (.of_moves hmoves hcall fun i heq => hupdate ⟨i, heq⟩)

theorem Inv.queueResult (h : Inv order capacity results p)
    (hstep : p.step order .queueResult = some p') : Inv order capacity results p' := by
  simp only [Pipeline.step] at hstep
  cases htodo : p.todo with
  | nil =>
    rw [htodo] at hstep
    cases hstep
  | cons r todo =>
    rw [htodo] at hstep
    obtain ⟨s, hcall, rfl⟩ := Option.map_eq_some_iff.mp hstep
    have hallows : p.sys.Allows (.call .main (.put (r.bytes order))) :=
      (Result.length_bytes order r).trans h.guarded.sound.size.symm
    refine ⟨h.guarded.step hallows rfl hcall, ?_⟩
    cases Moves.of_step hcall with
    | @call _ op result hphase =>
      have hworker : (p.sys.move .main (.enter (.put (r.bytes order)))).phase .worker =
          p.sys.phase .worker := move_phase_ne (by decide)
      refine ⟨?_, ?_, h.delivers.nonzero, ?_, ?_⟩
      · have hbefore : putting p = [] := by rw [putting, hphase]; rfl
        rw [h.delivers.sent, hbefore, htodo, putting, move_phase_self]
        simp [Phase.op, putItems, Sys.move]
      · rw [holding, hworker]
        exact h.delivers.got
      · rw [hworker]
        exact h.delivers.loops
      · rw [hworker]
        exact h.delivers.gets

theorem Inv.getResult (h : Inv order capacity results p)
    (hstep : p.step order .getResult = some p') : Inv order capacity results p' := by
  simp only [Pipeline.step] at hstep
  split_ifs at hstep with hloop
  obtain ⟨s, hcall, rfl⟩ := Option.map_eq_some_iff.mp hstep
  refine ⟨h.guarded.step (l := .call .worker .get) trivial rfl hcall, ?_⟩
  cases Moves.of_step hcall with
  | call hphase =>
    have hmain : (p.sys.move .worker (.enter .get)).phase .main = p.sys.phase .main :=
      move_phase_ne (by decide)
    refine ⟨?_, ?_, h.delivers.nonzero, fun hne => absurd rfl hne, fun _ hop => ?_⟩
    · rw [putting, hmain]
      exact h.delivers.sent
    · have hbefore : holding order p = [] := by rw [holding, hloop]
      have hgot := h.delivers.got
      rw [hbefore] at hgot
      rw [holding, move_phase_self]
      exact hgot
    · rw [move_phase_self] at hop
      cases hop

theorem Inv.handle (h : Inv order capacity results p) (hresults : ∀ r ∈ results, r.ip ≠ 0)
    (hstep : p.step order .handle = some p') : Inv order capacity results p' := by
  simp only [Pipeline.step] at hstep
  split at hstep
  · rename_i item hworker hphase
    have hholding : holding order p = [item] := by rw [holding, hworker, hphase]; rfl
    have hgot := h.delivers.got
    rw [hholding] at hgot
    obtain ⟨hmem, hbytes⟩ := h.delivers.result_mem h.guarded.sound (hgot ▸ List.mem_concat_self)
    split_ifs at hstep with hzero
    · cases hstep
      refine ⟨h.guarded, h.delivers.sent, ?_, h.delivers.nonzero, fun _ => ⟨_, hphase⟩, nofun⟩
      have hend : Result.ofBytes order item = .endMarker := by
        rcases List.mem_append.mp hmem with hr | hr
        · exact absurd hzero (hresults _ hr)
        · exact List.mem_singleton.mp hr
      rw [hgot, ← hbytes, hend]
      rfl
    · cases hstep
      refine ⟨h.guarded, h.delivers.sent, ?_, ?_, fun _ => ⟨_, hphase⟩, nofun⟩
      · rw [hgot, List.map_append, List.map_singleton, hbytes, holding]
        exact (List.append_nil _).symm
      · intro r hr
        rcases List.mem_append.mp hr with hr | hr
        · exact h.delivers.nonzero r hr
        · rw [List.mem_singleton.mp hr]
          exact hzero
  · cases hstep

theorem Inv.step {a : Action} (h : Inv order capacity results p) (hresults : ∀ r ∈ results, r.ip ≠ 0)
    (hallows : p.Allows a) (hstep : p.step order a = some p') : Inv order capacity results p' := by
  cases a with
  | queueResult => exact h.queueResult hstep
  | getResult => exact h.getResult hstep
  | handle => exact h.handle hresults hstep
  | queue l =>
    have hcall : ∀ i op, l ≠ .call i op := by
      rintro i op rfl
      cases hstep
    have hinner : (p.sys.step l).map (fun sys => { p with sys := sys }) = some p' := by
      cases l <;> first | exact hstep | exact absurd rfl (hcall _ _)
    obtain ⟨s, hsys, rfl⟩ := Option.map_eq_some_iff.mp hinner
    exact h.queue hcall hallows hsys

/-! ### Delivery and progress -/

/-- What is left behind the end marker is nothing. -/
theorem nothing_behind {done rest : List Result} (hdone : ∀ r ∈ done, r.ip ≠ 0)
    (hresults : ∀ r ∈ results, r.ip ≠ 0)
    (h : results ++ [Result.endMarker] = done ++ Result.endMarker :: rest) :
    done = results ∧ rest = [] := by
  induction results generalizing done with
  | nil =>
    cases done with
    | nil => exact ⟨rfl, (List.cons.inj h).2.symm⟩
    | cons r done =>
      have hr : r = .endMarker := (List.cons.inj h).1.symm
      exact absurd rfl (hr ▸ hdone r List.mem_cons_self)
  | cons r results ih =>
    cases done with
    | nil =>
      have hr : r = .endMarker := (List.cons.inj h).1
      exact absurd rfl (hr ▸ hresults r List.mem_cons_self)
    | cons r' done =>
      obtain ⟨rfl, htail⟩ := List.cons.inj h
      obtain ⟨rfl, hrest⟩ := ih (fun r hr => hdone r (List.mem_cons_of_mem _ hr))
        (fun r hr => hresults r (List.mem_cons_of_mem _ hr)) htail
      exact ⟨rfl, hrest⟩

/-- Bytes that begin with those of some results come from a list that begins with these. -/
theorem split_bytes {sent done : List Result} {rest : List Item}
    (h : sent.map (Result.bytes order) = done.map (Result.bytes order) ++ rest) :
    ∃ left, sent = done ++ left ∧ left.map (Result.bytes order) = rest := by
  obtain ⟨first, left, rfl, hfirst, hleft⟩ := List.map_eq_append_iff.mp h
  obtain rfl := List.map_injective_iff.mpr (Result.bytes_injective order) hfirst
  exact ⟨left, rfl, hleft⟩

/-- All results in terms of what the worker did, what the ring holds and what main has still to do. -/
theorem Inv.sent (h : Inv order capacity results p) :
    (results ++ [Result.endMarker]).map (Result.bytes order) = p.execs.map (Result.bytes order) ++
      (holding order p ++ (p.sys.queue.stored ++ (putting p ++ p.todo.map (Result.bytes order)))) := by
  rw [h.delivers.sent, h.guarded.sound.fifoState.difference, h.delivers.got]
  simp only [List.append_assoc]

/-- `modules_exec` was called for the first results, in order. -/
theorem Inv.execs_in_order (h : Inv order capacity results p) :
    p.execs <+: results ∧ p.execs.map (Result.bytes order) <+: p.sys.accepted := by
  constructor
  · obtain ⟨left, hsent, -⟩ := split_bytes h.sent
    rcases List.prefix_concat_iff.mp ⟨left, hsent.symm⟩ with hall | hfirst
    · exact absurd rfl (h.delivers.nonzero .endMarker (hall ▸ List.mem_concat_self))
    · exact hfirst
  · rw [h.guarded.sound.fifoState.difference, h.delivers.got, List.append_assoc]
    exact List.prefix_append ..

/-- When the worker has exited, everything has been handed over. -/
theorem Inv.exited (h : Inv order capacity results p) (hresults : ∀ r ∈ results, r.ip ≠ 0)
    (hexited : p.worker = .exited) :
    p.execs = results ∧ p.sys.queue.stored = [] ∧ putting p = [] ∧ p.todo = [] := by
  have hsent := h.sent
  have hholding : holding order p = [Result.endMarker].map (Result.bytes order) := by
    rw [holding, hexited]
    rfl
  rw [hholding, ← List.append_assoc, ← List.map_append] at hsent
  obtain ⟨left, hleft, hrest⟩ := split_bytes hsent
  rw [List.append_assoc] at hleft
  obtain ⟨hexecs, rfl⟩ := nothing_behind h.delivers.nonzero hresults hleft
  have hnil := List.append_eq_nil_iff.mp hrest.symm
  have hnil' := List.append_eq_nil_iff.mp hnil.2
  exact ⟨hexecs, hnil.1, hnil'.1, List.map_eq_nil_iff.mp hnil'.2⟩

/-- The steps that are not a spurious wake-up. -/
def Genuine : Action → Prop
  | .queue (.wake _) => False
  | _ => True

theorem step_queue {s : Sys Thread} {l : Label Thread} (hcall : ∀ i op, l ≠ .call i op)
    (hstep : p.sys.step l = some s) : p.step order (.queue l) = some { p with sys := s } := by
  have hqueue : p.step order (.queue l) = (p.sys.step l).map fun sys => { p with sys := sys } := by
    cases l <;> first | rfl | exact absurd rfl (hcall _ _)
  rw [hqueue, hstep]
  rfl

/-- A thread that is in a call and not blocked can go on, or the one that has the lock can. -/
theorem Inv.goes_on {i : Thread} (h : Inv order capacity results p)
    (hout : ∀ result, p.sys.phase i ≠ .out result) (hwaits : ∀ op, p.sys.phase i ≠ .waiting op) :
    ∃ a p', Genuine a ∧ p.Allows a ∧ p.step order a = some p' := by
  have hlocked := h.guarded.sound.locked
  cases howner : p.sys.owner with
  | some j =>
    have hholds := (hlocked j).mpr howner
    cases hphase : p.sys.phase j with
    | check op signalled =>
      obtain ⟨s, hs⟩ : ∃ s, p.sys.step (.check j) = some s := by
        simp only [Sys.step, hphase]
        split_ifs
        · exact ⟨_, rfl⟩
        · exact ⟨_, rfl⟩
      exact ⟨.queue (.check j), _, trivial, trivial, step_queue (by simp) hs⟩
    | update op =>
      obtain ⟨s, hs⟩ := Option.isSome_iff_exists.mp (h.guarded.sound.fifoState.updates j op hphase)
      exact ⟨.queue (.update j), _, trivial, trivial, step_queue (by simp) hs⟩
    | out result => exact (hphase ▸ hholds : (Phase.out result).Holds).elim
    | enter op => exact (hphase ▸ hholds : (Phase.enter op).Holds).elim
    | waiting op => exact (hphase ▸ hholds : (Phase.waiting op).Holds).elim
    | woken op signalled => exact (hphase ▸ hholds : (Phase.woken op signalled).Holds).elim
    | signal cond result => exact (hphase ▸ hholds : (Phase.signal cond result).Holds).elim
  | none =>
    cases hphase : p.sys.phase i with
    | out result => exact absurd hphase (hout result)
    | waiting op => exact absurd hphase (hwaits op)
    | enter op =>
      have hs : p.sys.step (.acquire i) =
          some { p.sys.move i (.check op false) with owner := some i } := by
        simp [Sys.step, howner, hphase]
      exact ⟨.queue (.acquire i), _, trivial, trivial, step_queue (by simp) hs⟩
    | woken op signalled =>
      have hs : p.sys.step (.acquire i) =
          some { p.sys.move i (.check op signalled) with owner := some i } := by
        simp [Sys.step, howner, hphase]
      exact ⟨.queue (.acquire i), _, trivial, trivial, step_queue (by simp) hs⟩
    | check op signalled =>
      exact absurd ((hlocked i).mp (by rw [hphase]; trivial)) (by simp [howner])
    | update op => exact absurd ((hlocked i).mp (by rw [hphase]; trivial)) (by simp [howner])
    | signal cond result =>
      by_cases hheard : ∃ k, (p.sys.phase k).WaitsFor cond
      · obtain ⟨k, hk⟩ := hheard
        obtain ⟨op, hop, rfl⟩ := waitsFor_iff.mp hk
        have hs : p.sys.step (.signal i (some k)) =
            some ((p.sys.move k (.woken op true)).move i (.out result)) := by
          simp [Sys.step, hphase, hop]
        exact ⟨.queue (.signal i (some k)), _, trivial, trivial, step_queue (by simp) hs⟩
      · have hs : p.sys.step (.signal i none) = some (p.sys.move i (.out result)) := by
          simp [Sys.step, hphase]
        have hunheard : p.sys.Allows (.signal i none) := by
          rw [Sys.Allows, hphase]
          exact fun k hk => hheard ⟨k, hk⟩
        exact ⟨.queue (.signal i none), _, trivial, hunheard, step_queue (by simp) hs⟩

/-- A thread that is out of the queue's functions or blocked has no wake-up for the other one. -/
def Idle (q : Phase) : Prop := (∃ result, q = .out result) ∨ ∃ op, q = .waiting op

theorem Idle.not_alerts {q : Phase} {cond : Cond} (h : Idle q) : ¬ q.Alerts cond := by
  rcases h with ⟨result, rfl⟩ | ⟨op, rfl⟩ <;> exact id

/-- When both threads are quiet, one that is blocked waits because its condition does not hold. -/
theorem Inv.lacks {i : Thread} {op : Op} (h : Inv order capacity results p)
    (hmain : Idle (p.sys.phase .main)) (hworker : Idle (p.sys.phase .worker))
    (hwaiting : p.sys.phase i = .waiting op) : p.sys.queue.Lacks (threadRole i) := by
  by_contra hready
  have hcond : op.cond = threadRole i := h.guarded.inRole i op (by rw [hwaiting]; rfl)
  have hwaits : (p.sys.phase i).WaitsFor (threadRole i) := by
    rw [hwaiting]
    exact hcond
  obtain ⟨j, hj⟩ := h.guarded.noLostWakeup oneEach_threadRole (threadRole i) hready ⟨i, hwaits⟩
  cases j with
  | main => exact hmain.not_alerts hj
  | worker => exact hworker.not_alerts hj

/-- The ring of a worker that is blocked is empty, unless main is on its way to it. -/
theorem Inv.stored_nil {op : Op} (h : Inv order capacity results p)
    (hmain : Idle (p.sys.phase .main)) (hworker : p.sys.phase .worker = .waiting op) :
    p.sys.queue.stored = [] := by
  have hempty := h.lacks hmain (Or.inr ⟨op, hworker⟩) hworker
  obtain ⟨content, hrep, -⟩ := h.guarded.sound.content
  rw [hrep.stored_eq]
  exact hrep.empty_iff.mp hempty

/-- The ring has room while it is empty, so main is not blocked on it together with the worker. -/
theorem Inv.not_both_wait {op op' : Op} (h : Inv order capacity results p) (hcapacity : 1 ≤ capacity)
    (hmain : p.sys.phase .main = .waiting op) (hworker : p.sys.phase .worker = .waiting op') : False := by
  have hempty := h.lacks (Or.inr ⟨op, hmain⟩) (Or.inr ⟨op', hworker⟩) hworker
  have hfull := h.lacks (Or.inr ⟨op, hmain⟩) (Or.inr ⟨op', hworker⟩) hmain
  obtain ⟨content, hrep, -⟩ := h.guarded.sound.content
  have hnil := hrep.empty_iff.mp hempty
  have hlength := hrep.full_iff.mp hfull
  rw [hnil, h.guarded.sound.slots] at hlength
  exact absurd hlength (by simpa using Nat.ne_of_lt hcapacity)

/-- Until the worker has exited, main has something to hand over or the worker something to take. -/
theorem Inv.not_all_done (h : Inv order capacity results p) (hholding : holding order p = [])
    (hputting : putting p = []) (hstored : p.sys.queue.stored = []) : p.todo ≠ [] := by
  intro htodo
  have hsent := h.sent
  rw [hholding, hputting, hstored, htodo] at hsent
  have hall : results ++ [Result.endMarker] = p.execs :=
    List.map_injective_iff.mpr (Result.bytes_injective order) (by simpa using hsent)
  exact h.delivers.nonzero .endMarker (hall ▸ List.mem_concat_self) rfl

/-- Main can make its next call of `queue_result`. -/
theorem queueResult_goes_on {result : Option Item} (htodo : p.todo ≠ [])
    (hmain : p.sys.phase .main = .out result) :
    ∃ a p', Genuine a ∧ p.Allows a ∧ p.step order a = some p' := by
  obtain ⟨r, todo, hcons⟩ := List.exists_cons_of_ne_nil htodo
  have hstep : p.step order .queueResult =
      some { p with sys := p.sys.move .main (.enter (.put (r.bytes order))), todo := todo } := by
    simp [Pipeline.step, Sys.step, hcons, hmain]
  exact ⟨.queueResult, _, trivial, trivial, hstep⟩

/-- With the worker blocked, main can go on. -/
theorem Inv.goes_on_blocked {op : Op} (h : Inv order capacity results p) (hcapacity : 1 ≤ capacity)
    (hworker : p.sys.phase .worker = .waiting op) :
    ∃ a p', Genuine a ∧ p.Allows a ∧ p.step order a = some p' := by
  by_cases hwaits : ∃ op', p.sys.phase .main = .waiting op'
  · obtain ⟨op', hmain⟩ := hwaits
    exact (h.not_both_wait hcapacity hmain hworker).elim
  · by_cases hout : ∃ result, p.sys.phase .main = .out result
    · obtain ⟨result, hmain⟩ := hout
      have hgetting : p.worker = .getting := by
        by_contra hne
        obtain ⟨result, hphase⟩ := h.delivers.loops hne
        exact nomatch hphase.symm.trans hworker
      refine queueResult_goes_on (h.not_all_done ?_ ?_ (h.stored_nil (Or.inl ⟨_, hmain⟩) hworker)) hmain
      · rw [holding, hgetting, hworker]
        rfl
      · rw [putting, hmain]
        rfl
    · exact h.goes_on (fun result hmain => hout ⟨result, hmain⟩) fun op' hmain => hwaits ⟨op', hmain⟩

/-- Once the worker has exited, main has at most to come out of its last call. -/
theorem Inv.final_or_goes_on (h : Inv order capacity results p) (hresults : ∀ r ∈ results, r.ip ≠ 0)
    (hexited : p.worker = .exited) :
    p.Final ∨ ∃ a p', Genuine a ∧ p.Allows a ∧ p.step order a = some p' := by
  obtain ⟨-, -, hputting, htodo⟩ := h.exited hresults hexited
  by_cases hout : ∃ result, p.sys.phase .main = .out result
  · exact Or.inl ⟨htodo, hout, hexited⟩
  · refine Or.inr (h.goes_on (fun result hmain => hout ⟨result, hmain⟩) fun op hmain => ?_)
    have hcond : op.cond = .notFull := h.guarded.inRole .main op (by rw [hmain]; rfl)
    rw [putting, hmain] at hputting
    cases op with
    | put item => cases hputting
    | get => cases hcond

/-- Unless all is done, a step can happen that is no spurious wake-up. -/
theorem Inv.progress (h : Inv order capacity results p) (hcapacity : 1 ≤ capacity)
    (hresults : ∀ r ∈ results, r.ip ≠ 0) :
    p.Final ∨ ∃ a p', Genuine a ∧ p.Allows a ∧ p.step order a = some p' := by
  by_cases hout : ∃ result, p.sys.phase .worker = .out result
  · obtain ⟨result, hphase⟩ := hout
    cases hworker : p.worker with
    | loop =>
      have hstep : p.step order .getResult =
          some { p with sys := p.sys.move .worker (.enter .get), worker := .getting } := by
        simp [Pipeline.step, Sys.step, hworker, hphase]
      exact Or.inr ⟨.getResult, _, trivial, trivial, hstep⟩
    | getting =>
      obtain ⟨item, hitem⟩ := h.delivers.gets hworker (by rw [hphase]; rfl)
      rw [hphase] at hitem
      obtain rfl : result = some item := hitem
      obtain ⟨p', hp'⟩ : ∃ p', p.step order .handle = some p' := by
        simp only [Pipeline.step, hworker, hphase]
        split_ifs
        · exact ⟨_, rfl⟩
        · exact ⟨_, rfl⟩
      exact Or.inr ⟨.handle, p', trivial, trivial, hp'⟩
    | exited => exact h.final_or_goes_on hresults hworker
  · by_cases hwaits : ∃ op, p.sys.phase .worker = .waiting op
    · obtain ⟨op, hphase⟩ := hwaits
      exact Or.inr (h.goes_on_blocked hcapacity hphase)
    · exact Or.inr (h.goes_on (fun result hphase => hout ⟨result, hphase⟩) fun op hphase =>
        hwaits ⟨op, hphase⟩)

/-- What main and the worker do, in any order, from the start. -/
def Runs (order : ByteOrder) (malloc : Nat → List UInt8) (capacity : Nat) (results : List Result) :
    Pipeline → Prop :=
  Reaches (step order) Allows (start malloc capacity results)

section Runs

variable {malloc : Nat → List UInt8}

theorem Runs.inv (h : Runs order malloc capacity results p) (hmalloc : Allocates malloc) (hcapacity : 1 ≤ capacity)
    (hproduct : capacity * 8 < 2 ^ 31) (hresults : ∀ r ∈ results, r.ip ≠ 0) : Inv order capacity results p :=
  Reaches.invariant (Inv order capacity results) (start_inv hmalloc hcapacity hproduct)
    (fun _ _ _ hinv hallows hstep => hinv.step hresults hallows hstep) h

/-! ### Queues with too little memory -/

/-- What goes on inside of the queue's functions. -/
theorem Runs.inside {s : Sys Thread} (h : Runs order malloc capacity results p)
    (hs : Reaches Sys.step Inside p.sys s) : Runs order malloc capacity results { p with sys := s } := by
  exact hs.lift (fun s => ({ p with sys := s } : Pipeline)) Action.queue h
    fun _ _ _ hguard hstep => ⟨hguard.1, step_queue hguard.2 hstep⟩

/-- Main queues results as long as there is memory for them. -/
theorem exists_queued {n : Nat} (hn : n ≤ results.length)
    (hsmall : (malloc (mallocSize capacity 8)).length < capacity * 8)
    (hroom : 8 * n ≤ (malloc (mallocSize capacity 8)).length) :
    ∃ p, Runs order malloc capacity results p ∧ p.todo = results.drop n ++ [.endMarker] ∧ p.execs = [] ∧
      p.worker = .loop ∧ Filled capacity 8 (malloc (mallocSize capacity 8)).length n p.sys := by
  induction n with
  | zero => exact ⟨_, .start, rfl, rfl, rfl, start_filled malloc capacity 8⟩
  | succ n ih =>
    obtain ⟨p, hp, htodo, hexecs, hworker, hfilled⟩ := ih (by omega) (by omega)
    rw [List.drop_eq_getElem_cons hn] at htodo
    have hstep : p.step order .queueResult = some { p with
        sys := p.sys.move .main (.enter (.put (results[n].bytes order)))
        todo := results.drop (n + 1) ++ [.endMarker] } := by
      simp only [Pipeline.step, htodo, List.cons_append, hfilled.call, Option.map_some]
    obtain ⟨s, hs, hfilled'⟩ := hfilled.put (i := .main) (results[n].length_bytes order) (by omega) (by omega)
    have hqueued : Runs order malloc capacity results _ := Reaches.step (l := Action.queueResult) hp trivial hstep
    exact ⟨_, hqueued.inside hs, rfl, hexecs, hworker, hfilled'⟩

/-- With main at a copy that would leave the memory, and the worker in front of the lock, nothing can happen. -/
theorem stuck {s : Sys Thread} {item : Item} (hput : s.queue.put item = none) (todo execs : List Result)
    (a : Action) :
    Pipeline.step order ⟨(copying s .main item).move .worker (.enter .get), todo, execs, .getting⟩ a = none := by
  have hmain : ((copying s .main item).move .worker (.enter .get)).phase .main = .update (.put item) := rfl
  have hworker : ((copying s .main item).move .worker (.enter .get)).phase .worker = .enter .get := rfl
  have howner : ((copying s .main item).move .worker (.enter .get)).owner = some .main := rfl
  have hqueue : ((copying s .main item).move .worker (.enter .get)).queue = s.queue := rfl
  generalize (copying s .main item).move .worker (.enter .get) = t at hmain hworker howner hqueue ⊢
  cases a with
  | queueResult => cases todo <;> simp [Pipeline.step, Sys.step, hmain]
  | getResult => rfl
  | handle => simp [Pipeline.step, hworker]
  | queue l =>
    cases l with
    | call i op => rfl
    | acquire i => simp [Pipeline.step, Sys.step, howner]
    | check i => cases i <;> simp [Pipeline.step, Sys.step, hmain, hworker]
    | wake i => cases i <;> simp [Pipeline.step, Sys.step, hmain, hworker]
    | update i => cases i <;> simp [Pipeline.step, Sys.step, hmain, hworker, Queue.update, hqueue, hput]
    | signal i k => cases i <;> simp [Pipeline.step, Sys.step, hmain, hworker]

/-- Where the memory is too small a run hangs in which main queues more items than fit. -/
theorem exists_stuck (hsmall : (malloc (mallocSize capacity 8)).length < capacity * 8)
    (hmany : (malloc (mallocSize capacity 8)).length < 8 * (results.length + 1)) :
    ∃ p, Runs order malloc capacity results p ∧ ¬ p.Final ∧ p.execs = [] ∧ ∀ a, p.step order a = none := by
  have hbytes := Nat.div_add_mod (malloc (mallocSize capacity 8)).length 8
  have hmod := Nat.mod_lt (malloc (mallocSize capacity 8)).length (show 0 < 8 by decide)
  obtain ⟨⟨s, todo, execs, worker⟩, hp, htodo, rfl, rfl, hfilled⟩ :=
    @exists_queued order results capacity malloc _ (by omega) hsmall (Nat.mul_div_le _ 8)
  obtain ⟨r, todo, rfl⟩ : ∃ r rest, todo = r :: rest := by
    rw [show todo = _ from htodo]
    exact List.exists_cons_of_ne_nil (List.append_ne_nil_of_right_ne_nil _ (List.cons_ne_nil _ _))
  have hqueue : Pipeline.step order ⟨s, r :: todo, [], .loop⟩ .queueResult =
      some ⟨s.move .main (.enter (.put (r.bytes order))), todo, [], .loop⟩ := by
    simp only [Pipeline.step, hfilled.call, Option.map_some]
  have hqueued : Runs order malloc capacity results _ := Reaches.step (l := Action.queueResult) hp trivial hqueue
  have hcopying := hqueued.inside hfilled.reaches_copying
  obtain ⟨result, hout⟩ := hfilled.phases .worker
  have hget : Pipeline.step order ⟨copying s .main (r.bytes order), todo, [], .loop⟩ .getResult =
      some ⟨(copying s .main (r.bytes order)).move .worker (.enter .get), todo, [], .getting⟩ := by
    have hworking : (copying s .main (r.bytes order)).phase .worker = .out result := hout
    simp [Pipeline.step, Sys.step, hworking]
  have hstuck : Runs order malloc capacity results _ := Reaches.step (l := Action.getResult) hcopying trivial hget
  have hput : s.queue.put (r.bytes order) = none := hfilled.overruns (r.length_bytes order) (by omega)
  refine ⟨_, hstuck, fun hfinal => ?_, rfl, stuck hput todo []⟩
  cases hfinal.worker

end Runs

/-- No run hangs before all is done, `modules_exec` has been called for the first results that were queued,
and at the end for all of them. -/
structure Delivered (order : ByteOrder) (results : List Result) (p : Pipeline) : Prop where
  goesOn : ¬ p.Final → ∃ a p', Genuine a ∧ p.Allows a ∧ p.step order a = some p'
  inOrder : p.execs <+: results
  taken : p.execs.map (Result.bytes order) <+: p.sys.accepted
  all : p.Final → p.execs = results ∧ p.worker = .exited ∧ p.sys.queue.Empty ∧ p.sys.queue.stored = []

theorem Inv.delivered (h : Inv order capacity results p) (hcapacity : 1 ≤ capacity)
    (hresults : ∀ r ∈ results, r.ip ≠ 0) : Delivered order results p := by
  obtain ⟨hfirst, haccepted⟩ := h.execs_in_order
  refine ⟨(h.progress hcapacity hresults).resolve_left, hfirst, haccepted, fun hfinal => ?_⟩
  obtain ⟨hall, hstored, -, -⟩ := h.exited hresults hfinal.worker
  obtain ⟨content, hrep, -⟩ := h.guarded.sound.content
  exact ⟨hall, hfinal.worker, hrep.empty_iff.mpr (hrep.stored_eq ▸ hstored), hstored⟩

/-- All results are delivered by a queue whose size in bytes is no greater than an `int`, and by no other one. -/
theorem delivers_all_iff (order : ByteOrder) {malloc : Nat → List UInt8} (hmalloc : Allocates malloc)
    (hcapacity : 1 ≤ capacity) :
    (∀ results, (∀ r ∈ results, r.ip ≠ 0) → ∀ p, Runs order malloc capacity results p → Delivered order results p) ↔
      capacity * 8 < 2 ^ 31 := by
  constructor
  · intro hall
    by_contra hlarge
    have hsmall := hmalloc.length_lt (Nat.le_of_not_lt hlarge)
    obtain ⟨p, hp, hnot, -, hstuck⟩ := @exists_stuck order (List.replicate capacity ⟨1, 0⟩) capacity malloc hsmall
      (by rw [List.length_replicate]; omega)
    obtain ⟨a, p', -, -, hstep⟩ := (hall _ (by simp +contextual) p hp).goesOn hnot
    exact absurd ((hstuck a).symm.trans hstep).symm (Option.some_ne_none _)
  · intro hproduct results hresults p hp
    exact (hp.inv hmalloc hcapacity hproduct hresults).delivered hcapacity hresults

/-- The end marker finds a ring full of the only result, and main waits until the worker has taken it. -/
def fullRing : List Action :=
  [.queueResult, .queue (.acquire .main), .queue (.check .main), .queue (.update .main),
    .queue (.signal .main none), .queueResult, .queue (.acquire .main), .queue (.check .main),
    .getResult, .queue (.acquire .worker), .queue (.check .worker), .queue (.update .worker),
    .queue (.signal .worker (some .main)), .handle, .getResult, .queue (.acquire .main),
    .queue (.check .main), .queue (.update .main), .queue (.signal .main none),
    .queue (.acquire .worker), .queue (.check .worker), .queue (.update .worker),
    .queue (.signal .worker none), .handle]

theorem delivers_all_full :
    ∃ p : Pipeline, Runs .little zeroed 1 [⟨0x0a000001, 80⟩] p ∧ p.Final ∧
      p.execs = [⟨0x0a000001, 80⟩] ∧ p.worker = .exited ∧ p.sys.queue.Empty ∧
      p.sys.queue.stored = [] := by
  have hview : (runSchedule (fun p a => if Allows p a then step .little p a else none)
      (start zeroed 1 [⟨0x0a000001, 80⟩]) fullRing).map
      (fun p => (p.todo, p.sys.phase .main, p.worker)) = some ([], .out none, .exited) := by
    decide +kernel
  obtain ⟨p, hrun, hp⟩ := Option.map_eq_some_iff.mp hview
  simp only [Prod.mk.injEq] at hp
  have hreaches : Runs .little zeroed 1 [⟨0x0a000001, 80⟩] p := reaches_of_runSchedule .start hrun
  have hfinal : p.Final := ⟨hp.1, ⟨none, hp.2.1⟩, hp.2.2⟩
  have hdelivered := (delivers_all_iff .little zeroed_allocates (by decide)).mpr (by decide) [⟨0x0a000001, 80⟩]
    (by decide) p hreaches
  exact ⟨p, hreaches, hfinal, hdelivered.all hfinal⟩

/-- The queue of `-pr 536870913` has 8 bytes. The end marker behind one result does not fit, and main has the lock
for good. -/
theorem small_queue_hangs : mallocSize 536870913 8 = 8 ∧
    ∃ p, Runs .little zeroed 536870913 [⟨0x0a000001, 80⟩] p ∧ ¬ p.Final ∧ p.execs = [] ∧
      ∀ a, p.step .little a = none := by
  have hsize : mallocSize 536870913 8 = 8 := by decide +kernel
  have hbytes : (zeroed (mallocSize 536870913 8)).length = 8 := by rw [hsize]; rfl
  refine ⟨hsize, exists_stuck ?_ ?_⟩
  · rw [hbytes]
    decide
  · rw [hbytes]
    decide

end Pipeline

end Cscan.Blocking
