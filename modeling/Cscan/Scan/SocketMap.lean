import Cscan.Lib.Interleave
import Cscan.Scan.SocketList

/-! The socket list as what it is for: a map from fds to their data, in the order in which they were added.
The array with its links refines the map, whatever was in its entries before. -/

namespace Cscan.Scan

open Cscan.Lib

/-- A call of `add_to_socket_list` or of `del_from_socket_list`. -/
inductive ListCall
  | add (fd : Int) (ip : UInt32) (port : Int32) (timeout : Nat)
  | del (fd : Int)
deriving DecidableEq, Repr

/-- The calls on the list, and what they return. -/
def socketList : Machine SocketList ListCall Int where
  next l
    | .add fd ip port timeout => l.add fd ip port timeout
    | .del fd => (l.del fd).2
  out l
    | .add _ _ _ _ => []
    | .del fd => [(l.del fd).1]

/-! ### The map -/

/-- An fd with its timeout, its address and its port. -/
abbrev Pending := Int × Nat × UInt32 × Int32

/-- The fd behind the given one, or -1. -/
def behindFd (fd : Int) : List Pending → Int
  | [] => -1
  | p :: m => if p.1 = fd then firstOf (-1) (m.map Prod.fst) else behindFd fd m

def orderedMap : Machine (List Pending) ListCall Int where
  next m
    | .add fd ip port timeout => m ++ [(fd, timeout, ip, port)]
    | .del fd => m.filter (·.1 ≠ fd)
  out m
    | .add _ _ _ _ => []
    | .del fd => [behindFd fd m]

/-- An fd that is added is one of the array and not in the map, and one that is deleted is in the map. -/
def ListCall.Allowed (size : Int) (m : List Pending) : ListCall → Prop
  | .add fd _ _ _ => 0 ≤ fd ∧ fd < size ∧ fd ∉ m.map Prod.fst
  | .del fd => fd ∈ m.map Prod.fst

instance (size : Int) (m : List Pending) : ∀ c : ListCall, Decidable (c.Allowed size m)
  | .add _ _ _ _ => inferInstanceAs (Decidable (_ ∧ _ ∧ _))
  | .del _ => inferInstanceAs (Decidable (_ ∈ _))

def AllAllowed (size : Int) : List Pending → List ListCall → Prop
  | _, [] => True
  | m, c :: cs => c.Allowed size m ∧ AllAllowed size (orderedMap.next m c) cs

instance decidableAllAllowed (size : Int) : ∀ m cs, Decidable (AllAllowed size m cs)
  | _, [] => isTrue trivial
  | m, c :: cs =>
    have := decidableAllAllowed size (orderedMap.next m c) cs
    inferInstanceAs (Decidable (_ ∧ _))

theorem behindFd_append {fd : Int} {pre post : List Pending} {p : Pending} (hp : p.1 = fd)
    (hpre : fd ∉ pre.map Prod.fst) : behindFd fd (pre ++ p :: post) = firstOf (-1) (post.map Prod.fst) := by
  induction pre with
  | nil => exact if_pos hp
  | cons q pre ih =>
    rw [List.map_cons, List.mem_cons, not_or] at hpre
    rw [List.cons_append, behindFd, if_neg (Ne.symm hpre.1), ih hpre.2]

theorem filter_append {fd : Int} {pre post : List Pending} {p : Pending} (hp : p.1 = fd)
    (hpre : fd ∉ pre.map Prod.fst) (hpost : fd ∉ post.map Prod.fst) :
    (pre ++ p :: post).filter (·.1 ≠ fd) = pre ++ post := by
  have hkeep : ∀ m : List Pending, fd ∉ m.map Prod.fst → m.filter (·.1 ≠ fd) = m := fun m hm =>
    List.filter_eq_self.mpr fun q hq =>
      decide_eq_true fun heq => hm (List.mem_map.mpr ⟨q, hq, heq⟩)
  rw [List.filter_append, List.filter_cons_of_neg (by simp [hp]), hkeep pre hpre, hkeep post hpost]

/-! ### The refinement -/

namespace SocketList

/-- The list holds what the map holds. -/
structure Holds (l : SocketList) (size : Int) (m : List Pending) : Prop where
  represents : l.Represents (m.map Prod.fst)
  data : ∀ p ∈ m, l.data p.1 = p.2
  size : l.size = size

theorem del_size (l : SocketList) (fd : Int) : (l.del fd).2.size = l.size := by
  unfold del
  dsimp only
  split_ifs <;> rfl

theorem add_size (l : SocketList) (fd : Int) (ip : UInt32) (port : Int32) (timeout : Nat) :
    (l.add fd ip port timeout).size = l.size := by
  unfold add
  dsimp only
  split_ifs <;> rfl

variable {l : SocketList} {size : Int} {m : List Pending} {c : ListCall}

theorem Holds.add (h : l.Holds size m) {fd : Int} {ip : UInt32} {port : Int32} {timeout : Nat}
    (hallowed : (ListCall.add fd ip port timeout).Allowed size m) :
    (l.add fd ip port timeout).Holds size (m ++ [(fd, timeout, ip, port)]) := by
  obtain ⟨hlow, hhigh, hfd⟩ := hallowed
  rw [← h.size] at hhigh
  refine ⟨?_, fun p hp => ?_, (add_size ..).trans h.size⟩
  · rw [List.map_append]
    exact h.represents.add hfd hlow hhigh ip port timeout
  · rw [add_data (by omega)]
    rcases List.mem_append.mp hp with hp | hp
    · have hne : p.1 ≠ fd := fun heq => hfd (heq ▸ List.mem_map_of_mem hp)
      rw [Function.update_of_ne hne]
      exact h.data p hp
    · rw [List.mem_singleton.mp hp]
      exact Function.update_self ..

theorem Holds.del (h : l.Holds size m) {fd : Int} (hallowed : (ListCall.del fd).Allowed size m) :
    (l.del fd).2.Holds size (m.filter (·.1 ≠ fd)) ∧ (l.del fd).1 = behindFd fd m := by
  obtain ⟨p, hp, rfl⟩ := List.mem_map.mp hallowed
  obtain ⟨pre, post, rfl⟩ := List.mem_iff_append.mp hp
  have hrepresents := h.represents
  rw [List.map_append, List.map_cons] at hrepresents
  have hpre : p.1 ∉ pre.map Prod.fst := fun hmem =>
    (List.nodup_append.mp hrepresents.nodup).2.2 _ hmem _ List.mem_cons_self rfl
  have hpost : p.1 ∉ post.map Prod.fst :=
    (List.nodup_cons.mp (List.nodup_append.mp hrepresents.nodup).2.1).1
  obtain ⟨hdel, hreturn⟩ := hrepresents.del
  rw [filter_append rfl hpre hpost, behindFd_append rfl hpre]
  refine ⟨⟨?_, fun q hq => ?_, (del_size ..).trans h.size⟩, hreturn⟩
  · rw [List.map_append]
    exact hdel
  · rw [del_data]
    rcases List.mem_append.mp hq with hq | hq
    · exact h.data q (List.mem_append_left _ hq)
    · exact h.data q (List.mem_append_right _ (List.mem_cons_of_mem _ hq))

theorem Holds.next (h : l.Holds size m) (hallowed : c.Allowed size m) :
    (socketList.next l c).Holds size (orderedMap.next m c) ∧ socketList.out l c = orderedMap.out m c := by
  cases c with
  | add fd ip port timeout => exact ⟨h.add hallowed, rfl⟩
  | del fd =>
    obtain ⟨hdel, hreturn⟩ := h.del hallowed
    exact ⟨hdel, congrArg (fun fd => [fd]) hreturn⟩

theorem Holds.run {cs : List ListCall} (h : l.Holds size m) (hallowed : AllAllowed size m cs) :
    (socketList.run l cs).Holds size (orderedMap.run m cs) ∧
      socketList.outs l cs = orderedMap.outs m cs := by
  induction cs generalizing l m with
  | nil => exact ⟨h, rfl⟩
  | cons c cs ih =>
    obtain ⟨hnext, hout⟩ := h.next hallowed.1
    obtain ⟨hrun, houts⟩ := ih hnext hallowed.2
    exact ⟨hrun, by rw [Machine.outs_cons, Machine.outs_cons, hout, houts]⟩

/-- What a list that holds a map looks like to the code that walks through it. -/
structure ReadsAs (l : SocketList) (m : List Pending) : Prop where
  distinct : (m.map Prod.fst).Nodup
  forwards : ∀ steps ≥ m.length,
    walk (-1) (fun fd => (l.entries fd).nextFd) steps l.firstFd = m.map Prod.fst
  backwards : ∀ steps ≥ m.length,
    walk (-1) (fun fd => (l.entries fd).prevFd) steps l.lastFd = (m.map Prod.fst).reverse
  length : l.numSockets = m.length
  data : ∀ p ∈ m, ((l.entries p.1).timeout, (l.entries p.1).ip, (l.entries p.1).port) = p.2

theorem Holds.readsAs (h : l.Holds size m) : l.ReadsAs m where
  distinct := h.represents.nodup
  forwards steps hsteps := by
    rw [h.represents.first]
    exact h.represents.links.walk_next h.represents.noSentinel (by rwa [List.length_map])
  backwards steps hsteps := by
    rw [h.represents.last]
    exact h.represents.links.walk_prev h.represents.noSentinel (by rwa [List.length_map])
  length := by rw [h.represents.count, List.length_map]
  data := h.data

/-- From an empty list on the calls return what the map returns, and leave a list that reads as the map. -/
theorem calls_refine_map (entries : Int → SocketListEntry) (size : Int) {cs : List ListCall}
    (h : AllAllowed size [] cs) :
    (socketList.run (initSocketList entries size) cs).ReadsAs (orderedMap.run [] cs) ∧
      socketList.outs (initSocketList entries size) cs = orderedMap.outs [] cs := by
  have hinit : (initSocketList entries size).Holds size [] :=
    ⟨init_represents entries size, by simp, rfl⟩
  obtain ⟨hrun, houts⟩ := hinit.run h
  exact ⟨hrun.readsAs, houts⟩

/-- The first part of `socket_list_test.c`, with the entries of the array full of rubbish. -/
theorem calls_refine_map_test :
    let cs : List ListCall := [.add 0 0 0 0, .del 0, .add 3 0 0 10, .add 1 0 0 20, .add 2 0 0 30,
      .add 12 0 0 40, .add 8 0 0 50, .del 12, .del 3, .del 1, .del 2, .del 8]
    socketList.outs (initSocketList (fun fd => ⟨fd, 7, 0, 0, 0⟩) 30) cs = [-1, 8, 1, 2, 8, -1] ∧
      (socketList.run (initSocketList (fun fd => ⟨fd, 7, 0, 0, 0⟩) 30) cs).ReadsAs [] := by
  intro cs
  have hallowed : AllAllowed 30 [] cs := by decide
  obtain ⟨hrun, houts⟩ := calls_refine_map (fun fd => ⟨fd, 7, 0, 0, 0⟩) 30 hallowed
  exact ⟨houts.trans (by decide), hrun⟩

end SocketList

end Cscan.Scan
