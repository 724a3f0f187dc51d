import Cscan.Lib.Links

/-! The list of pending sockets in `socket_list.c`: an array indexed by fd, whose entries are linked in
the order in which they were added. -/

namespace Cscan.Scan

open Cscan.Lib

structure SocketListEntry where
  prevFd : Int
  nextFd : Int
  timeout : Nat
  ip : UInt32
  port : Int32
deriving DecidableEq, Repr

structure SocketList where
  entries : Int → SocketListEntry
  size : Int
  firstFd : Int
  lastFd : Int
  numSockets : Int

/-- `entries` is what `malloc` returns. -/
def initSocketList (entries : Int → SocketListEntry) (size : Int) : SocketList :=
  ⟨entries, size, -1, -1, 0⟩

namespace SocketList

/-- `list->entries[fd] = entry`. -/
def set (l : SocketList) (fd : Int) (entry : SocketListEntry) : SocketList :=
  { l with entries := Function.update l.entries fd entry }

def setNext (l : SocketList) (fd next : Int) : SocketList :=
  l.set fd { l.entries fd with nextFd := next }

def setPrev (l : SocketList) (fd prev : Int) : SocketList :=
  l.set fd { l.entries fd with prevFd := prev }

/-- `add_to_socket_list`. -/
def add (l : SocketList) (fd : Int) (ip : UInt32) (port : Int32) (timeout : Nat) : SocketList :=
  if fd = l.size then l
  else
    let l := l.set fd ⟨l.lastFd, -1, timeout, ip, port⟩
    let l := if l.firstFd = -1 then { l with firstFd := fd, lastFd := fd }
      else { l.setNext l.lastFd fd with lastFd := fd }
    { l with numSockets := l.numSockets + 1 }

/-- `del_from_socket_list`, and what it returns. -/
def del (l : SocketList) (fd : Int) : Int × SocketList :=
  if l.numSockets = 0 then (-1, l)
  else
    let l := if (l.entries fd).prevFd ≠ -1 then l.setNext (l.entries fd).prevFd (l.entries fd).nextFd
      else { l with firstFd := (l.entries fd).nextFd }
    let l := if (l.entries fd).nextFd ≠ -1 then l.setPrev (l.entries fd).nextFd (l.entries fd).prevFd
      else { l with lastFd := (l.entries fd).prevFd }
    let l := { l with numSockets := l.numSockets - 1 }
    ((l.entries fd).nextFd, l)

/-! ### The list that the array represents -/

structure Represents (l : SocketList) (fds : List Int) : Prop where
  nodup : fds.Nodup
  range : ∀ fd ∈ fds, 0 ≤ fd ∧ fd < l.size
  links : Linked (-1) (fun fd => (l.entries fd).nextFd) (fun fd => (l.entries fd).prevFd) fds
  first : l.firstFd = firstOf (-1) fds
  last : l.lastFd = lastOf (-1) fds
  count : l.numSockets = fds.length

/-- The data of an entry besides its links. -/
def data (l : SocketList) (fd : Int) : Nat × UInt32 × Int32 :=
  ((l.entries fd).timeout, (l.entries fd).ip, (l.entries fd).port)

variable {l : SocketList} {fds pre post : List Int} {fd : Int}

theorem Represents.noSentinel (h : l.Represents fds) : -1 ∉ fds := fun hmem => by
  have hrange := h.range (-1) hmem
  omega

theorem init_represents (entries : Int → SocketListEntry) (size : Int) :
    (initSocketList entries size).Represents [] where
  nodup := List.nodup_nil
  range := by simp
  links := fun pre k post h => by simp at h
  first := rfl
  last := rfl
  count := rfl

theorem Represents.toNat_count (h : l.Represents fds) : l.numSockets.toNat = fds.length := by
  rw [h.count]
  exact Int.toNat_natCast _

theorem Represents.first_ne (h : l.Represents fds) : l.firstFd ≠ -1 ↔ fds ≠ [] := by
  rw [h.first, not_iff_not]
  exact firstOf_eq_nil h.noSentinel

theorem set_nextFd (l : SocketList) (fd : Int) (entry : SocketListEntry) :
    (fun g => ((l.set fd entry).entries g).nextFd) =
      Function.update (fun g => (l.entries g).nextFd) fd entry.nextFd := by
  funext g
  by_cases hg : g = fd
  · simp [set, hg]
  · simp [set, Function.update_of_ne hg]

theorem set_prevFd (l : SocketList) (fd : Int) (entry : SocketListEntry) :
    (fun g => ((l.set fd entry).entries g).prevFd) =
      Function.update (fun g => (l.entries g).prevFd) fd entry.prevFd := by
  funext g
  by_cases hg : g = fd
  · simp [set, hg]
  · simp [set, Function.update_of_ne hg]

theorem setNext_nextFd (l : SocketList) (fd next : Int) :
    (fun g => ((l.setNext fd next).entries g).nextFd) =
      Function.update (fun g => (l.entries g).nextFd) fd next := set_nextFd l fd _

theorem setNext_prevFd (l : SocketList) (fd next : Int) :
    (fun g => ((l.setNext fd next).entries g).prevFd) = fun g => (l.entries g).prevFd := by
  rw [setNext, set_prevFd]
  exact Function.update_eq_self fd _

theorem setPrev_prevFd (l : SocketList) (fd prev : Int) :
    (fun g => ((l.setPrev fd prev).entries g).prevFd) =
      Function.update (fun g => (l.entries g).prevFd) fd prev := set_prevFd l fd _

theorem setPrev_nextFd (l : SocketList) (fd prev : Int) :
    (fun g => ((l.setPrev fd prev).entries g).nextFd) = fun g => (l.entries g).nextFd := by
  rw [setPrev, set_nextFd]
  exact Function.update_eq_self fd _

theorem Represents.add (h : l.Represents fds) (hfd : fd ∉ fds) (hlow : 0 ≤ fd) (hhigh : fd < l.size)
    (ip : UInt32) (port : Int32) (timeout : Nat) :
    (l.add fd ip port timeout).Represents (fds ++ [fd]) := by
  have hsize : fd ≠ l.size := by omega
  have hnodup : (fds ++ [fd]).Nodup := by
    rw [List.nodup_append]
    refine ⟨h.nodup, List.nodup_singleton fd, ?_⟩
    intro g hg g' hg' heq
    rw [List.mem_singleton.mp hg'] at heq
    exact hfd (heq ▸ hg)
  have hrange : ∀ g ∈ fds ++ [fd], 0 ≤ g ∧ g < l.size := by
    intro g hg
    rcases List.mem_append.mp hg with hg | hg
    · exact h.range g hg
    · rw [List.mem_singleton.mp hg]
      exact ⟨hlow, hhigh⟩
  have hlinks := h.links.snoc h.nodup hfd
  rw [← h.last] at hlinks
  have hcount : l.numSockets + 1 = ((fds ++ [fd]).length : Int) := by
    rw [h.count, List.length_append, List.length_singleton]
    omega
  unfold SocketList.add
  rw [if_neg hsize]
  by_cases hnil : fds = []
  · subst hnil
    have hfirst : l.firstFd = -1 := h.first
    rw [if_pos rfl] at hlinks
    simp only [set, hfirst, if_true]
    refine ⟨hnodup, hrange, ?_, rfl, rfl, hcount⟩
    have hnext := set_nextFd l fd ⟨l.lastFd, -1, timeout, ip, port⟩
    have hprev := set_prevFd l fd ⟨l.lastFd, -1, timeout, ip, port⟩
    rw [← hnext, ← hprev] at hlinks
    exact hlinks
  · have hfirst : l.firstFd ≠ -1 := h.first_ne.mpr hnil
    rw [if_neg hnil] at hlinks
    have hnext := set_nextFd l fd ⟨l.lastFd, -1, timeout, ip, port⟩
    have hprev := set_prevFd l fd ⟨l.lastFd, -1, timeout, ip, port⟩
    rw [← hnext, ← hprev, ← setNext_nextFd, ← setNext_prevFd _ l.lastFd fd] at hlinks
    have hset : (l.set fd ⟨l.lastFd, -1, timeout, ip, port⟩).firstFd = l.firstFd := rfl
    simp only [hset, if_neg hfirst]
    refine ⟨hnodup, hrange, hlinks, ?_, ?_, hcount⟩
    · rw [firstOf_append hnil]
      exact h.first
    · exact (lastOf_append_singleton fd fds).symm

/-- The data of the other entries stay. -/
theorem add_data (hfd : fd ≠ l.size) (ip : UInt32) (port : Int32) (timeout : Nat) :
    (l.add fd ip port timeout).data = Function.update l.data fd (timeout, ip, port) := by
  funext g
  unfold add
  rw [if_neg hfd]
  by_cases hg : g = fd
  · subst hg
    by_cases hfirst : l.firstFd = -1
    · simp [set, hfirst, data]
    · by_cases hlast : l.lastFd = g
      · simp [set, setNext, hfirst, data, hlast]
      · simp [set, setNext, hfirst, data, Function.update_of_ne (Ne.symm hlast)]
  · by_cases hfirst : l.firstFd = -1
    · simp [set, hfirst, data, Function.update_of_ne hg]
    · by_cases hlast : g = l.lastFd
      · subst hlast
        simp [set, setNext, hfirst, data, Function.update_of_ne hg]
      · simp [set, setNext, hfirst, data, Function.update_of_ne hg, Function.update_of_ne hlast]

/-- `del` without the branch for an empty list, in terms of the links of `fd`. -/
theorem del_eq (h : l.Represents fds) (hfd : fd ∈ fds) :
    let next := (l.entries fd).nextFd
    let prev := (l.entries fd).prevFd
    l.del fd =
      let l := if prev ≠ -1 then l.setNext prev next else { l with firstFd := next }
      let l := if next ≠ -1 then l.setPrev next prev else { l with lastFd := prev }
      (next, { l with numSockets := l.numSockets - 1 }) := by
  obtain ⟨pre, post, rfl⟩ := List.mem_iff_append.mp hfd
  obtain ⟨hnext, hprev⟩ := h.links pre fd post rfl
  have hcount : l.numSockets ≠ 0 := by
    rw [h.count, List.length_append, List.length_cons]
    omega
  have hpre : (l.entries fd).prevFd ≠ fd := by
    dsimp only at hprev
    rw [hprev]
    intro heq
    by_cases hnil : pre = []
    · rw [hnil] at heq
      exact h.noSentinel (heq ▸ hfd)
    · exact (List.nodup_append.mp h.nodup).2.2 fd (heq ▸ lastOf_mem hnil) fd List.mem_cons_self rfl
  have hpost : (l.entries fd).nextFd ≠ fd := by
    dsimp only at hnext
    rw [hnext]
    intro heq
    by_cases hnil : post = []
    · rw [hnil] at heq
      exact h.noSentinel (heq ▸ hfd)
    · exact (List.nodup_cons.mp (List.nodup_append.mp h.nodup).2.1).1 (heq ▸ firstOf_mem hnil)
  unfold SocketList.del
  rw [if_neg hcount]
  by_cases hp : (l.entries fd).prevFd = -1 <;> by_cases hn : (l.entries fd).nextFd = -1 <;>
    simp [hp, hn, setNext, setPrev, set, Function.update_of_ne hpre.symm,
      Function.update_of_ne hpost.symm]

/-- Taking an fd out of the list leaves the others in order, and returns the one behind it. -/
theorem Represents.del (h : l.Represents (pre ++ fd :: post)) :
    (l.del fd).2.Represents (pre ++ post) ∧ (l.del fd).1 = firstOf (-1) post := by
  obtain ⟨hnext, hprev⟩ := h.links pre fd post rfl
  dsimp only at hnext hprev
  have hlinks := h.links.remove h.nodup h.noSentinel
  have hdel := del_eq h (List.mem_append_right pre List.mem_cons_self)
  dsimp only at hdel hlinks
  have hnodup : (pre ++ post).Nodup := (List.nodup_middle.mp h.nodup).of_cons
  have hrange : ∀ g ∈ pre ++ post, 0 ≤ g ∧ g < l.size := fun g hg => by
    apply h.range
    rcases List.mem_append.mp hg with hg | hg
    · exact List.mem_append_left _ hg
    · exact List.mem_append_right _ (List.mem_cons_of_mem _ hg)
  have hcount : l.numSockets - 1 = ((pre ++ post).length : Int) := by
    rw [h.count, List.length_append, List.length_append, List.length_cons]
    omega
  have hnilpre : -1 ∉ pre := fun hmem => h.noSentinel (List.mem_append_left _ hmem)
  have hnilpost : -1 ∉ post := fun hmem =>
    h.noSentinel (List.mem_append_right _ (List.mem_cons_of_mem _ hmem))
  have hfirst := h.first
  have hlast := h.last
  rw [hdel]
  refine ⟨?_, hnext⟩
  by_cases hp : (l.entries fd).prevFd = -1
  · have hpre : pre = [] := (lastOf_eq_nil hnilpre).mp (hprev ▸ hp)
    subst hpre
    by_cases hn : (l.entries fd).nextFd = -1
    · have hpost : post = [] := (firstOf_eq_nil hnilpost).mp (hnext ▸ hn)
      subst hpost
      simp only [hp, hn, ne_eq, not_true, if_false]
      exact ⟨hnodup, hrange, fun pre k post h => by simp at h, rfl, rfl, hcount⟩
    · have hpost : post ≠ [] := fun hnil => hn (by rw [hnext, hnil]; rfl)
      simp only [hp, hn, ne_eq, not_true, not_false_iff, if_false, if_true] at hlinks ⊢
      refine ⟨hnodup, hrange, ?_, hnext, ?_, hcount⟩
      · rw [← setPrev_prevFd, ← setPrev_nextFd l (l.entries fd).nextFd (-1)] at hlinks
        exact hlinks
      · refine hlast.trans ?_
        rw [List.nil_append, List.nil_append, ← List.singleton_append, lastOf_append hpost]
  · have hpre : pre ≠ [] := fun hnil => hp (by rw [hprev, hnil]; rfl)
    by_cases hn : (l.entries fd).nextFd = -1
    · have hpost : post = [] := (firstOf_eq_nil hnilpost).mp (hnext ▸ hn)
      subst hpost
      simp only [hp, hn, ne_eq, not_true, not_false_iff, if_false, if_true] at hlinks ⊢
      refine ⟨hnodup, hrange, ?_, ?_, ?_, hcount⟩
      · rw [← setNext_nextFd, ← setNext_prevFd l (l.entries fd).prevFd (-1)] at hlinks
        exact hlinks
      · refine hfirst.trans ?_
        rw [firstOf_append hpre, List.append_nil]
      · rw [List.append_nil]
        exact hprev
    · have hpost : post ≠ [] := fun hnil => hn (by rw [hnext, hnil]; rfl)
      simp only [hp, hn, ne_eq, not_false_iff, if_false, if_true] at hlinks ⊢
      refine ⟨hnodup, hrange, ?_, ?_, ?_, hcount⟩
      · rw [← setNext_nextFd, ← setNext_prevFd l (l.entries fd).prevFd (l.entries fd).nextFd,
          ← setPrev_prevFd, ← setPrev_nextFd _ (l.entries fd).nextFd (l.entries fd).prevFd] at hlinks
        exact hlinks
      · refine hfirst.trans ?_
        rw [firstOf_append hpre, firstOf_append hpre]
      · refine hlast.trans ?_
        rw [lastOf_append (by simp), ← List.singleton_append, lastOf_append hpost, lastOf_append hpost]

theorem setNext_data (l : SocketList) (fd next : Int) : (l.setNext fd next).data = l.data := by
  funext g
  by_cases hg : g = fd
  · simp [setNext, set, data, hg]
  · simp [setNext, set, data, Function.update_of_ne hg]

theorem setPrev_data (l : SocketList) (fd prev : Int) : (l.setPrev fd prev).data = l.data := by
  funext g
  by_cases hg : g = fd
  · simp [setPrev, set, data, hg]
  · simp [setPrev, set, data, Function.update_of_ne hg]

/-- Taking an fd out leaves the data of all entries. -/
theorem del_data (l : SocketList) (fd : Int) : (l.del fd).2.data = l.data := by
  unfold del
  by_cases hcount : l.numSockets = 0
  · rw [if_pos hcount]
  rw [if_neg hcount]
  by_cases hprev : (l.entries fd).prevFd ≠ -1
  · simp only [if_pos hprev]
    split_ifs
    · exact (setPrev_data ..).trans (setNext_data ..)
    · exact setNext_data ..
  · simp only [if_neg hprev]
    split_ifs
    · exact setPrev_data ..
    · rfl

end SocketList

end Cscan.Scan
