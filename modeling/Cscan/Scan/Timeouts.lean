import Cscan.Scan.Probes

/-! The timeouts of the pending sockets. A socket is added at the end of the list with a timeout that is no
earlier than those in front of it, so the sweep may stop at the first socket that is not due. -/

namespace Cscan.Scan

open Cscan.Lib SocketList

def SocketList.timeout (l : SocketList) (fd : Int) : Nat := (l.entries fd).timeout

/-- `fds` are the pending sockets in order. None is due before the one in front of it, or later than what a
probe that is sent now gets. -/
structure Timed (cfg : Config) (s : Scanner) (fds : List Int) : Prop extends Good cfg s fds where
  sorted : fds.Pairwise fun fd fd' => s.sockets.timeout fd ≤ s.sockets.timeout fd'
  latest : ∀ fd ∈ fds, s.sockets.timeout fd ≤ s.clock + cfg.connectTimeout

theorem start_timed (cfg : Config) (entries : Int → SocketListEntry) (size : Int) :
    Timed cfg (.start entries size) [] where
  toGood := start_good cfg entries size
  sorted := List.Pairwise.nil
  latest := by simp

theorem timeout_of_data {l l' : SocketList} {fd : Int} (h : l'.data fd = l.data fd) :
    l'.timeout fd = l.timeout fd := congrArg Prod.fst h

theorem timeout_add {l : SocketList} {fd : Int} (hfd : fd ≠ l.size) (ip : UInt32) (port : Int32)
    (timeout : Nat) (g : Int) :
    (l.add fd ip port timeout).timeout g = if g = fd then timeout else l.timeout g := by
  have hdata : (l.add fd ip port timeout).timeout g = (Function.update l.data fd (timeout, ip, port) g).1 :=
    congrArg (fun data => (data g).1) (add_data hfd ip port timeout)
  rw [hdata]
  by_cases hg : g = fd
  · rw [if_pos hg, hg, Function.update_self]
  · rw [if_neg hg, Function.update_of_ne hg]
    rfl

theorem timeout_del (l : SocketList) (fd g : Int) : (l.del fd).2.timeout g = l.timeout g :=
  timeout_of_data (congrFun (del_data l fd) g)

/-! ### What the steps keep -/

variable {cfg : Config} {s s' : Scanner} {fds pre post : List Int} {fd : Int}

/-- The list may lose sockets, and time may go on. -/
theorem Timed.keep {fds' : List Int} (h : Timed cfg s fds) (hgood : Good cfg s' fds')
    (hsub : fds'.Sublist fds) (htimeout : ∀ fd, s'.sockets.timeout fd = s.sockets.timeout fd)
    (hclock : s.clock ≤ s'.clock) : Timed cfg s' fds' where
  toGood := hgood
  sorted := by
    simp only [htimeout]
    exact h.sorted.sublist hsub
  latest fd hfd := by
    rw [htimeout]
    exact (h.latest fd (hsub.subset hfd)).trans (Nat.add_le_add_right hclock _)

theorem Timed.resolved {a : Attempt} (h : Timed cfg s fds) (hnow : s.clock ≤ a.now)
    (hsock : a.sock ∉ s.opened) (hresolved : Resolved s s' a) :
    Timed cfg { s' with clock := a.now } fds := by
  refine h.keep ((h.toGood.resolved hsock hresolved).clock a.now) (List.Sublist.refl fds) (fun fd => ?_) hnow
  exact congrArg (fun l => SocketList.timeout l fd) hresolved.sockets

theorem Timed.waits {a : Attempt} (h : Timed cfg s fds) (hnow : s.clock ≤ a.now) (hsock : a.sock ∉ s.opened)
    (hlow : 0 ≤ a.sock) (hroom : s.sockets.numSockets < cfg.maxPendingSockets) (hwaits : Waits cfg s s' a) :
    Timed cfg { s' with registered := s'.registered ++ [a.sock], clock := a.now } (fds ++ [a.sock]) := by
  obtain ⟨hhigh, hsockets⟩ := hwaits.sockets
  have htimeout : ∀ g, s'.sockets.timeout g =
      if g = a.sock then a.now + cfg.connectTimeout else s.sockets.timeout g := fun g => by
    rw [hsockets, timeout_add (by omega)]
  have hold : ∀ g ∈ fds, s'.sockets.timeout g = s.sockets.timeout g := fun g hg => by
    have hne : g ≠ a.sock := fun heq => hsock (heq ▸ h.opened g hg)
    rw [htimeout, if_neg hne]
  have hnew : s'.sockets.timeout a.sock = a.now + cfg.connectTimeout := by rw [htimeout, if_pos rfl]
  have hlatest : ∀ g ∈ fds, s.sockets.timeout g ≤ a.now + cfg.connectTimeout := fun g hg =>
    (h.latest g hg).trans (Nat.add_le_add_right hnow _)
  refine ⟨(h.toGood.waits hsock hlow hroom hwaits).clock a.now, ?_, fun g hg => ?_⟩
  · rw [List.pairwise_append]
    refine ⟨h.sorted.imp_of_mem fun {g g'} hg hg' hle => ?_, List.pairwise_singleton _ _, ?_⟩
    · show s'.sockets.timeout g ≤ s'.sockets.timeout g'
      rwa [hold g hg, hold g' hg']
    · intro g hg g' hg'
      show s'.sockets.timeout g ≤ s'.sockets.timeout g'
      rw [List.mem_singleton.mp hg', hnew, hold g hg]
      exact hlatest g hg
  · show s'.sockets.timeout g ≤ a.now + cfg.connectTimeout
    rcases List.mem_append.mp hg with hg | hg
    · rw [hold g hg]
      exact hlatest g hg
    · rw [List.mem_singleton.mp hg, hnew]

theorem Timed.ends {fate : Fate} {queued fails : Prop} (h : Timed cfg s (pre ++ fd :: post))
    (hgood : Good cfg s' (pre ++ post)) (hends : Ends s s' fd fate queued fails) (hclock : s'.clock = s.clock) :
    Timed cfg s' (pre ++ post) := by
  refine h.keep hgood ?_ (fun g => ?_) hclock.ge
  · exact List.Sublist.append_left (List.sublist_cons_self fd post) pre
  · rw [hends.sockets]
    exact timeout_del ..

theorem handleEvent_clock (cfg : Config) (s : Scanner) (e : Int × Events) :
    (handleEvent cfg s e).clock = s.clock := by
  unfold handleEvent
  dsimp only
  split_ifs <;> rfl

theorem sweepOut_clock (cfg : Config) (s : Scanner) (fd : Int) : (sweepOut cfg s fd).2.clock = s.clock := by
  unfold sweepOut
  dsimp only
  split_ifs <;> rfl

theorem filter_ne_of_nodup (h : (pre ++ fd :: post).Nodup) :
    (pre ++ fd :: post).filter (· ≠ fd) = pre ++ post := by
  have hfd := (List.nodup_cons.mp (List.nodup_middle.mp h)).1
  have hkeep : (pre ++ post).filter (· ≠ fd) = pre ++ post :=
    List.filter_eq_self.mpr fun g hg => decide_eq_true fun heq => hfd (heq ▸ hg)
  rw [List.filter_append, List.filter_cons_of_neg (by simp), ← List.filter_append, hkeep]

theorem Timed.handled {e : Int × Events} (h : Timed cfg s fds) (he : e.1 ∈ fds) :
    Timed cfg (handleEvent cfg s e) (fds.filter (· ≠ e.1)) ∧
      ∀ g, (handleEvent cfg s e).sockets.timeout g = s.sockets.timeout g := by
  obtain ⟨pre, post, rfl⟩ := List.mem_iff_append.mp he
  have hends := handleEvent_ends cfg s e.1 e.2
  rw [filter_ne_of_nodup h.list.nodup]
  refine ⟨h.ends h.toGood.handled hends (handleEvent_clock cfg s e), fun g => ?_⟩
  rw [hends.sockets]
  exact timeout_del ..

/-- Behind the loop over the events the other sockets are left in order. -/
theorem Timed.eventsHandled {events : List (Int × Events)} (h : Timed cfg s fds)
    (hnodup : (events.map Prod.fst).Nodup) (hmem : ∀ e ∈ events, e.1 ∈ fds) :
    Timed cfg (events.foldl (handleEvent cfg) s) (fds.filter (· ∉ events.map Prod.fst)) ∧
      (∀ g, (events.foldl (handleEvent cfg) s).sockets.timeout g = s.sockets.timeout g) ∧
      (events.foldl (handleEvent cfg) s).closes = s.closes ++ events.map Prod.fst ∧
      (events.foldl (handleEvent cfg) s).clock = s.clock := by
  induction events generalizing s fds with
  | nil => simpa using h
  | cons e events ih =>
    obtain ⟨hfresh, hnodup⟩ := List.nodup_cons.mp hnodup
    obtain ⟨hkept, htimeout⟩ := h.handled (hmem e List.mem_cons_self)
    have hrest : ∀ e' ∈ events, e'.1 ∈ fds.filter (· ≠ e.1) := fun e' he' => by
      have hne : e'.1 ≠ e.1 := fun heq => hfresh (heq ▸ List.mem_map_of_mem he')
      exact List.mem_filter.mpr ⟨hmem e' (List.mem_cons_of_mem _ he'), decide_eq_true hne⟩
    obtain ⟨hdone, htimeout', hcloses, hclock⟩ := ih hkept hnodup hrest
    refine ⟨?_, fun g => (htimeout' g).trans (htimeout g), ?_, hclock.trans (handleEvent_clock cfg s e)⟩
    · have hboth : ∀ g, decide (g ∉ (e :: events).map Prod.fst) =
          (decide (g ∉ events.map Prod.fst) && decide (g ≠ e.1)) := fun g => by
        rw [List.map_cons, ← Bool.decide_and, decide_eq_decide, List.mem_cons, not_or]
        exact and_comm
      rw [List.filter_filter] at hdone
      rw [List.foldl_cons, List.filter_congr fun g _ => hboth g]
      exact hdone
    · rw [List.foldl_cons, hcloses, (handleEvent_ends cfg s e.1 e.2).closes]
      simp

/-! ### The sweep -/

/-- The sweep takes out the sockets that are due, and leaves the others in order. It ends by itself: more
turns than there are sockets make no difference. -/
theorem Timed.swept (now : Nat) {fuel : Nat} (h : Timed cfg s fds) (hfuel : fds.length ≤ fuel) :
    let s' := sweep cfg now fuel s.sockets.firstFd s
    Timed cfg s' (fds.filter fun fd => now < s.sockets.timeout fd) ∧
      s'.closes = s.closes ++ fds.filter (fun fd => s.sockets.timeout fd ≤ now) ∧
      (∀ g, s'.sockets.timeout g = s.sockets.timeout g) ∧
      s' = sweep cfg now fds.length s.sockets.firstFd s := by
  induction fds generalizing s fuel with
  | nil =>
    have hstop : ∀ fuel, sweep cfg now fuel s.sockets.firstFd s = s := by
      intro fuel
      cases fuel with
      | zero => rfl
      | succ fuel => exact if_neg fun hgo => hgo.1 h.list.first
    intro s'
    have hs : s' = s := hstop fuel
    rw [hs]
    exact ⟨h, (List.append_nil _).symm, fun _ => rfl, rfl⟩
  | cons fd fds ih =>
    obtain ⟨fuel, rfl⟩ : ∃ n, fuel = n + 1 := ⟨fuel - 1, by rw [List.length_cons] at hfuel; omega⟩
    have hfirst : s.sockets.firstFd = fd := h.list.first
    have hfd : fd ≠ -1 := fun heq => h.list.noSentinel (heq ▸ List.mem_cons_self)
    obtain ⟨hhead, -⟩ := List.pairwise_cons.mp h.sorted
    by_cases hdue : s.sockets.timeout fd ≤ now
    · have hends := sweepOut_ends cfg s fd
      have hfront : Timed cfg s ([] ++ fd :: fds) := h
      have hkept : Timed cfg (sweepOut cfg s fd).2 fds :=
        hfront.ends h.toGood.sweptOut hends (sweepOut_clock cfg s fd)
      have hnext : (sweepOut cfg s fd).1 = (sweepOut cfg s fd).2.sockets.firstFd := by
        rw [sweepOut_next, hkept.list.first]
        have hrep : s.sockets.Represents ([] ++ fd :: fds) := h.list
        exact hrep.del.2
      have hturn : ∀ fuel, sweep cfg now (fuel + 1) s.sockets.firstFd s =
          sweep cfg now fuel (sweepOut cfg s fd).2.sockets.firstFd (sweepOut cfg s fd).2 := by
        intro fuel
        rw [sweep, hfirst, if_pos ⟨hfd, hdue⟩, ← hnext]
      have htimeout : ∀ g, (sweepOut cfg s fd).2.sockets.timeout g = s.sockets.timeout g := fun g => by
        rw [hends.sockets]
        exact timeout_del ..
      obtain ⟨hrest, hcloses, htimeout', hsame⟩ := ih hkept (Nat.le_of_succ_le_succ hfuel)
      simp only [htimeout] at hrest hcloses htimeout'
      intro s'
      have hs : s' = _ := hturn fuel
      rw [hs, List.length_cons, hturn fds.length, List.filter_cons_of_neg (by simpa using hdue),
        List.filter_cons_of_pos (by simpa using hdue)]
      refine ⟨hrest, ?_, htimeout', hsame⟩
      rw [hcloses, hends.closes]
      simp
    · -- nothing behind a socket that is not due is due
      have hstop : ∀ fuel, sweep cfg now fuel s.sockets.firstFd s = s := by
        intro fuel
        cases fuel with
        | zero => rfl
        | succ fuel => exact if_neg fun hgo => hdue (hfirst ▸ hgo.2)
      have hlater : ∀ g ∈ fd :: fds, now < s.sockets.timeout g := by
        intro g hg
        rcases List.mem_cons.mp hg with rfl | hg
        · exact Nat.lt_of_not_le hdue
        · exact Nat.lt_of_lt_of_le (Nat.lt_of_not_le hdue) (hhead g hg)
      intro s'
      have hs : s' = s := hstop (fuel + 1)
      have hall : (fd :: fds).filter (fun fd => now < s.sockets.timeout fd) = fd :: fds :=
        List.filter_eq_self.mpr fun g hg => decide_eq_true (hlater g hg)
      have hnone : (fd :: fds).filter (fun fd => s.sockets.timeout fd ≤ now) = [] :=
        List.filter_eq_nil_iff.mpr fun g hg => by simpa using hlater g hg
      rw [hs, hall, hnone]
      exact ⟨h, (List.append_nil _).symm, fun _ => rfl, (hstop _).symm⟩

/-- The state when the sweep begins. -/
def beforeSweep (cfg : Config) (s : Scanner) (now : Nat) (events : List (Int × Events)) (later : Nat) :
    Scanner :=
  { events.foldl (handleEvent cfg) { s with timeout := epollTimeout s now } with clock := later }

theorem poll_eq (cfg : Config) (s : Scanner) (now : Nat) (events : List (Int × Events)) (later : Nat) :
    poll cfg s now events later =
      sweep cfg later (beforeSweep cfg s now events later).sockets.numSockets.toNat
        (beforeSweep cfg s now events later).sockets.firstFd (beforeSweep cfg s now events later) := rfl

theorem Timed.before_sweep {now later : Nat} {events : List (Int × Events)} (h : Timed cfg s fds)
    (hanswers : Answers s (.poll now events later)) :
    Timed cfg (beforeSweep cfg s now events later) (fds.filter (· ∉ events.map Prod.fst)) ∧
      (∀ g, (beforeSweep cfg s now events later).sockets.timeout g = s.sockets.timeout g) ∧
      (beforeSweep cfg s now events later).closes = s.closes ++ events.map Prod.fst := by
  obtain ⟨hnow, hlater, hnodup, hmem⟩ := hanswers
  have htimeout : Timed cfg { s with timeout := epollTimeout s now } fds :=
    h.keep (h.toGood.timeout _) (List.Sublist.refl fds) (fun _ => rfl) (Nat.le_refl _)
  obtain ⟨hevents, htimeouts, hcloses, hclock⟩ :=
    htimeout.eventsHandled hnodup fun e he => (h.registered _).mp (hmem e he)
  refine ⟨hevents.keep (hevents.toGood.clock later) (List.Sublist.refl _) (fun _ => rfl) ?_, htimeouts, hcloses⟩
  exact hclock.le.trans (hnow.trans hlater)

/-! ### Runs -/

theorem Timed.step {i : Input} (h : Timed cfg s fds) (hanswers : Answers s i)
    (hstep : step cfg s i = some s') : ∃ fds', Timed cfg s' fds' := by
  rcases step_cases hanswers hstep with
    ⟨a, rfl, hroom, hlow, hfresh, t, ⟨hresolved, rfl⟩ | ⟨hwaits, rfl⟩⟩ | ⟨now, events, later, rfl, -, rfl⟩
  · exact ⟨fds, h.resolved hanswers.1 hfresh hresolved⟩
  · exact ⟨fds ++ [a.sock], h.waits hanswers.1 hfresh hlow hroom hwaits⟩
  · obtain ⟨hbefore, -, -⟩ := h.before_sweep hanswers
    exact ⟨_, (hbefore.swept later hbefore.list.toNat_count.ge).1⟩

/-- The argument of `epoll_wait` is not beyond the timeout of any pending socket. -/
theorem Timed.epollTimeout_le (h : Timed cfg s fds) (hne : fds ≠ []) {now : Nat} (hnow : s.clock ≤ now) :
    epollTimeout s now ≤ cfg.connectTimeout ∧
      ∀ fd ∈ fds, epollTimeout s now ≤ s.sockets.timeout fd - now := by
  obtain ⟨fd, fds, rfl⟩ := List.exists_cons_of_ne_nil hne
  have hfirst : s.sockets.firstFd = fd := h.list.first
  have htimeout : epollTimeout s now = s.sockets.timeout fd - now := by
    unfold epollTimeout SocketList.timeout
    dsimp only
    rw [hfirst]
    split_ifs <;> omega
  have hlatest := h.latest fd List.mem_cons_self
  obtain ⟨hhead, -⟩ := List.pairwise_cons.mp h.sorted
  rw [htimeout]
  refine ⟨by omega, fun g hg => ?_⟩
  rcases List.mem_cons.mp hg with rfl | hg
  · exact Nat.le_refl _
  · exact Nat.sub_le_sub_right (hhead g hg) now

/-- The list holds these sockets, none of which is due before the one in front of it. -/
def SocketList.Sorted (l : SocketList) (fds : List Int) : Prop :=
  l.Represents fds ∧ fds.Pairwise fun fd fd' => l.timeout fd ≤ l.timeout fd'

/-- An iteration of `conn_thread` in which `fds` are pending: it does not wait beyond a timeout, and of the
sockets that had no event it takes out and closes those that are due at the time `later`, and no other. -/
structure SweepsOut (cfg : Config) (s : Scanner) (fds : List Int) (now : Nat) (events : List (Int × Events))
    (later : Nat) : Prop where
  waits : epollTimeout s now ≤ cfg.connectTimeout
  soon : ∀ fd ∈ fds, epollTimeout s now ≤ s.sockets.timeout fd - now
  before : (beforeSweep cfg s now events later).sockets.Sorted (fds.filter (· ∉ events.map Prod.fst))
  after : (poll cfg s now events later).sockets.Sorted ((fds.filter (· ∉ events.map Prod.fst)).filter
    fun fd => later < s.sockets.timeout fd)
  closes : (poll cfg s now events later).closes = s.closes ++ events.map Prod.fst ++
    (fds.filter (· ∉ events.map Prod.fst)).filter fun fd => s.sockets.timeout fd ≤ later
  ends : ∀ turns ≥ fds.length, sweep cfg later turns (beforeSweep cfg s now events later).sockets.firstFd
    (beforeSweep cfg s now events later) = poll cfg s now events later

theorem Timed.sweepsOut {now later : Nat} {events : List (Int × Events)} (h : Timed cfg s fds) (hne : fds ≠ [])
    (hanswers : Answers s (.poll now events later)) : SweepsOut cfg s fds now events later := by
  obtain ⟨hwaits, hsoon⟩ := h.epollTimeout_le hne hanswers.1
  obtain ⟨hbefore, htimeout, hcloses⟩ := h.before_sweep hanswers
  have hcount : (beforeSweep cfg s now events later).sockets.numSockets.toNat =
      (fds.filter (· ∉ events.map Prod.fst)).length := hbefore.list.toNat_count
  obtain ⟨hafter, hswept, htimeout', -⟩ := hbefore.swept later hcount.ge
  rw [← poll_eq] at hafter hswept htimeout'
  simp only [htimeout] at hafter hswept
  refine ⟨hwaits, hsoon, ⟨hbefore.list, hbefore.sorted⟩, ⟨hafter.list, hafter.sorted⟩, ?_,
    fun turns hturns => ?_⟩
  · rw [hswept, hcloses]
  · have hlength := List.length_filter_le (fun fd => decide (fd ∉ events.map Prod.fst)) fds
    obtain ⟨-, -, -, hsame⟩ := hbefore.swept later (hlength.trans hturns)
    rw [hsame, poll_eq, hcount]

/-- In every state of a run the timeouts along the list do not fall, and from every state in which no more
sockets may be added the rest of the iteration expires the sockets that are due, and only these. -/
theorem run_sweeps {cfg : Config} (hmax : 1 ≤ cfg.maxPendingSockets) (entries : Int → SocketListEntry)
    (size : Int) {s : Scanner} (h : Reaches (step cfg) Answers (.start entries size) s) :
    ∃ fds, s.sockets.Sorted fds ∧ (∀ fd, fd ∈ s.registered ↔ fd ∈ fds) ∧
      ∀ now events later s', Answers s (.poll now events later) →
        step cfg s (.poll now events later) = some s' →
        s' = poll cfg s now events later ∧ SweepsOut cfg s fds now events later := by
  obtain ⟨fds, htimed⟩ := h.invariant (fun s => ∃ fds, Timed cfg s fds) ⟨[], start_timed cfg entries size⟩
    fun s i s' ⟨fds, htimed⟩ hanswers hstep => htimed.step hanswers hstep
  refine ⟨fds, ⟨htimed.list, htimed.sorted⟩, htimed.registered, fun now events later s' hanswers hstep => ?_⟩
  simp only [Scan.step] at hstep
  split_ifs at hstep with hroom
  have hne : fds ≠ [] := by
    rintro rfl
    rw [htimed.list.count] at hroom
    exact hroom (by simpa using Nat.lt_of_succ_le hmax)
  exact ⟨(Option.some.inj hstep).symm, htimed.sweepsOut hne hanswers⟩

/-- Three probes are pending: one has an event, one is due, and one is not. -/
theorem run_sweeps_middle :
    let cfg : Config := ⟨3, 100, 0, 0, 10, 0, 80, 5600, 1000⟩
    let attempt (fd : Int) (now : Nat) : Input :=
      .attempt ⟨0x0a000001, 80, fd, fun _ => none, ⟨.done, some .inProgress, .done⟩, now, true⟩
    ∃ s, (runSchedule (fun s i => if Answers s i then step cfg s i else none)
        (.start (fun _ => ⟨0, 0, 0, 0, 0⟩) 10) [attempt 5 0, attempt 3 20, attempt 4 50]) = some s ∧
      epollTimeout s 60 = 40 ∧ (poll cfg s 60 [(3, ⟨true, false, false⟩)] 110).closes = [3, 5] ∧
      ∃ fds, s.sockets.Sorted fds ∧ SweepsOut cfg s fds 60 [(3, ⟨true, false, false⟩)] 110 := by
  intro cfg attempt
  have hview : (runSchedule (fun s i => if Answers s i then step cfg s i else none)
      (.start (fun _ => ⟨0, 0, 0, 0, 0⟩) 10) [attempt 5 0, attempt 3 20, attempt 4 50]).map
      (fun s => (decide (Answers s (.poll 60 [(3, ⟨true, false, false⟩)] 110)),
        decide (s.sockets.numSockets < cfg.maxPendingSockets), epollTimeout s 60,
        (poll cfg s 60 [(3, ⟨true, false, false⟩)] 110).closes)) = some (true, false, 40, [3, 5]) := by
    decide +kernel
  obtain ⟨s, hrun, hs⟩ := Option.map_eq_some_iff.mp hview
  simp only [Prod.mk.injEq, decide_eq_true_eq, decide_eq_false_iff_not] at hs
  obtain ⟨hanswers, hroom, htimeout, hcloses⟩ := hs
  obtain ⟨fds, hsorted, -, hsweeps⟩ :=
    @run_sweeps cfg (by decide) _ _ _ (reaches_of_runSchedule .start hrun)
  exact ⟨s, hrun, htimeout, hcloses, fds, hsorted, (hsweeps _ _ _ _ hanswers (if_neg hroom)).2⟩

end Cscan.Scan
