import Cscan.Scan.Measured
import Mathlib.Algebra.BigOperators.Group.List.Basic

/-! What the calls of `metrics.c` tell about a run of `conn_thread`: each probe is in them once when it is sent and
once when it has ended, with the time that it took. -/

namespace Cscan.Metrics.Call

def fd? : Call → Option Int
  | packet _ fd => some fd.toInt
  | _ => none

def sendCount? : Call → Option Int
  | sendinfo _ _ sendCount => some sendCount.toInt
  | _ => none

def delCount? : Call → Option Int
  | delinfo _ _ delCount => some delCount.toInt
  | _ => none

/-- The call for a probe that has ended, and its kind if it was not swept. -/
def ending (time start : UInt64) : Option Int8 → Call
  | some kind => ret time start kind
  | none => delta time start

/-- When the probe was sent, how long it took, and its kind. -/
def ending? : Call → Option (Int × Int × Option Int8)
  | ret time start kind => some (time.toNat - (elapsed time start).toInt, (elapsed time start).toInt, some kind)
  | delta time start => some (time.toNat - (elapsed time start).toInt, (elapsed time start).toInt, none)
  | _ => none

theorem ending_ending? (time start : UInt64) (kind : Option Int8) : (ending time start kind).ending? =
    some (time.toNat - (elapsed time start).toInt, (elapsed time start).toInt, kind) := by
  cases kind <;> rfl

theorem ending_time (time start : UInt64) (kind : Option Int8) : (ending time start kind).time = time := by
  cases kind <;> rfl

theorem ending_fd? (time start : UInt64) (kind : Option Int8) : (ending time start kind).fd? = none := by
  cases kind <;> rfl

theorem ending_sendCount? (time start : UInt64) (kind : Option Int8) : (ending time start kind).sendCount? = none := by
  cases kind <;> rfl

theorem ending_delCount? (time start : UInt64) (kind : Option Int8) : (ending time start kind).delCount? = none := by
  cases kind <;> rfl

end Cscan.Metrics.Call

namespace Cscan.Scan

open Cscan.Lib SocketList
open Metrics (Call elapsed)

/-! ### Times -/

theorem toNat_ms {now : Nat} (h : now < 2 ^ 64) : (ms now).toNat = now := UInt64.toNat_ofNat_of_lt' h

/-- The time when a pending probe was sent, from its timeout. -/
theorem ms_sub (time connectTimeout : Nat) : ms (time + connectTimeout) - ms connectTimeout = ms time := by
  rw [ms, ms, ms, UInt64.ofNat_add, UInt64.add_sub_cancel]

theorem elapsed_ms {now start : Nat} (hle : start ≤ now) (hlt : now < start + 2 ^ 31) :
    (elapsed (ms now) (ms start)).toInt = now - start := by
  have hsub : ms now - ms start = ms (now - start) := by
    rw [ms, ms, ms, ← UInt64.ofNat_sub hle]
  have hword : ((ms (now - start)).toUInt32).toNat = now - start := by
    rw [UInt64.toNat_toUInt32, toNat_ms (by omega), Nat.mod_eq_of_lt (by omega)]
  rw [elapsed, hsub]
  show ((ms (now - start)).toUInt32).toBitVec.toInt = _
  rw [BitVec.toInt_eq_toNat_of_lt (by rw [UInt32.toNat_toBitVec, hword]; omega), UInt32.toNat_toBitVec, hword]
  omega

/-- The calls are in the order of their times, from `first` up to `clock`. -/
structure Ordered (first clock : Nat) (calls : List Call) : Prop where
  sorted : calls.Pairwise fun c d => c.time.toNat ≤ d.time.toNat
  within : ∀ c ∈ calls, first ≤ c.time.toNat ∧ c.time.toNat ≤ clock
  first_le : first ≤ clock

theorem Ordered.later {first clock now : Nat} {calls : List Call} (h : Ordered first clock calls)
    (hle : clock ≤ now) : Ordered first now calls where
  sorted := h.sorted
  within c hc := ⟨(h.within c hc).1, (h.within c hc).2.trans hle⟩
  first_le := h.first_le.trans hle

theorem Ordered.call {first clock now : Nat} {calls : List Call} {c : Call} (h : Ordered first clock calls)
    (hle : clock ≤ now) (hnow : now < 2 ^ 64) (hc : c.time = ms now) : Ordered first now (calls ++ [c]) := by
  have htime : c.time.toNat = now := by
    rw [hc, toNat_ms hnow]
  refine ⟨?_, ?_, h.first_le.trans hle⟩
  · refine List.pairwise_append.mpr ⟨h.sorted, List.pairwise_singleton _ _, fun d hd c' hc' => ?_⟩
    rw [List.mem_singleton.mp hc', htime]
    exact (h.within d hd).2.trans hle
  · refine List.forall_mem_append.mpr ⟨(h.later hle).within, List.forall_mem_singleton.mpr ?_⟩
    rw [htime]
    exact ⟨h.first_le.trans hle, Nat.le_refl now⟩

/-! ### The probes that have ended -/

/-- The `kind` of its `mev_ret`, if the probe was not swept. -/
def Fate.kind : Fate → Option Int8
  | .returned o => some (if o.Connects then 3 else 1)
  | .event e => some (if e.ok then 2 else 0)
  | .timedOut => none

/-- The probe ended when it was sent. -/
def Fate.immediate : Fate → Bool
  | .returned _ => true
  | _ => false

/-- The probe got a connection. -/
def Fate.connected : Fate → Bool
  | .returned o => o.Connects
  | .event e => e.ok
  | .timedOut => false

/-- When each of the probes was sent, how long it took, and its kind. -/
def endings (sent : List Nat) (fates : List (Nat × Fate)) (ended : List Nat) : List (Int × Int × Option Int8) :=
  (fates.zip ended).map fun p =>
    let start := sent.getD p.1.1 0
    (start, p.2 - start, p.1.2.kind)

theorem endings_sent {sent : List Nat} {fates : List (Nat × Fate)} (h : ∀ f ∈ fates, f.1 < sent.length)
    (more ended : List Nat) : endings (sent ++ more) fates ended = endings sent fates ended := by
  refine List.map_congr_left fun p hp => ?_
  have hlt := h p.1 (List.of_mem_zip hp).1
  simp only [List.getD_eq_getElem?_getD, List.getElem?_append_left hlt]

theorem endings_append {sent : List Nat} {fates : List (Nat × Fate)} {ended : List Nat}
    (h : ended.length = fates.length) (probe : Nat) (fate : Fate) {start : Nat} (hsent : sent[probe]? = some start)
    (now : Nat) : endings sent (fates ++ [(probe, fate)]) (ended ++ [now]) =
      endings sent fates ended ++ [((start : Int), (now : Int) - start, fate.kind)] := by
  rw [endings, List.zip_append h.symm, List.map_append]
  simp [endings, hsent]

theorem endings_kinds {fates : List (Nat × Fate)} {ended : List Nat} (h : ended.length = fates.length)
    (sent : List Nat) : (endings sent fates ended).map (·.2.2) = fates.map (·.2.kind) := by
  have hfst := List.map_fst_zip h.ge
  rw [endings, List.map_map]
  nth_rewrite 2 [← hfst]
  rw [List.map_map]
  rfl

/-- The calls tell what has happened to the probes. `sendCount` and `delCount` are not in them yet. -/
structure Recorded (cfg : Config) (first : Nat) (m : Measured) (sendCount delCount : Nat) (fds : List Int) :
    Prop where
  good : Good cfg m.scanner fds
  ordered : Ordered first m.clock m.calls
  sent : m.sent.length = m.scanner.probes
  ended : m.ended.length = m.scanner.fates.length
  pending : ∀ fd ∈ fds, ∃ start ≤ m.clock, m.sent[m.scanner.probe fd]? = some start ∧
    m.scanner.sockets.timeout fd = start + cfg.connectTimeout
  packets : (m.calls.filterMap Call.fd?).length = m.scanner.probes
  endings : m.calls.filterMap Call.ending? = endings m.sent m.scanner.fates m.ended
  overdue : ∀ time start, .delta time start ∈ m.calls → (cfg.connectTimeout : Int) ≤ (elapsed time start).toInt
  sends : (m.calls.filterMap Call.sendCount?).sum + sendCount + m.scanner.fates.countP (·.2.immediate) =
    m.scanner.probes
  deletes : (m.calls.filterMap Call.delCount?).sum + delCount = m.scanner.fates.countP (·.2 = .timedOut)

theorem start_recorded (cfg : Config) (entries : Int → SocketListEntry) (size : Int) (first : Nat) :
    Recorded cfg first (.start entries size first) 0 0 [] where
  good := start_good cfg entries size
  ordered := ⟨List.Pairwise.nil, List.forall_mem_nil _, Nat.le_refl first⟩
  sent := rfl
  ended := rfl
  pending := List.forall_mem_nil _
  packets := rfl
  endings := rfl
  overdue _ _ h := absurd h List.not_mem_nil
  sends := rfl
  deletes := rfl

section Keep

variable {cfg : Config} {first sendCount delCount : Nat} {m m' : Measured} {fds pre post : List Int}

theorem Recorded.probe_lt (h : Recorded cfg first m sendCount delCount fds) :
    ∀ f ∈ m.scanner.fates, f.1 < m.sent.length := by
  intro f hf
  have hmem : f.1 ∈ m.scanner.fates.map Prod.fst ++ fds.map m.scanner.probe :=
    List.mem_append_left _ (List.mem_map_of_mem hf)
  rw [h.sent]
  exact List.mem_range.mp (h.good.probes.mem_iff.mp hmem)

theorem Ends.timeout {s s' : Scanner} {fd : Int} {fate : Fate} {queued fails : Prop}
    (h : Ends s s' fd fate queued fails) (g : Int) : s'.sockets.timeout g = s.sockets.timeout g := by
  rw [h.sockets, timeout_del]

/-- A probe that was pending has ended, and is logged so. -/
theorem Recorded.ends {fd : Int} {fate : Fate} {queued fails : Prop} {now : Nat}
    (h : Recorded cfg first m sendCount delCount (pre ++ fd :: post))
    (hends : Ends m.scanner m'.scanner fd fate queued fails) (hqueued : queued → fate.succeeded)
    (hfate : fate.immediate = false) (hle : m.clock ≤ now) (hnow : now < 2 ^ 64)
    (hlt : now + cfg.connectTimeout < m.scanner.sockets.timeout fd + 2 ^ 31)
    (hdue : fate = .timedOut → m.scanner.sockets.timeout fd ≤ now)
    (hcalls : m'.calls = m.calls ++
      [.ending (ms now) (ms (m.scanner.sockets.timeout fd) - ms cfg.connectTimeout) fate.kind])
    (hclock : m'.clock = now) (hsent : m'.sent = m.sent) (hended : m'.ended = m.ended ++ [now]) :
    Recorded cfg first m' sendCount (if fate = .timedOut then delCount + 1 else delCount) (pre ++ post) := by
  obtain ⟨start, hstart, hprobe, htimeout⟩ := h.pending fd (by simp)
  have helapsed : (elapsed (ms now) (ms (m.scanner.sockets.timeout fd) - ms cfg.connectTimeout)).toInt =
      now - start := by
    rw [htimeout, ms_sub]
    exact elapsed_ms (by omega) (by omega)
  refine ⟨h.good.ends hqueued hends, ?_, ?_, ?_, ?_, ?_, ?_, ?_, ?_, ?_⟩
  · rw [hclock, hcalls]
    exact h.ordered.call hle hnow (Call.ending_time ..)
  · rw [hsent, hends.packetsSent.2]
    exact h.sent
  · rw [hended, hends.fates, List.length_append, List.length_append, h.ended]
    rfl
  · intro g hg
    obtain ⟨start', hstart', hprobe', htimeout'⟩ :=
      h.pending g (List.perm_middle.mem_iff.mpr (List.mem_cons_of_mem _ hg))
    refine ⟨start', by omega, ?_, ?_⟩
    · rw [hsent, hends.probe]
      exact hprobe'
    · exact (hends.timeout g).trans htimeout'
  · rw [hcalls, List.filterMap_append, List.filterMap_cons, Call.ending_fd?, hends.packetsSent.2]
    simpa using h.packets
  · rw [hcalls, List.filterMap_append, List.filterMap_cons, Call.ending_ending?, hends.fates, hended, hsent,
      endings_append h.ended _ _ hprobe, h.endings, helapsed, toNat_ms hnow]
    simp
  · intro time start' hmem
    rw [hcalls] at hmem
    rcases List.mem_append.mp hmem with hmem | hmem
    · exact h.overdue time start' hmem
    · have heq := List.mem_singleton.mp hmem
      cases fate with
      | timedOut =>
        cases heq
        have hdue := hdue rfl
        rw [helapsed]
        omega
      | event e => cases heq
      | returned o => cases heq
  · rw [hcalls, List.filterMap_append, List.filterMap_cons, Call.ending_sendCount?, hends.packetsSent.2, hends.fates,
      List.countP_append, List.countP_singleton]
    simpa [hfate] using h.sends
  · have hdeletes := h.deletes
    rw [hcalls, List.filterMap_append, List.filterMap_cons, Call.ending_delCount?, hends.fates,
      List.countP_append, List.countP_singleton]
    simp only [List.filterMap_nil, List.append_nil, decide_eq_true_eq]
    split_ifs <;> push_cast <;> omega

/-! ### The loop that sends -/

theorem attemptCalls_of_lt {sock : Int} (h : sock < -2) (now : Nat) :
    attemptCalls now sock = [.packet (ms now) (.ofInt (-2 - sock))] := by
  rw [attemptCalls, if_pos h, if_neg (by omega)]

theorem attemptCalls_of_ge {sock : Int} (h : -2 ≤ sock) (now : Nat) : attemptCalls now sock =
    [.packet (ms now) (.ofInt sock), .ending (ms now) (ms now) (some (if sock ≥ 0 then 3 else 1))] := by
  rw [attemptCalls, if_neg (by omega), if_pos h]
  split_ifs <;> rfl

theorem attemptCalls_returned {a : Attempt} (hsock : 0 ≤ a.sock) (h : ¬ a.outcome.InProgress) (now : Nat) :
    ∃ fd, attemptCalls now (socket4TryConnect a.sock a.outcome).1 =
      [.packet (ms now) fd, .ending (ms now) (ms now) (Fate.kind (.returned a.outcome))] := by
  by_cases hconnects : a.outcome.Connects
  · rw [hconnects.returns hsock, Fate.kind, if_pos hconnects]
    dsimp only
    rw [attemptCalls_of_ge (by omega), if_pos hsock]
    exact ⟨_, rfl⟩
  have hret : (socket4TryConnect a.sock a.outcome).1 = -1 ∨ (socket4TryConnect a.sock a.outcome).1 = -2 := by
    by_cases hleaks : a.outcome.Leaks
    · rw [hleaks.returns hsock]
      exact setSocketBlocking_fails hleaks.2.2
    · obtain ⟨ret, e, hr, hret⟩ := socket4TryConnect_closes hsock hconnects h hleaks
      rw [hr]
      exact hret
  rw [attemptCalls_of_ge (by omega), if_neg (by omega), Fate.kind, if_neg hconnects]
  exact ⟨_, rfl⟩

theorem attemptCalls_waits {a : Attempt} (hsock : 0 < a.sock) (h : a.outcome.InProgress) (now : Nat) :
    ∃ fd, attemptCalls now (socket4TryConnect a.sock a.outcome).1 = [.packet (ms now) fd] := by
  rw [h.returns (by omega)]
  dsimp only
  rw [attemptCalls_of_lt (by omega)]
  exact ⟨_, rfl⟩

/-- With a connection in progress on the fd 0 `try_connect` ends the process. -/
theorem tryConnect_zero {s : Scanner} {a : Attempt} (hsock : a.sock = 0) (h : a.outcome.InProgress) :
    tryConnect cfg s a = none := by
  unfold tryConnect
  dsimp only
  rw [if_neg (by omega), h.returns (by omega), hsock]
  cases (if cfg.bindIpN ≠ 0 ∨ cfg.bindPort ≠ 0 then
      bindLoop (if SendsCanary cfg s.packetsSent then cfg.canaryPort else a.port) a.binds cfg.bindMaxRetries
        cfg.bindPort s.logs
    else some s.logs) with
  | none => rfl
  | some logs => rfl

theorem Recorded.resolved {a : Attempt} {t : Scanner} {now : Nat} (h : Recorded cfg first m sendCount delCount fds)
    (hsock : 0 ≤ a.sock) (hfresh : a.sock ∉ m.scanner.opened) (hle : m.clock ≤ now) (hnow : now ≤ a.now)
    (hlt : a.now < 2 ^ 64) (hresolved : Resolved m.scanner t a) :
    Recorded cfg first { m with
      scanner := { t with clock := a.now }
      calls := m.calls ++ attemptCalls now (socket4TryConnect a.sock a.outcome).1
      clock := a.now
      sent := m.sent ++ [now]
      ended := m.ended ++ [now] } sendCount delCount fds := by
  obtain ⟨fd, hcalls⟩ := attemptCalls_returned hsock hresolved.outcome now
  have hlast : (m.sent ++ [now])[m.scanner.probes]? = some now := by
    rw [← h.sent, List.getElem?_concat_length]
  have helapsed : (elapsed (ms now) (ms now)).toInt = 0 := by
    rw [elapsed_ms (Nat.le_refl now) (by omega), sub_self]
  rw [hcalls]
  refine ⟨(h.good.resolved hfresh hresolved).clock a.now, ?_, ?_, ?_, ?_, ?_, ?_, ?_, ?_, ?_⟩
  · have hpacket := h.ordered.call (c := .packet (ms now) fd) hle (by omega) rfl
    have hret := hpacket.call (c := .ending (ms now) (ms now) (Fate.kind (.returned a.outcome))) (Nat.le_refl now)
      (by omega) (Call.ending_time ..)
    rw [List.append_assoc] at hret
    exact hret.later hnow
  · dsimp only
    rw [hresolved.packetsSent.2, List.length_append, h.sent]
    rfl
  · dsimp only
    rw [hresolved.fates, List.length_append, List.length_append, h.ended]
    rfl
  · intro g hg
    obtain ⟨start, hstart, hprobe, htimeout⟩ := h.pending g hg
    refine ⟨start, by dsimp only; omega, ?_, ?_⟩
    · dsimp only
      rw [hresolved.probe]
      exact (List.getElem?_append_left (List.getElem?_eq_some_iff.mp hprobe).1).trans hprobe
    · exact (congrArg (fun l => SocketList.timeout l g) hresolved.sockets).trans htimeout
  · dsimp only
    rw [List.filterMap_append, List.filterMap_cons, List.filterMap_cons, Call.ending_fd?, hresolved.packetsSent.2,
      ← h.packets]
    simp [Call.fd?]
  · dsimp only
    rw [hresolved.fates, endings_append h.ended _ _ hlast, endings_sent h.probe_lt, List.filterMap_append, h.endings,
      List.filterMap_cons, List.filterMap_cons, Call.ending_ending?, helapsed, toNat_ms (by omega)]
    simp [Call.ending?]
  · intro time start hmem
    rcases List.mem_append.mp hmem with hmem | hmem
    · exact h.overdue time start hmem
    · simp [Call.ending, Fate.kind] at hmem
  · have hsends := h.sends
    dsimp only
    rw [hresolved.fates, List.countP_append, List.filterMap_append, List.filterMap_cons, List.filterMap_cons,
      Call.ending_sendCount?, hresolved.packetsSent.2, List.countP_singleton, Fate.immediate, if_pos rfl]
    simp only [Call.sendCount?, List.filterMap_nil, List.append_nil]
    omega
  · dsimp only
    rw [hresolved.fates, List.countP_append, List.filterMap_append, List.filterMap_cons, List.filterMap_cons,
      Call.ending_delCount?]
    simpa [Call.delCount?] using h.deletes

theorem Recorded.waits {a : Attempt} {t : Scanner} {now : Nat} (h : Recorded cfg first m sendCount delCount fds)
    (hsock : 0 < a.sock) (hfresh : a.sock ∉ m.scanner.opened) (hle : m.clock ≤ now) (hnow : now ≤ a.now)
    (hlt : a.now < 2 ^ 64) (hroom : m.scanner.sockets.numSockets < cfg.maxPendingSockets)
    (hwaits : Waits cfg m.scanner t a) :
    Recorded cfg first { m with
      scanner := { t with registered := t.registered ++ [a.sock], clock := a.now }
      sendCount := m.sendCount + 1
      calls := m.calls ++ attemptCalls now (socket4TryConnect a.sock a.outcome).1
      clock := a.now
      sent := m.sent ++ [a.now] } (sendCount + 1) delCount (fds ++ [a.sock]) := by
  obtain ⟨fd, hcalls⟩ := attemptCalls_waits hsock hwaits.outcome now
  obtain ⟨hhigh, hsockets⟩ := hwaits.sockets
  have hlast : (m.sent ++ [a.now])[m.scanner.probes]? = some a.now := by
    rw [← h.sent, List.getElem?_concat_length]
  rw [hcalls]
  refine ⟨(h.good.waits hfresh (by omega) hroom hwaits).clock a.now, ?_, ?_, ?_, ?_, ?_, ?_, ?_, ?_, ?_⟩
  · exact (h.ordered.call (c := .packet (ms now) fd) hle (by omega) rfl).later hnow
  · dsimp only
    rw [hwaits.packetsSent.2, List.length_append, h.sent]
    rfl
  · dsimp only
    rw [hwaits.fates]
    exact h.ended
  · intro g hg
    dsimp only
    rw [hwaits.probe, hsockets, timeout_add (by omega)]
    rcases List.mem_append.mp hg with hg | hg
    · have hne : g ≠ a.sock := fun heq => hfresh (heq ▸ h.good.opened g hg)
      obtain ⟨start, hstart, hprobe, htimeout⟩ := h.pending g hg
      rw [Function.update_of_ne hne, if_neg hne]
      exact ⟨start, by omega, (List.getElem?_append_left (List.getElem?_eq_some_iff.mp hprobe).1).trans hprobe,
        htimeout⟩
    · rw [List.mem_singleton.mp hg, Function.update_self, if_pos rfl]
      exact ⟨a.now, Nat.le_refl _, hlast, rfl⟩
  · dsimp only
    rw [List.filterMap_append, hwaits.packetsSent.2, ← h.packets]
    simp [Call.fd?]
  · dsimp only
    rw [hwaits.fates, endings_sent h.probe_lt, List.filterMap_append, h.endings]
    simp [Call.ending?]
  · intro time start hmem
    rcases List.mem_append.mp hmem with hmem | hmem
    · exact h.overdue time start hmem
    · simp at hmem
  · have hsends := h.sends
    dsimp only
    rw [hwaits.fates, List.filterMap_append, hwaits.packetsSent.2, List.filterMap_cons]
    simp only [Call.sendCount?, List.filterMap_nil, List.append_nil]
    omega
  · dsimp only
    rw [hwaits.fates, List.filterMap_append, List.filterMap_cons]
    simpa [Call.delCount?] using h.deletes

/-! ### The rest of the iteration -/

theorem toInt_ofNat_lt {n : Nat} (h : n < 2 ^ 31) : (Int32.ofNat n).toInt = n := Int32.toInt_ofNat_of_lt h

/-- A call that is not about one probe. -/
theorem Recorded.logged {c : Call} {now left deleted : Nat} (h : Recorded cfg first m sendCount delCount fds)
    (hle : m.clock ≤ now) (hnow : now < 2 ^ 64) (hc : c.time = ms now) (hfd : c.fd? = none) (hending : c.ending? = none)
    (hsends : c.sendCount?.getD 0 + left = sendCount) (hdeletes : c.delCount?.getD 0 + deleted = delCount) :
    Recorded cfg first { m with calls := m.calls ++ [c], clock := now } left deleted fds := by
  refine ⟨h.good, h.ordered.call hle hnow hc, h.sent, h.ended, ?_, ?_, ?_, ?_, ?_, ?_⟩
  · intro fd hmem
    obtain ⟨start, hstart, hpending⟩ := h.pending fd hmem
    exact ⟨start, hstart.trans hle, hpending⟩
  · rw [List.filterMap_append, List.filterMap_cons_none hfd, List.filterMap_nil, List.append_nil]
    exact h.packets
  · rw [List.filterMap_append, List.filterMap_cons_none hending, List.filterMap_nil, List.append_nil]
    exact h.endings
  · intro time start hmem
    rcases List.mem_append.mp hmem with hmem | hmem
    · exact h.overdue time start hmem
    · rw [← List.mem_singleton.mp hmem] at hending
      cases hending
  · have hsum : ([c].filterMap Call.sendCount?).sum = c.sendCount?.getD 0 := by
      cases hcount : c.sendCount? <;> simp [hcount]
    have hbefore := h.sends
    dsimp only
    rw [List.filterMap_append, List.sum_append, hsum]
    omega
  · have hsum : ([c].filterMap Call.delCount?).sum = c.delCount?.getD 0 := by
      cases hcount : c.delCount? <;> simp [hcount]
    have hbefore := h.deletes
    dsimp only
    rw [List.filterMap_append, List.sum_append, hsum]
    omega

theorem Recorded.waited {now woken events : Nat} {failed : Bool} (h : Recorded cfg first m m.sendCount delCount fds)
    (hcount : m.sendCount < 2 ^ 31) (hnow : m.clock ≤ now) (hwoken : now ≤ woken) (hlt : woken < 2 ^ 64) :
    Recorded cfg first (m.wait now woken failed events) 0 delCount fds := by
  have hsends : (Int32.ofNat m.sendCount).toInt + (0 : Nat) = m.sendCount := by
    rw [toInt_ofNat_lt hcount]
    omega
  have hsendinfo := h.logged (c := .sendinfo (ms now) (ms m.sendStart) (.ofNat m.sendCount)) hnow (by omega) rfl rfl
    rfl hsends (zero_add _)
  have hepoll := hsendinfo.logged
    (c := .epoll (ms woken) (if failed then -1 else .ofNat events) (.ofNat (epollTimeout m.scanner now)))
    hwoken hlt rfl rfl rfl (zero_add _) (zero_add _)
  simp only [List.append_assoc, List.singleton_append] at hepoll
  exact { hepoll with good := hepoll.good.timeout _ }

theorem Recorded.handled {event : (Int × Events) × Nat}
    (h : Recorded cfg first m sendCount delCount (pre ++ event.1.1 :: post)) (hle : m.clock ≤ event.2)
    (hlt : event.2 < 2 ^ 64) (hsoon : event.2 + cfg.connectTimeout < m.scanner.sockets.timeout event.1.1 + 2 ^ 31) :
    Recorded cfg first (m.handleEvent cfg event) sendCount delCount (pre ++ post) := by
  have hends : Ends m.scanner (m.handleEvent cfg event).scanner event.1.1 (.event event.1.2) _ _ :=
    handleEvent_ends cfg m.scanner event.1.1 event.1.2
  exact h.ends hends And.left rfl hle hlt hsoon (fun htimedOut => by cases htimedOut) rfl rfl rfl rfl

theorem Recorded.sweptOut {now : Nat} {fd : Int} (h : Recorded cfg first m sendCount delCount (fd :: post))
    (hle : m.clock ≤ now) (hlt : now < 2 ^ 64) (hdue : m.scanner.sockets.timeout fd ≤ now)
    (hsoon : now + cfg.connectTimeout < m.scanner.sockets.timeout fd + 2 ^ 31) :
    Recorded cfg first (m.sweepOut cfg now fd).2 sendCount (delCount + 1) post := by
  have hfirst : Recorded cfg first m sendCount delCount ([] ++ fd :: post) := h
  have hends : Ends m.scanner (m.sweepOut cfg now fd).2.scanner fd .timedOut _ _ := sweepOut_ends cfg m.scanner fd
  exact hfirst.ends hends False.elim rfl hle hlt hsoon (fun _ => hdue) rfl rfl rfl rfl

/-- The loop over the events: the times are in order, and what is pending then was pending before. -/
theorem Recorded.eventsHandled {events : List ((Int × Events) × Nat)}
    (h : Recorded cfg first m sendCount delCount fds) (later : Nat) (hnodup : (events.map (·.1.1)).Nodup)
    (hmem : ∀ e ∈ events, e.1.1 ∈ fds) (htimes : (m.clock :: events.map Prod.snd).Pairwise (· ≤ ·))
    (hclock : m.clock ≤ later) (hlate : ∀ e ∈ events, e.2 ≤ later) (hlt : later < 2 ^ 64)
    (hsoon : ∀ fd ∈ fds, later + cfg.connectTimeout < m.scanner.sockets.timeout fd + 2 ^ 31) :
    ∃ fds', Recorded cfg first (events.foldl (Measured.handleEvent cfg) m) sendCount delCount fds' ∧
      (events.foldl (Measured.handleEvent cfg) m).clock ≤ later ∧
      ∀ fd ∈ fds', later + cfg.connectTimeout <
        (events.foldl (Measured.handleEvent cfg) m).scanner.sockets.timeout fd + 2 ^ 31 := by
  induction events generalizing m fds with
  | nil => exact ⟨fds, h, hclock, hsoon⟩
  | cons e events ih =>
    obtain ⟨pre, post, rfl⟩ := List.mem_iff_append.mp (hmem e List.mem_cons_self)
    obtain ⟨hfresh, hnodup⟩ := List.nodup_cons.mp hnodup
    obtain ⟨hfirst, htimes⟩ := List.pairwise_cons.mp htimes
    have hle : e.2 ≤ later := hlate e List.mem_cons_self
    have hsoon' := hsoon e.1.1 (by simp)
    have hkept := h.handled (hfirst e.2 List.mem_cons_self) (by omega) (by omega)
    refine ih hkept hnodup (fun e' he' => ?_) htimes hle (fun e' he' => hlate e' (List.mem_cons_of_mem _ he'))
      fun fd hfd => ?_
    · have hne : e'.1.1 ≠ e.1.1 := fun heq => hfresh (List.mem_map.mpr ⟨e', he', heq⟩)
      have hpending := hmem e' (List.mem_cons_of_mem _ he')
      rw [List.perm_middle.mem_iff, List.mem_cons] at hpending
      exact hpending.resolve_left hne
    · have htimeout : (m.handleEvent cfg e).scanner.sockets.timeout fd = m.scanner.sockets.timeout fd :=
        (handleEvent_ends cfg m.scanner e.1.1 e.1.2).timeout fd
      rw [htimeout]
      exact hsoon fd (List.perm_middle.mem_iff.mpr (List.mem_cons_of_mem _ hfd))

/-- The sweep: `del_count` is the number of sockets that it takes out. -/
theorem Recorded.swept (h : Recorded cfg first m sendCount delCount fds) (now fuel : Nat)
    (hclock : m.clock ≤ now) (hlt : now < 2 ^ 64)
    (hsoon : ∀ fd ∈ fds, now + cfg.connectTimeout < m.scanner.sockets.timeout fd + 2 ^ 31) :
    let r := Measured.sweep cfg now fuel m.scanner.sockets.firstFd (m, delCount)
    ∃ fds', Recorded cfg first r.1 sendCount r.2 fds' ∧ r.1.clock ≤ now ∧ r.2 ≤ delCount + fds.length := by
  induction fuel generalizing m delCount fds with
  | zero => exact ⟨fds, h, hclock, Nat.le_add_right _ _⟩
  | succ fuel ih =>
    intro r
    have hrep := h.good.list
    by_cases hgo : m.scanner.sockets.firstFd ≠ -1 ∧
        (m.scanner.sockets.entries m.scanner.sockets.firstFd).timeout ≤ now
    swap
    · have hr : r = (m, delCount) := if_neg hgo
      rw [hr]
      exact ⟨fds, h, hclock, Nat.le_add_right _ _⟩
    obtain ⟨fd, post, rfl⟩ := List.exists_cons_of_ne_nil (hrep.first_ne.mp hgo.1)
    have hfirst : m.scanner.sockets.firstFd = fd := hrep.first
    have hr : r = Measured.sweep cfg now fuel (m.sweepOut cfg now m.scanner.sockets.firstFd).1
        ((m.sweepOut cfg now m.scanner.sockets.firstFd).2, delCount + 1) := if_pos hgo
    rw [hfirst] at hgo hr
    have hkept := h.sweptOut hclock hlt hgo.2 (hsoon fd List.mem_cons_self)
    have hnext : (m.sweepOut cfg now fd).1 = (m.sweepOut cfg now fd).2.scanner.sockets.firstFd := by
      have hdel : m.scanner.sockets.Represents ([] ++ fd :: post) := hrep
      rw [hkept.good.list.first]
      exact (sweepOut_next cfg m.scanner fd).trans hdel.del.2
    obtain ⟨fds', hrest, hdone, hcount⟩ := ih hkept (Nat.le_refl now) fun g hg => by
      have htimeout : (m.sweepOut cfg now fd).2.scanner.sockets.timeout g = m.scanner.sockets.timeout g :=
        (sweepOut_ends cfg m.scanner fd).timeout g
      rw [htimeout]
      exact hsoon g (List.mem_cons_of_mem _ hg)
    rw [hr, hnext]
    refine ⟨fds', hrest, hdone, hcount.trans ?_⟩
    rw [List.length_cons]
    omega

theorem Recorded.finished {later deleted next : Nat} (h : Recorded cfg first m 0 delCount fds)
    (hcount : delCount < 2 ^ 31) (hdeleted : m.clock ≤ deleted) (hnext : deleted ≤ next) (hlt : next < 2 ^ 64) :
    Recorded cfg first (m.finish later deleted next delCount) 0 0 fds := by
  have hdeletes : (Int32.ofNat delCount).toInt + (0 : Nat) = delCount := by
    rw [toInt_ofNat_lt hcount]
    omega
  have hdelinfo := h.logged (c := .delinfo (ms deleted) (ms later) (.ofNat delCount)) hdeleted (by omega) rfl rfl rfl
    (zero_add _) hdeletes
  refine { hdelinfo with ordered := hdelinfo.ordered.later hnext, pending := fun fd hfd => ?_ }
  obtain ⟨start, hstart, hpending⟩ := hdelinfo.pending fd hfd
  exact ⟨start, hstart.trans hnext, hpending⟩

theorem Recorded.clocked {later : Nat} (h : Recorded cfg first m sendCount delCount fds) (hle : m.clock ≤ later) :
    Recorded cfg first { m with scanner := { m.scanner with clock := later }, clock := later } sendCount delCount
      fds where
  good := h.good.clock later
  ordered := h.ordered.later hle
  sent := h.sent
  ended := h.ended
  pending fd hfd := (h.pending fd hfd).imp fun _ hstart => ⟨hstart.1.trans hle, hstart.2⟩
  packets := h.packets
  endings := h.endings
  overdue := h.overdue
  sends := h.sends
  deletes := h.deletes

theorem Recorded.polled {now woken later deleted next : Nat} {failed : Bool} {events : List ((Int × Events) × Nat)}
    (h : Recorded cfg first m m.sendCount 0 fds) (hcount : m.sendCount ≤ fds.length)
    (hmax : cfg.maxPendingSockets < 2 ^ 31)
    (hreads : Reads cfg m (.poll now woken failed events later deleted next)) :
    ∃ fds', Recorded cfg first (m.poll cfg now woken failed events later deleted next) 0 0 fds' := by
  obtain ⟨⟨-, -, hnodup, hmem⟩, -, htimes, hlt, hsoon⟩ := hreads
  simp only [List.pairwise_cons, List.pairwise_append, List.mem_cons, List.mem_append] at htimes
  obtain ⟨hclock, hnow, hwoken, hevents, ⟨hlater, hdeleted, -⟩, hlast⟩ := htimes
  have hbounded := h.good.bounded
  have hwait : Recorded cfg first (m.wait now woken failed events.length) 0 0 fds :=
    h.waited (by omega) (hclock now (by simp)) (hnow woken (by simp)) (by have := hwoken next (by simp); omega)
  obtain ⟨fds₁, hhandled, hclock₁, hsoon₁⟩ := hwait.eventsHandled later
    (by rwa [List.map_map] at hnodup)
    (fun e he => (h.good.registered _).mp (hmem e.1 (List.mem_map_of_mem he)))
    (List.pairwise_cons.mpr ⟨fun t ht => hwoken t (Or.inl ht), hevents⟩)
    (hwoken later (by simp)) (fun e he => hlast e.2 (List.mem_map_of_mem he) later (by simp))
    (by have := hlater next (by simp); omega) (fun fd hfd => hsoon fd ((h.good.registered fd).mpr hfd))
  have hstart := hhandled.clocked hclock₁
  obtain ⟨fds₂, hswept, hclock₂, hdelCount⟩ := hstart.swept later
    (events.foldl (Measured.handleEvent cfg) (m.wait now woken failed events.length)).scanner.sockets.numSockets.toNat
    (Nat.le_refl later) (by have := hlater next (by simp); omega) hsoon₁
  have hbounded₁ := hhandled.good.bounded
  exact ⟨fds₂, hswept.finished (by omega) (hclock₂.trans (hlater deleted (by simp))) (hdeleted next (by simp)) hlt⟩

/-! ### Whole runs -/

theorem Recorded.step {i : MeasuredInput} (h : Recorded cfg first m m.sendCount 0 fds)
    (hcount : m.sendCount ≤ fds.length) (hmax : cfg.maxPendingSockets < 2 ^ 31) (hreads : Reads cfg m i)
    (hstep : m.step cfg i = some m') :
    ∃ fds', Recorded cfg first m' m'.sendCount 0 fds' ∧ m'.sendCount ≤ fds'.length := by
  cases i with
  | attempt now a =>
    obtain ⟨⟨-, hsock⟩, hle, hnow, hlt⟩ := hreads
    simp only [Measured.step] at hstep
    by_cases hroom : m.scanner.sockets.numSockets < cfg.maxPendingSockets
    swap
    · rw [if_neg hroom] at hstep
      cases hstep
    rw [if_pos hroom] at hstep
    obtain ⟨⟨t, tfd⟩, htry, hstep⟩ := Option.bind_eq_some_iff.mp hstep
    dsimp only at hstep
    rcases hsock with hfail | ⟨hlow, hfresh⟩
    · simp [tryConnect, hfail] at htry
    rcases tryConnect_cases htry hlow with ⟨rfl, hresolved⟩ | ⟨rfl, hwaits⟩
    · rw [if_neg (by decide)] at hstep
      cases hstep
      exact ⟨fds, h.resolved hlow hfresh hle hnow hlt hresolved, hcount⟩
    · have hpos : 0 < a.sock := by
        refine lt_of_le_of_ne hlow fun hzero => ?_
        rw [tryConnect_zero hzero.symm hwaits.outcome] at htry
        cases htry
      rw [if_pos hlow] at hstep
      split_ifs at hstep
      cases hstep
      refine ⟨fds ++ [a.sock], h.waits hpos hfresh hle hnow hlt hroom hwaits, ?_⟩
      rw [List.length_append]
      exact Nat.add_le_add_right hcount 1
  | poll now woken failed events later deleted next =>
    simp only [Measured.step] at hstep
    split_ifs at hstep
    cases hstep
    obtain ⟨fds', hpolled⟩ := h.polled hcount hmax hreads
    exact ⟨fds', hpolled, Nat.zero_le _⟩

theorem run_recorded {entries : Int → SocketListEntry} {size : Int} (hmax : cfg.maxPendingSockets < 2 ^ 31)
    (h : Reaches (Measured.step cfg) (Reads cfg) (.start entries size first) m) :
    ∃ fds, Recorded cfg first m m.sendCount 0 fds := by
  obtain ⟨fds, hrecorded, -⟩ := h.invariant
    (fun m => ∃ fds, Recorded cfg first m m.sendCount 0 fds ∧ m.sendCount ≤ fds.length)
    ⟨[], start_recorded cfg entries size first, Nat.le_refl 0⟩
    fun m i m' ⟨fds, hrecorded, hcount⟩ hreads hstep => hrecorded.step hcount hmax hreads hstep
  exact ⟨fds, hrecorded⟩

end Keep

end Cscan.Scan
