import Cscan.Scan.Outcomes

/-! The addresses in the scanner: those that are queued or pending are those that were drawn, and the
canary's. -/

namespace Cscan.Scan

open Cscan.Lib SocketList

/-- Every address that is queued or pending is one of these. -/
structure Addresses (P : UInt32 → Prop) (s : Scanner) : Prop where
  results : ∀ r ∈ s.results, P r.ip
  pending : ∀ fd ∈ s.registered, P (s.sockets.entries fd).ip

/-- The address that an attempt goes to. -/
def Scanner.target (cfg : Config) (s : Scanner) (a : Attempt) : UInt32 :=
  if SendsCanary cfg s.packetsSent then cfg.canaryIp else a.ip

def Scanner.targetPort (cfg : Config) (s : Scanner) (a : Attempt) : Int32 :=
  if SendsCanary cfg s.packetsSent then cfg.canaryPort else a.port

variable {cfg : Config} {s s' : Scanner} {a : Attempt} {P : UInt32 → Prop}

theorem start_addresses (entries : Int → SocketListEntry) (size : Int) :
    Addresses P (.start entries size) := ⟨by simp [Scanner.start], by simp [Scanner.start]⟩

/-! ### What a step does to the addresses -/

theorem add_ip {l : SocketList} {fd : Int} (hfd : fd ≠ l.size) (ip : UInt32) (port : Int32)
    (timeout : Nat) (g : Int) :
    ((l.add fd ip port timeout).entries g).ip = if g = fd then ip else (l.entries g).ip := by
  have hdata := congrArg (fun data => (data g).2.1) (add_data hfd ip port timeout)
  by_cases hg : g = fd
  · subst hg
    simpa [SocketList.data] using hdata
  · simpa [SocketList.data, hg] using hdata

theorem del_ip (l : SocketList) (fd g : Int) : ((l.del fd).2.entries g).ip = (l.entries g).ip :=
  congrArg (fun data => (data g).2.1) (del_data l fd)

/-- An attempt queues where it went to, or nothing. -/
theorem tryConnect_queues {tfd : Int} (h : tryConnect cfg s a = some (s', tfd)) :
    s'.results = s.results ∨
      s'.results = s.results ++ [⟨s.probes, s.target cfg a, s.targetPort cfg a⟩] := by
  unfold tryConnect at h
  dsimp only at h
  by_cases hsock : a.sock = -1
  · rw [if_pos hsock] at h
    cases h
  rw [if_neg hsock] at h
  rw [Scanner.target, Scanner.targetPort]
  generalize (if SendsCanary cfg s.packetsSent then cfg.canaryIp else a.ip) = ip at h ⊢
  generalize (if SendsCanary cfg s.packetsSent then cfg.canaryPort else a.port) = port at h ⊢
  obtain ⟨logs, -, h⟩ := Option.bind_eq_some_iff.mp h
  generalize socket4TryConnect a.sock a.outcome = r at h
  obtain ⟨sock, errno, closed⟩ := r
  dsimp only at h
  generalize ht : Scanner.count cfg _ (sock ≥ -2) = t at h
  have hcount : t.results = s.results := by
    rw [← ht, count_results]
    cases closed with
    | false => rfl
    | true => rfl
  split_ifs at h
  · cases h
    exact Or.inl hcount
  · cases h
    exact Or.inl hcount
  · cases h
    exact Or.inr (congrArg (· ++ _) hcount)
  · cases h
    exact Or.inl hcount

theorem tryConnect_results {tfd : Int} (h : tryConnect cfg s a = some (s', tfd)) :
    s'.results = s.results ∨ ∃ port, s'.results = s.results ++ [⟨s.probes, s.target cfg a, port⟩] :=
  (tryConnect_queues h).imp_right fun hresults => ⟨_, hresults⟩

theorem Addresses.attempted {tfd : Int} (h : Addresses P s) (htarget : P (s.target cfg a))
    (hsock : 0 ≤ a.sock) (htry : tryConnect cfg s a = some (s', tfd)) :
    Addresses P s' ∧ (0 ≤ tfd → P (s'.sockets.entries tfd).ip) := by
  have hresults : ∀ r ∈ s'.results, P r.ip := by
    intro r hr
    rcases tryConnect_results htry with heq | ⟨port, heq⟩
    · exact h.results r (heq ▸ hr)
    · rw [heq] at hr
      rcases List.mem_append.mp hr with hr | hr
      · exact h.results r hr
      · rw [List.mem_singleton.mp hr]
        exact htarget
  rcases tryConnect_cases htry hsock with ⟨rfl, hresolved⟩ | ⟨rfl, hwaits⟩
  · refine ⟨⟨hresults, fun fd hfd => ?_⟩, fun h => absurd h (by decide)⟩
    rw [hresolved.sockets]
    exact h.pending fd (hresolved.registered.1 fd hfd)
  · obtain ⟨hsize, hsockets⟩ := hwaits.sockets
    have hip : ∀ g, (s'.sockets.entries g).ip =
        if g = a.sock then s.target cfg a else (s.sockets.entries g).ip := fun g => by
      rw [hsockets]
      exact add_ip (by omega) ..
    refine ⟨⟨hresults, fun fd hfd => ?_⟩, fun _ => ?_⟩
    · rw [hip]
      split_ifs
      · exact htarget
      · exact h.pending fd (hwaits.registered ▸ hfd)
    · rw [hip, if_pos rfl]
      exact htarget

/-- An event queues what the entry of its socket has, or nothing. -/
theorem handleEvent_queues (cfg : Config) (s : Scanner) (e : Int × Events) :
    (handleEvent cfg s e).results = s.results ∨ (handleEvent cfg s e).results =
      s.results ++ [⟨s.probe e.1, (s.sockets.entries e.1).ip, (s.sockets.entries e.1).port⟩] := by
  unfold handleEvent
  dsimp only
  split_ifs
  · exact Or.inl rfl
  · exact Or.inl rfl
  · exact Or.inr rfl
  · exact Or.inl rfl

theorem handleEvent_results (cfg : Config) (s : Scanner) (e : Int × Events) :
    (handleEvent cfg s e).results = s.results ∨ ∃ port, (handleEvent cfg s e).results =
      s.results ++ [⟨s.probe e.1, (s.sockets.entries e.1).ip, port⟩] :=
  (handleEvent_queues cfg s e).imp_right fun hresults => ⟨_, hresults⟩

theorem Addresses.handled {e : Int × Events} (h : Addresses P s) (he : e.1 ∈ s.registered) :
    Addresses P (handleEvent cfg s e) := by
  have hends := handleEvent_ends cfg s e.1 e.2
  constructor
  · intro r hr
    rcases handleEvent_results cfg s e with heq | ⟨port, heq⟩
    · exact h.results r (heq ▸ hr)
    · rw [heq] at hr
      rcases List.mem_append.mp hr with hr | hr
      · exact h.results r hr
      · rw [List.mem_singleton.mp hr]
        exact h.pending e.1 he
  · intro fd hfd
    rw [hends.sockets, del_ip]
    exact h.pending fd (List.mem_filter.mp (hends.registered ▸ hfd)).1

theorem Addresses.eventsHandled {events : List (Int × Events)} (h : Addresses P s)
    (hnodup : (events.map Prod.fst).Nodup) (hevents : ∀ e ∈ events, e.1 ∈ s.registered) :
    Addresses P (events.foldl (handleEvent cfg) s) := by
  induction events generalizing s with
  | nil => exact h
  | cons e events ih =>
    obtain ⟨hfresh, hnodup⟩ := List.nodup_cons.mp hnodup
    obtain ⟨he, hrest⟩ := List.forall_mem_cons.mp hevents
    refine ih (h.handled he) hnodup fun e' he' => ?_
    rw [(handleEvent_ends cfg s e.1 e.2).registered]
    have hne : e'.1 ≠ e.1 := fun heq => hfresh (heq ▸ List.mem_map_of_mem he')
    exact List.mem_filter.mpr ⟨hrest e' he', decide_eq_true hne⟩

theorem Addresses.sweptOut (h : Addresses P s) (fd : Int) : Addresses P (sweepOut cfg s fd).2 := by
  have hends := sweepOut_ends cfg s fd
  constructor
  · intro r hr
    rcases hends.results with ⟨-, heq, -⟩ | ⟨hfalse, -⟩
    · exact h.results r (heq ▸ hr)
    · exact hfalse.elim
  · intro g hg
    rw [hends.sockets, del_ip]
    exact h.pending g (List.mem_filter.mp (hends.registered ▸ hg)).1

theorem Addresses.swept (h : Addresses P s) (now fuel : Nat) (fd : Int) :
    Addresses P (sweep cfg now fuel fd s) := by
  induction fuel generalizing s fd with
  | zero => exact h
  | succ fuel ih =>
    rw [sweep]
    split_ifs
    · exact ih (h.sweptOut fd) _
    · exact h

/-- A step to an address that counts keeps all addresses so. -/
theorem Addresses.step {i : Input} (h : Addresses P s) (hanswers : Answers s i)
    (htarget : ∀ a, i = .attempt a → P (s.target cfg a)) (hstep : step cfg s i = some s') :
    Addresses P s' := by
  cases i with
  | poll now events later =>
    simp only [Scan.step] at hstep
    split_ifs at hstep
    cases hstep
    have htimeout : Addresses P { s with timeout := epollTimeout s now } := ⟨h.results, h.pending⟩
    have hevents : Addresses P (events.foldl (handleEvent cfg) { s with timeout := epollTimeout s now }) :=
      htimeout.eventsHandled hanswers.2.2.1 hanswers.2.2.2
    have hclock : Addresses P { events.foldl (handleEvent cfg)
        { s with timeout := epollTimeout s now } with clock := later } := ⟨hevents.results, hevents.pending⟩
    exact hclock.swept ..
  | attempt a =>
    simp only [Scan.step] at hstep
    by_cases hroom : s.sockets.numSockets < cfg.maxPendingSockets
    swap
    · rw [if_neg hroom] at hstep
      cases hstep
    rw [if_pos hroom] at hstep
    obtain ⟨⟨t, tfd⟩, htry, hstep⟩ := Option.bind_eq_some_iff.mp hstep
    rcases hanswers.2 with hfail | ⟨hsock, -⟩
    · simp [tryConnect, hfail] at htry
    obtain ⟨ht, hpending⟩ := h.attempted (htarget a rfl) hsock htry
    dsimp only at hstep
    split_ifs at hstep with htfd
    · cases hstep
      refine ⟨ht.results, fun fd hfd => ?_⟩
      rcases List.mem_append.mp hfd with hfd | hfd
      · exact ht.pending fd hfd
      · rw [List.mem_singleton.mp hfd]
        exact hpending htfd
    · cases hstep
      exact ⟨ht.results, ht.pending⟩

/-! ### An attempt that connects at once -/

theorem bindLoop_binds (port : Int32) (retries : Nat) (toBind : Int) (logs : List Log) :
    bindLoop port (fun _ => none) retries toBind logs = some logs := by
  cases retries <;> rfl

/-- A target that is connected at once is queued. -/
theorem step_connects {ip : UInt32} {port : Int32} (hroom : s.sockets.numSockets < cfg.maxPendingSockets) :
    let a : Attempt := ⟨ip, port, 3, fun _ => none, ⟨.done, none, .done⟩, s.clock, true⟩
    ∃ s', step cfg s (.attempt a) = some s' ∧ s'.sockets = s.sockets ∧ 3 ∉ s'.opened ∧
      s'.packetsSent = s.packetsSent + 1 ∧
      ∃ port, s'.results = s.results ++ [⟨s.probes, s.target cfg a, port⟩] := by
  intro a
  have htry : ∃ t, tryConnect cfg s a = some (t, -1) ∧
      ∃ port, t.results = s.results ++ [⟨s.probes, s.target cfg a, port⟩] := by
    have hbound : (if cfg.bindIpN ≠ 0 ∨ cfg.bindPort ≠ 0 then
        bindLoop (if SendsCanary cfg s.packetsSent then cfg.canaryPort else a.port) a.binds cfg.bindMaxRetries
          cfg.bindPort s.logs else some s.logs) = some s.logs := by
      by_cases hbinds : cfg.bindIpN ≠ 0 ∨ cfg.bindPort ≠ 0
      · rw [if_pos hbinds]
        exact bindLoop_binds ..
      · rw [if_neg hbinds]
    have hsock : a.sock ≠ -1 := show (3 : Int) ≠ -1 by decide
    have hconnects : socket4TryConnect a.sock a.outcome = (3, .other, false) := rfl
    unfold tryConnect
    rw [if_neg hsock, hbound, hconnects]
    refine ⟨_, rfl, if SendsCanary cfg s.packetsSent then cfg.canaryPort else a.port, ?_⟩
    simp [Scanner.ended, Scanner.close, Scanner.queueResult, Scanner.target]
  obtain ⟨t, htry, hresults⟩ := htry
  have hresolved : Resolved s t a := by
    rcases tryConnect_cases htry (show (0 : Int) ≤ 3 by decide) with ⟨-, h⟩ | ⟨h, -⟩
    · exact h
    · cases h
  have hsocket := hresolved.socket
  rw [if_neg (fun hleaks => hleaks.2.2 rfl)] at hsocket
  refine ⟨{ t with clock := a.now }, ?_, hresolved.sockets, hsocket.1, hresolved.packetsSent.1, hresults⟩
  simp only [Scan.step, if_pos hroom, htry]
  rfl

end Cscan.Scan
