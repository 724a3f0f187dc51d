import Cscan.Scan.Outcomes

/-! Who owns a socket when `try_connect` or `socket4_connect` returns. -/

namespace Cscan.Scan

open SocketList

/-- `bind` fails in a way that ends the process. -/
def BindFails (cfg : Config) (a : Attempt) : Prop :=
  (cfg.bindIpN ≠ 0 ∨ cfg.bindPort ≠ 0) ∧
    bindLoop 0 a.binds cfg.bindMaxRetries cfg.bindPort [] = none

/-- When `try_connect` returns, the socket is closed once and not listed, or open and listed once under
the fd returned; and a connection in progress is not reported as an error. -/
def TryConnectOwns (cfg : Config) (s : Scanner) (a : Attempt) : Prop :=
  (∀ s' tfd, tryConnect cfg s a = some (s', tfd) → ∃ fds, s'.sockets.Represents fds ∧
    ((s'.closes = s.closes ++ [a.sock] ∧ a.sock ∉ s'.opened ∧ a.sock ∉ fds ∧ tfd = -1) ∨
      (s'.closes = s.closes ∧ a.sock ∈ s'.opened ∧ fds.count a.sock = 1 ∧ tfd = a.sock))) ∧
  (a.outcome.InProgress → (socket4TryConnect a.sock a.outcome).1 ≠ -1 ∧
    (socket4TryConnect a.sock a.outcome).1 ≠ -2)

/-- `socket4_connect` returns the connected socket, open, or has closed it. -/
def ConnectOwns (sock : Int) (o : ConnectOutcome) (p : PollOutcome) : Prop :=
  ((socket4Connect sock o p).1 = sock ∧ (socket4Connect sock o p).2 = false ∧
      (o.connect = none ∨ (o.InProgress ∧ p.ready))) ∨
    ((socket4Connect sock o p).1 < 0 ∧ (socket4Connect sock o p).2 = true)

/-- `try_connect` returns without the socket that it connected. -/
structure LosesSocket (cfg : Config) (a : Attempt) : Prop where
  bound : ¬ BindFails cfg a
  leaks : a.outcome.Leaks
  returns : ∀ e, a.outcome.blocking = .setFails e → e = .addrInUse ∨ e = .addrNotAvail

theorem bindLoop_none (binds : Int → Option Errno) (port port' : Int32) (retries : Nat) (toBind : Int)
    (logs logs' : List Log) (h : bindLoop port binds retries toBind logs = none) :
    bindLoop port' binds retries toBind logs' = none := by
  induction retries generalizing toBind logs logs' with
  | zero => cases h
  | succ retries ih =>
    rw [bindLoop] at h ⊢
    cases hbind : binds toBind with
    | none =>
      rw [hbind] at h
      cases h
    | some e =>
      rw [hbind] at h
      cases e with
      | addrInUse =>
        dsimp only at h ⊢
        split_ifs at h ⊢
        exact ih _ _ _ h
      | refused => rfl
      | unreachable => rfl
      | inProgress => rfl
      | addrNotAvail => rfl
      | other => rfl

/-- With a socket that was connected and is not blocking again, `try_connect` returns or ends the process. -/
theorem tryConnect_returns_iff {cfg : Config} {s : Scanner} {a : Attempt} (hsock : 0 ≤ a.sock)
    (hleaks : a.outcome.Leaks) : (∃ r, tryConnect cfg s a = some r) ↔ LosesSocket cfg a := by
  unfold tryConnect
  dsimp only
  rw [if_neg (by omega), hleaks.returns hsock]
  generalize (if SendsCanary cfg s.packetsSent then cfg.canaryPort else a.port) = port
  cases hbound : (if cfg.bindIpN ≠ 0 ∨ cfg.bindPort ≠ 0 then
      bindLoop port a.binds cfg.bindMaxRetries cfg.bindPort s.logs else some s.logs) with
  | none =>
    refine iff_of_false (fun h => nomatch h) fun hloses => hloses.bound ?_
    split_ifs at hbound with hbinds
    exact ⟨hbinds, bindLoop_none _ _ _ _ _ _ _ hbound⟩
  | some logs =>
    have hbinds : ¬ BindFails cfg a := fun ⟨hbinds, hfails⟩ => by
      rw [if_pos hbinds, bindLoop_none _ _ _ _ _ _ _ hfails] at hbound
      cases hbound
    rw [Option.bind_some]
    cases hblocking : a.outcome.blocking with
    | done => exact absurd hblocking hleaks.2.2
    | getFails e =>
      have hloses : LosesSocket cfg a := ⟨hbinds, hleaks, fun e' h => nomatch hblocking.symm.trans h⟩
      exact iff_of_true ⟨_, rfl⟩ hloses
    | setFails e =>
      by_cases hclash : e = .addrInUse ∨ e = .addrNotAvail
      · refine iff_of_true ⟨_, if_pos ⟨rfl, hclash⟩⟩ ⟨hbinds, hleaks, fun e' h => ?_⟩
        rwa [Fcntl.setFails.inj (hblocking.symm.trans h)] at hclash
      · refine iff_of_false ?_ fun hloses => hclash (hloses.returns e hblocking)
        rintro ⟨r, hreturns⟩
        exact nomatch (((if_neg fun h => hclash h.2).trans (if_pos rfl)).symm.trans hreturns)

theorem tryConnect_owns_iff {cfg : Config} {s : Scanner} {fds : List Int} {a : Attempt}
    (hlist : s.sockets.Represents fds) (hopened : ∀ fd ∈ fds, fd ∈ s.opened) (hsock : 0 ≤ a.sock)
    (hfresh : a.sock ∉ s.opened) :
    TryConnectOwns cfg s a ↔ ¬ LosesSocket cfg a ∧ ¬ (a.outcome.InProgress ∧ a.sock = 0) := by
  have hfd : a.sock ∉ fds := fun hmem => hfresh (hopened _ hmem)
  constructor
  · rintro ⟨howned, hcode⟩
    constructor
    · intro hloses
      obtain ⟨⟨s', tfd⟩, hreturns⟩ := (tryConnect_returns_iff (s := s) hsock hloses.leaks).mpr hloses
      rcases tryConnect_cases hreturns hsock with ⟨rfl, hresolved⟩ | ⟨-, hwaits⟩
      · have hsocket := hresolved.socket
        rw [if_pos hloses.leaks] at hsocket
        obtain ⟨fds', -, hclosed | hlisted⟩ := howned _ _ hreturns
        · exact hclosed.2.1 hsocket.1
        · have htfd := hlisted.2.2.2
          omega
      · exact nomatch hloses.leaks.2.1.symm.trans hwaits.outcome.2
    · rintro ⟨hprogress, hzero⟩
      have hret := hprogress.returns hsock
      rw [hzero] at hret
      exact (hcode hprogress).2 (by rw [hzero, hret]; rfl)
  · rintro ⟨hkeeps, hzero⟩
    refine ⟨fun s' tfd hreturns => ?_, fun hprogress => ?_⟩
    · rcases tryConnect_cases hreturns hsock with ⟨rfl, hresolved⟩ | ⟨rfl, hwaits⟩
      · refine ⟨fds, hresolved.sockets ▸ hlist, Or.inl ?_⟩
        have hsocket := hresolved.socket
        have hleaks : ¬ a.outcome.Leaks := fun hleaks =>
          hkeeps ((tryConnect_returns_iff hsock hleaks).mp ⟨_, hreturns⟩)
        rw [if_neg hleaks] at hsocket
        exact ⟨hsocket.2, hsocket.1, hfd, rfl⟩
      · obtain ⟨hhigh, hadd⟩ := hwaits.sockets
        refine ⟨fds ++ [a.sock], hadd ▸ hlist.add hfd hsock hhigh _ _ _, Or.inr ?_⟩
        refine ⟨hwaits.closes, hwaits.opened ▸ List.mem_cons_self, ?_, rfl⟩
        rw [List.count_append, List.count_eq_zero_of_not_mem hfd, List.count_singleton_self]
    · have hne : a.sock ≠ 0 := fun h => hzero ⟨hprogress, h⟩
      rw [hprogress.returns hsock]
      omega

theorem socket4Connect_owns_iff {sock : Int} {o : ConnectOutcome} {p : PollOutcome}
    (hsock : 0 ≤ sock) :
    ConnectOwns sock o p ↔
      ¬ o.Leaks ∧ ¬ (o.InProgress ∧ (sock = 0 ∨ (p.ready ∧ o.blocking ≠ .done))) := by
  unfold ConnectOwns socket4Connect
  rw [if_neg (Int.not_lt.mpr hsock)]
  by_cases hconnects : o.Connects
  · rw [hconnects.returns hsock]
    have hleaks : ¬ o.Leaks := fun h => h.2.2 hconnects.2.2
    have hprogress : ¬ o.InProgress := fun h => nomatch hconnects.2.1.symm.trans h.2
    refine iff_of_true (Or.inl ?_) ⟨hleaks, fun h => hprogress h.1⟩
    dsimp only
    rw [if_pos (by omega)]
    exact ⟨rfl, rfl, Or.inl hconnects.2.1⟩
  by_cases hleaks : o.Leaks
  · rw [hleaks.returns hsock]
    refine iff_of_false ?_ fun h => h.1 hleaks
    have hret : setSocketBlocking sock o.blocking = -1 ∨ setSocketBlocking sock o.blocking = -2 :=
      setSocketBlocking_fails hleaks.2.2
    dsimp only
    rw [if_pos (by omega)]
    rintro (⟨heq, -⟩ | ⟨-, hclosed⟩)
    · dsimp only at heq
      omega
    · cases hclosed
  by_cases hprogress : o.InProgress
  · rw [hprogress.returns hsock]
    by_cases hzero : sock = 0
    · refine iff_of_false ?_ fun h => h.2 ⟨hprogress, Or.inl hzero⟩
      subst hzero
      rintro (⟨heq, -⟩ | ⟨-, hclosed⟩)
      · cases heq
      · cases hclosed
    have hback : -(-sock - 2) - 2 = sock := by omega
    dsimp only
    rw [if_neg (by omega), hback]
    by_cases hready : p.ready
    · rw [if_pos hready]
      by_cases hblocking : o.blocking = .done
      · refine iff_of_true (Or.inl ⟨?_, rfl, Or.inr ⟨hprogress, hready⟩⟩) ⟨hleaks, ?_⟩
        · rw [hblocking]
          rfl
        · rintro ⟨-, hsock' | ⟨-, hfails⟩⟩
          · exact hzero hsock'
          · exact hfails hblocking
      · refine iff_of_false ?_ fun h => h.2 ⟨hprogress, Or.inr ⟨hready, hblocking⟩⟩
        have hret : setSocketBlocking sock o.blocking = -1 ∨ setSocketBlocking sock o.blocking = -2 :=
          setSocketBlocking_fails hblocking
        rintro (⟨heq, -⟩ | ⟨-, hclosed⟩)
        · dsimp only at heq
          omega
        · cases hclosed
    · rw [if_neg hready]
      refine iff_of_true (Or.inr ⟨by decide, rfl⟩) ⟨hleaks, ?_⟩
      rintro ⟨-, hsock' | ⟨hready', -⟩⟩
      · exact hzero hsock'
      · exact hready hready'
  · obtain ⟨ret, e, hr, hret⟩ := socket4TryConnect_closes hsock hconnects hprogress hleaks
    rw [hr]
    refine iff_of_true (Or.inr ?_) ⟨hleaks, fun h => hprogress h.1⟩
    dsimp only
    rw [if_pos (by omega)]
    exact ⟨by dsimp only; omega, rfl⟩

/-- A new socket is owned by the list, by the caller or by nobody, unless the connected socket cannot be
made blocking again or the connection in progress has the fd 0. -/
theorem sockets_owned_iff {cfg : Config} {s : Scanner} {fds : List Int} {a : Attempt} {sock : Int}
    {o : ConnectOutcome} {p : PollOutcome} (hlist : s.sockets.Represents fds)
    (hopened : ∀ fd ∈ fds, fd ∈ s.opened) (ha : 0 ≤ a.sock) (hfresh : a.sock ∉ s.opened)
    (hsock : 0 ≤ sock) :
    (TryConnectOwns cfg s a ↔ ¬ LosesSocket cfg a ∧ ¬ (a.outcome.InProgress ∧ a.sock = 0)) ∧
      (ConnectOwns sock o p ↔
        ¬ o.Leaks ∧ ¬ (o.InProgress ∧ (sock = 0 ∨ (p.ready ∧ o.blocking ≠ .done)))) :=
  ⟨tryConnect_owns_iff hlist hopened ha hfresh, socket4Connect_owns_iff hsock⟩

/-- The connection to a target that answers at once, when `F_GETFL` fails on its socket. -/
def lostAttempt : Attempt where
  ip := 0x0a000001
  port := 80
  sock := 3
  binds := fun _ => none
  outcome := ⟨.done, none, .getFails .other⟩
  now := 0
  epollAdd := true

def plainConfig : Config := ⟨1, 100, 0, 0, 10, 0, 80, 5600, 1000⟩

theorem sockets_owned_plain :
    TryConnectOwns plainConfig (.start (fun _ => ⟨0, 0, 0, 0, 0⟩) 10)
        { lostAttempt with outcome := ⟨.done, some .inProgress, .done⟩ } ∧
      ConnectOwns 3 ⟨.done, some .inProgress, .done⟩ ⟨1, true, false, false⟩ := by
  have howned := @sockets_owned_iff plainConfig (.start (fun _ => ⟨0, 0, 0, 0, 0⟩) 10) []
    { lostAttempt with outcome := ⟨.done, some .inProgress, .done⟩ } 3
    ⟨.done, some .inProgress, .done⟩ ⟨1, true, false, false⟩ (init_represents _ _) (by simp) (by decide)
    (by decide) (by decide)
  exact ⟨howned.1.mpr ⟨fun hloses => absurd hloses.leaks (by decide), by decide⟩,
    howned.2.mpr (by decide)⟩

theorem fcntl_failure_loses_socket :
    ¬ TryConnectOwns plainConfig (.start (fun _ => ⟨0, 0, 0, 0, 0⟩) 10) lostAttempt ∧
      ¬ ConnectOwns 0 ⟨.done, some .inProgress, .done⟩ ⟨1, true, false, false⟩ := by
  have hloses : LosesSocket plainConfig lostAttempt :=
    ⟨fun h => absurd h.1 (by decide), by decide, fun e h => nomatch h⟩
  refine ⟨fun h => ?_, fun h => ?_⟩
  · exact ((tryConnect_owns_iff (init_represents _ _) (by simp) (by decide) (by decide)).mp h).1 hloses
  · exact ((socket4Connect_owns_iff (by decide)).mp h).2 (by decide)

end Cscan.Scan
