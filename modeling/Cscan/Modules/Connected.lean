import Cscan.Modules.Check
import Cscan.Modules.Frame

/-! Which descriptors the modules talk on: only `-1` stands for no connection where they test it, and
`socket4_connect` also returns `-2`. -/

namespace Cscan.Modules

open Cscan.Lib Cscan.Scan

/-- `ts_socket` was called for `fd`, and what came after it was on `fd`. -/
structure Uses (fd : Int) (s : State) : Prop where
  opened : .fcntl fd ∈ s.trace
  events : ∀ e ∈ s.trace, ∀ f, e.fd = some f → f = fd

theorem Uses.event {fd : Int} {s : State} {e : Event} (h : Uses fd s) (he : e.fd = none ∨ e.fd = some fd) :
    Uses fd (s.event e) := by
  refine ⟨List.mem_append_left _ h.opened, fun e' he' f hf => ?_⟩
  rcases List.mem_append.mp he' with he' | he'
  · exact h.events e' he' f hf
  · rw [List.mem_singleton.mp he'] at hf
    rcases he with he | he
    · rw [he] at hf
      cases hf
    · rw [he] at hf
      exact (Option.some.inj hf).symm

/-- The socket is `ts`, and all is on `fd`. -/
structure Holds (w : World) (fd : Int) (ts : Tsocket) (s : State) : Prop extends Uses fd s where
  world : s.world = w
  ts : s.ts = ts

/-- A socket for `fd`. It is in TLS only if `tls`, with a context then, unless `wild`. -/
structure Tsocket.For (ts : Tsocket) (w : World) (fd : Int) (wild tls : Prop) : Prop where
  fd_eq : ts.fd = fd
  psFd_eq : ts.psFd = fd
  ctx : w.haveTls = true → ts.isSsl = true → (tls ∧ ts.ctx = true) ∨ wild

/-- The module has its socket. -/
def Conn (w : World) (fd : Int) (wild tls : Prop) (s : State) : Prop :=
  ∃ ts : Tsocket, ts.For w fd wild tls ∧ Holds w fd ts s

/-- The state in which a function does not return. -/
def Breaks {L : Type} (w : World) (fd : Int) (wild : Prop) : Stop L → State → Prop
  | .label _, s => Conn w fd wild True s
  | .wild, s => Uses fd s ∧ wild
  | _, s => Uses fd s

section Layer

variable {L α : Type} {w : World} {fd : Int} {wild tls : Prop} {ts : Tsocket}

theorem Tsocket.For.frame (hts : ts.For w fd wild tls) :
    Frame (Holds w fd ts) (Breaks w fd wild : Stop L → State → Prop) w ts where
  event := by
    rintro s e hs he
    rw [hts.fd_eq, hts.psFd_eq, or_self] at he
    exact ⟨hs.toUses.event he, hs.world, hs.ts⟩
  world hs := hs.world
  socket hs := hs.ts
  pending hs := hs.toUses

theorem Tsocket.For.untamed (hts : ts.For w fd wild tls) (hhave : w.haveTls = true) (hssl : ts.isSsl = true)
    (hctx : ts.ctx = false) : wild := by
  refine (hts.ctx hhave hssl).resolve_left fun h => ?_
  rw [hctx] at h
  cases h.2

/-! ### What the modules call -/

theorem keeps_conn {x : M L α}
    (hx : ∀ ts : Tsocket, ts.For w fd wild tls → Keeps (Holds w fd ts) (Breaks w fd wild) x) :
    Keeps (Conn w fd wild tls) (Breaks w fd wild) x := by
  rintro s ⟨ts, hts, hs⟩
  exact (hx ts hts).post (fun _ _ hs => ⟨ts, hts, hs⟩) s hs

theorem Conn.weaken {s : State} (h : Conn w fd wild tls s) : Conn w fd wild True s := by
  obtain ⟨ts, hts, hs⟩ := h
  exact ⟨ts, ⟨hts.fd_eq, hts.psFd_eq,
    fun hhave hssl => (hts.ctx hhave hssl).imp (And.imp_left fun _ => trivial) id⟩, hs⟩

theorem Conn.uses {s : State} (h : Conn w fd wild tls s) : Uses fd s := by
  obtain ⟨ts, -, hs⟩ := h
  exact hs.toUses

theorem Conn.locals {s : State} (h : Conn w fd wild tls s) (deadline ret : Int) (calls : List Cba.Call) :
    Conn w fd wild tls { s with deadline := deadline, ret := ret, calls := calls } := by
  obtain ⟨ts, hts, hs⟩ := h
  exact ⟨ts, hts, ⟨hs.opened, hs.events⟩, hs.world, hs.ts⟩

theorem keeps_cba (c : Cba.Call) : Keeps (Conn w fd wild tls) (Breaks w fd wild) (cba c : M L Unit) :=
  fun _ hs => hs.locals ..

theorem keeps_setRet (ret : Int) : Keeps (Conn w fd wild tls) (Breaks w fd wild) (setRet ret : M L Unit) :=
  fun _ hs => hs.locals ..

theorem keeps_setDeadline (deadline : Int) :
    Keeps (Conn w fd wild tls) (Breaks w fd wild) (setDeadline deadline : M L Unit) :=
  fun _ hs => hs.locals ..

theorem keeps_getDeadline : Keeps (Conn w fd wild tls) (Breaks w fd wild)
    (getDeadline : M L Int) := fun _ hs => hs

theorem keeps_getMs : Keeps (Conn w fd wild tls) (Breaks w fd wild) (ask .getMs World.getMs : M L Nat) :=
  keeps_conn fun _ hts => hts.frame.keeps_ask (Or.inl rfl)

theorem keeps_jump (l : L) : Keeps (Conn w fd wild tls) (Breaks w fd wild) (jump l : M L α) :=
  Triple.throw fun _ hs => hs.weaken

theorem keeps_tsReadAll (capacity size : Nat) (deadline : Int) :
    Keeps (Conn w fd wild tls) (Breaks w fd wild)
      (tsReadAll capacity size deadline : M L (List UInt8)) := by
  refine keeps_conn fun ts hts =>
    Triple.post (Q := Filled (Holds w fd ts) capacity size) ?_ fun _ _ hs => hs.1
  exact hts.frame.tsReadAll_triple (fun hhave hssl hctx _ hs => ⟨hs.toUses, hts.untamed hhave hssl hctx⟩)
    (fun _ _ _ hs => hs.toUses) deadline

theorem keeps_tsWriteAll (buffer : List UInt8) (size : Nat) (deadline : Int) :
    Keeps (Conn w fd wild tls) (Breaks w fd wild) (tsWriteAll buffer size deadline : M L Bool) :=
  keeps_conn fun _ hts => hts.frame.keeps_tsWriteAll
    (fun hhave hssl hctx _ hs => ⟨hs.toUses, hts.untamed hhave hssl hctx⟩)
    (fun _ _ hs => hs.toUses) deadline

theorem setTs_holds {f : Tsocket → Tsocket} :
    Triple (Holds w fd ts) (setTs f : M L Unit) (fun _ => Holds w fd (f ts)) (Breaks w fd wild) :=
  fun _ hs => ⟨⟨hs.opened, hs.events⟩, hs.world, congrArg f hs.ts⟩

/-- The socket is in TLS if the handshake succeeds. -/
theorem tsGoTls_triple (deadline : Int) :
    Triple (Conn w fd wild False) (tsGoTls deadline : M L Bool) (fun _ => Conn w fd wild True)
      (Breaks w fd wild) := by
  rintro s ⟨ts, hts, hs⟩
  have hpure : ∀ ts' : Tsocket, ts'.For w fd wild True → ∀ b,
      Triple (Holds w fd ts') (pure b : M L Bool) (fun _ => Conn w fd wild True) (Breaks w fd wild) :=
    fun ts' hts' b => Triple.pure fun _ hs' => ⟨ts', hts', hs'⟩
  have hplain : ∀ ctx, { ts with ctx := ctx }.For w fd wild True := fun ctx =>
    ⟨hts.fd_eq, hts.psFd_eq, fun hhave hssl => Or.inr ((hts.ctx hhave hssl).resolve_left fun h => h.1)⟩
  have hready := (hplain true).frame (L := L)
  have hsetup : Triple (Holds w fd ts) (tsGoTls deadline : M L Bool) (fun _ => Conn w fd wild True)
      (Breaks w fd wild) := by
    refine hts.frame.getWorld_triple (Triple.ite (fun _ => ?_) fun _ => hpure ts (hplain ts.ctx) _)
    refine Triple.bind (hts.frame.keeps_ask (Or.inl rfl)) fun _ => Triple.ite (fun _ => ?_) fun _ =>
      hpure ts (hplain ts.ctx) _
    refine Triple.bind setTs_holds fun _ => Triple.bind (hready.keeps_handshakeLoop rfl _ _) fun _ => ?_
    refine Triple.ite (fun _ => Triple.bind setTs_holds fun _ => hpure _ ?_ _) fun _ =>
      Triple.bind setTs_holds fun _ => hpure _ (hplain false) _
    exact ⟨hts.fd_eq, hts.psFd_eq, fun _ _ => Or.inl ⟨trivial, rfl⟩⟩
  exact hsetup s hs

theorem keeps_readOr (label : L) (capacity size : Nat) :
    Keeps (Conn w fd wild tls) (Breaks w fd wild) (readOr label capacity size : M L (List UInt8)) :=
  Keeps.bind keeps_getDeadline fun _ => Keeps.bind (keeps_tsReadAll _ _ _) fun _ =>
    Triple.ite (fun _ => keeps_jump label) fun _ => Keeps.pure _

theorem keeps_writeOr (label : L) (buffer : List UInt8) (size : Nat) :
    Keeps (Conn w fd wild tls) (Breaks w fd wild) (writeOr label buffer size : M L Unit) :=
  Keeps.bind keeps_getDeadline fun _ => Keeps.bind (keeps_tsWriteAll _ _ _) fun _ =>
    Triple.ite (fun _ => Keeps.pure _) fun _ => keeps_jump label

theorem labels_triple {goto : L → M L Unit} {body : M L Unit}
    (hgoto : ∀ l, Keeps (Conn w fd wild True) (Breaks w fd wild) (goto l))
    (hbody : Triple (Conn w fd wild tls) body (fun _ => Conn w fd wild True) (Breaks w fd wild)) :
    Triple (Conn w fd wild tls) (labels goto body) (fun _ => Conn w fd wild True) (Breaks w fd wild) := by
  intro s hs
  have hrun := hbody s hs
  cases hstop : body s with
  | ok a s' =>
    rw [hstop] at hrun
    rw [labels_ok hstop]
    exact hrun
  | error e s' =>
    rw [hstop] at hrun
    cases e with
    | label l =>
      rw [labels_label hstop]
      exact hgoto l s' hrun
    | pending =>
      rw [labels_stop hstop (by simp)]
      exact hrun
    | wild =>
      rw [labels_stop hstop (by simp)]
      exact hrun
    | overrun =>
      rw [labels_stop hstop (by simp)]
      exact hrun

theorem tsClose_triple :
    Triple (Conn w fd wild tls) (tsClose : M L Unit) (fun _ => Uses fd) (Breaks w fd wild) := by
  rintro s ⟨ts, hts, hs⟩
  have hclose : Triple (Holds w fd ts) (tsClose : M L Unit) (fun _ => Uses fd) (Breaks w fd wild) := by
    refine hts.frame.getTs_triple (hts.frame.getWorld_triple ?_)
    refine Triple.bind (hts.frame.keeps_ask (Or.inr (Or.inl rfl))) fun _ =>
      Triple.bind setTs_holds fun _ => ?_
    refine Triple.ite (fun _ => ?_) fun _ => Triple.pure fun _ hs => hs.toUses
    exact fun _ hs => ⟨hs.opened, hs.events⟩
  exact hclose s hs

end Layer

namespace Vnc

variable {w : World} {fd : Int} {wild tls : Prop}

theorem keeps_winAndExit : Keeps (Conn w fd wild tls) (Breaks w fd wild) winAndExit :=
  Keeps.bind (keeps_cba _) fun _ => Keeps.bind (keeps_setRet 1) fun _ => keeps_jump _

theorem keeps_firstTypes (count : Nat) (hasNontls : Bool) :
    Keeps (Conn w fd wild tls) (Breaks w fd wild) (firstTypes count hasNontls) := by
  induction count generalizing hasNontls with
  | zero => exact Keeps.pure _
  | succ count ih =>
    refine Keeps.bind (keeps_readOr _ _ _) fun atype => Triple.ite (fun _ => ?_) fun _ => ?_
    · exact Keeps.bind keeps_winAndExit fun _ => Triple.ite
        (fun _ => Keeps.bind (keeps_cba _) fun _ => ih _)
        fun _ => ih _
    · exact Triple.ite (fun _ => Keeps.bind (keeps_cba _) fun _ => ih _) fun _ => ih _

theorem keeps_tlsTypes (count : Nat) : Keeps (Conn w fd wild tls) (Breaks w fd wild) (tlsTypes count) := by
  induction count with
  | zero => exact Keeps.pure _
  | succ count ih =>
    exact Keeps.bind (keeps_readOr _ _ _) fun atype =>
      Triple.ite (fun _ => Keeps.bind keeps_winAndExit fun _ => ih) fun _ => ih

theorem keeps_readCount : Keeps (Conn w fd wild tls) (Breaks w fd wild) readCount :=
  Keeps.bind (keeps_readOr _ _ _) fun _ =>
    Triple.ite (fun _ => Keeps.bind (keeps_jump _) fun _ => Keeps.pure _) fun _ => Keeps.pure _

theorem goTls_triple :
    Triple (Conn w fd wild False) goTls (fun _ => Conn w fd wild True) (Breaks w fd wild) :=
  Triple.bind keeps_getDeadline fun _ => Triple.bind (tsGoTls_triple _) fun _ =>
    Triple.ite (fun _ => Keeps.pure _) fun _ => Keeps.bind (keeps_cba _) fun _ => keeps_jump _

theorem listedTypes_triple :
    Triple (Conn w fd wild False) listedTypes (fun _ => Conn w fd wild True) (Breaks w fd wild) := by
  refine Triple.bind keeps_readCount fun count => Triple.bind (keeps_setRet 0) fun _ => ?_
  refine Triple.bind (keeps_firstTypes _ _) fun _ => Triple.ite
    (fun _ => Triple.pure fun _ hs => hs.weaken) fun _ => ?_
  refine Triple.bind (keeps_cba _) fun _ => Triple.bind keeps_getDeadline fun _ => ?_
  refine Triple.bind (keeps_setDeadline _) fun _ => Triple.bind (keeps_writeOr _ _ _) fun _ => ?_
  exact Triple.bind goTls_triple fun _ => Triple.bind keeps_readCount keeps_tlsTypes

theorem authMode_triple :
    Triple (Conn w fd wild False) authMode (fun _ => Conn w fd wild True) (Breaks w fd wild) := by
  refine Triple.bind (keeps_readOr _ _ _) fun bytes => Triple.bind (keeps_setRet 0) fun _ => ?_
  refine Triple.mono (P := Conn w fd wild True) ?_ fun _ hs => hs.weaken
  exact Triple.ite (fun _ => keeps_winAndExit) fun _ => Triple.ite (fun _ => keeps_jump _) fun _ =>
    Keeps.pure _

theorem keeps_sprintf (buffer : List UInt8) (text : List Char) :
    Keeps (Conn w fd wild tls) (Breaks w fd wild) (sprintf buffer text) := by
  unfold sprintf
  split
  · exact Keeps.pure _
  · exact Triple.throw fun _ hs => hs.uses

theorem negotiate_triple (version : List UInt8) (v : Option (Int × Int)) :
    Triple (Conn w fd wild False) (negotiate version v)
      (fun _ => Conn w fd wild True) (Breaks w fd wild) := by
  cases v with
  | none =>
    exact Triple.bind (keeps_cba _) fun _ => Triple.bind (keeps_cba _) fun _ =>
      Triple.throw fun _ hs => hs.weaken
  | some v =>
    refine Triple.bind (keeps_sprintf _ _) fun _ => Triple.bind (keeps_writeOr _ _ _) fun _ => ?_
    exact Triple.ite (fun _ => listedTypes_triple) fun _ => authMode_triple

theorem body_triple : Triple (Conn w fd wild False) body (fun _ => Conn w fd wild True)
    (Breaks w fd wild) :=
  Triple.bind (keeps_readOr _ _ _) fun _ => negotiate_triple _ _

theorem keeps_goto (l : Rfb.Label) : Keeps (Conn w fd wild True) (Breaks w fd wild) (goto l) := by
  cases l with
  | exit => exact Keeps.pure _
  | readFail => exact keeps_cba _
  | writeFail => exact keeps_cba _
  | overrun => exact Triple.throw fun _ hs => hs.uses
  | readReason =>
    exact Keeps.bind (keeps_readOr _ _ _) fun _ => Keeps.bind (keeps_readOr _ _ _) fun _ =>
      Keeps.bind (keeps_cba _) fun _ => keeps_cba _

end Vnc

namespace X11

variable {w : World} {fd : Int} {wild : Prop}

theorem body_triple : Triple (Conn w fd wild False) body (fun _ => Conn w fd wild True)
    (Breaks w fd wild) := by
  refine Triple.mono (P := Conn w fd wild True) ?_ fun _ hs => hs.weaken
  have hrest : Keeps (Conn w fd wild True) (Breaks w fd wild) (do
      let deadline ← getDeadline
      let vbuff ← tsReadAll 5 5 deadline
      if vbuff.length = 5 ∧ vbuff[1]? = some 11 then cbaBit good else cbaBit kindaGood : M Label Unit) :=
    Keeps.bind keeps_getDeadline fun _ => Keeps.bind (keeps_tsReadAll _ _ _) fun _ =>
      Triple.ite (fun _ => keeps_cba _) fun _ => keeps_cba _
  refine Keeps.bind (keeps_writeOr _ _ _) fun _ => Keeps.bind (keeps_readOr _ _ _) fun state => ?_
  exact Triple.ite (fun _ => Keeps.bind (keeps_jump _) fun _ => hrest) fun _ => hrest

theorem keeps_goto (l : Label) : Keeps (Conn w fd wild True) (Breaks w fd wild) (goto l) := by
  cases l with
  | exit => exact Keeps.pure _
  | readFail => exact keeps_cba _
  | writeFail => exact keeps_cba _

end X11

/-! ### What `socket4_connect` returns -/

namespace World

/-- The connection is made, and the socket is blocking again. -/
def Established (w : World) : Prop :=
  0 ≤ w.sock ∧ (w.outcome.Connects ∨
    0 < w.sock ∧ w.outcome.InProgress ∧ w.wait.ready = true ∧ w.outcome.blocking = .done)

/-- There is no socket, its flags cannot be set, or `connect` fails in another way than by a refusal. A connection
in progress on the descriptor 0 counts, as its number is the one for an error. -/
def SystemError (w : World) : Prop :=
  w.sock < 0 ∨ w.outcome.nonblocking ≠ .done ∨
  (∃ e, w.outcome.connect = some e ∧ e ≠ .refused ∧ e ≠ .unreachable ∧ e ≠ .inProgress) ∨
  (w.outcome.connect = none ∧ ∃ e, w.outcome.blocking = .setFails e) ∨
  (w.outcome.connect = some .inProgress ∧
    (w.sock = 0 ∨ w.wait.ready = true ∧ ∃ e, w.outcome.blocking = .setFails e))

/-- `ts_socket` cannot set the flags of `fd`, and the memory of `ts.is_ssl` is not zero. -/
def Garbled (w : World) (fd : Int) : Prop :=
  w.haveTls = true ∧ w.isSsl = true ∧ w.setsFlags [.fcntl fd, .fcntl fd] = false

variable {w : World}

theorem conn_of_try {ret : Int} {e : Errno} {closed : Bool} (hsock : 0 ≤ w.sock)
    (htry : socket4TryConnect w.sock w.outcome = (ret, e, closed)) (hret : -2 ≤ ret) : w.conn = ret := by
  unfold conn socket4Connect
  rw [if_neg (by omega), htry]
  exact congrArg Prod.fst (if_pos hret)

theorem conn_inProgress (hsock : 0 < w.sock) (h : w.outcome.InProgress) :
    w.conn = if w.wait.ready = true then setSocketBlocking w.sock w.outcome.blocking else -1 := by
  have hneg : ¬ -w.sock - 2 ≥ -2 := by omega
  have hback : -(-w.sock - 2) - 2 = w.sock := by omega
  unfold conn socket4Connect
  rw [if_neg (by omega), h.returns (by omega)]
  simp only [if_neg hneg, hback]
  split_ifs <;> rfl

theorem conn_error (h : w.SystemError) : w.conn = -2 := by
  by_cases hsock : w.sock < 0
  · exact congrArg Prod.fst (if_pos hsock)
  have hsock : 0 ≤ w.sock := by omega
  by_cases hdone : w.outcome.nonblocking = .done
  · have htry := socket4TryConnect_done hdone hsock
    rcases h with h | h | ⟨e, he, hrefused, hunreachable, hprogress⟩ | ⟨hconnect, e, he⟩ | ⟨hconnect, h⟩
    · omega
    · exact absurd hdone h
    · rw [he] at htry
      have hfails : socket4TryConnect w.sock w.outcome = (-2, e, true) :=
        htry.trans ((if_neg (by simp [hrefused, hunreachable])).trans (if_pos hprogress))
      exact conn_of_try hsock hfails (Int.le_refl (-2))
    · rw [hconnect, he] at htry
      exact conn_of_try hsock htry (Int.le_refl (-2))
    · by_cases hzero : w.sock = 0
      · have hreturns := ConnectOutcome.InProgress.returns ⟨hdone, hconnect⟩ hsock
        rw [conn_of_try hsock hreturns (by omega), hzero]
        rfl
      · obtain ⟨hready, e, he⟩ := h.resolve_left hzero
        rw [conn_inProgress (by omega) ⟨hdone, hconnect⟩, if_pos hready, he]
        rfl
  · exact conn_of_try hsock (if_pos ((setSocketBlocking_neg hsock).mpr hdone)) (Int.le_refl (-2))

theorem conn_established (h : w.Established) : w.conn = w.sock := by
  obtain ⟨hsock, hconnects | ⟨hpos, hprogress, hready, hblocking⟩⟩ := h
  · exact conn_of_try hsock (hconnects.returns hsock) (by omega)
  · rw [conn_inProgress hpos hprogress, if_pos hready, hblocking]
    rfl

theorem conn_cases (w : World) : w.Established ∨ w.SystemError ∨ w.conn = -1 := by
  by_cases hsock : w.sock < 0
  · exact Or.inr (Or.inl (Or.inl hsock))
  have hsock : 0 ≤ w.sock := by omega
  by_cases hdone : w.outcome.nonblocking = .done
  · have htry := socket4TryConnect_done hdone hsock
    cases hconnect : w.outcome.connect with
    | none =>
      rw [hconnect] at htry
      cases hblocking : w.outcome.blocking with
      | done => exact Or.inl ⟨hsock, Or.inl ⟨hdone, hconnect, hblocking⟩⟩
      | getFails e =>
        rw [hblocking] at htry
        exact Or.inr (Or.inr (conn_of_try hsock htry (by decide)))
      | setFails e => exact Or.inr (Or.inl (Or.inr (Or.inr (Or.inr (Or.inl ⟨hconnect, e, hblocking⟩)))))
    | some e =>
      rw [hconnect] at htry
      by_cases hrefused : e = .refused ∨ e = .unreachable
      · exact Or.inr (Or.inr (conn_of_try hsock (htry.trans (if_pos hrefused)) (by decide)))
      obtain ⟨hrefused, hunreachable⟩ := not_or.mp hrefused
      by_cases hprogress : e = .inProgress
      · subst hprogress
        by_cases hzero : w.sock = 0
        · exact Or.inr (Or.inl (Or.inr (Or.inr (Or.inr (Or.inr ⟨hconnect, Or.inl hzero⟩)))))
        have hconn := conn_inProgress (by omega : 0 < w.sock) ⟨hdone, hconnect⟩
        by_cases hready : w.wait.ready = true
        · rw [if_pos hready] at hconn
          cases hblocking : w.outcome.blocking with
          | done => exact Or.inl ⟨hsock, Or.inr ⟨by omega, ⟨hdone, hconnect⟩, hready, hblocking⟩⟩
          | getFails e =>
            rw [hblocking] at hconn
            exact Or.inr (Or.inr hconn)
          | setFails e =>
            exact Or.inr (Or.inl (Or.inr (Or.inr (Or.inr
              (Or.inr ⟨hconnect, Or.inr ⟨hready, e, hblocking⟩⟩)))))
        · exact Or.inr (Or.inr (hconn.trans (if_neg hready)))
      · exact Or.inr (Or.inl (Or.inr (Or.inr (Or.inl ⟨e, hconnect, hrefused, hunreachable, hprogress⟩))))
  · exact Or.inr (Or.inl (Or.inr (Or.inl hdone)))

end World

/-! ### The modules -/

section Runs

variable {L : Type} {w : World} {connFail : Int32} {goto : L → M L Unit} {body : M L Unit}

theorem tsSocket_start (fd : Int) :
    (tsSocket fd : M L Bool) w.start =
      (if w.setsFlags [.fcntl fd, .fcntl fd] then do
        setTs fun ts => { ts with isSsl := false }
        pure true
      else pure false) ⟨w, ⟨fd, fd, w.isSsl, false⟩, [.fcntl fd, .fcntl fd], 0, -1, []⟩ := rfl

theorem tsSocket_triple (fd : Int) :
    Triple (fun s => s = w.start) (tsSocket fd : M L Bool) (fun _ => Conn w fd (w.Garbled fd) False)
      (Breaks w fd (w.Garbled fd)) := by
  rintro s rfl
  have huses : ∀ ts : Tsocket, Uses fd ⟨w, ts, [.fcntl fd, .fcntl fd], 0, -1, []⟩ := by
    refine fun ts => ⟨List.mem_cons_self, fun e he f hf => ?_⟩
    simp only [List.mem_cons, List.not_mem_nil, or_false, or_self] at he
    rw [he] at hf
    cases hf
  rw [tsSocket_start]
  cases hsets : w.setsFlags [.fcntl fd, .fcntl fd] with
  | true => exact ⟨_, ⟨rfl, rfl, fun _ h => by cases h⟩, huses _, rfl, rfl⟩
  | false => exact ⟨_, ⟨rfl, rfl, fun hhave hssl => Or.inr ⟨hhave, hssl, hsets⟩⟩, huses _, rfl, rfl⟩

/-- A module is on the descriptor that it has taken for a connection. -/
theorem check_triple (readTimeout : Int) (hconn : w.conn ≠ -1)
    (hgoto : ∀ l, Keeps (Conn w w.conn (w.Garbled w.conn) True) (Breaks w w.conn (w.Garbled w.conn)) (goto l))
    (hbody : Triple (Conn w w.conn (w.Garbled w.conn) False) body (fun _ => Conn w w.conn (w.Garbled w.conn) True)
      (Breaks w w.conn (w.Garbled w.conn))) :
    Triple (fun s => s = w.start) (check connFail goto body readTimeout) (fun _ => Uses w.conn)
      (Breaks w w.conn (w.Garbled w.conn)) := by
  rintro s rfl
  have hrun : check connFail goto body readTimeout w.start = connected goto body readTimeout w.conn w.start :=
    congrFun (if_neg hconn) w.start
  rw [hrun]
  refine (Triple.bind (tsSocket_triple w.conn) fun _ => ?_ :
    Triple (fun s => s = w.start) _ _ _) w.start rfl
  refine Triple.bind keeps_getMs fun _ => Triple.bind (keeps_setDeadline _) fun _ => ?_
  refine Triple.bind (keeps_setRet _) fun _ =>
    Triple.bind (labels_triple hgoto (labels_triple hgoto hbody)) fun _ => ?_
  exact Triple.bind tsClose_triple fun _ => fun _ hs => hs

theorem check_refused (readTimeout : Int) (hconn : w.conn = -1) :
    check connFail goto body readTimeout w.start =
      .ok (-1) { w.start with calls := [.log (.bit connFail)] } :=
  congrFun (if_pos hconn) w.start

/-! ### A socket that is in TLS without a context -/

/-- The library is called at the first read or write. -/
structure Untamed (s : State) : Prop where
  haveTls : s.world.haveTls = true
  isSsl : s.ts.isSsl = true
  ctx : s.ts.ctx = false

/-- The run ends with a call of the library without a context. -/
abbrev Wild {α : Type} (P : State → Prop) (x : M L α) : Prop :=
  Triple P x (fun _ _ => False) (fun e _ => e = .wild)

theorem mbedtls_wild {α : Type} (e : Event) (call : World → List Event → TlsCall α) :
    Wild Untamed (mbedtls e call : M L (TlsResult α)) := by
  intro s hs
  have hrun : (mbedtls e call : M L (TlsResult α)) s = .error .wild s :=
    congrFun (if_neg (by simp [hs.ctx])) s
  rw [hrun]

theorem readOr_wild (label : L) (capacity size : Nat) :
    Wild Untamed (readOr label capacity (size + 1)) := by
  refine Triple.bind (Q := fun _ => Untamed) (fun _ hs => hs) fun deadline => Triple.stop ?_
  intro s hs
  have hrun : (tsReadAll capacity (size + 1) deadline : M L (List UInt8)) s = readLoop
      (s.world.haveTls && s.ts.isSsl) s.ts.fd capacity (size + 1) deadline (s.world.turns + 1) [] s := rfl
  rw [hrun, hs.haveTls, hs.isSsl]
  exact (Triple.ite (fun h => absurd h (by simp)) fun _ => Triple.stop (mbedtls_wild _ _) :
    Triple Untamed _ _ _) s hs

theorem writeOr_wild (label : L) {buffer : List UInt8} {size : Nat} (hsize : size + 1 ≤ buffer.length) :
    Wild Untamed (writeOr label buffer (size + 1)) := by
  refine Triple.bind (Q := fun _ => Untamed) (fun _ hs => hs) fun deadline => Triple.stop ?_
  intro s hs
  have hrun : (tsWriteAll buffer (size + 1) deadline : M L Bool) s = writeLoop
      (s.world.haveTls && s.ts.isSsl) s.ts.fd deadline (s.world.turns + 1) (buffer.take (size + 1)) s :=
    congrFun (if_neg (Nat.not_lt.mpr hsize)) s
  have hleft : buffer.take (size + 1) ≠ [] := by
    rw [← List.length_pos_iff, List.length_take]
    omega
  rw [hrun, hs.haveTls, hs.isSsl]
  exact (Triple.ite (fun h => absurd h hleft) fun _ => Triple.stop (mbedtls_wild _ _) :
    Triple Untamed _ _ _) s hs

theorem labels_wild {P : State → Prop} (hbody : Wild P body) : Wild P (labels goto body) := by
  intro s hs
  have hrun := hbody s hs
  cases hstop : body s with
  | ok a s' =>
    rw [hstop] at hrun
    exact hrun.elim
  | error e s' =>
    rw [hstop] at hrun
    obtain rfl : e = .wild := hrun
    rw [labels_stop hstop (by simp)]

theorem tsSocket_untamed (hgarbled : w.Garbled w.conn) :
    Triple (fun s => s = w.start) (tsSocket w.conn : M L Bool) (fun _ => Untamed)
      (fun e _ => e = .wild) := by
  rintro s rfl
  obtain ⟨hhave, hssl, hsets⟩ := hgarbled
  rw [tsSocket_start, hsets]
  exact ⟨hhave, hssl, rfl⟩

theorem check_wild (readTimeout : Int) (hconn : w.conn ≠ -1) (hgarbled : w.Garbled w.conn)
    (hbody : Wild Untamed body) :
    Wild (fun s => s = w.start) (check connFail goto body readTimeout) := by
  rintro s rfl
  have hrun : check connFail goto body readTimeout w.start = connected goto body readTimeout w.conn w.start :=
    congrFun (if_neg hconn) w.start
  rw [hrun]
  refine (Triple.bind (tsSocket_untamed hgarbled) fun _ => ?_ :
    Triple (fun s => s = w.start) _ _ _) w.start rfl
  refine Triple.bind (Q := fun _ => Untamed) (fun _ hs => ⟨hs.haveTls, hs.isSsl, hs.ctx⟩) fun _ => ?_
  refine Triple.bind (Q := fun _ => Untamed) (fun _ hs => ⟨hs.haveTls, hs.isSsl, hs.ctx⟩) fun _ => ?_
  refine Triple.bind (Q := fun _ => Untamed) (fun _ hs => ⟨hs.haveTls, hs.isSsl, hs.ctx⟩) fun _ => ?_
  exact Triple.stop (labels_wild (labels_wild hbody))

end Runs

/-! ### The modules -/

def final {L : Type} : EStateM.Result (Stop L) State Int → State
  | .ok _ s => s
  | .error _ s => s

/-- A run of a module has I/O on the connection alone, and without one it logs `connFail` and has no I/O. -/
structure TalksConnected {L : Type} (w : World) (connFail : Int32) (r : EStateM.Result (Stop L) State Int) :
    Prop where
  fds : ∀ e ∈ (final r).trace, ∀ fd, e.fd = some fd → w.Established ∧ fd = w.sock
  tame : ∀ s, r ≠ .error .wild s
  silent : ¬ w.Established → ∃ s, r = .ok (-1) s ∧ s.calls = [.log (.bit connFail)] ∧ s.trace = []

inductive Module
  | vnc
  | x11

/-- The run of `check_vnc` or `check_x11`, up to where it leaves a buffer if it does. -/
def Module.Talks (w : World) (readTimeout : Int) : Module → Prop
  | vnc => TalksConnected w Rfb.connFail (checkVnc readTimeout w.start)
  | x11 => TalksConnected w X11.connFail (checkX11 readTimeout w.start)

theorem check_talks_iff {L : Type} {w : World} {connFail : Int32} {goto : L → M L Unit} {body : M L Unit}
    (readTimeout : Int)
    (hgoto : ∀ l, Keeps (Conn w w.conn (w.Garbled w.conn) True) (Breaks w w.conn (w.Garbled w.conn)) (goto l))
    (hbody : Triple (Conn w w.conn (w.Garbled w.conn) False) body (fun _ => Conn w w.conn (w.Garbled w.conn) True)
      (Breaks w w.conn (w.Garbled w.conn)))
    (hwild : Wild Untamed body) :
    TalksConnected w connFail (check connFail goto body readTimeout w.start) ↔
      ¬ w.SystemError ∧ ¬ (w.Established ∧ w.Garbled w.sock) := by
  have huses : w.conn ≠ -1 → Triple (fun s => s = w.start) (check connFail goto body readTimeout)
      (fun _ => Uses w.conn) (Breaks w w.conn (w.Garbled w.conn)) :=
    fun hconn => check_triple readTimeout hconn hgoto hbody
  constructor
  · intro htalks
    refine ⟨fun herror => ?_, fun ⟨hestablished, hgarbled⟩ => ?_⟩
    · have hconn := World.conn_error herror
      have hnone : ¬ w.Established := by
        intro hestablished
        have hsock := World.conn_established hestablished
        have hpos := hestablished.1
        omega
      obtain ⟨s, hrun, -, htrace⟩ := htalks.silent hnone
      have hopened := huses (by omega) w.start rfl
      rw [hrun] at hopened
      have hfcntl := hopened.opened
      rw [htrace] at hfcntl
      cases hfcntl
    · have hsock := World.conn_established hestablished
      have hpos := hestablished.1
      have hstop : Wild (fun s => s = w.start) (check connFail goto body readTimeout) :=
        check_wild readTimeout (by omega) (hsock ▸ hgarbled) hwild
      have hrun := hstop w.start rfl
      cases hcheck : check connFail goto body readTimeout w.start with
      | ok ret s =>
        rw [hcheck] at hrun
        exact hrun
      | error e s =>
        rw [hcheck] at hrun
        obtain rfl : e = .wild := hrun
        exact htalks.tame s hcheck
  · rintro ⟨hno, hsane⟩
    rcases w.conn_cases with hestablished | herror | hconn
    · have hsock := World.conn_established hestablished
      have hpos := hestablished.1
      have hrun := huses (by omega) w.start rfl
      have hfds : ∀ s, Uses w.conn s → ∀ e ∈ s.trace, ∀ fd, e.fd = some fd → w.Established ∧ fd = w.sock :=
        fun s hs e he fd hfd => ⟨hestablished, (hs.events e he fd hfd).trans hsock⟩
      cases hcheck : check connFail goto body readTimeout w.start with
      | ok ret s =>
        rw [hcheck] at hrun
        refine ⟨hfds s hrun, ?_, fun h => absurd hestablished h⟩
        rintro s' heq
        cases heq
      | error e s =>
        rw [hcheck] at hrun
        refine ⟨hfds s ?_, ?_, fun h => absurd hestablished h⟩
        · cases e with
          | label l => exact hrun.uses
          | pending => exact hrun
          | wild => exact hrun.1
          | overrun => exact hrun
        · rintro s' heq
          cases heq
          exact hsane ⟨hestablished, hsock ▸ hrun.2⟩
    · exact absurd herror hno
    · rw [check_refused readTimeout hconn]
      refine ⟨?_, ?_, fun _ => ⟨_, rfl, rfl, rfl⟩⟩
      · intro e he
        cases he
      · rintro s heq
        cases heq

/-- `check_vnc` and `check_x11` talk on a connection alone, and without one they log that and do nothing else, unless
`socket4_connect` meets an error of the system,
or `ts_socket` fails and leaves a socket that is not in TLS as if it
were. -/
theorem talks_iff (m : Module) (w : World) (readTimeout : Int) :
    m.Talks w readTimeout ↔ ¬ w.SystemError ∧ ¬ (w.Established ∧ w.Garbled w.sock) := by
  cases m with
  | vnc =>
    exact check_talks_iff readTimeout Vnc.keeps_goto Vnc.body_triple
      (Triple.stop (readOr_wild _ _ _))
  | x11 =>
    refine check_talks_iff readTimeout X11.keeps_goto X11.body_triple (Triple.stop (writeOr_wild _ ?_))
    decide

/-- The kernel has no descriptor left for a socket, and answers each call for a negative one as it does: `fcntl`,
`read` and `write` fail, and `poll` waits until its timeout. -/
def noSocket : World where
  haveTls := false
  isSsl := false
  turns := 0
  sock := -1
  outcome := ⟨.done, none, .done⟩
  wait := ⟨0, false, false, false⟩
  getMs := fun _ => 1000
  setsFlags := fun _ => false
  poll := fun _ => (0, false)
  read := fun _ => .error .other
  write := fun _ => .error .other
  sslSetup := fun _ => false
  handshake := fun _ => .done .failed
  sslRead := fun _ => .done .failed
  sslWrite := fun _ => .done .failed

theorem noSocket_polled :
    (final (checkVnc 4500 noSocket.start)).trace =
      [.fcntl (-2), .fcntl (-2), .getMs, .getMs, .poll (-2) false 4500, .close (-2)] ∧
    (final (checkVnc 4500 noSocket.start)).calls = [] ∧ ¬ Module.vnc.Talks noSocket 4500 := by
  have htrace : (final (checkVnc 4500 noSocket.start)).trace =
      [.fcntl (-2), .fcntl (-2), .getMs, .getMs, .poll (-2) false 4500, .close (-2)] := by decide +kernel
  have hcalls : (final (checkVnc 4500 noSocket.start)).calls = [] := by decide +kernel
  refine ⟨htrace, hcalls, fun htalks => ?_⟩
  have hclose := htalks.fds (.close (-2)) (by simp [htrace]) (-2) rfl
  have hsock : -2 = noSocket.sock := hclose.2
  cases hsock

end Cscan.Modules
