import Cscan.Modules.Connected
import Cscan.Rfb.Bounds

/-! `check_vnc` on the layer of `ts.c` does what `check_vnc` does against a server that is known by what it sends: for
each run there is such a server, which is found from the end of the run on. -/

namespace Cscan.Modules

open Cscan.Lib

/-- What a server still does. -/
structure Left where
  incoming : List UInt8
  tls : Option (List UInt8)
  writes : Nat

/-- The module has returned and logged the same. -/
def Logged (s : State) (t : Rfb.Session) : Prop := t.ret = s.ret ∧ t.calls = s.calls

/-- The module reads and writes by the library. -/
def InTls (s : State) : Prop := (s.world.haveTls && s.ts.isSsl) = true ∧ s.ts.ctx = true

structure Stands (left : Left) (s : State) (t : Rfb.Session) : Prop where
  incoming : t.incoming = left.incoming
  tls : t.tls = left.tls
  writes : t.writes = left.writes
  isSsl : InTls s → t.isSsl = true
  logged : Logged s t

/-- No code at a label but the one at `read_reason` reads. -/
def StandsAt (left : Left) : Rfb.Label → State → Rfb.Session → Prop
  | .readReason, s, t => Stands left s t
  | _, s, t => Logged s t

section Simulations

variable {α β : Type}

/-- What a run of the module and a run against the server come to, where the server still does `left`. -/
def Agree (left : Left) :
    EStateM.Result (Stop Rfb.Label) State α → EStateM.Result Rfb.Label Rfb.Session α → Prop
  | .ok a s, .ok b t => a = b ∧ Stands left s t
  | .error (.label l) s, .error l' t => l = l' ∧ StandsAt left l s t
  | .error .overrun s, .error .overrun t => Logged s t
  | .error .pending _, _ => True
  | .error .wild _, _ => True
  | _, _ => False

theorem Agree.ok {left : Left} {a : α} {s : State} {r : EStateM.Result Rfb.Label Rfb.Session α}
    (h : Agree left (.ok a s) r) : ∃ t, r = .ok a t ∧ Stands left s t := by
  cases r with
  | ok b t =>
    obtain ⟨rfl, ht⟩ := h
    exact ⟨t, rfl, ht⟩
  | error l t => exact h.elim

theorem Agree.label {left : Left} {l : Rfb.Label} {s : State} {r : EStateM.Result Rfb.Label Rfb.Session α}
    (h : Agree left (.error (.label l) s) r) : ∃ t, r = .error l t ∧ StandsAt left l s t := by
  cases r with
  | ok b t => exact h.elim
  | error l' t =>
    obtain ⟨rfl, ht⟩ := h
    exact ⟨t, rfl, ht⟩

theorem Agree.overrun {left : Left} {s : State} {r : EStateM.Result Rfb.Label Rfb.Session α}
    (h : Agree left (.error .overrun s) r) : ∃ t, r = .error .overrun t ∧ Logged s t := by
  cases r with
  | ok b t => exact h.elim
  | error l t =>
    cases l with
    | overrun => exact ⟨t, rfl, h⟩
    | exit => exact h.elim
    | readFail => exact h.elim
    | writeFail => exact h.elim
    | readReason => exact h.elim

/-- No second handshake is to come, if `tls` or behind a jump. -/
def Allowed (tls : Prop) (left : Left) : EStateM.Result (Stop Rfb.Label) State α → Prop
  | .ok _ _ => tls → left.tls = none
  | .error _ _ => left.tls = none

/-- For each run of `x`, from where `before` tells whether the connection is in TLS to where `after` tells it, and for
all that the server does then, there is a server for which `y` does the same. -/
def Simulates (before after : Prop) (x : M Rfb.Label α) (y : Rfb.M α) : Prop :=
  ∀ s left', Allowed after left' (x s) →
    ∃ left : Left, (before → left.tls = none) ∧ ∀ t, Stands left s t → Agree left' (x s) (y t)

variable {before middle after : Prop}

theorem Simulates.pure (h : before → after) (a : α) :
    Simulates before after (Pure.pure a : M Rfb.Label α) (Pure.pure a) :=
  fun _ left' hleft => ⟨left', fun hbefore => hleft (h hbefore), fun _ ht => ⟨rfl, ht⟩⟩

theorem Simulates.bind {x : M Rfb.Label α} {y : Rfb.M α} {f : α → M Rfb.Label β} {g : α → Rfb.M β}
    (hx : Simulates before middle x y) (hf : ∀ a, Simulates middle after (f a) (g a)) :
    Simulates before after (x >>= f) (y >>= g) := by
  intro s left' hleft
  cases hrun : x s with
  | ok a s₁ =>
    rw [bind_ok hrun] at hleft ⊢
    obtain ⟨left₁, hleft₁, hagree⟩ := hf a s₁ left' hleft
    obtain ⟨left, hleft, hfirst⟩ := hx s left₁ (by rw [hrun]; exact hleft₁)
    refine ⟨left, hleft, fun t ht => ?_⟩
    have hy := hfirst t ht
    rw [hrun] at hy
    obtain ⟨t₁, hy, ht₁⟩ := hy.ok
    rw [bind_ok hy]
    exact hagree t₁ ht₁
  | error e s₁ =>
    rw [bind_error hrun] at hleft ⊢
    obtain ⟨left, hleft, hfirst⟩ := hx s left' (by rw [hrun]; exact hleft)
    refine ⟨left, hleft, fun t ht => ?_⟩
    have hy := hfirst t ht
    rw [hrun] at hy
    cases e with
    | pending => trivial
    | wild => trivial
    | label l =>
      obtain ⟨t₁, hy, ht₁⟩ := hy.label
      rw [bind_error hy]
      exact ⟨rfl, ht₁⟩
    | overrun =>
      obtain ⟨t₁, hy, ht₁⟩ := hy.overrun
      rw [bind_error hy]
      exact ht₁

theorem Simulates.ite {c : Prop} [Decidable c] {x x' : M Rfb.Label α} {y y' : Rfb.M α}
    (hx : c → Simulates before after x y) (hx' : ¬ c → Simulates before after x' y') :
    Simulates before after (if c then x else x') (if c then y else y') := by
  by_cases h : c
  · rw [if_pos h, if_pos h]
    exact hx h
  · rw [if_neg h, if_neg h]
    exact hx' h

/-- A jump, of which the server does what it does at the label. -/
theorem Simulates.jump (l : Rfb.Label) : Simulates before after (jump l : M Rfb.Label α) (throw l) := by
  refine fun s left' hleft => ⟨left', fun _ => hleft, fun t ht => ⟨rfl, ?_⟩⟩
  cases l with
  | readReason => exact ht
  | exit => exact ht.logged
  | readFail => exact ht.logged
  | writeFail => exact ht.logged
  | overrun => exact ht.logged

/-! ### What the two have in common -/

theorem Simulates.cba (c : Cba.Call) : Simulates before before (Modules.cba c) (Rfb.cba c) := by
  refine fun s left' hleft => ⟨left', hleft, fun t ht =>
    ⟨rfl, ht.incoming, ht.tls, ht.writes, ht.isSsl, ht.logged.1, ?_⟩⟩
  show t.calls ++ [c] = s.calls ++ [c]
  rw [ht.logged.2]

theorem Simulates.setRet (ret : Int) : Simulates before before (Modules.setRet ret) (Rfb.setRet ret) :=
  fun _ left' hleft =>
    ⟨left', hleft, fun _ ht => ⟨rfl, ht.incoming, ht.tls, ht.writes, ht.isSsl, rfl, ht.logged.2⟩⟩

/-- The server has no deadline. -/
theorem Simulates.getDeadline {f : Int → M Rfb.Label α} {y : Rfb.M α}
    (hf : ∀ deadline, Simulates before after (f deadline) y) :
    Simulates before after (Modules.getDeadline >>= f) y := fun s left' hleft => hf s.deadline s left' hleft

theorem Simulates.setDeadline (deadline : Int) {x : M Rfb.Label α} {y : Rfb.M α}
    (hx : Simulates before after x y) :
    Simulates before after (Modules.setDeadline deadline >>= fun _ => x) y := by
  intro s left' hleft
  obtain ⟨left, hbefore, hagree⟩ := hx { s with deadline := deadline % 2 ^ 64 } left' hleft
  exact ⟨left, hbefore, fun t ht => hagree t ⟨ht.incoming, ht.tls, ht.writes, ht.isSsl, ht.logged⟩⟩

theorem Simulates.sprintf (buffer : List UInt8) (text : List Char) :
    Simulates before before (Vnc.sprintf buffer text) (Rfb.sprintf buffer text) := by
  intro s left' hleft
  refine ⟨left', ?_⟩
  unfold Vnc.sprintf Rfb.sprintf at *
  cases hstore : store buffer 0 (Rfb.ofChars text ++ [0]) with
  | none =>
    rw [hstore] at hleft
    exact ⟨fun _ => hleft, fun t ht => ht.logged⟩
  | some buffer' =>
    rw [hstore] at hleft
    exact ⟨hleft, fun t ht => ⟨rfl, ht.incoming, ht.tls, ht.writes, ht.isSsl, ht.logged⟩⟩

/-! ### The socket -/

/-- What a function of the layer leaves as it is. -/
structure Same (s₀ s : State) : Prop where
  world : s.world = s₀.world
  ts : s.ts = s₀.ts
  ret : s.ret = s₀.ret
  calls : s.calls = s₀.calls

/-- A function of the layer does not jump, and leaves its buffer only if `overran`. -/
def Leaves (overran : Prop) (s₀ : State) : Stop Rfb.Label → State → Prop
  | .label _, _ => False
  | .overrun, s => overran ∧ Same s₀ s
  | _, _ => True

theorem same_frame {overran : Prop} (s₀ s₁ : State) :
    Frame (Same s₁) (Leaves overran s₀) s₁.world s₁.ts where
  event hs _ := ⟨hs.world, hs.ts, hs.ret, hs.calls⟩
  world hs := hs.world
  socket hs := hs.ts
  pending _ := trivial

theorem Logged.of_same {s₀ s : State} {t : Rfb.Session} (ht : Logged s₀ t) (h : Same s₀ s) : Logged s t :=
  ⟨ht.1.trans h.ret.symm, ht.2.trans h.calls.symm⟩

theorem StandsAt.of_logged {left : Left} {l : Rfb.Label} {s : State} {t : Rfb.Session}
    (hl : l ≠ .readReason)
    (h : Logged s t) : StandsAt left l s t := by
  cases l with
  | readReason => exact absurd rfl hl
  | exit => exact h
  | readFail => exact h
  | writeFail => exact h
  | overrun => exact h

theorem Same.refl (s : State) : Same s s := ⟨rfl, rfl, rfl, rfl⟩

theorem Same.inTls {s s' : State} (h : Same s s') (htls : InTls s') : InTls s := by
  unfold InTls at htls ⊢
  rwa [h.world, h.ts] at htls

theorem tsReadAll_same (s : State) (capacity size : Nat) :
    Triple (Same s) (tsReadAll capacity size s.deadline : M Rfb.Label (List UInt8))
      (Filled (Same s) capacity size)
      (Leaves (capacity < size ∧ (InTls s ∨ size ≤ ssizeMax)) s) :=
  (same_frame s s).tsReadAll_triple (fun _ _ _ _ _ => trivial)
    (fun hover hlarge _ hs => ⟨⟨hover, hlarge⟩, hs⟩) s.deadline

theorem tsWriteAll_same (s : State) (buffer : List UInt8) (size : Nat) :
    Keeps (Same s) (Leaves (buffer.length < size) s)
      (tsWriteAll buffer size s.deadline : M Rfb.Label Bool) :=
  (same_frame s s).keeps_tsWriteAll (fun _ _ _ _ _ => trivial)
    (fun hover _ hs => ⟨hover, hs⟩) s.deadline

theorem Simulates.readOr {l : Rfb.Label} (hl : l ≠ .readReason) {capacity : Nat} (hcap : capacity ≤ ssizeMax)
    (size : Nat) :
    Simulates before before (Modules.readOr l capacity size) (Rfb.readOr l capacity size) := by
  intro s left' hleft
  have hsame := tsReadAll_same s capacity size s (Same.refl s)
  have hrun : Modules.readOr l capacity size s = EStateM.bind (tsReadAll capacity size s.deadline)
      (fun bytes => if bytes.length < size then Modules.jump l else Pure.pure bytes) s := rfl
  rw [hrun] at hleft ⊢
  unfold EStateM.bind at hleft ⊢
  cases hread : (tsReadAll capacity size s.deadline : M Rfb.Label (List UInt8)) s with
  | ok got s' =>
    rw [hread] at hsame hleft
    obtain ⟨hs, hcapacity, hsize⟩ := hsame
    dsimp only at hleft ⊢
    by_cases hshort : got.length < size
    · rw [if_pos hshort] at hleft ⊢
      refine ⟨⟨got, none, 0⟩, fun _ => rfl, fun t ht => ?_⟩
      have htake : t.incoming.take size = got := by rw [ht.incoming, List.take_of_length_le hsize]
      have hlogged : Logged s' t := ht.logged.of_same hs
      by_cases hfault : ssizeMax < size ∧ t.isSsl = false
      · rw [Rfb.readOr_fault hfault]
        exact ⟨rfl, StandsAt.of_logged hl hlogged⟩
      · rw [Rfb.readOr_short hfault (by rwa [htake]) (by rwa [ht.incoming])]
        exact ⟨rfl, StandsAt.of_logged hl hlogged⟩
    · rw [if_neg hshort] at hleft ⊢
      refine ⟨⟨got ++ left'.incoming, left'.tls, left'.writes⟩, hleft, fun t ht => ?_⟩
      have hlength : got.length = size := by omega
      have htake : t.incoming.take size = got := by rw [ht.incoming, List.take_left' hlength]
      have hdrop : t.incoming.drop size = left'.incoming := by rw [ht.incoming, List.drop_left' hlength]
      have hlong : size ≤ t.incoming.length := by
        rw [ht.incoming, List.length_append]
        omega
      rw [Rfb.readOr_full (fun hfault => by omega) (by rwa [htake]) hlong, htake, hdrop]
      exact ⟨rfl, rfl, ht.tls, ht.writes, fun htls => ht.isSsl (hs.inTls htls), ht.logged.of_same hs⟩
  | error e s' =>
    rw [hread] at hsame hleft
    dsimp only at hleft ⊢
    cases e with
    | label l => exact hsame.elim
    | pending => exact ⟨left', fun _ => hleft, fun _ _ => trivial⟩
    | wild => exact ⟨left', fun _ => hleft, fun _ _ => trivial⟩
    | overrun =>
      obtain ⟨⟨hover, hlarge⟩, hs⟩ := hsame
      refine ⟨⟨List.replicate size 0, none, 0⟩, fun _ => rfl, fun t ht => ?_⟩
      have htake : (t.incoming.take size).length = size := by rw [ht.incoming]; simp
      have hfault : ¬ (ssizeMax < size ∧ t.isSsl = false) := by
        rintro ⟨hsize, hplain⟩
        rcases hlarge with htls | hle
        · rw [ht.isSsl htls] at hplain
          cases hplain
        · exact Nat.not_lt.mpr hle hsize
      rw [Rfb.readOr_over hfault (by rwa [htake])]
      exact ht.logged.of_same hs

theorem Simulates.writeOr {l : Rfb.Label} (hl : l ≠ .readReason) (buffer : List UInt8) (size : Nat) :
    Simulates before before (Modules.writeOr l buffer size) (Rfb.writeOr l buffer size) := by
  intro s left' hleft
  by_cases hsize : buffer.length < size
  · have hrun : Modules.writeOr l buffer size s = .error .overrun s := by
      have hwrite : (tsWriteAll buffer size s.deadline : M Rfb.Label Bool) s = .error .overrun s :=
        congrFun (if_pos hsize) s
      show EStateM.bind (tsWriteAll buffer size s.deadline) _ s = _
      rw [EStateM.bind, hwrite]
    rw [hrun] at hleft ⊢
    refine ⟨left', fun _ => hleft, fun t ht => ?_⟩
    have hrun' : Rfb.writeOr l buffer size t = .error .overrun
      (t.request (.write buffer size)) := if_pos hsize
    rw [hrun']
    exact ht.logged
  have hsize : size ≤ buffer.length := Nat.not_lt.mp hsize
  have hsame := tsWriteAll_same s buffer size s (Same.refl s)
  have hrun : Modules.writeOr l buffer size s = EStateM.bind (tsWriteAll buffer size s.deadline)
      (fun done => if done = true then Pure.pure () else Modules.jump l) s := rfl
  rw [hrun] at hleft ⊢
  unfold EStateM.bind at hleft ⊢
  cases hwrite : (tsWriteAll buffer size s.deadline : M Rfb.Label Bool) s with
  | ok done s' =>
    rw [hwrite] at hsame hleft
    dsimp only at hleft ⊢
    cases done with
    | true =>
      refine ⟨⟨left'.incoming, left'.tls, left'.writes + 1⟩, hleft, fun t ht => ?_⟩
      have hwrites : t.writes = left'.writes + 1 := ht.writes
      rw [Rfb.writeOr_go hsize (by omega)]
      refine ⟨rfl, ht.incoming, ht.tls, ?_, fun htls => ht.isSsl (hsame.inTls htls), ht.logged.of_same hsame⟩
      show t.writes - 1 = left'.writes
      omega
    | false =>
      refine ⟨⟨[], none, 0⟩, fun _ => rfl, fun t ht => ?_⟩
      rw [Rfb.writeOr_stop hsize ht.writes]
      exact ⟨rfl, StandsAt.of_logged hl (ht.logged.of_same hsame)⟩
  | error e s' =>
    rw [hwrite] at hsame hleft
    dsimp only at hleft ⊢
    cases e with
    | label l => exact hsame.elim
    | pending => exact ⟨left', fun _ => hleft, fun _ _ => trivial⟩
    | wild => exact ⟨left', fun _ => hleft, fun _ _ => trivial⟩
    | overrun => exact absurd hsize (Nat.not_le.mpr hsame.1)

theorem setTs_same {overran : Prop} (s₀ s₁ : State) (f : Tsocket → Tsocket) :
    Triple (Same s₁) (setTs f) (fun _ => Same { s₁ with ts := f s₁.ts }) (Leaves overran s₀) :=
  fun _ hs => ⟨hs.world, congrArg f hs.ts, hs.ret, hs.calls⟩

theorem tsGoTls_same (s : State) (deadline : Int) :
    Triple (Same s) (tsGoTls deadline : M Rfb.Label Bool) (fun _ s' => ∃ ts, Same { s with ts := ts } s')
      (Leaves False s) := by
  have hpure : ∀ (ts : Tsocket) (b : Bool),
    Triple (Same { s with ts := ts }) (Pure.pure b : M Rfb.Label Bool)
      (fun _ s' => ∃ ts, Same { s with ts := ts } s') (Leaves False s) :=
    fun ts _ => Triple.pure fun _ hs => ⟨ts, hs⟩
  have hframe : Frame (Same s) (Leaves False s) s.world s.ts := same_frame s s
  refine hframe.getWorld_triple (Triple.ite (fun _ => ?_) fun _ => hpure s.ts _)
  refine Triple.bind (hframe.keeps_ask (Or.inl rfl)) fun _ => Triple.ite (fun _ => ?_) fun _ => hpure s.ts _
  refine Triple.bind (setTs_same s s _) fun _ => ?_
  have hready : Frame (Same { s with ts := { s.ts with ctx := true } }) (Leaves False s) s.world
      { s.ts with ctx := true } := same_frame s { s with ts := { s.ts with ctx := true } }
  refine Triple.bind (hready.keeps_handshakeLoop rfl _ _) fun _ => ?_
  exact Triple.ite (fun _ => Triple.bind (setTs_same s _ _) fun _ => hpure _ _) fun _ =>
    Triple.bind (setTs_same s _ _) fun _ => hpure _ _

theorem Simulates.goTls : Simulates False True Vnc.goTls Rfb.goTls := by
  intro s left' hleft
  have hsame := tsGoTls_same s s.deadline s (Same.refl s)
  have hrun : Vnc.goTls s = EStateM.bind (tsGoTls s.deadline)
      (fun done => if done = true then Pure.pure () else do
        cbaBit Rfb.tlsFail
        Modules.jump .exit) s := rfl
  rw [hrun] at hleft ⊢
  unfold EStateM.bind at hleft ⊢
  cases hgo : (tsGoTls s.deadline : M Rfb.Label Bool) s with
  | ok done s' =>
    rw [hgo] at hsame hleft
    obtain ⟨ts, hs⟩ := hsame
    have hlogged : ∀ {t}, Logged s t → Logged s' t := fun ht =>
      ⟨ht.1.trans hs.ret.symm, ht.2.trans hs.calls.symm⟩
    dsimp only at hleft ⊢
    cases done with
    | true =>
      refine ⟨⟨[], some left'.incoming, left'.writes⟩, False.elim, fun t ht => ?_⟩
      unfold Rfb.goTls
      rw [ht.tls]
      exact ⟨rfl, rfl, (hleft trivial).symm, ht.writes, fun _ => rfl, hlogged ht.logged⟩
    | false =>
      refine ⟨⟨[], none, 0⟩, fun _ => rfl, fun t ht => ?_⟩
      unfold Rfb.goTls
      rw [ht.tls]
      exact ⟨rfl, (hlogged ht.logged).1, congrArg (· ++ _) (hlogged ht.logged).2⟩
  | error e s' =>
    rw [hgo] at hsame hleft
    dsimp only at hleft ⊢
    cases e with
    | label l => exact hsame.elim
    | pending => exact ⟨left', fun _ => hleft, fun _ _ => trivial⟩
    | wild => exact ⟨left', fun _ => hleft, fun _ _ => trivial⟩
    | overrun => exact hsame.1.elim

/-! ### `check_vnc` -/

theorem winAndExit_simulates : Simulates before after Vnc.winAndExit Rfb.winAndExit :=
  Simulates.bind (Simulates.cba _) fun _ => Simulates.bind (Simulates.setRet 1) fun _ =>
    Simulates.jump .exit

theorem firstTypes_simulates (count : Nat) (hasNontls : Bool) :
    Simulates before before (Vnc.firstTypes count hasNontls) (Rfb.firstTypes count hasNontls) := by
  induction count generalizing hasNontls with
  | zero => exact Simulates.pure id _
  | succ count ih =>
    refine Simulates.bind (Simulates.readOr (by simp) (by decide) 1) fun atype => ?_
    have hrest : Simulates before before
        (if atype = [Rfb.vencrypt] then do
          cbaBit Rfb.hasVencrypt
          Vnc.firstTypes count (hasNontls || atype ≠ [Rfb.tls])
        else Vnc.firstTypes count (hasNontls || atype ≠ [Rfb.tls]))
        (if atype = [Rfb.vencrypt] then do
          Rfb.cbaBit Rfb.hasVencrypt
          Rfb.firstTypes count (hasNontls || atype ≠ [Rfb.tls])
        else Rfb.firstTypes count (hasNontls || atype ≠ [Rfb.tls])) :=
      Simulates.ite (fun _ => Simulates.bind (Simulates.cba _) fun _ => ih _) fun _ => ih _
    exact Simulates.ite (fun _ => Simulates.bind winAndExit_simulates fun _ => hrest) fun _ => hrest

theorem tlsTypes_simulates (count : Nat) :
    Simulates before before (Vnc.tlsTypes count) (Rfb.tlsTypes count) := by
  induction count with
  | zero => exact Simulates.pure id _
  | succ count ih =>
    refine Simulates.bind (Simulates.readOr (by simp) (by decide) 1) fun atype => ?_
    exact Simulates.ite (fun _ => Simulates.bind winAndExit_simulates fun _ => ih) fun _ => ih

theorem readCount_simulates : Simulates before before Vnc.readCount Rfb.readCount := by
  refine Simulates.bind (Simulates.readOr (by simp) (by decide) 1) fun count => ?_
  exact Simulates.ite (fun _ => Simulates.bind (Simulates.jump .readReason) fun _ => Simulates.pure id _)
    fun _ => Simulates.pure id _

theorem listedTypes_simulates : Simulates False True Vnc.listedTypes Rfb.listedTypes := by
  refine Simulates.bind readCount_simulates fun count => Simulates.bind (Simulates.setRet 0) fun _ => ?_
  refine Simulates.bind (firstTypes_simulates count false) fun hasNontls => ?_
  refine Simulates.ite (fun _ => Simulates.pure False.elim _) fun _ => ?_
  refine Simulates.bind (Simulates.cba _) fun _ => Simulates.getDeadline fun _ => Simulates.setDeadline _ ?_
  refine Simulates.bind (Simulates.writeOr (by simp) _ _) fun _ =>
    Simulates.bind Simulates.goTls fun _ => ?_
  exact Simulates.bind readCount_simulates tlsTypes_simulates

theorem authMode_simulates : Simulates False True Vnc.authMode Rfb.authMode := by
  refine Simulates.bind (Simulates.readOr (by simp) (by decide) 4) fun bytes =>
    Simulates.bind (Simulates.setRet 0) fun _ => ?_
  exact Simulates.ite (fun _ => winAndExit_simulates) fun _ =>
    Simulates.ite (fun _ => Simulates.jump .readReason) fun _ => Simulates.pure False.elim _

theorem negotiate_simulates (version : List UInt8) (v : Option (Int × Int)) :
    Simulates False True (Vnc.negotiate version v) (Rfb.negotiate version v) := by
  cases v with
  | none =>
    exact Simulates.bind (Simulates.cba _) fun _ => Simulates.bind (Simulates.cba _) fun _ =>
      Simulates.jump .exit
  | some v =>
    refine Simulates.bind (Simulates.sprintf _ _) fun version => ?_
    refine Simulates.bind (Simulates.writeOr (by simp) _ _) fun _ => ?_
    exact Simulates.ite (fun _ => listedTypes_simulates) fun _ => authMode_simulates

theorem body_simulates : Simulates False True Vnc.body Rfb.body :=
  Simulates.bind (Simulates.readOr (by simp) (by decide) 12) fun _ => negotiate_simulates _ _

theorem readReason_simulates : Simulates True True Vnc.readReason Rfb.readReason := by
  refine Simulates.bind (Simulates.readOr (by simp) (by decide) 4) fun len => ?_
  refine Simulates.bind (Simulates.readOr (by simp) (by decide) _) fun reasonStr => ?_
  exact Simulates.bind (Simulates.cba _) fun _ => Simulates.cba _

/-- The run that has passed its labels, and the session of the server. -/
def Passed : EStateM.Result (Stop Rfb.Label) State Unit → EStateM.Result Rfb.Label Rfb.Session Unit → Prop
  | .ok _ s, .ok _ t => Logged s t
  | .error .overrun s, .error .overrun t => Logged s t
  | .error .pending _, _ => True
  | .error .wild _, _ => True
  | _, _ => False

theorem Passed.ok {s : State} {r : EStateM.Result Rfb.Label Rfb.Session Unit} (h : Passed (.ok () s) r) :
    ∃ t, r = .ok () t ∧ Logged s t := by
  cases r with
  | ok _ t => exact ⟨t, rfl, h⟩
  | error l t => exact h.elim

theorem Passed.overrun {s : State} {r : EStateM.Result Rfb.Label Rfb.Session Unit}
    (h : Passed (.error .overrun s) r) : ∃ t, r = .error .overrun t ∧ Logged s t := by
  cases r with
  | ok _ t => exact h.elim
  | error l t =>
    cases l with
    | overrun => exact ⟨t, rfl, h⟩
    | exit => exact h.elim
    | readFail => exact h.elim
    | writeFail => exact h.elim
    | readReason => exact h.elim

theorem Logged.fails {s : State} {t : Rfb.Session} (h : Logged s t) (c : Cba.Call) :
    Logged { s with calls := s.calls ++ [c] } (t.call c) := ⟨h.1, congrArg (· ++ [c]) h.2⟩

/-- Where the code at `read_reason` is left, and where it jumps to `read_fail`. -/
theorem readReason_passed (s : State) : ∃ left : Left, left.tls = none ∧ ∀ t, Stands left s t →
    Passed (labels Vnc.goto (Vnc.goto .readReason) s)
      (match Rfb.goto .readReason t with
        | .error .readFail t => Rfb.goto .readFail t
        | r => r) := by
  have hsim := readReason_simulates s ⟨[], none, 0⟩
  have hgoto : Vnc.goto .readReason = Vnc.readReason := rfl
  rw [hgoto]
  cases hrun : Vnc.readReason s with
  | ok _ s' =>
    rw [hrun] at hsim
    obtain ⟨left, hleft, hagree⟩ := hsim fun _ => rfl
    refine ⟨left, hleft trivial, fun t ht => ?_⟩
    obtain ⟨t', hrun', ht'⟩ := (hagree t ht).ok
    have hgoto' : Rfb.goto .readReason t = .ok () t' := hrun'
    rw [labels_ok hrun, hgoto']
    exact ht'.logged
  | error e s' =>
    rw [hrun] at hsim
    obtain ⟨left, hleft, hagree⟩ := hsim rfl
    refine ⟨left, hleft trivial, fun t ht => ?_⟩
    have h := hagree t ht
    cases e with
    | pending =>
      rw [labels_stop hrun (by simp)]
      trivial
    | wild =>
      rw [labels_stop hrun (by simp)]
      trivial
    | overrun =>
      obtain ⟨t', hrun', ht'⟩ := h.overrun
      have hgoto' : Rfb.goto .readReason t = .error .overrun t' := hrun'
      rw [labels_stop hrun (by simp), hgoto']
      exact ht'
    | label l =>
      obtain ⟨t', hrun', hat⟩ := h.label
      have hgoto' : Rfb.goto .readReason t = .error l t' := hrun'
      have hlabels := Rfb.readReason_triple t t rfl
      rw [hrun'] at hlabels
      rw [labels_label hrun, hgoto']
      obtain ⟨rfl | rfl, -⟩ := hlabels
      · exact Logged.fails hat _
      · exact hat

theorem labels_passed (s : State) : ∃ left : Left, ∀ t, Stands left s t →
    Passed (labels Vnc.goto (labels Vnc.goto Vnc.body) s) (Rfb.connected t) := by
  have hbody := body_simulates s
  unfold Rfb.connected
  cases hrun : Vnc.body s with
  | ok _ s' =>
    rw [hrun] at hbody
    obtain ⟨left, -, hagree⟩ := hbody ⟨[], none, 0⟩ fun _ => rfl
    refine ⟨left, fun t ht => ?_⟩
    obtain ⟨t', hrun', ht'⟩ := (hagree t ht).ok
    rw [labels_ok (labels_ok hrun), hrun']
    exact ht'.logged
  | error e s' =>
    rw [hrun] at hbody
    -- The server that is left there is one for the code at `read_reason`, in case that comes.
    obtain ⟨left', hnone, hreason⟩ := readReason_passed s'
    obtain ⟨left, -, hagree⟩ := hbody left' hnone
    refine ⟨left, fun t ht => ?_⟩
    have h := hagree t ht
    cases e with
    | pending =>
      rw [labels_stop (labels_stop hrun (by simp)) (by simp)]
      trivial
    | wild =>
      rw [labels_stop (labels_stop hrun (by simp)) (by simp)]
      trivial
    | overrun =>
      obtain ⟨t', hrun', ht'⟩ := h.overrun
      rw [labels_stop (labels_stop hrun (by simp)) (by simp), hrun']
      exact ht'
    | label l =>
      obtain ⟨t', hrun', hat⟩ := h.label
      rw [labels_congr (labels_label hrun), hrun']
      cases l with
      | readReason => exact hreason t' hat
      | exit => exact hat
      | readFail => exact Logged.fails hat _
      | writeFail => exact Logged.fails hat _
      | overrun => exact hat

end Simulations

/-! ### The call -/

/-- What `check_vnc` returns and logs for a server, in a run that comes to an end or leaves a buffer. -/
def Explains (server : Rfb.Server) : EStateM.Result (Stop Rfb.Label) State Int → Prop
  | .ok ret s => ∃ t, Rfb.checkVnc server.sock server.start = .ok () t ∧ t.ret = ret ∧ t.calls = s.calls
  | .error .overrun s => ∃ t, Rfb.checkVnc server.sock server.start = .error .overrun t ∧ t.calls = s.calls
  | .error (.label _) _ => False
  | .error _ _ => True

theorem tsClose_getRet (s : State) : ∃ s' : State,
    (tsClose >>= fun _ => getRet : M Rfb.Label Int) s = .ok s.ret s' ∧ s'.calls = s.calls := by
  have hrun : (tsClose : M Rfb.Label Unit) s = (if s.world.haveTls && s.ts.isSsl then
      setTs fun ts => { ts with isSsl := false, ctx := false } else pure ())
        { s.event (.close s.ts.fd) with ts := { s.ts with fd := -1 } } := rfl
  obtain ⟨s', hclose, hret, hcalls⟩ : ∃ s' : State,
      (tsClose : M Rfb.Label Unit) s = .ok () s' ∧ s'.ret = s.ret ∧ s'.calls = s.calls := by
    rw [hrun]
    cases s.world.haveTls && s.ts.isSsl with
    | true => exact ⟨_, rfl, rfl, rfl⟩
    | false => exact ⟨_, rfl, rfl, rfl⟩
  refine ⟨s', ?_, hcalls⟩
  rw [bind_ok hclose, ← hret]
  rfl

/-- Each run of `check_vnc` on the layer of `ts.c` is one against a server that is known by what it sends. -/
theorem checkVnc_refines (w : World) (readTimeout : Int) :
    ∃ server : Rfb.Server, server.sock = w.conn ∧ Explains server (checkVnc readTimeout w.start) := by
  by_cases hconn : w.conn = -1
  · refine ⟨⟨-1, [], none, 0⟩, hconn.symm, ?_⟩
    have hrun : checkVnc readTimeout w.start = _ := check_refused readTimeout hconn
    rw [hrun]
    exact ⟨_, rfl, rfl, rfl⟩
  have hrun : checkVnc readTimeout w.start = connected Vnc.goto Vnc.body readTimeout w.conn w.start :=
    congrFun (if_neg hconn) w.start
  obtain ⟨b, s₁, hsocket, hcalls, hctx⟩ : ∃ b s₁,
      (tsSocket w.conn : M Rfb.Label Bool) w.start = .ok b s₁ ∧ s₁.calls = [] ∧ s₁.ts.ctx = false := by
    rw [tsSocket_start]
    cases w.setsFlags [.fcntl w.conn, .fcntl w.conn] with
    | true => exact ⟨_, _, rfl, rfl, rfl⟩
    | false => exact ⟨_, _, rfl, rfl, rfl⟩
  let s : State := { s₁.event .getMs with
    deadline := (s₁.world.getMs (s₁.event .getMs).trace + readTimeout) % 2 ^ 64
    ret := -1 }
  have hstart : connected Vnc.goto Vnc.body readTimeout w.conn w.start =
      (labels Vnc.goto (labels Vnc.goto Vnc.body) >>= fun _ => tsClose >>= fun _ =>
        getRet : M Rfb.Label Int) s :=
    bind_ok hsocket
  obtain ⟨left, hpassed⟩ := labels_passed s
  refine ⟨⟨w.conn, left.incoming, left.tls, left.writes⟩, rfl, ?_⟩
  have h := hpassed (Rfb.Server.start ⟨w.conn, left.incoming, left.tls, left.writes⟩)
    ⟨rfl, rfl, rfl, fun htls => absurd (hctx.symm.trans htls.2) (by simp), rfl, hcalls.symm⟩
  have hvnc : Rfb.checkVnc w.conn = Rfb.connected := if_neg hconn
  rw [hrun, hstart]
  cases hlabels : labels Vnc.goto (labels Vnc.goto Vnc.body) s with
  | ok _ s' =>
    rw [hlabels] at h
    obtain ⟨t, hrun', ht⟩ := h.ok
    obtain ⟨s'', hclose, hcalls'⟩ := tsClose_getRet s'
    rw [bind_ok hlabels, hclose]
    exact ⟨t, (congrFun hvnc _).trans hrun', ht.1, ht.2.trans hcalls'.symm⟩
  | error e s' =>
    rw [hlabels] at h
    rw [bind_error hlabels]
    cases e with
    | pending => trivial
    | wild => trivial
    | label l => exact h.elim
    | overrun =>
      obtain ⟨t, hrun', ht⟩ := h.overrun
      exact ⟨t, (congrFun hvnc _).trans hrun', ht.2⟩

end Cscan.Modules
