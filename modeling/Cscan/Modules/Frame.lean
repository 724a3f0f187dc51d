import Cscan.Lib.Triple
import Cscan.Modules.Ts

/-! What the functions of `ts.c` keep: a predicate that survives what is asked for the descriptor of a socket survives
all of them. -/

namespace Cscan.Modules

open Cscan.Lib

variable {L α β : Type} {I : State → Prop} {E : Stop L → State → Prop} {w : World} {ts : Tsocket}

/-- `I` is of states with the socket `ts`, and is kept by what is asked for its descriptor. `E` is of states in which
a run is left. -/
structure Frame (I : State → Prop) (E : Stop L → State → Prop) (w : World) (ts : Tsocket) : Prop where
  event : ∀ {s e}, I s → e.fd = none ∨ e.fd = some ts.fd ∨ e.fd = some ts.psFd → I (s.event e)
  world : ∀ {s}, I s → s.world = w
  socket : ∀ {s}, I s → s.ts = ts
  pending : ∀ {s}, I s → E .pending s

abbrev Keeps (I : State → Prop) (E : Stop L → State → Prop) (x : M L α) : Prop := Triple I x (fun _ => I) E

theorem Keeps.pure (a : α) : Keeps I E (Pure.pure a : M L α) := Triple.pure fun _ hs => hs

theorem Keeps.bind {x : M L α} {f : α → M L β} (hx : Keeps I E x) (hf : ∀ a, Keeps I E (f a)) :
    Keeps I E (x >>= f) := Triple.bind hx hf

/-- What is in a buffer: no more than it has room for, and no more than was asked for. -/
def Filled (I : State → Prop) (capacity size : Nat) (got : List UInt8) (s : State) : Prop :=
  I s ∧ got.length ≤ capacity ∧ got.length ≤ size

namespace Frame

theorem keeps_ask (h : Frame I E w ts) {e : Event} {answer : World → List Event → α}
    (he : e.fd = none ∨ e.fd = some ts.fd ∨ e.fd = some ts.psFd) : Keeps I E (ask e answer : M L α) :=
  fun _ hs => h.event hs he

/-- What follows `getTs` may use that the socket is `ts`. -/
theorem getTs_triple (h : Frame I E w ts) {Q : α → State → Prop} {f : Tsocket → M L α}
    (hf : Triple I (f ts) Q E) : Triple I (getTs >>= f) Q E := by
  refine Triple.bind (Q := fun ts' s => ts' = ts ∧ I s) (fun s hs => ⟨h.socket hs, hs⟩) fun ts' => ?_
  rintro s ⟨rfl, hs⟩
  exact hf s hs

theorem getWorld_triple (h : Frame I E w ts) {Q : α → State → Prop} {f : World → M L α}
    (hf : Triple I (f w) Q E) : Triple I (getWorld >>= f) Q E := by
  refine Triple.bind (Q := fun w' s => w' = w ∧ I s) (fun s hs => ⟨h.world hs, hs⟩) fun w' => ?_
  rintro s ⟨rfl, hs⟩
  exact hf s hs

theorem keeps_runTls (h : Frame I E w ts) (call : TlsCall α) :
    Keeps I E (runTls call : M L (TlsResult α)) := by
  induction call with
  | done r => exact Keeps.pure r
  | recv len next ih =>
    exact Keeps.bind (h.getTs_triple (Keeps.bind (h.keeps_ask (Or.inr (Or.inl rfl))) fun _ => Keeps.pure _)) ih
  | send bytes next ih =>
    exact Keeps.bind (h.getTs_triple (Keeps.bind (h.keeps_ask (Or.inr (Or.inl rfl))) fun _ => Keeps.pure _)) ih
  | pending => exact Triple.throw fun _ hs => h.pending hs

theorem keeps_mbedtls (h : Frame I E w ts) (hwild : ts.ctx = false → ∀ s, I s → E .wild s) {e : Event}
    (he : e.fd = none) (call : World → List Event → TlsCall α) :
    Keeps I E (mbedtls e call : M L (TlsResult α)) := by
  refine h.getTs_triple (Triple.ite (fun _ => ?_) fun hnone => Triple.throw ?_)
  · exact Keeps.bind (h.keeps_ask (Or.inl he)) h.keeps_runTls
  · exact hwild (Bool.eq_false_of_not_eq_true hnone)

/-- The library does not return if the context was never set up. -/
theorem mbedtls_wild (h : Frame I E w ts) (hctx : ts.ctx = false) (hwild : ts.ctx = false → ∀ s, I s → E .wild s)
    (e : Event) (call : World → List Event → TlsCall α) :
    Triple I (mbedtls e call : M L (TlsResult α)) (fun _ _ => False) E := by
  refine h.getTs_triple (Triple.ite (fun hready => ?_) fun _ => Triple.throw (hwild hctx))
  rw [hctx] at hready
  cases hready

theorem keeps_tsWait (h : Frame I E w ts) (deadline : Int) (wantWrite : Bool) :
    Keeps I E (tsWait deadline wantWrite : M L Bool) := by
  refine h.getTs_triple (Keeps.bind (h.keeps_ask (Or.inl rfl)) fun now => ?_)
  refine Triple.ite (fun _ => Keeps.pure _) fun _ => ?_
  exact Keeps.bind (h.keeps_ask (Or.inr (Or.inr rfl))) fun _ => Keeps.pure _

theorem keeps_handshakeLoop (h : Frame I E w ts) (hctx : ts.ctx = true) (deadline : Int) (turns : Nat) :
    Keeps I E (handshakeLoop deadline turns : M L Bool) := by
  induction turns with
  | zero => exact Triple.throw fun _ hs => h.pending hs
  | succ turns ih =>
    refine Keeps.bind (h.keeps_mbedtls (fun hnone => ?_) rfl _) fun r => ?_
    · rw [hctx] at hnone
      cases hnone
    cases r with
    | ok _ => exact Keeps.pure _
    | failed => exact Keeps.pure _
    | wantRead =>
      exact Keeps.bind (h.keeps_tsWait _ _) fun _ => Triple.ite (fun _ => ih) fun _ => Keeps.pure _
    | wantWrite =>
      exact Keeps.bind (h.keeps_tsWait _ _) fun _ => Triple.ite (fun _ => ih) fun _ => Keeps.pure _

theorem read_triple (h : Frame I E w ts) (size : Nat) :
    Triple I (read ts.fd size : M L (Except IoErrno (List UInt8)))
      (fun r s => I s ∧ ∀ bytes, r = .ok bytes → size ≤ ssizeMax ∧ bytes.length ≤ size) E := by
  refine fun s hs => ⟨h.event hs (Or.inr (Or.inl rfl)), fun bytes hbytes => ?_⟩
  exact World.reads_ok hbytes

section Loops

variable {ssl : Bool} {capacity size : Nat}

/-- A buffer that is too small is left only if a read can be that large. In TLS, any read can. -/
theorem readLoop_triple (h : Frame I E w ts) (hwild : ssl = true → ts.ctx = false → ∀ s, I s → E .wild s)
    (hover : capacity < size → (ssl = true ∧ ts.ctx = true) ∨ size ≤ ssizeMax → ∀ s, I s → E .overrun s)
    (deadline : Int) (turns : Nat) {got : List UInt8}
    (hgot : got = [] ∨ (ssl = true ∧ ts.ctx = true) ∨ size ≤ ssizeMax)
    (hcapacity : got.length ≤ capacity) (hsize : got.length ≤ size) :
    Triple I (readLoop ssl ts.fd capacity size deadline turns got : M L (List UInt8))
      (Filled I capacity size) E := by
  induction turns generalizing got with
  | zero => exact Triple.throw fun _ hs => h.pending hs
  | succ turns ih =>
    have hstop : Triple I (pure got : M L (List UInt8)) (Filled I capacity size) E :=
      Triple.pure fun s hs => ⟨hs, hcapacity, hsize⟩
    have hwait : ∀ wantWrite : Bool, Triple I (do
        if ← tsWait deadline wantWrite then readLoop ssl ts.fd capacity size deadline turns got else pure got)
        (Filled I capacity size) E :=
      fun _ => Triple.bind (h.keeps_tsWait _ _) fun _ => Triple.ite
        (fun _ => ih hgot hcapacity hsize) fun _ => hstop
    have hfill : ∀ bytes : List UInt8, (ssl = true ∧ ts.ctx = true) ∨ size ≤ ssizeMax →
        got.length + bytes.length ≤ size →
          Triple I (fill capacity got bytes >>= readLoop ssl ts.fd capacity size deadline turns)
            (Filled I capacity size) E := by
      intro bytes hlarge hbytes
      unfold fill
      by_cases hroom : capacity < got.length + bytes.length
      · rw [if_pos hroom]
        exact Triple.throw (hover (by omega) hlarge)
      · rw [if_neg hroom]
        have hlength : (got ++ bytes).length = got.length + bytes.length := List.length_append
        exact ih (Or.inr hlarge) (by omega) (by omega)
    refine Triple.ite (fun _ => hstop) fun hmore => Triple.ite (fun hssl => ?_) fun _ => ?_
    · by_cases hctx : ts.ctx = true
      swap
      · exact Triple.stop (h.mbedtls_wild (Bool.eq_false_of_not_eq_true hctx) (hwild hssl) _ _)
      refine Triple.bind (h.keeps_mbedtls (hwild hssl) rfl _) fun r => ?_
      cases r with
      | failed => exact hstop
      | wantRead => exact hwait false
      | wantWrite => exact hwait true
      | ok bytes =>
        refine Triple.ite (fun _ => hstop) fun _ => hfill _ (Or.inl ⟨hssl, hctx⟩) ?_
        rw [List.length_take]
        omega
    · refine Triple.bind (h.keeps_tsWait _ _) fun _ => Triple.ite (fun _ => ?_) fun _ => hstop
      refine Triple.bind (h.read_triple _) fun r => ?_
      cases r with
      | error _ => exact Triple.mono hstop fun _ hs => hs.1
      | ok bytes =>
        by_cases hbytes : size - got.length ≤ ssizeMax ∧ bytes.length ≤ size - got.length
        · have hlarge : (ssl = true ∧ ts.ctx = true) ∨ size ≤ ssizeMax := by
            rcases hgot with rfl | hlarge
            · exact Or.inr hbytes.1
            · exact hlarge
          refine Triple.mono (Triple.ite (fun _ => hstop) fun _ => hfill bytes hlarge (by omega)) fun _ hs => hs.1
        · exact fun s hs => absurd (hs.2 bytes rfl) hbytes

theorem tsReadAll_triple (h : Frame I E w ts)
    (hwild : w.haveTls = true → ts.isSsl = true → ts.ctx = false → ∀ s, I s → E .wild s)
    (hover : capacity < size → ((w.haveTls && ts.isSsl) = true ∧ ts.ctx = true) ∨ size ≤ ssizeMax →
      ∀ s, I s → E .overrun s) (deadline : Int) :
    Triple I (tsReadAll capacity size deadline : M L (List UInt8)) (Filled I capacity size) E := by
  refine h.getTs_triple (h.getWorld_triple
    (h.readLoop_triple ?_ hover _ _ (Or.inl rfl) (Nat.zero_le _) (Nat.zero_le _)))
  intro hssl
  rw [Bool.and_eq_true] at hssl
  exact hwild hssl.1 hssl.2

theorem keeps_writeLoop (h : Frame I E w ts) (hwild : ssl = true → ts.ctx = false → ∀ s, I s → E .wild s)
    (deadline : Int) (turns : Nat) (left : List UInt8) :
    Keeps I E (writeLoop ssl ts.fd deadline turns left : M L Bool) := by
  induction turns generalizing left with
  | zero => exact Triple.throw fun _ hs => h.pending hs
  | succ turns ih =>
    have hwait : ∀ wantWrite : Bool, Keeps I E (do
        if ← tsWait deadline wantWrite then writeLoop ssl ts.fd deadline turns left else pure false) :=
      fun _ => Keeps.bind (h.keeps_tsWait _ _) fun _ => Triple.ite (fun _ => ih left) fun _ => Keeps.pure _
    refine Triple.ite (fun _ => Keeps.pure _) fun _ => Triple.ite (fun hssl => ?_) fun _ => ?_
    · refine Keeps.bind (h.keeps_mbedtls (hwild hssl) rfl _) fun r => ?_
      cases r with
      | failed => exact Keeps.pure _
      | wantRead => exact hwait false
      | wantWrite => exact hwait true
      | ok count => exact Triple.ite (fun _ => Keeps.pure _) fun _ => ih _
    · refine Keeps.bind (h.keeps_tsWait _ _) fun _ => Triple.ite (fun _ => ?_) fun _ => Keeps.pure _
      refine Keeps.bind (h.keeps_ask (Or.inr (Or.inl rfl))) fun r => ?_
      cases r with
      | error _ => exact Keeps.pure _
      | ok count => exact Triple.ite (fun _ => Keeps.pure _) fun _ => ih _

theorem keeps_tsWriteAll (h : Frame I E w ts) {buffer : List UInt8}
    (hwild : w.haveTls = true → ts.isSsl = true → ts.ctx = false → ∀ s, I s → E .wild s)
    (hover : buffer.length < size → ∀ s, I s → E .overrun s) (deadline : Int) :
    Keeps I E (tsWriteAll buffer size deadline : M L Bool) := by
  refine h.getTs_triple (h.getWorld_triple (Triple.ite (fun hshort => Triple.throw (hover hshort)) fun _ => ?_))
  refine h.keeps_writeLoop ?_ _ _ _
  intro hssl
  rw [Bool.and_eq_true] at hssl
  exact hwild hssl.1 hssl.2

end Loops

end Frame

end Cscan.Modules
