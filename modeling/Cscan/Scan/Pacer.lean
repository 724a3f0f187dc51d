import Mathlib.Algebra.Order.Ring.Nat
import Mathlib.Data.Finset.Card
import Mathlib.Order.Interval.Finset.Nat
import Mathlib.Tactic.Linarith
import Mathlib.Tactic.Ring

/-! `check_connect_interval` of `cscan.c`, which spaces the packets. The time that it keeps is that of the
clock, or, when it slept, the time until which it had to sleep, which the clock may have passed. -/

namespace Cscan.Scan

/-- `get_us`: `tv_sec*1000000 + tv_nsec/1000` in the signed 64-bit type of the two, which has no result where
it overflows. -/
def getUs (tvSec tvNsec : Int) : Option UInt64 :=
  let us := tvSec * 1000000 + tvNsec.tdiv 1000
  if tvSec * 1000000 < 2 ^ 63 ∧ us < 2 ^ 63 then some (UInt64.ofNat (us % 2 ^ 64).toNat) else none

/-- An `int` as an `unsigned long long`. -/
def toULong (z : Int32) : UInt64 := UInt64.ofNat (z.toInt % 2 ^ 64).toNat

/-- `check_connect_interval` when `get_us` returns `now`: `last_packet` behind it, and the argument of
`usleep` if that is called. -/
def checkConnectInterval (connectInterval : Int32) (lastPacket now : UInt64) : UInt64 × Option UInt32 :=
  if lastPacket + toULong connectInterval > now then
    (lastPacket + toULong connectInterval,
      some (lastPacket + toULong connectInterval - now).toUInt32)
  else (now, none)

/-! ### Runs -/

section Run

variable (c : Int32) (now : Nat → UInt64)

/-- `last_packet` before call `k`, where `now k` is what `get_us` returns in that call. -/
def lastPacket : Nat → UInt64
  | 0 => 0
  | k + 1 => (checkConnectInterval c (lastPacket k) (now k)).1

/-- The argument of `usleep` in call `k`. -/
def slept (k : Nat) : Option UInt32 := (checkConnectInterval c (lastPacket c now k) (now k)).2

/-- `n` calls, of which call `k` returns at the time `back k`, and its packet is sent at the time `sent k`.
The clock does not go back, and `usleep` sleeps for its argument or longer. -/
structure Calls (n : Nat) (back sent : Nat → Nat) : Prop where
  reads : ∀ k < n, ∃ tvSec tvNsec, 0 ≤ tvSec ∧ 0 ≤ tvNsec ∧ getUs tvSec tvNsec = some (now k)
  sleeps : ∀ k < n, (now k).toNat + ((slept c now k).map UInt32.toNat).getD 0 ≤ back k
  sends : ∀ k < n, back k ≤ sent k
  advances : ∀ k, k + 1 < n → sent k ≤ (now (k + 1)).toNat

end Run

theorem getUs_lt {tvSec tvNsec : Int} {now : UInt64} (hsec : 0 ≤ tvSec) (hnsec : 0 ≤ tvNsec)
    (h : getUs tvSec tvNsec = some now) : now.toNat < 2 ^ 63 := by
  have hdiv : 0 ≤ tvNsec.tdiv 1000 := Int.tdiv_nonneg hnsec (by decide)
  unfold getUs at h
  dsimp only at h
  by_cases hfits : tvSec * 1000000 < 2 ^ 63 ∧ tvSec * 1000000 + tvNsec.tdiv 1000 < 2 ^ 63
  · rw [if_pos hfits] at h
    obtain rfl := Option.some.inj h
    rw [UInt64.toNat_ofNat']
    omega
  · rw [if_neg hfits] at h
    cases h

variable {c : Int32} {now : Nat → UInt64} {n : Nat} {back sent : Nat → Nat}

theorem toULong_eq (hc : 0 < c) : (toULong c).toNat = c.toInt.toNat ∧ 0 < c.toInt.toNat ∧
    c.toInt.toNat < 2 ^ 31 := by
  have hpos : 0 < c.toInt := by
    rw [Int32.lt_iff_toInt_lt] at hc
    exact hc
  have hlt : c.toInt < 2 ^ 31 := c.toInt_lt
  refine ⟨?_, by omega, by omega⟩
  rw [toULong, UInt64.toNat_ofNat']
  omega

/-- What a call does when the time that it keeps is not ahead of the clock. -/
theorem checkConnectInterval_cases (hc : 0 < c) {last now : UInt64} (hlast : last.toNat ≤ now.toNat)
    (hnow : now.toNat < 2 ^ 63) :
    ((checkConnectInterval c last now).2 = none ∧ (checkConnectInterval c last now).1 = now ∧
      last.toNat + c.toInt.toNat ≤ now.toNat) ∨
    ∃ us, (checkConnectInterval c last now).2 = some us ∧ 0 < us.toNat ∧ us.toNat ≤ c.toInt.toNat ∧
      (checkConnectInterval c last now).1.toNat = last.toNat + c.toInt.toNat ∧
      now.toNat + us.toNat = last.toNat + c.toInt.toNat := by
  obtain ⟨hulong, hpos, hlt⟩ := toULong_eq hc
  have hsum : (last + toULong c).toNat = last.toNat + c.toInt.toNat := by
    rw [UInt64.toNat_add, hulong, Nat.mod_eq_of_lt (by omega)]
  unfold checkConnectInterval
  by_cases hsleep : last + toULong c > now
  · have hlater : now.toNat < last.toNat + c.toInt.toNat := by
      rw [← hsum]
      exact UInt64.lt_iff_toNat_lt.mp hsleep
    have hus : (last + toULong c - now).toUInt32.toNat = last.toNat + c.toInt.toNat - now.toNat := by
      rw [UInt64.toNat_toUInt32, UInt64.toNat_sub_of_le _ _ (UInt64.le_iff_toNat_le.mpr (by omega)), hsum,
        Nat.mod_eq_of_lt (by omega)]
    rw [if_pos hsleep]
    exact Or.inr ⟨_, rfl, by omega, by omega, hsum, by omega⟩
  · have hearlier := mt UInt64.lt_iff_toNat_lt.mpr hsleep
    rw [hsum] at hearlier
    rw [if_neg hsleep]
    exact Or.inl ⟨rfl, rfl, by omega⟩

namespace Calls

variable (h : Calls c now n back sent) (hc : 0 < c)
include h

theorem now_lt {k : Nat} (hk : k < n) : (now k).toNat < 2 ^ 63 := by
  obtain ⟨tvSec, tvNsec, hsec, hnsec, hnow⟩ := h.reads k hk
  exact getUs_lt hsec hnsec hnow

include hc

/-- The time that is kept is not ahead of the clock when a call begins, and when it returns. -/
theorem lastPacket_le {k : Nat} (hk : k < n) :
    (lastPacket c now k).toNat ≤ (now k).toNat ∧ (lastPacket c now (k + 1)).toNat ≤ back k := by
  have hreturn : ∀ {k}, k < n → (lastPacket c now k).toNat ≤ (now k).toNat →
      (lastPacket c now (k + 1)).toNat ≤ back k := by
    intro k hk hlast
    have hback := h.sleeps k hk
    rcases checkConnectInterval_cases hc hlast (h.now_lt hk) with ⟨hnone, heq, -⟩ | ⟨us, hsome, -, -, heq, hus⟩
    · rw [slept, hnone] at hback
      rw [lastPacket, heq]
      exact hback
    · rw [slept, hsome] at hback
      rw [lastPacket, heq, ← hus]
      exact hback
  have hbegin : (lastPacket c now k).toNat ≤ (now k).toNat := by
    induction k with
    | zero => exact Nat.zero_le _
    | succ k ih =>
      exact (hreturn (by omega) (ih (by omega))).trans ((h.sends k (by omega)).trans (h.advances k hk))
  exact ⟨hbegin, hreturn hk hbegin⟩

theorem turn {k : Nat} (hk : k < n) :
    (slept c now k = none ∧ lastPacket c now (k + 1) = now k ∧
      (lastPacket c now k).toNat + c.toInt.toNat ≤ (now k).toNat) ∨
    ∃ us, slept c now k = some us ∧ 0 < us.toNat ∧ us.toNat ≤ c.toInt.toNat ∧
      (lastPacket c now (k + 1)).toNat = (lastPacket c now k).toNat + c.toInt.toNat ∧
      (now k).toNat + us.toNat = (lastPacket c now k).toNat + c.toInt.toNat :=
  checkConnectInterval_cases hc (h.lastPacket_le hc hk).1 (h.now_lt hk)

theorem lastPacket_add {k : Nat} (hk : k < n) :
    (lastPacket c now k).toNat + c.toInt.toNat ≤ (lastPacket c now (k + 1)).toNat := by
  rcases h.turn hc hk with ⟨-, heq, hle⟩ | ⟨us, -, -, -, heq, -⟩
  · rwa [heq]
  · exact heq.ge

/-- The time that a call keeps is not behind what was sent before it. -/
theorem sent_le {k : Nat} (hk : k + 1 < n) : sent k ≤ (lastPacket c now (k + 2)).toNat := by
  refine (h.advances k hk).trans ?_
  rcases h.turn hc hk with ⟨-, heq, -⟩ | ⟨us, -, hpos, -, heq, hus⟩
  · exact (congrArg UInt64.toNat heq).ge
  · rw [heq]
    omega

/-- The times that are kept grow by the interval from call to call. -/
theorem lastPacket_mul {k d : Nat} (hk : k + d ≤ n) :
    (lastPacket c now k).toNat + d * c.toInt.toNat ≤ (lastPacket c now (k + d)).toNat := by
  induction d with
  | zero => simp
  | succ d ih =>
    have hstep := h.lastPacket_add hc (show k + d < n by omega)
    have hrest := ih (by omega)
    rw [Nat.succ_mul, ← Nat.add_assoc k d 1]
    omega

theorem back_mul {i j : Nat} (hij : i < j) (hj : j < n) :
    back i + (j - i - 1) * c.toInt.toNat ≤ back j := by
  obtain ⟨d, rfl⟩ : ∃ d, j = i + 1 + d := ⟨j - i - 1, by omega⟩
  have hfirst := (h.sends i (by omega)).trans (h.sent_le hc (show i + 1 < n by omega))
  have hgrow := h.lastPacket_mul hc (show i + 2 + d ≤ n by omega)
  have hlast := (h.lastPacket_le hc hj).2
  rw [show i + 1 + d + 1 = i + 2 + d by omega] at hlast
  rw [show i + 1 + d - i - 1 = d by omega]
  omega

/-- A packet that is sent when a later call is back was the one right before that call, which did not sleep. -/
theorem sent_late {i k : Nat} (hki : k < i) (hi : i < n) (hsent : back i ≤ sent k) :
    i = k + 1 ∧ back i ≤ (lastPacket c now (i + 1)).toNat := by
  obtain ⟨-, hpos, -⟩ := toULong_eq hc
  have hback := (h.lastPacket_le hc hi).2
  have hkept := h.sent_le hc (show k + 1 < n by omega)
  obtain ⟨d, rfl⟩ : ∃ d, i = k + 1 + d := ⟨i - k - 1, by omega⟩
  have hgrow := h.lastPacket_mul hc (show k + 2 + d ≤ n by omega)
  rw [show k + 1 + d + 1 = k + 2 + d by omega] at hback
  cases d with
  | zero => exact ⟨rfl, hsent.trans hkept⟩
  | succ d =>
    rw [Nat.succ_mul] at hgrow
    omega

/-- The packets of a window that begins when a call is back. -/
theorem window_card {i : Nat} (hi : i < n) (stop : Nat) :
    ((Finset.range n).filter fun k => back i ≤ sent k ∧ sent k ≤ stop).card ≤
      2 + (stop - back i) / c.toInt.toNat := by
  obtain ⟨-, hpos, -⟩ := toULong_eq hc
  generalize hwindow : (Finset.range n).filter (fun k => back i ≤ sent k ∧ sent k ≤ stop) = window
  have hmem : ∀ k ∈ window, k < n ∧ back i ≤ sent k ∧ sent k ≤ stop := fun k hk => by
    rw [← hwindow, Finset.mem_filter, Finset.mem_range] at hk
    exact hk
  have hfit : ∀ d, d * c.toInt.toNat ≤ stop - back i → d ≤ (stop - back i) / c.toInt.toNat := fun d =>
    (Nat.le_div_iff_mul_le hpos).mpr
  generalize (stop - back i) / c.toInt.toNat = q at hfit ⊢
  by_cases hlate : ∃ k ∈ window, k < i
  · -- the packet before call `i` is in the window, and the calls from `i` on keep the interval
    obtain ⟨k, hk, hki⟩ := hlate
    obtain ⟨rfl, hkept⟩ := h.sent_late hc hki hi (hmem k hk).2.1
    rw [show k + 1 + 1 = k + 2 from rfl] at hkept
    have hsub : window ⊆ Finset.Icc k (k + 1 + q) := by
      intro j hj
      obtain ⟨hjn, hlow, hhigh⟩ := hmem j hj
      rw [Finset.mem_Icc]
      by_cases hjk : j < k + 1
      · obtain rfl : k = j := Nat.succ.inj (h.sent_late hc hjk hi hlow).1
        omega
      · obtain ⟨d, rfl⟩ : ∃ d, j = k + 1 + d := ⟨j - (k + 1), by omega⟩
        have hgrow := h.lastPacket_mul hc (show k + 2 + d ≤ n by omega)
        have hback := (h.lastPacket_le hc hjn).2
        have hsends := h.sends _ hjn
        rw [show k + 1 + d + 1 = k + 2 + d by omega] at hback
        have hd := hfit d (by omega)
        omega
    refine (Finset.card_le_card hsub).trans ?_
    rw [Nat.card_Icc]
    omega
  · have hsub : window ⊆ Finset.Icc i (i + 1 + q) := by
      intro j hj
      obtain ⟨hjn, hlow, hhigh⟩ := hmem j hj
      have hji : i ≤ j := Nat.not_lt.mp fun hlt => hlate ⟨j, hj, hlt⟩
      rw [Finset.mem_Icc]
      by_cases heq : i = j
      · omega
      · have hgrow := h.back_mul hc (show i < j by omega) hjn
        have hsends := h.sends j hjn
        have hd := hfit (j - i - 1) (by omega)
        omega
    refine (Finset.card_le_card hsub).trans ?_
    rw [Nat.card_Icc]
    omega

end Calls

/-- The pacer keeps the interval, but for one packet. -/
structure Paced (c : Int32) (now : Nat → UInt64) (n : Nat) (back sent : Nat → Nat) : Prop where
  kept : ∀ k < n, (lastPacket c now (k + 1)).toNat ≤ back k
  next : ∀ k, k + 1 < n → back k ≤ (lastPacket c now (k + 2)).toNat
  grows : ∀ k < n, (lastPacket c now k).toNat + c.toInt.toNat ≤ (lastPacket c now (k + 1)).toNat
  sleeps : ∀ k < n, ∀ us ∈ slept c now k, 0 < us.toNat ∧ us.toNat ≤ c.toInt.toNat
  spaced : ∀ i j, i < j → j < n → back i + (j - i - 1) * c.toInt.toNat ≤ back j
  window : ∀ i < n, ∀ stop, ((Finset.range n).filter fun k => back i ≤ sent k ∧ sent k ≤ stop).card ≤
    2 + (stop - back i) / c.toInt.toNat

theorem calls_paced (hc : 0 < c) (h : Calls c now n back sent) : Paced c now n back sent where
  kept _ hk := (h.lastPacket_le hc hk).2
  next k hk := (h.sends k (by omega)).trans (h.sent_le hc hk)
  grows _ hk := h.lastPacket_add hc hk
  sleeps k hk us hus := by
    rcases h.turn hc hk with ⟨hnone, -⟩ | ⟨us', hsome, hpos, hle, -⟩
    · rw [hnone] at hus
      cases hus
    · rw [hsome] at hus
      obtain rfl := Option.some.inj hus
      exact ⟨hpos, hle⟩
  spaced _ _ hij hj := h.back_mul hc hij hj
  window _ hi stop := h.window_card hc hi stop

/-- A call that sleeps too long, and the early packet behind it. -/
theorem calls_paced_oversleep :
    let now : Nat → UInt64 := fun k => [1000, 1000, 2600, 2600].getD k 0
    let back : Nat → Nat := fun k => [1000, 2600, 2600, 3100].getD k 0
    slept 500 now 1 = some 500 ∧ lastPacket 500 now 2 = 1500 ∧ slept 500 now 2 = none ∧
      Paced 500 now 4 back back := by
  intro now back
  have hreads : ∀ k < 4, getUs 0 (1000 * (now k).toNat) = some (now k) := by decide
  have hcalls : Calls 500 now 4 back back :=
    ⟨fun k hk => ⟨0, _, by decide, by omega, hreads k hk⟩, by decide, fun _ _ => Nat.le_refl _,
      fun k hk => (by decide : ∀ k < 3, back k ≤ (now (k + 1)).toNat) k (by omega)⟩
  exact ⟨by decide, by decide, by decide, calls_paced (by decide) hcalls⟩

end Cscan.Scan
