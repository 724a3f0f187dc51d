import Cscan.Lib.Strings
import Cscan.Results.Stdin

/-! `cookie.c`: ports that are open where a host answers on every port, and the check that a host does not. -/

namespace Cscan.Worker

open Cscan.Lib Cscan.Scan
open Results (storePort)

/-! ### Options of modules -/

/-- `if ((opt=strstr(cfg, name))) sscanf(opt, name "%d", &value)`. -/
def intOption (overflow : Int → Int32) (name cfg : List Char) (value : Int32) : Int32 :=
  match strstr name cfg with
  | none => value
  | some opt =>
    match Scanf.integer (opt.drop name.length) with
    | none => value
    | some (z, _) => storePort overflow z

/-- The numbers that `"%d,%d,...,%d"` converts, at most the given number of them. -/
def scanInts : Nat → List Char → List Int
  | 0, _ => []
  | n + 1, text =>
    match Scanf.integer text with
    | none => []
    | some (z, rest) => z :: match Scanf.literal ',' rest with
      | none => []
      | some rest => scanInts n rest

/-- What `sscanf` returns for these conversions: `EOF` where the text ends in front of the first one. -/
def scanCount (n : Nat) (text : List Char) : Int :=
  if Scanf.space text = [] then -1 else (scanInts n text).length

/-! ### The variables -/

structure Cookie where
  on : Bool := false
  ports : List Int32 := [40033, 41019, 36127, 29438, 0]
  timeout : Int32 := 300
  verifyTimeout : Int32 := 1000
deriving DecidableEq

def portsName : List Char := "cookie.ports=".toList

/-- `cookie_ports[num] = 0` behind the store of the numbers. There is no result outside of the array. -/
def storePorts (overflow : Int → Int32) (text : List Char) (ports : List Int32) : Option (List Int32) :=
  let values := (scanInts 4 text).map (storePort overflow)
  let ports := values ++ ports.drop values.length
  let num := scanCount 4 text
  if 0 ≤ num ∧ num < ports.length then some (ports.set num.toNat 0) else none

def checkcookieInit (overflow : Int → Int32) (enabled cfg : List Char) (c : Cookie) : Option Cookie := do
  let timeout := intOption overflow "cookie.timeout=".toList cfg c.timeout
  let ports ← match strstr portsName cfg with
    | none => some c.ports
    | some opt => storePorts overflow (opt.drop portsName.length) c.ports
  let verifyTimeout := intOption overflow "cookie.verify_timeout=".toList cfg c.verifyTimeout
  some ⟨(strstr "cookie".toList enabled).isSome, ports, timeout, verifyTimeout⟩

/-! ### The check -/

/-- What the kernel answers to a call of `socket4_connect`. -/
structure Dial where
  sock : Int
  outcome : ConnectOutcome
  wait : PollOutcome

/-- What `socket4_connect` returns. -/
def Dial.ret (d : Dial) : Int := (socket4Connect d.sock d.outcome d.wait).1

def Dial.Accepts (d : Dial) : Prop := 0 ≤ d.ret

instance (d : Dial) : Decidable d.Accepts := inferInstanceAs (Decidable (_ ≤ _))

/-- The ports and timeouts of the calls of `socket4_connect`, and the sockets of the calls of `close`. -/
structure Visits where
  tried : List (Int32 × Int32) := []
  closed : List Int := []
deriving DecidableEq

/-- `sock = socket4_connect(ip, port, timeout)`, and the `close` if there is a socket: whether there is one. -/
def Visits.visit (v : Visits) (dial : Nat → Dial) (port timeout : Int32) : Bool × Visits :=
  let d := dial v.tried.length
  if d.Accepts then (true, ⟨v.tried ++ [(port, timeout)], v.closed ++ [d.ret]⟩)
  else (false, ⟨v.tried ++ [(port, timeout)], v.closed⟩)

/-- `while(*cport)`: whether a port is open. There is no result beyond the array. -/
def portLoop (dial : Nat → Dial) (timeout : Int32) : List Int32 → Visits → Option (Bool × Visits)
  | [], _ => none
  | port :: ports, v =>
    if port = 0 then some (false, v)
    else
      let (isOpen, v) := v.visit dial port timeout
      if isOpen then some (true, v) else portLoop dial timeout ports v

/-- What `check_cookie` returns, and what it has visited. -/
def checkCookie (c : Cookie) (dial : Nat → Dial) (port : Int32) : Option (Int × Visits) :=
  if c.on = false then some (1, {})
  else do
    let (isOpen, v) ← portLoop dial c.timeout c.ports {}
    if isOpen then some (0, v)
    else if port = 0 then some (1, v)
    else
      let (isOpen, v) := v.visit dial port c.verifyTimeout
      some (if isOpen then 1 else 0, v)

/-! ### The array of the ports -/

/-- The ports in front of the first 0. -/
def Cookie.checked (c : Cookie) : List Int32 := c.ports.takeWhile (· ≠ 0)

/-- The loop over the ports ends inside of the array. -/
structure Cookie.Ends (c : Cookie) : Prop where
  length : c.ports.length = 5
  zero : 0 ∈ c.ports

/-- The option is there without anything but white space behind it. -/
def PortsMissing (cfg : List Char) : Prop :=
  ∃ text, strstr portsName cfg = some (portsName ++ text) ∧ Scanf.space text = []

theorem length_scanInts (n : Nat) (text : List Char) : (scanInts n text).length ≤ n := by
  induction n generalizing text with
  | zero => exact Nat.le_refl 0
  | succ n ih =>
    unfold scanInts
    cases Scanf.integer text with
    | none => exact Nat.zero_le _
    | some read =>
      obtain ⟨z, rest⟩ := read
      dsimp only
      cases Scanf.literal ',' rest with
      | none => exact Nat.succ_le_succ (Nat.zero_le n)
      | some rest => exact Nat.succ_le_succ (ih rest)

theorem scanCount_neg_iff {n : Nat} {text : List Char} : scanCount n text < 0 ↔ Scanf.space text = [] := by
  unfold scanCount
  split_ifs with h
  · exact iff_of_true (by decide) h
  · exact iff_of_false (by omega) h

/-- The store keeps a 0 in the array, unless it is in front of it. -/
theorem storePorts_cases (overflow : Int → Int32) (text : List Char) {ports : List Int32}
    (hlength : ports.length = 5) :
    (Scanf.space text = [] ∧ storePorts overflow text ports = none) ∨
      (Scanf.space text ≠ [] ∧ ∃ ports', storePorts overflow text ports = some ports' ∧
        ports'.length = 5 ∧ 0 ∈ ports' ∧
        ports' = (scanInts 4 text).map (storePort overflow) ++ 0 :: ports.drop ((scanInts 4 text).length + 1)) := by
  have hvalues := length_scanInts 4 text
  have hroom : ((scanInts 4 text).map (storePort overflow) ++ ports.drop (scanInts 4 text).length).length = 5 := by
    rw [List.length_append, List.length_map, List.length_drop, hlength]
    omega
  unfold storePorts
  simp only [List.length_map, hroom]
  by_cases hspace : Scanf.space text = []
  · have hneg : scanCount 4 text < 0 := scanCount_neg_iff.mpr hspace
    exact Or.inl ⟨hspace, if_neg fun h => by omega⟩
  · have hcount : scanCount 4 text = (scanInts 4 text).length := if_neg hspace
    refine Or.inr ⟨hspace, _, if_pos ⟨by omega, by omega⟩, ?_, ?_, ?_⟩
    · rw [List.length_set, hroom]
    · rw [hcount, Int.toNat_natCast]
      exact List.mem_set (by omega) 0
    · have hdrop : ports.drop (scanInts 4 text).length =
          ports[(scanInts 4 text).length] :: ports.drop ((scanInts 4 text).length + 1) :=
        List.drop_eq_getElem_cons (by omega)
      have hlen : ((scanInts 4 text).map (storePort overflow)).length = (scanInts 4 text).length :=
        List.length_map _
      rw [hcount, Int.toNat_natCast, ← hlen, List.set_append_right _ _ (Nat.le_refl _), Nat.sub_self, hlen, hdrop]
      rfl

theorem checkcookieInit_cases (overflow : Int → Int32) (enabled cfg : List Char) {c : Cookie} (hc : c.Ends) :
    (PortsMissing cfg ∧ checkcookieInit overflow enabled cfg c = none) ∨
      (¬ PortsMissing cfg ∧ ∃ c', checkcookieInit overflow enabled cfg c = some c' ∧ c'.Ends ∧
        c'.on = (strstr "cookie".toList enabled).isSome) := by
  unfold checkcookieInit PortsMissing
  cases hfound : strstr portsName cfg with
  | none => exact Or.inr ⟨by simp, _, rfl, ⟨hc.length, hc.zero⟩, rfl⟩
  | some opt =>
    obtain ⟨text, rfl⟩ := strstr_prefix hfound
    have hdrop : (portsName ++ text).drop portsName.length = text := List.drop_left
    have hmissing : (∃ text', some (portsName ++ text) = some (portsName ++ text') ∧ Scanf.space text' = []) ↔
        Scanf.space text = [] := by simp
    simp only [hdrop, hmissing]
    rcases storePorts_cases overflow text hc.length with
      ⟨hspace, hnone⟩ | ⟨hspace, ports, hports, hlength, hzero, -⟩
    · exact Or.inl ⟨hspace, by rw [hnone]; rfl⟩
    · exact Or.inr ⟨hspace, _, by rw [hports]; rfl, ⟨hlength, hzero⟩, rfl⟩

/-! ### What a check visits -/

/-- The sockets that the first calls of `socket4_connect` return. -/
def returned (dial : Nat → Dial) (n : Nat) : List Int :=
  ((List.range n).map fun k => (dial k).ret).filter (0 ≤ ·)

/-- The sockets returned so far are closed. -/
def Visits.Closes (v : Visits) (dial : Nat → Dial) : Prop := v.closed = returned dial v.tried.length

theorem Visits.Closes.visit {v : Visits} {dial : Nat → Dial} (h : v.Closes dial) (port timeout : Int32) :
    ∃ v' : Visits, v.visit dial port timeout = (decide (dial v.tried.length).Accepts, v') ∧ v'.Closes dial ∧
      v'.tried = v.tried ++ [(port, timeout)] := by
  have hreturned : returned dial (v.tried.length + 1) = v.closed ++
      [(dial v.tried.length).ret].filter (0 ≤ ·) := by
    rw [returned, List.range_succ, List.map_append, List.filter_append, h]
    rfl
  unfold Visits.visit
  dsimp only
  by_cases haccepts : (dial v.tried.length).Accepts
  · have hone : [(dial v.tried.length).ret].filter (0 ≤ ·) = [(dial v.tried.length).ret] := by
      simpa [Dial.Accepts] using haccepts
    refine ⟨_, by rw [if_pos haccepts, decide_eq_true haccepts], ?_, rfl⟩
    rw [Visits.Closes, List.length_append, List.length_singleton, hreturned, hone]
  · have hnone : [(dial v.tried.length).ret].filter (0 ≤ ·) = [] := by
      simpa [Dial.Accepts] using haccepts
    refine ⟨_, by rw [if_neg haccepts, decide_eq_false haccepts], ?_, rfl⟩
    rw [Visits.Closes, List.length_append, List.length_singleton, hreturned, hnone, List.append_nil]

/-- The loop tries the ports in front of the first 0, and leaves them at the first one that is open. -/
theorem portLoop_spec (dial : Nat → Dial) (timeout : Int32) {ports : List Int32} (hzero : 0 ∈ ports)
    {v : Visits} (hv : v.Closes dial) :
    ∃ isOpen v' tried, portLoop dial timeout ports v = some (isOpen, v') ∧ v'.Closes dial ∧
      v'.tried = v.tried ++ tried.map (·, timeout) ∧ tried <+: ports.takeWhile (· ≠ 0) ∧
      (∀ k, k + 1 < tried.length → ¬ (dial (v.tried.length + k)).Accepts) ∧
      (isOpen = true → ∃ k, tried.length = k + 1 ∧ (dial (v.tried.length + k)).Accepts) ∧
      (isOpen = false → tried = ports.takeWhile (· ≠ 0) ∧
        ∀ k < tried.length, ¬ (dial (v.tried.length + k)).Accepts) := by
  induction ports generalizing v with
  | nil => exact absurd hzero List.not_mem_nil
  | cons port ports ih =>
    by_cases hport : port = 0
    · have htake : (port :: ports).takeWhile (· ≠ 0) = [] := by simp [hport]
      rw [htake]
      exact ⟨false, v, [], if_pos hport, hv, (List.append_nil _).symm, List.nil_prefix, by simp, by simp, by simp⟩
    · have htake : (port :: ports).takeWhile (· ≠ 0) = port :: ports.takeWhile (· ≠ 0) := by simp [hport]
      have hrest : 0 ∈ ports := (List.mem_cons.mp hzero).resolve_left (Ne.symm hport)
      obtain ⟨v', hvisit, hcloses, htried⟩ := hv.visit port timeout
      rw [portLoop, if_neg hport, hvisit, htake]
      by_cases haccepts : (dial v.tried.length).Accepts
      · refine ⟨true, v', [port], ?_, hcloses, htried, ⟨_, rfl⟩, by simp, fun _ => ⟨0, rfl, haccepts⟩, by simp⟩
        simp [haccepts]
      · obtain ⟨isOpen, v'', tried, hloop, hcloses', htried', hfront, hbefore, hopen, hclosed⟩ := ih hrest hcloses
        have hlength : v'.tried.length = v.tried.length + 1 := by simp [htried]
        have hshift : ∀ k, (dial (v'.tried.length + k)) = dial (v.tried.length + (k + 1)) := fun k => by
          rw [hlength, Nat.add_right_comm, Nat.add_assoc]
        simp only [hshift] at hbefore hopen hclosed
        refine ⟨isOpen, v'', port :: tried, ?_, hcloses', ?_, ?_, ?_, ?_, ?_⟩
        · simpa [haccepts] using hloop
        · rw [htried', htried, List.append_assoc]
          rfl
        · exact (List.prefix_cons_inj port).mpr hfront
        · intro k hk
          cases k with
          | zero => exact haccepts
          | succ k => exact hbefore k (by simpa using hk)
        · intro hisOpen
          obtain ⟨k, hk, hdial⟩ := hopen hisOpen
          exact ⟨k + 1, congrArg (· + 1) hk, hdial⟩
        · intro hisOpen
          obtain ⟨hall, hnone⟩ := hclosed hisOpen
          refine ⟨congrArg (port :: ·) hall, fun k hk => ?_⟩
          cases k with
          | zero => exact haccepts
          | succ k => exact hnone k (by simpa using hk)

/-- What a check of a host with the given port comes to. -/
structure Checks (c : Cookie) (dial : Nat → Dial) (port : Int32) (ret : Int) (v : Visits) : Prop where
  zeroOrOne : ret = 0 ∨ ret = 1
  passes : ret = 1 ↔ c.on = false ∨ (∀ k < c.checked.length, ¬ (dial k).Accepts) ∧
    (port = 0 ∨ (dial c.checked.length).Accepts)
  tried : v.tried <+: c.checked.map (·, c.timeout) ++ [(port, c.verifyTimeout)]
  /-- Only the last port tried is open. -/
  stops : ∀ k, k + 1 < v.tried.length → ¬ (dial k).Accepts
  closes : v.closed = returned dial v.tried.length

theorem checkCookie_checks {c : Cookie} (hc : c.Ends) (dial : Nat → Dial) (port : Int32) :
    ∃ ret v, checkCookie c dial port = some (ret, v) ∧ Checks c dial port ret v := by
  by_cases hon : c.on = false
  · refine ⟨1, {}, if_pos hon, Or.inr rfl, by simp [hon], List.nil_prefix, by simp, rfl⟩
  obtain ⟨isOpen, v, tried, hloop, hcloses, htried, hfront, hbefore, hopen, hclosed⟩ :=
    portLoop_spec dial c.timeout hc.zero (v := {}) rfl
  have hstart : ∀ k, ({} : Visits).tried.length + k = k := fun k => Nat.zero_add k
  have htried : v.tried = tried.map (·, c.timeout) := htried
  simp only [hstart] at hbefore hopen hclosed
  have hrun : checkCookie c dial port = if isOpen then some (0, v) else if port = 0 then some (1, v)
      else some (if (v.visit dial port c.verifyTimeout).1 then 1 else 0, (v.visit dial port c.verifyTimeout).2) := by
    rw [checkCookie, if_neg hon, hloop]
    rfl
  rw [hrun]
  cases isOpen with
  | true =>
    obtain ⟨k, hk, hdial⟩ := hopen rfl
    refine ⟨0, v, rfl, Or.inl rfl, ?_, ?_, ?_, hcloses⟩
    · refine iff_of_false (by decide) ?_
      rintro (h | ⟨hnone, -⟩)
      · exact hon h
      · exact hnone k (Nat.lt_of_lt_of_le (by omega) hfront.length_le) hdial
    · rw [htried]
      exact (hfront.map _).trans (List.prefix_append _ _)
    · intro k hk
      exact hbefore k (by simpa [htried] using hk)
  | false =>
    obtain ⟨rfl, hnone⟩ := hclosed rfl
    have hlength : v.tried.length = c.checked.length := by simp [htried, Cookie.checked]
    by_cases hport : port = 0
    · refine ⟨1, v, if_pos hport, Or.inr rfl, ?_, ?_, ?_, hcloses⟩
      · exact iff_of_true rfl (Or.inr ⟨hnone, Or.inl hport⟩)
      · rw [htried]
        exact List.prefix_append _ _
      · intro k hk
        exact hnone k (by rw [hlength] at hk; exact Nat.lt_of_succ_lt hk)
    · obtain ⟨v', hvisit, hcloses', htried'⟩ := Visits.Closes.visit hcloses port c.verifyTimeout
      rw [hlength] at hvisit
      refine ⟨if (dial c.checked.length).Accepts then 1 else 0, v', ?_, ?_, ?_, ?_, ?_, hcloses'⟩
      · rw [if_neg Bool.false_ne_true, if_neg hport, hvisit]
        simp only [decide_eq_true_eq]
      · by_cases hverified : (dial c.checked.length).Accepts <;> simp [hverified]
      · by_cases hverified : (dial c.checked.length).Accepts
        · exact iff_of_true (if_pos hverified) (Or.inr ⟨hnone, Or.inr hverified⟩)
        · rw [if_neg hverified]
          refine iff_of_false (by decide) ?_
          rintro (h | ⟨-, h | h⟩)
          · exact hon h
          · exact hport h
          · exact hverified h
      · rw [htried', htried]
        exact List.prefix_refl _
      · intro k hk
        refine hnone k ?_
        rw [htried', List.length_append, List.length_singleton, hlength] at hk
        exact Nat.lt_of_succ_lt_succ hk

/-- `checkcookie_init` goes outside of `cookie_ports` just when the option has no ports. Otherwise every check stays
inside of it and makes five connections at most. -/
theorem checks_iff (overflow : Int → Int32) (enabled cfg : List Char) :
    (checkcookieInit overflow enabled cfg {} = none ↔ PortsMissing cfg) ∧
      ∀ c, checkcookieInit overflow enabled cfg {} = some c → ∀ dial port,
        ∃ ret v, checkCookie c dial port = some (ret, v) ∧ Checks c dial port ret v ∧ v.tried.length ≤ 5 := by
  have hstart : ({} : Cookie).Ends := ⟨rfl, by decide⟩
  rcases checkcookieInit_cases overflow enabled cfg hstart with ⟨hmissing, hnone⟩ | ⟨hpresent, c', hc', hends, -⟩
  · exact ⟨iff_of_true hnone hmissing, by simp [hnone]⟩
  · refine ⟨iff_of_false (by simp [hc']) hpresent, fun c hc dial port => ?_⟩
    obtain rfl : c' = c := by simpa [hc'] using hc
    obtain ⟨ret, v, hrun, hchecks⟩ := checkCookie_checks hends dial port
    refine ⟨ret, v, hrun, hchecks, ?_⟩
    have hfour : c'.checked.length < c'.ports.length := by
      refine Nat.lt_of_le_of_ne (List.takeWhile_sublist _).length_le fun heq => ?_
      have hall := (List.takeWhile_sublist (fun p : Int32 => decide (p ≠ 0))).eq_of_length heq
      have hzero := List.mem_takeWhile_imp (hall ▸ hends.zero)
      simp at hzero
    have hlength := hchecks.tried.length_le
    rw [List.length_append, List.length_map, List.length_singleton] at hlength
    have hfive := hends.length
    omega

end Cscan.Worker
