import Cscan.Cba.RoundTrip

/-! The scripts that print entries: `cba_reader_rfb.py`, without the countries, and the results of
`cba_reader_cscan.py`. -/

namespace Cscan.Cba

open Cscan.Lib

/-! ### The dictionary of an entry -/

theorem lookup_replace (d : List (Nat × Value)) (code k : Nat) (val : Value) :
    (d.map fun p => if p.1 = code then (code, val) else p).lookup k =
      if k = code then (d.lookup k).map fun _ => val else d.lookup k := by
  induction d with
  | nil => simp
  | cons p d ih =>
    obtain ⟨c, v⟩ := p
    by_cases hk : k = c
    · subst hk
      by_cases hc : k = code <;> simp [hc]
    · by_cases hc : c = code
      · subst hc
        simp [hk, ih, List.lookup_cons, beq_false_of_ne hk]
      · simp [hc, ih, List.lookup_cons, beq_false_of_ne hk]

theorem lookup_isSome_iff (d : List (Nat × Value)) (k : Nat) :
    (d.lookup k).isSome = true ↔ d.any (·.1 = k) = true := by
  induction d with
  | nil => simp
  | cons p d ih =>
    obtain ⟨c, v⟩ := p
    by_cases hk : k = c
    · simp [hk]
    · simp [List.lookup_cons, beq_false_of_ne hk, ih, Ne.symm hk]

/-- `d[code] = val`, and then `d[k]`. -/
theorem lookup_dictSet (d : List (Nat × Value)) (code k : Nat) (val : Value) :
    (dictSet d code val).lookup k = if k = code then some val else d.lookup k := by
  unfold dictSet
  by_cases hany : d.any (·.1 = code) = true
  · rw [if_pos hany, lookup_replace]
    by_cases hk : k = code
    · obtain ⟨v, hv⟩ := Option.isSome_iff_exists.mp ((lookup_isSome_iff d code).mpr hany)
      rw [if_pos hk, if_pos hk, hk, hv, Option.map_some]
    · rw [if_neg hk, if_neg hk]
  · rw [if_neg hany, List.lookup_append]
    by_cases hk : k = code
    · subst hk
      have hnone : d.lookup k = none := by
        rw [← Option.not_isSome_iff_eq_none, lookup_isSome_iff]
        exact hany
      simp [hnone]
    · simp [hk, List.lookup_cons, beq_false_of_ne hk]

theorem lookup_events (events : List Event) (d : List (Nat × Value)) (k : Nat) :
    (events.foldl (fun d e => dictSet d e.code e.val) d).lookup k =
      ((events.reverse.find? (·.code = k)).map Event.val).or (d.lookup k) := by
  induction events generalizing d with
  | nil => rfl
  | cons e events ih =>
    rw [List.foldl_cons, ih, lookup_dictSet, List.reverse_cons, List.find?_append]
    cases events.reverse.find? (·.code = k) with
    | some e' => rfl
    | none =>
      by_cases hk : k = e.code
      · simp [hk]
      · simp [hk, Ne.symm hk]

/-- `code in entry.dict`. -/
theorem lookup_ofEvents_isSome (module : List Char) (events : List Event) (code : Nat) :
    ((Entry.ofEvents module events).dict.lookup code).isSome = true ↔ ∃ e ∈ events, e.code = code := by
  have hlookup := lookup_events events [] code
  have hdict : (Entry.ofEvents module events).dict = events.foldl (fun d e => dictSet d e.code e.val) [] := rfl
  rw [hdict, hlookup, List.lookup_nil, Option.or_none, Option.isSome_map, List.find?_isSome]
  simp

/-- The value of a code that only the first event has. -/
theorem lookup_ofEvents_first (module : List Char) {first : Event} {events : List Event}
    (h : ∀ e ∈ events, e.code ≠ first.code) :
    (Entry.ofEvents module (first :: events)).dict.lookup first.code = some first.val := by
  have hlookup := lookup_events (first :: events) [] first.code
  have hdict : (Entry.ofEvents module (first :: events)).dict =
      (first :: events).foldl (fun d e => dictSet d e.code e.val) [] := rfl
  have hnone : events.reverse.find? (·.code = first.code) = none := by
    rw [List.find?_eq_none]
    intro e he
    simpa using h e (List.mem_reverse.mp he)
  rw [hdict, hlookup, List.reverse_cons, List.find?_append, hnone]
  simp

/-! ### Printing -/

inductive ScriptErr
  /-- An exception of the reader. -/
  | read (e : Err)
  | key
  | type
  | value
deriving DecidableEq

/-- The lines that a script prints, and the exception that it ends with, if it does. -/
structure Printed (α : Type) where
  lines : List α
  raised : Option ScriptErr
deriving DecidableEq

/-- `for entry in entries`, with the lines that are printed for an entry. -/
def printEntries {α : Type} (line : Entry → Except ScriptErr (List α)) (raised : Option Err) :
    List (UInt8 × Entry) → Printed α
  | [] => ⟨[], raised.map .read⟩
  | e :: es =>
    match line e.2 with
    | .error err => ⟨[], some err⟩
    | .ok lines =>
      let more := printEntries line raised es
      ⟨lines ++ more.lines, more.raised⟩

def printPass {α : Type} (line : Entry → Except ScriptErr (List α)) (pass : Pass) : Printed α :=
  printEntries line pass.raised pass.entries

section Lines

variable {α : Type} {line : Entry → Except ScriptErr (List α)}

theorem printPass_one {tid : UInt8} (e : Entry) (raised : Option Err) :
    printPass line ⟨[e].map (Prod.mk tid), raised⟩ = match line e with
      | .error err => ⟨[], some err⟩
      | .ok lines => ⟨lines, raised.map .read⟩ := by
  rw [List.map_singleton, printPass, printEntries]
  dsimp only
  cases line e with
  | error err => rfl
  | ok lines => simp [printEntries]

theorem printPass_singleton {tid : UInt8} {e : Entry} {lines : List α} (h : line e = .ok lines) :
    printPass line ⟨[e].map (Prod.mk tid), none⟩ = ⟨lines, none⟩ := by
  rw [printPass_one, h]
  rfl

theorem line_of_printPass {tid : UInt8} {e : Entry} {lines : List α}
    (h : printPass line ⟨[e].map (Prod.mk tid), none⟩ = ⟨lines, none⟩) : line e = .ok lines := by
  rw [printPass_one] at h
  cases hline : line e with
  | error err =>
    rw [hline] at h
    cases congrArg Printed.raised h
  | ok own =>
    rw [hline] at h
    exact congrArg _ (congrArg Printed.lines h)

theorem printPass_append {es es' : List (UInt8 × Entry)} {lines : List α} {raised : Option Err} {more : Printed α}
    (h : printPass line ⟨es, none⟩ = ⟨lines, none⟩) (h' : printPass line ⟨es', raised⟩ = more) :
    printPass line ⟨es ++ es', raised⟩ = ⟨lines ++ more.lines, more.raised⟩ := by
  unfold printPass at h h' ⊢
  dsimp only at h h' ⊢
  induction es generalizing lines with
  | nil =>
    obtain rfl : [] = lines := congrArg Printed.lines h
    exact h'
  | cons e es ih =>
    rw [List.cons_append, printEntries]
    rw [printEntries] at h
    cases hline : line e.2 with
    | error err =>
      rw [hline] at h
      cases congrArg Printed.raised h
    | ok first =>
      rw [hline] at h
      dsimp only at h ⊢
      obtain ⟨hlines, hraised⟩ := Printed.mk.inj h
      have hmore := @ih (printEntries line none es).lines (by
        cases hes : printEntries line none es with
        | mk lines raised =>
          rw [hes] at hraised
          exact congrArg _ hraised)
      rw [hmore, ← hlines, List.append_assoc]

/-- The lines of some entries, and then those of the entries behind them. -/
theorem printPass_split {tid : UInt8} {es es' : List Entry} {lines : List α}
    (h : printPass line ⟨(es ++ es').map (Prod.mk tid), none⟩ = ⟨lines, none⟩) :
    ∃ first more, lines = first ++ more ∧
      (∀ raised, printPass line ⟨es.map (Prod.mk tid), raised⟩ = ⟨first, raised.map .read⟩) ∧
      printPass line ⟨es'.map (Prod.mk tid), none⟩ = ⟨more, none⟩ := by
  unfold printPass at h ⊢
  dsimp only at h ⊢
  induction es generalizing lines with
  | nil => exact ⟨[], lines, rfl, fun _ => rfl, h⟩
  | cons e es ih =>
    rw [List.cons_append, List.map_cons, printEntries] at h
    dsimp only at h
    cases hline : line e with
    | error err =>
      rw [hline] at h
      cases congrArg Printed.raised h
    | ok own =>
      rw [hline] at h
      dsimp only at h
      obtain ⟨hlines, hraised⟩ := Printed.mk.inj h
      obtain ⟨first, more, hfirst, hall, hmore⟩ := @ih
        (printEntries line none ((es ++ es').map (Prod.mk tid))).lines (by rw [← hraised])
      refine ⟨own ++ first, more, ?_, fun raised => ?_, hmore⟩
      · rw [← hlines, hfirst, List.append_assoc]
      · rw [List.map_cons, printEntries, hall raised]
        dsimp only
        rw [hline]

/-- What is printed for the entries that each element of a list stands for. -/
theorem printPass_flatMap {β γ : Type} {R : β → γ → Prop} {tid : UInt8} {g : γ → List Entry} {f : β → List α}
    {bs : List β} {cs : List γ} (h : List.Forall₂ R bs cs)
    (hline : ∀ b c, R b c → printPass line ⟨(g c).map (Prod.mk tid), none⟩ = ⟨f b, none⟩) :
    printPass line ⟨(cs.flatMap g).map (Prod.mk tid), none⟩ = ⟨bs.flatMap f, none⟩ := by
  induction h with
  | nil => rfl
  | cons hbc _ ih =>
    rw [List.flatMap_cons, List.flatMap_cons, List.map_append]
    exact printPass_append (hline _ _ hbc) ih

end Lines

/-- `CBA(f)`: nothing is extracted. -/
def plainConfig (opens : Nat → Bool) : Config := ⟨"cba_files".toList, [], false, opens⟩

/-! ### `cba_reader_cscan.py -r` -/

/-- `print(entry.dict[0])`. -/
def resultLine (e : Entry) : Except ScriptErr (List Value) :=
  match e.dict.lookup 0 with
  | some v => .ok [v]
  | none => .error .key

def printResults (opens : Nat → Bool) (data : List UInt8) : Printed Value :=
  printPass resultLine (entries (plainConfig opens) (some []) (newReader data)).1

/-! ### `cba_reader_rfb.py` -/

def codes : List (List Char) :=
  ["ZERO".toList, "CONN_FAIL".toList, "BANNER_FAIL".toList, "READ_FAIL".toList, "WRITE_FAIL".toList,
    "REASON".toList, "WIN".toList, "ONLY_TLS".toList, "TLS_FAIL".toList, "HAS_VENCRYPT".toList,
    "HAS_TIGHT".toList]

/-- `what`: the index of a code, or with `-i` the address as it was given. -/
inductive Query
  | code (n : Nat)
  | ip (text : List Char)

def rfbQuery (ipMode : Bool) (what : List Char) : Except ScriptErr Query :=
  if ipMode then .ok (.ip what)
  else match codes.idxOf? what with
    | some n => .ok (.code n)
    | none => .error .value

inductive RfbLine
  | ip (v : Value)
  | events (events : List Event)
deriving DecidableEq

/-- `v[n:]`, if it raises no `TypeError`. -/
def Value.sliceFrom (n : Nat) : Value → Option Value
  | .text cs => some (.text (cs.drop n))
  | .bytes bs => some (.bytes (bs.drop n))
  | .int _ => none
  | .true => none

/-- A text is not a key of the dictionary, and bytes are not equal to a text. -/
def rfbLine (q : Query) (e : Entry) : Except ScriptErr (List RfbLine) :=
  match e.dict.lookup 0 with
  | none => .error .key
  | some v =>
    match v.sliceFrom 6 with
    | none => .error .type
    | some ip =>
      match q with
      | .ip what => .ok (if ip = .text what then [.events e.events] else [])
      | .code n => .ok (if (e.dict.lookup n).isSome then [.ip ip] else [])

/-- The line for a code, if the first event is the address and no other one has its code. -/
theorem rfbLine_events (module : List Char) {first : Event} {events : List Event} (hfirst : first.code = 0)
    {text : List Char} (hval : first.val = .text text) (hcodes : ∀ e ∈ events, e.code ≠ 0) {n : Nat} (hn : 0 < n) :
    rfbLine (.code n) (.ofEvents module (first :: events)) =
      .ok (if n ∈ events.map Event.code then [.ip (.text (text.drop 6))] else []) := by
  have haddress : (Entry.ofEvents module (first :: events)).dict.lookup 0 = some (.text text) := by
    rw [← hval, ← hfirst]
    exact lookup_ofEvents_first module fun e he => hfirst ▸ hcodes e he
  have hset : ((Entry.ofEvents module (first :: events)).dict.lookup n).isSome = true ↔
      n ∈ events.map Event.code := by
    rw [lookup_ofEvents_isSome, List.mem_map]
    simp [hfirst, hn.ne]
  rw [rfbLine, haddress]
  dsimp only [Value.sliceFrom]
  by_cases hmem : n ∈ events.map Event.code
  · rw [if_pos (hset.mpr hmem), if_pos hmem]
  · rw [if_neg (mt hset.mp hmem), if_neg hmem]

/-- The script with its argument `what`, if it has one. -/
def printRfb (opens : Nat → Bool) (ipMode : Bool) (what : Option (List Char)) (data : List UInt8) :
    Printed RfbLine :=
  match rfbQuery ipMode (what.getD "WIN".toList) with
  | .error e => ⟨[], some e⟩
  | .ok q => printPass (rfbLine q) (entries (plainConfig opens) (some "rfb".toList) (newReader data)).1

end Cscan.Cba
