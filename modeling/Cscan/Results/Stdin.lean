import Cscan.Blocking.Pipeline
import Cscan.Lib.CInt
import Cscan.Scan.SocketUtils

/-! `add_from_stdin` of `cscan.c`: the records that it reads from a text, and the calls of `queue_result`
that it makes. -/

namespace Cscan.Results

open Cscan.Lib Blocking

/-- The characters in ` :,`. -/
def separates (c : Char) : Bool := c = ' ' || c = ':' || c = ','

/-- One call of `scanf("%15[^ :,]%*[ :,]%d ", ip_str, &port)` that returns 2: what is in `ip_str`, the
number, and the text that is left. -/
def scanRecord (text : List Char) : Option ((List Char × Int) × List Char) :=
  let ipStr := (text.take 15).takeWhile (! separates ·)
  if ipStr = [] then none
  else
    let rest := text.drop ipStr.length
    let separators := rest.takeWhile separates
    if separators = [] then none
    else (Scanf.integer (rest.drop separators.length)).map fun (port, rest) =>
      ((ipStr, port), Scanf.space rest)

/-- The records that the loop reads in at most the given number of turns. -/
def readRecords : Nat → List Char → List (List Char × Int)
  | 0, _ => []
  | fuel + 1, text =>
    match scanRecord text with
    | none => []
    | some (entry, rest) => entry :: readRecords fuel rest

/-- The text that is left behind them. -/
def leaves : Nat → List Char → List Char
  | 0, text => text
  | fuel + 1, text =>
    match scanRecord text with
    | none => text
    | some (_, rest) => leaves fuel rest

/-- All records that are read from the text. A turn takes at least one character. -/
def records (text : List Char) : List (List Char × Int) := readRecords text.length text

/-- What `%d` stores; `overflow` is for the numbers that are no `int`. -/
def storePort (overflow : Int → Int32) (z : Int) : Int32 :=
  match checked z with
  | some z => Int32.ofInt z
  | none => overflow z

/-- The calls of `queue_result`. -/
def addFromStdin (overflow : Int → Int32) (text : List Char) : List Result :=
  (records text).map fun entry => ⟨Scan.parseIp4 entry.1, storePort overflow entry.2⟩

/-! ### The loop -/

theorem length_integer {text rest : List Char} {z : Int} (h : Scanf.integer text = some (z, rest)) :
    rest.length ≤ text.length := by
  unfold Scanf.integer Scanf.decimal at h
  simp only at h
  split_ifs at h
  cases h
  rw [List.length_drop]
  exact (Nat.sub_le ..).trans (List.dropWhile_sublist _).length_le

theorem scanRecord_shortens {text rest : List Char} {entry : List Char × Int}
    (h : scanRecord text = some (entry, rest)) : rest.length < text.length := by
  unfold scanRecord at h
  simp only at h
  split_ifs at h with hip hseparators
  obtain ⟨⟨port, behind⟩, hport, hrest⟩ := Option.map_eq_some_iff.mp h
  obtain rfl : Scanf.space behind = rest := (Prod.mk.inj hrest).2
  have hinteger := length_integer hport
  have hspace : (Scanf.space behind).length ≤ behind.length := (List.dropWhile_sublist _).length_le
  have hpos := List.length_pos_iff.mpr hip
  have htaken : ((text.take 15).takeWhile (! separates ·)).length ≤ text.length :=
    ((List.takeWhile_sublist _).trans (List.take_sublist ..)).length_le
  simp only [List.length_drop] at hinteger
  omega

/-- The loop reads the records of `text` one after the other, and `left` is behind them. -/
inductive Reads : List Char → List (List Char × Int) → List Char → Prop
  | done (text : List Char) : Reads text [] text
  | read {text rest left : List Char} {entry : List Char × Int} {entries : List (List Char × Int)} :
      scanRecord text = some (entry, rest) → Reads rest entries left → Reads text (entry :: entries) left

theorem Reads.length_le {text left : List Char} {entries : List (List Char × Int)} (h : Reads text entries left) :
    entries.length + left.length ≤ text.length := by
  induction h with
  | done text => exact (Nat.zero_add _).le
  | read hscan _ ih =>
    have hshort := scanRecord_shortens hscan
    rw [List.length_cons]
    omega

/-- So many turns read these records and leave this text. -/
theorem reads_loop (fuel : Nat) (text : List Char) : Reads text (readRecords fuel text) (leaves fuel text) := by
  induction fuel generalizing text with
  | zero => exact .done text
  | succ fuel ih =>
    rw [readRecords, leaves]
    cases hscan : scanRecord text with
    | none => exact .done text
    | some r => exact .read hscan (ih r.2)

/-- The loop ends where no record is, and then it has read all records in front. -/
theorem Reads.loop_eq {text left : List Char} {entries : List (List Char × Int)} (h : Reads text entries left)
    (hend : scanRecord left = none) {fuel : Nat} (hfuel : entries.length ≤ fuel) :
    readRecords fuel text = entries ∧ leaves fuel text = left := by
  induction h generalizing fuel with
  | done text =>
    cases fuel with
    | zero => exact ⟨rfl, rfl⟩
    | succ fuel =>
      rw [readRecords, leaves, hend]
      exact ⟨rfl, rfl⟩
  | read hscan _ ih =>
    cases fuel with
    | zero => exact absurd hfuel (by simp)
    | succ fuel =>
      obtain ⟨hread, hleft⟩ := ih hend (Nat.le_of_succ_le_succ hfuel)
      rw [readRecords, leaves, hscan]
      exact ⟨congrArg _ hread, hleft⟩

/-- No record is queued as the end marker exactly if the records have addresses. -/
theorem addFromStdin_ne_zero_iff (overflow : Int → Int32) (text : List Char) :
    (∀ r ∈ addFromStdin overflow text, r.ip ≠ 0) ↔
      ∀ entry ∈ records text, Inet.IsAddress (Inet.cString entry.1) := by
  simp only [addFromStdin, List.forall_mem_map, Scan.parseIp4_ne_zero_iff]

end Cscan.Results
