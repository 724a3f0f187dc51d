import Cscan.Results.Stdin

/-! The lines that `list_thread` and `print_result` print are records that `add_from_stdin` reads back. -/

namespace Cscan.Results

open Cscan.Lib Blocking

/-- `printf("%s:%d\n", str, port)` behind `print_ip4(ip, str)`. -/
def printLine (r : Result) : List Char :=
  Scan.printIp4 r.ip ++ ':' :: (Scanf.printInteger r.port.toInt ++ ['\n'])

/-- A record as it is written: what is between the address and the port, and what is behind the port. -/
structure Written where
  result : Result
  separators : List Char
  gap : List Char
  separated : separators ≠ [] ∧ ∀ c ∈ separators, separates c = true
  blank : ∀ c ∈ gap, Scanf.isSpace c = true

namespace Written

def text (w : Written) : List Char :=
  Scan.printIp4 w.result.ip ++ (w.separators ++ (Scanf.printInteger w.result.port.toInt ++ w.gap))

end Written

/-- White space is behind each record but maybe the last one. -/
def Apart (ws : List Written) : Prop := ∀ w ∈ ws.dropLast, w.gap ≠ []

theorem separates_false {c : Char} (h : c.isDigit = true ∨ c = '.') : separates c = false := by
  rcases h with h | rfl
  · have hne : ∀ d, d.isDigit = false → c ≠ d := by
      rintro d hd rfl
      rw [h] at hd
      cases hd
    simp [separates, hne ' ' rfl, hne ':' rfl, hne ',' rfl]
  · rfl

theorem separates_printIp4 {ip : UInt32} {c : Char} (hc : c ∈ Scan.printIp4 ip) : separates c = false :=
  separates_false (Inet.inetNtop_mem hc)

theorem separates_printInteger {z : Int} {c : Char} (hc : c ∈ Scanf.printInteger z) : separates c = false := by
  rcases (Scanf.isNumber_printInteger z).1.mem hc with h | rfl | rfl
  · exact separates_false (.inl h)
  · rfl
  · rfl

/-- `%15[^ :,]` takes the address, also where it fills the buffer. -/
theorem address_taken (ip : UInt32) {separators : List Char} (hne : separators ≠ [])
    (hseparates : ∀ c ∈ separators, separates c = true) (rest : List Char) :
    ((Scan.printIp4 ip ++ (separators ++ rest)).take 15).takeWhile (! separates ·) = Scan.printIp4 ip := by
  have hlength : (Scan.printIp4 ip).length ≤ 15 := Inet.length_inetNtop ip
  have haddress : ∀ c ∈ Scan.printIp4 ip, (! separates c) = true := fun c hc => by
    rw [separates_printIp4 hc]
    rfl
  rw [List.take_append, List.take_of_length_le hlength, List.takeWhile_append_of_pos haddress]
  obtain ⟨c, separators, rfl⟩ := List.exists_cons_of_ne_nil hne
  have hc := hseparates c List.mem_cons_self
  cases 15 - (Scan.printIp4 ip).length with
  | zero => simp
  | succ k => simp [hc]

/-- `%*[ :,]` takes the separators. -/
theorem separators_taken {separators : List Char} (hseparates : ∀ c ∈ separators, separates c = true)
    (z : Int) (rest : List Char) :
    (separators ++ (Scanf.printInteger z ++ rest)).takeWhile separates = separators := by
  rw [List.takeWhile_append_of_pos hseparates]
  obtain ⟨c, cs, hcs⟩ := List.exists_cons_of_ne_nil (Scanf.isNumber_printInteger z).1.ne_nil
  have hc : separates c = false := separates_printInteger (z := z) (by rw [hcs]; exact List.mem_cons_self)
  simp [hcs, hc]

theorem scanRecord_written (w : Written) {rest : List Char} (hrest : Scanf.NoDigit (w.gap ++ rest))
    (hspace : ∀ c ∈ rest.head?, Scanf.isSpace c = false) :
    scanRecord (w.text ++ rest) = some ((Scan.printIp4 w.result.ip, w.result.port.toInt), rest) := by
  obtain ⟨hne, hseparates⟩ := w.separated
  obtain ⟨hnumber, hvalue⟩ := Scanf.isNumber_printInteger w.result.port.toInt
  have haddress : Scan.printIp4 w.result.ip ≠ [] := by
    obtain ⟨c, cs, hcs, -⟩ := Inet.inetNtop_head w.result.ip
    rw [Scan.printIp4, hcs]
    exact List.cons_ne_nil c cs
  have hgap : Scanf.space (w.gap ++ rest) = rest := by
    rw [Scanf.space, List.dropWhile_append_of_pos w.blank]
    cases rest with
    | nil => rfl
    | cons c rest => rw [List.dropWhile_cons_of_neg (by simp [hspace c rfl])]
  simp only [Written.text, List.append_assoc, scanRecord, address_taken _ hne hseparates, if_neg haddress,
    List.drop_left, separators_taken hseparates, if_neg hne, Scanf.integer_number hnumber hrest,
    Option.map_some, hvalue, hgap]

/-- What follows a record begins with the address of the next one. -/
theorem flatMap_text_head (ws : List Written) : ∀ c ∈ (ws.flatMap Written.text).head?, c.isDigit = true := by
  cases ws with
  | nil => simp
  | cons w ws =>
    obtain ⟨c, cs, hcs, hc⟩ := Inet.inetNtop_head w.result.ip
    rw [List.flatMap_cons, Written.text, Scan.printIp4, hcs]
    intro d hd
    obtain rfl : c = d := Option.some.inj hd
    exact hc

theorem scanRecord_cons {w : Written} {ws : List Written} (h : Apart (w :: ws)) :
    scanRecord ((w :: ws).flatMap Written.text) =
      some ((Scan.printIp4 w.result.ip, w.result.port.toInt), ws.flatMap Written.text) := by
  have hhead := flatMap_text_head ws
  rw [List.flatMap_cons]
  refine scanRecord_written w ?_ fun c hc => Scanf.isSpace_of_isDigit (hhead c hc)
  cases hgap : w.gap with
  | nil =>
    -- only the last record may have nothing behind it
    have hlast : ws = [] := by
      by_contra hne
      obtain ⟨w', ws', rfl⟩ := List.exists_cons_of_ne_nil hne
      exact h w (by simp) hgap
    subst hlast
    exact fun c hc => by cases hc
  | cons d gap =>
    intro c hc
    obtain rfl : d = c := Option.some.inj hc
    have hblank := w.blank d (by rw [hgap]; exact List.mem_cons_self)
    by_contra hdigit
    rw [Scanf.isSpace_of_isDigit (by simpa using hdigit)] at hblank
    cases hblank

theorem Apart.tail {w : Written} {ws : List Written} (h : Apart (w :: ws)) : Apart ws := by
  intro v hv
  cases ws with
  | nil => cases hv
  | cons w' ws => exact h v (by rw [List.dropLast_cons_cons]; exact List.mem_cons_of_mem _ hv)

/-- The records are in the text one after the other, and nothing is behind them. -/
theorem reads_written {ws : List Written} (h : Apart ws) :
    Reads (ws.flatMap Written.text) (ws.map fun w => (Scan.printIp4 w.result.ip, w.result.port.toInt)) [] := by
  induction ws with
  | nil => exact .done []
  | cons w ws ih => exact .read (scanRecord_cons h) (ih h.tail)

theorem records_written {ws : List Written} (h : Apart ws) :
    records (ws.flatMap Written.text) = ws.map fun w => (Scan.printIp4 w.result.ip, w.result.port.toInt) := by
  have hreads := reads_written h
  have hlength := hreads.length_le
  exact (hreads.loop_eq rfl hlength).1

theorem leaves_written {ws : List Written} (h : Apart ws) {fuel : Nat} (hfuel : ws.length ≤ fuel) :
    leaves fuel (ws.flatMap Written.text) = [] :=
  ((reads_written h).loop_eq rfl (by rwa [List.length_map])).2

theorem storePort_toInt (overflow : Int → Int32) (port : Int32) : storePort overflow port.toInt = port := by
  have hint : IsInt port.toInt := ⟨port.le_toInt, port.toInt_lt⟩
  rw [storePort, checked_eq hint]
  exact Int32.ofInt_toInt port

theorem addFromStdin_written (overflow : Int → Int32) {ws : List Written} (h : Apart ws) :
    addFromStdin overflow (ws.flatMap Written.text) = ws.map Written.result := by
  rw [addFromStdin, records_written h, List.map_map]
  refine List.map_congr_left fun w _ => ?_
  simp only [Function.comp_apply, Scan.parseIp4_printIp4, storePort_toInt]

/-- A record in the format of `list_thread`. -/
def lineOf (r : Result) : Written where
  result := r
  separators := [':']
  gap := ['\n']
  separated := by simp [separates]
  blank := by simp [Scanf.isSpace]

theorem flatMap_lineOf (rs : List Result) : (rs.map lineOf).flatMap Written.text = rs.flatMap printLine := by
  rw [List.flatMap_map]
  rfl

theorem apart_lineOf (rs : List Result) : Apart (rs.map lineOf) := by
  intro w hw
  obtain ⟨r, -, rfl⟩ := List.mem_map.mp (List.dropLast_subset _ hw)
  exact List.cons_ne_nil _ _

/-- Every list of results is read from a text. -/
theorem addFromStdin_lines (overflow : Int → Int32) (rs : List Result) :
    addFromStdin overflow ((rs.map lineOf).flatMap Written.text) = rs := by
  rw [addFromStdin_written overflow (apart_lineOf rs), List.map_map]
  exact List.map_id rs

/-- The records are queued as they were written, and nothing of the text is left. -/
def Replays (overflow : Int → Int32) (text : List Char) (rs : List Result) : Prop :=
  addFromStdin overflow text = rs ∧ ∀ turns ≥ rs.length, leaves turns text = []

theorem results_replayed (overflow : Int → Int32) (rs : List Result) {ws : List Written} (h : Apart ws) :
    Replays overflow (rs.flatMap printLine) rs ∧
      Replays overflow (ws.flatMap Written.text) (ws.map Written.result) := by
  refine ⟨?_, addFromStdin_written overflow h, fun turns hturns => leaves_written h (by simpa using hturns)⟩
  rw [← flatMap_lineOf]
  exact ⟨addFromStdin_lines overflow rs, fun turns hturns => leaves_written (apart_lineOf rs) (by simpa using hturns)⟩

/-- An address that fills the buffer. -/
def longRecord : Written where
  result := ⟨0xFFFFFFFF, 80⟩
  separators := [' ', ':', ',']
  gap := ['\t', ' ']
  separated := by simp [separates]
  blank := by simp [Scanf.isSpace]

/-- A negative port, and nothing behind it. -/
def lastRecord : Written where
  result := ⟨0, -1⟩
  separators := [':']
  gap := []
  separated := by simp [separates]
  blank := by simp

theorem results_replayed_test :
    Apart [longRecord, lastRecord] ∧ Replays (fun _ => 0) ([longRecord, lastRecord].flatMap Written.text)
      [⟨0xFFFFFFFF, 80⟩, ⟨0, -1⟩] := by
  have hapart : Apart [longRecord, lastRecord] := by
    intro w hw
    obtain rfl := List.mem_singleton.mp (show w ∈ [longRecord] from hw)
    exact List.cons_ne_nil _ _
  exact ⟨hapart, (results_replayed (fun _ => 0) [] hapart).2⟩

end Cscan.Results
