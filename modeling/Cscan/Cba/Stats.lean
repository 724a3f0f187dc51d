import Cscan.Cba.RoundTrip

/-! The statistics in a CBA file: the calls of `log.c` with which the main thread writes them, and
`handle_cscan_entry` of `cba_reader_cscan.py`, which prints them. -/

namespace Cscan.Cba

open Cscan.Lib

/-! ### `log.c` -/

/-- A call of `log.c`. The first two numbers of `log_stats` go to `stderr` alone; `time` is what `time(NULL)`
returns, and `text` the formatted text of `log_event`. -/
inductive LogCall
  | statsEvery (statsEvery : Int32)
  | stats (time : Int64) (newEvents newResults : Int32)
  | canaryFail (gotReply : Bool)
  | event (text : List UInt8)
deriving DecidableEq

namespace LogCall

def calls : LogCall → List Call
  | statsEvery n => [.code 10, .log (.int32 n)]
  | stats time newEvents newResults =>
    [.code 11, .log (.int64 time), .log (.int32 newEvents), .log (.int32 newResults)]
  | canaryFail gotReply => [.log (.bit (if gotReply then 22 else 21))]
  | event text => [.code 20, .log (.str text)]

/-- The record of a `log_stats`. -/
def record : LogCall → Option (Int × Int × Int)
  | stats time newEvents newResults => some (time.toInt, newEvents.toInt, newResults.toInt)
  | _ => none

end LogCall

/-- `"cscan"`. -/
def cscanName : List UInt8 := [99, 115, 99, 97, 110]

/-- What the main thread writes: its head, and then its log. -/
def mainCalls (log : List LogCall) : List Call := .head cscanName :: log.flatMap LogCall.calls

/-! ### `cba_reader_cscan.py` -/

/-- `IndexError`, `TypeError`, and what `fromtimestamp` raises for a time that is out of its range. -/
inductive HandleErr
  | index
  | type
  | time
deriving DecidableEq

/-- `stat`, whose time is what `strftime` makes of it. -/
structure Stat (τ : Type) where
  ts : τ
  eventCount : Int
  resultCount : Int
deriving DecidableEq

/-- A line that `handle_cscan_entry` prints. -/
inductive Line (τ : Type)
  | canaryTimedOut
  | canaryInvalid
  | event (val : Value)
  | stat (s : Stat τ)
  | minEvents (s : Stat τ)
  | maxEvents (s : Stat τ)
deriving DecidableEq

/-- The variables of `handle_cscan_entry`, with the lines that it has printed. -/
structure HandleVars (τ : Type) where
  statsEvery : Value := .int 0
  oldest : Option (Stat τ) := none
  newest : Option (Stat τ) := none
  minEvents : Int := 0
  minStat : Option (Stat τ) := none
  maxEvents : Int := 0
  maxStat : Option (Stat τ) := none
  printed : List (Line τ) := []

/-- A value where a number is expected: `True` is one. -/
def asNumber : Value → Except HandleErr Int
  | .int z => .ok z
  | .true => .ok 1
  | _ => .error .type

/-- `entry.events[idx][2]`. -/
def valueAt (events : List Event) (idx : Nat) : Except HandleErr Value :=
  match events[idx]? with
  | some e => .ok e.val
  | none => .error .index

section Handle

variable {τ : Type} (fromtimestamp : Int → Option τ)

/-- What is kept of one more `stat`. -/
def HandleVars.add (v : HandleVars τ) (stat : Stat τ) : HandleVars τ :=
  let least := v.minStat.isNone ∨ stat.eventCount < v.minEvents
  let most := v.maxEvents < stat.eventCount
  { v with
    printed := v.printed ++ [.stat stat]
    oldest := some (v.oldest.getD stat)
    newest := some stat
    minStat := if least then some stat else v.minStat
    minEvents := if least then stat.eventCount else v.minEvents
    maxStat := if most then some stat else v.maxStat
    maxEvents := if most then stat.eventCount else v.maxEvents }

/-- The branch of `STAT_TIME`. -/
def handleStat (events : List Event) (idx : Nat) (v : HandleVars τ) : Except HandleErr (HandleVars τ) := do
  let time ← asNumber (← valueAt events idx)
  let ts ← match fromtimestamp time with
    | some ts => .ok ts
    | none => .error .time
  let eventCount ← valueAt events (idx + 1)
  let resultCount ← valueAt events (idx + 2)
  let stat : Stat τ := ⟨ts, ← asNumber eventCount, ← asNumber resultCount⟩
  pure (v.add stat)

/-- `while idx < nevents`. -/
def handleLoop (events : List Event) (idx : Nat) (v : HandleVars τ) : Except HandleErr (HandleVars τ) :=
  if h : idx < events.length then
    let e := events[idx]
    if e.code = 20 then handleLoop events (idx + 1) { v with printed := v.printed ++ [.event e.val] }
    else if e.code = 10 then handleLoop events (idx + 1) { v with statsEvery := e.val }
    else if e.code = 11 then do
      let v ← handleStat fromtimestamp events idx v
      handleLoop events (idx + 3) v
    else handleLoop events (idx + 1) v
  else .ok v
termination_by events.length - idx

/-- The line about the canary, if it has failed. -/
def canaryLines (dict : List (Nat × Value)) : List (Line τ) :=
  if dict.any (·.1 = 21) then [.canaryTimedOut]
  else if dict.any (·.1 = 22) then [.canaryInvalid]
  else []

/-- The last two lines. `stat_to_string(None)` raises a `TypeError`. -/
def HandleVars.report (v : HandleVars τ) : Except HandleErr (List (Line τ)) :=
  match v.minStat, v.maxStat with
  | some least, some most => .ok (v.printed ++ [.minEvents least, .maxEvents most])
  | _, _ => .error .type

/-- `handle_cscan_entry`: the lines that it prints, if it raises nothing. -/
def handleCscanEntry (entry : Entry) : Except HandleErr (List (Line τ)) := do
  let v ← handleLoop fromtimestamp entry.events 0 { printed := canaryLines entry.dict }
  v.report

end Handle

/-! ### What the log is when it is read -/

section Read

variable {τ : Type} {fromtimestamp : Int → Option τ}

/-- The `stat` in a line that shows one. -/
def Line.stat? : Line τ → Option (Stat τ)
  | .stat s => some s
  | _ => none

/-- A record as it is printed. -/
def Stat.shown (s : Stat τ) : Option τ × Int × Int := (some s.ts, s.eventCount, s.resultCount)

/-- The printed lines show the records in order, and one with the least and one with the greatest number of
new events. -/
structure Shows (fromtimestamp : Int → Option τ) (lines : List (Line τ)) (records : List (Int × Int × Int)) :
    Prop where
  stats : (lines.filterMap Line.stat?).map Stat.shown =
    records.map fun r => (fromtimestamp r.1, r.2.1, r.2.2)
  least : records ≠ [] → ∃ s, .minEvents s ∈ lines ∧ s ∈ lines.filterMap Line.stat? ∧
    ∀ r ∈ records, s.eventCount ≤ r.2.1
  greatest : records ≠ [] → ∃ s, .maxEvents s ∈ lines ∧ s ∈ lines.filterMap Line.stat? ∧
    ∀ r ∈ records, r.2.1 ≤ s.eventCount

/-- Reading what the main thread has logged, `handle_cscan_entry` raises nothing and shows the records. -/
def ReadsLog (cfg : Config) (order : ByteOrder) (fromtimestamp : Int → Option τ) (log : List LogCall) : Prop :=
  ∃ actions w, (Writer.init 0).calls order (mainCalls log) = some (actions, w) ∧
    let pass := (entries cfg (some (latin1 cscanName)) (newReader (mark order :: written actions))).1
    pass.raised = none ∧ ∀ e ∈ pass.entries, ∃ lines,
      handleCscanEntry fromtimestamp e.2 = .ok lines ∧ Shows fromtimestamp lines (log.filterMap LogCall.record)

/-- The events of a call, each with its code. -/
def LogCall.labelled : LogCall → List Labelled
  | statsEvery n => [⟨some 10, .int32 n⟩]
  | stats time newEvents newResults =>
    [⟨some 11, .int64 time⟩, ⟨none, .int32 newEvents⟩, ⟨none, .int32 newResults⟩]
  | canaryFail gotReply => [⟨none, .bit (if gotReply then 22 else 21)⟩]
  | event text => [⟨some 20, .str text⟩]

theorem LogCall.calls_eq (c : LogCall) : c.calls = c.labelled.flatMap Labelled.calls := by
  cases c <;> rfl

/-- The events that the reader has of a call. -/
def LogCall.logged (c : LogCall) : List Event := c.labelled.map Labelled.logged

/-- What a turn of the loop makes of a call, or the turns for a record. -/
def LogCall.handled (fromtimestamp : Int → Option τ) (v : HandleVars τ) :
    LogCall → Except HandleErr (HandleVars τ)
  | statsEvery n => .ok { v with statsEvery := .int n.toInt }
  | stats time newEvents newResults =>
    match fromtimestamp time.toInt with
    | some ts => .ok (v.add ⟨ts, newEvents.toInt, newResults.toInt⟩)
    | none => .error .time
  | canaryFail _ => .ok v
  | event text => .ok { v with printed := v.printed ++ [.event (.text (latin1 text))] }

theorem handleLoop_end (fromtimestamp : Int → Option τ) (events : List Event) (v : HandleVars τ) :
    handleLoop fromtimestamp events events.length v = .ok v := by
  rw [handleLoop, dif_neg (Nat.lt_irrefl _)]

theorem handleLoop_at {events : List Event} {idx : Nat} {e : Event} (he : events[idx]? = some e)
    (v : HandleVars τ) :
    handleLoop fromtimestamp events idx v =
      if e.code = 20 then
        handleLoop fromtimestamp events (idx + 1) { v with printed := v.printed ++ [.event e.val] }
      else if e.code = 10 then handleLoop fromtimestamp events (idx + 1) { v with statsEvery := e.val }
      else if e.code = 11 then
        (handleStat fromtimestamp events idx v).bind (handleLoop fromtimestamp events (idx + 3))
      else handleLoop fromtimestamp events (idx + 1) v := by
  obtain ⟨hlt, he⟩ := List.getElem?_eq_some_iff.mp he
  rw [handleLoop, dif_pos hlt, he]
  rfl

/-- A call is handled as a whole, and the next one starts behind it. -/
theorem handleLoop_call (c : LogCall) (pre post : List Event) (v : HandleVars τ) :
    handleLoop fromtimestamp (pre ++ c.logged ++ post) pre.length v =
      (c.handled fromtimestamp v).bind
        (handleLoop fromtimestamp (pre ++ c.logged ++ post) (pre ++ c.logged).length) := by
  have hget : ∀ k, k < c.logged.length → (pre ++ c.logged ++ post)[pre.length + k]? = c.logged[k]? := by
    intro k hk
    rw [List.append_assoc, List.getElem?_append_right (Nat.le_add_right _ _), Nat.add_sub_cancel_left,
      List.getElem?_append_left hk]
  rw [List.length_append]
  cases c with
  | statsEvery n => exact handleLoop_at (hget 0 (Nat.succ_pos _)) v
  | stats time newEvents newResults =>
    have htime := hget 0 (by decide : 0 < 3)
    have hevents := hget 1 (by decide : 1 < 3)
    have hresults := hget 2 (by decide : 2 < 3)
    have hstat : handleStat fromtimestamp (pre ++ (LogCall.stats time newEvents newResults).logged ++ post)
        pre.length v = (LogCall.stats time newEvents newResults).handled fromtimestamp v := by
      rw [Nat.add_zero] at htime
      simp only [handleStat, valueAt, htime, hevents, hresults, LogCall.handled]
      cases h : fromtimestamp time.toInt <;>
        simp [LogCall.logged, LogCall.labelled, Labelled.logged, asNumber, h, bind, Except.bind,
          pure, Except.pure]
    rw [← hstat]
    exact handleLoop_at htime v
  | canaryFail gotReply =>
    refine (handleLoop_at (hget 0 (Nat.succ_pos _)) v).trans ?_
    cases gotReply <;> rfl
  | event text => exact handleLoop_at (hget 0 (Nat.succ_pos _)) v

/-- The loop handles the calls one after the other. -/
theorem handleLoop_log (log : List LogCall) (pre : List Event) (v : HandleVars τ) :
    handleLoop fromtimestamp (pre ++ log.flatMap LogCall.logged) pre.length v =
      log.foldlM (LogCall.handled fromtimestamp) v := by
  induction log generalizing pre v with
  | nil =>
    rw [List.flatMap_nil, List.append_nil]
    exact handleLoop_end fromtimestamp pre v
  | cons c log ih =>
    rw [List.flatMap_cons, ← List.append_assoc, handleLoop_call, List.foldlM_cons]
    exact congrArg _ (funext fun v => ih (pre ++ c.logged) v)

/-! ### The least and the greatest record -/

/-- What the loop keeps of the records that it has met: `minStat` is the first with the least number of new
events, and `maxStat` one with the greatest, if this is positive. -/
structure HandleVars.Keeps (v : HandleVars τ) (records : List (Stat τ)) : Prop where
  stats : v.printed.filterMap Line.stat? = records
  least : (records = [] ∧ v.minStat = none) ∨ ∃ s ∈ records, v.minStat = some s ∧
    v.minEvents = s.eventCount ∧ ∀ r ∈ records, s.eventCount ≤ r.eventCount
  greatest : (v.maxStat = none ∧ v.maxEvents = 0 ∧ ∀ r ∈ records, r.eventCount ≤ 0) ∨
    ∃ s ∈ records, v.maxStat = some s ∧ v.maxEvents = s.eventCount ∧ 0 < s.eventCount ∧
      ∀ r ∈ records, r.eventCount ≤ s.eventCount

theorem HandleVars.Keeps.add {v : HandleVars τ} {records : List (Stat τ)} (h : v.Keeps records)
    (stat : Stat τ) :
    (v.add stat).Keeps (records ++ [stat]) where
  stats := by
    unfold HandleVars.add
    rw [List.filterMap_append, h.stats]
    rfl
  least := by
    right
    by_cases hlt : v.minStat.isNone ∨ stat.eventCount < v.minEvents
    · refine ⟨stat, by simp, if_pos hlt, if_pos hlt, List.forall_mem_append.mpr ⟨fun r hr => ?_, by simp⟩⟩
      rcases h.least with ⟨rfl, -⟩ | ⟨s, -, hsome, hevents, hleast⟩
      · cases hr
      · have hless := hlt.resolve_left (by simp [hsome])
        have := hleast r hr
        omega
    · rcases h.least with ⟨-, hnone⟩ | ⟨s, hs, hsome, hevents, hleast⟩
      · exact absurd (Or.inl (by simp [hnone])) hlt
      · have hle := not_or.mp hlt
        refine ⟨s, List.mem_append_left _ hs, (if_neg hlt).trans hsome, (if_neg hlt).trans hevents,
          List.forall_mem_append.mpr ⟨hleast, List.forall_mem_singleton.mpr (by omega)⟩⟩
  greatest := by
    by_cases hlt : v.maxEvents < stat.eventCount
    · have hmax : 0 ≤ v.maxEvents ∧ ∀ r ∈ records, r.eventCount ≤ v.maxEvents := by
        rcases h.greatest with ⟨-, hzero, hle⟩ | ⟨s, -, -, hevents, hpos, hle⟩
        · exact ⟨by omega, by rwa [hzero]⟩
        · exact ⟨by omega, by rwa [hevents]⟩
      refine Or.inr ⟨stat, by simp, if_pos hlt, if_pos hlt, by omega,
        List.forall_mem_append.mpr ⟨fun r hr => ?_, by simp⟩⟩
      have := hmax.2 r hr
      omega
    · rcases h.greatest with ⟨hnone, hzero, hle⟩ | ⟨s, hs, hsome, hevents, hpos, hle⟩
      · exact Or.inl ⟨(if_neg hlt).trans hnone, (if_neg hlt).trans hzero,
          List.forall_mem_append.mpr ⟨hle, List.forall_mem_singleton.mpr (by omega)⟩⟩
      · exact Or.inr ⟨s, List.mem_append_left _ hs, (if_neg hlt).trans hsome, (if_neg hlt).trans hevents, hpos,
          List.forall_mem_append.mpr ⟨hle, List.forall_mem_singleton.mpr (by omega)⟩⟩

/-- The record of a call as it is printed, if its time is in the range of `fromtimestamp`. -/
def LogCall.stat (fromtimestamp : Int → Option τ) (c : LogCall) : Option (Stat τ) :=
  c.record.bind fun r => (fromtimestamp r.1).map fun ts => ⟨ts, r.2.1, r.2.2⟩

theorem HandleVars.Keeps.handled {v : HandleVars τ} {records : List (Stat τ)} (h : v.Keeps records)
    (c : LogCall)
    (htime : ∀ r ∈ c.record, (fromtimestamp r.1).isSome) :
    ∃ v', c.handled fromtimestamp v = .ok v' ∧ v'.Keeps (records ++ (c.stat fromtimestamp).toList) := by
  cases c with
  | statsEvery n => exact ⟨_, rfl, by simpa [LogCall.stat, LogCall.record] using ⟨h.stats, h.least, h.greatest⟩⟩
  | stats time newEvents newResults =>
    obtain ⟨ts, hts⟩ := Option.isSome_iff_exists.mp (htime _ rfl)
    replace hts : fromtimestamp time.toInt = some ts := hts
    refine ⟨v.add ⟨ts, newEvents.toInt, newResults.toInt⟩, by simp only [LogCall.handled, hts], ?_⟩
    simpa [LogCall.stat, LogCall.record, hts] using h.add ⟨ts, newEvents.toInt, newResults.toInt⟩
  | canaryFail gotReply => exact ⟨v, rfl, by simpa [LogCall.stat, LogCall.record] using h⟩
  | event text =>
    refine ⟨_, rfl, ?_⟩
    have hstats : (v.printed ++ [Line.event (.text (latin1 text))]).filterMap Line.stat? = records := by
      rw [List.filterMap_append, h.stats]
      exact List.append_nil _
    simpa [LogCall.stat, LogCall.record] using ⟨hstats, h.least, h.greatest⟩

theorem HandleVars.Keeps.log {v : HandleVars τ} {records : List (Stat τ)} (h : v.Keeps records)
    {log : List LogCall} (htimes : ∀ r ∈ log.filterMap LogCall.record, (fromtimestamp r.1).isSome) :
    ∃ v', log.foldlM (LogCall.handled fromtimestamp) v = .ok v' ∧
      v'.Keeps (records ++ log.filterMap (LogCall.stat fromtimestamp)) := by
  induction log generalizing v records with
  | nil => exact ⟨v, rfl, by rwa [List.filterMap_nil, List.append_nil]⟩
  | cons c log ih =>
    obtain ⟨v₁, hhandled, hkeeps⟩ := h.handled c fun r hr =>
      htimes r (List.mem_filterMap.mpr ⟨c, List.mem_cons_self, hr⟩)
    have hrest : ∀ r ∈ log.filterMap LogCall.record, (fromtimestamp r.1).isSome := fun r hr => by
      obtain ⟨d, hd, hdr⟩ := List.mem_filterMap.mp hr
      exact htimes r (List.mem_filterMap.mpr ⟨d, List.mem_cons_of_mem _ hd, hdr⟩)
    obtain ⟨v₂, hfold, hkeeps⟩ := ih hkeeps hrest
    refine ⟨v₂, ?_, ?_⟩
    · rw [List.foldlM_cons, hhandled]
      exact hfold
    · rw [List.append_assoc] at hkeeps
      rw [List.filterMap_cons]
      cases hstat : c.stat fromtimestamp with
      | none => simpa [hstat] using hkeeps
      | some s => simpa [hstat] using hkeeps

/-- A time that is out of range ends the loop. -/
theorem handled_time {log : List LogCall} (v : HandleVars τ) {r : Int × Int × Int}
    (hr : r ∈ log.filterMap LogCall.record) (htime : fromtimestamp r.1 = none) :
    ∃ e, log.foldlM (LogCall.handled fromtimestamp) v = .error e := by
  induction log generalizing v with
  | nil => cases hr
  | cons c log ih =>
    rw [List.foldlM_cons]
    cases hhandled : c.handled fromtimestamp v with
    | error e => exact ⟨e, rfl⟩
    | ok v' =>
      obtain ⟨d, hd, hdr⟩ := List.mem_filterMap.mp hr
      rcases List.mem_cons.mp hd with rfl | hd
      · cases d with
        | stats time newEvents newResults =>
          obtain rfl : (time.toInt, newEvents.toInt, newResults.toInt) = r := Option.some.inj hdr
          replace htime : fromtimestamp time.toInt = none := htime
          simp [LogCall.handled, htime] at hhandled
        | _ => cases hdr
      · exact ih v' (List.mem_filterMap.mpr ⟨d, hd, hdr⟩)

theorem stats_shown {log : List LogCall}
    (htimes : ∀ r ∈ log.filterMap LogCall.record, (fromtimestamp r.1).isSome) :
    (log.filterMap (LogCall.stat fromtimestamp)).map Stat.shown =
      (log.filterMap LogCall.record).map fun r => (fromtimestamp r.1, r.2.1, r.2.2) := by
  have hstats : log.filterMap (LogCall.stat fromtimestamp) = (log.filterMap LogCall.record).filterMap
      fun r => (fromtimestamp r.1).map fun ts => (⟨ts, r.2.1, r.2.2⟩ : Stat τ) :=
    List.filterMap_filterMap.symm
  rw [hstats]
  generalize log.filterMap LogCall.record = records at htimes
  induction records with
  | nil => rfl
  | cons r records ih =>
    obtain ⟨ts, hts⟩ := Option.isSome_iff_exists.mp (htimes r List.mem_cons_self)
    rw [List.filterMap_cons, hts, Option.map_some, List.map_cons, List.map_cons,
      ih fun r hr => htimes r (List.mem_cons_of_mem _ hr), hts]
    rfl

/-- The numbers of new events are those of the records. -/
theorem stats_events {log : List LogCall}
    (htimes : ∀ r ∈ log.filterMap LogCall.record, (fromtimestamp r.1).isSome) :
    (log.filterMap (LogCall.stat fromtimestamp)).map Stat.eventCount =
      (log.filterMap LogCall.record).map fun r => r.2.1 := by
  have hshown := congrArg (List.map fun s => s.2.1) (stats_shown htimes)
  rwa [List.map_map, List.map_map] at hshown

/-- The report raises if no record has new events, and else names records with the least and the most of them. -/
theorem HandleVars.Keeps.shows_iff {v : HandleVars τ} {log : List LogCall}
    (hkeeps : v.Keeps (log.filterMap (LogCall.stat fromtimestamp)))
    (htimes : ∀ r ∈ log.filterMap LogCall.record, (fromtimestamp r.1).isSome) :
    (∃ lines, v.report = .ok lines ∧ Shows fromtimestamp lines (log.filterMap LogCall.record)) ↔
      ∃ r ∈ log.filterMap LogCall.record, 0 < r.2.1 := by
  have hcounts := stats_events htimes
  constructor
  · rintro ⟨lines, hreport, -⟩
    rcases hkeeps.greatest with ⟨hnone, -⟩ | ⟨s, hs, -, -, hpos, -⟩
    · unfold HandleVars.report at hreport
      rw [hnone] at hreport
      cases hleast : v.minStat <;> simp [hleast] at hreport
    · obtain ⟨r, hr, hcount⟩ := List.mem_map.mp (hcounts ▸ List.mem_map_of_mem hs)
      exact ⟨r, hr, hcount ▸ hpos⟩
  · rintro ⟨r, hr, hpos⟩
    obtain ⟨s, hs, hcount⟩ := List.mem_map.mp (hcounts.symm ▸ List.mem_map_of_mem hr)
    obtain ⟨most, hmost, hmax, -, -, hgreatest⟩ := hkeeps.greatest.resolve_left fun h => by
      have := h.2.2 s hs
      omega
    obtain ⟨least, hleast, hmin, -, hle⟩ := hkeeps.least.resolve_left fun h => by
      rw [h.1] at hs
      cases hs
    refine ⟨v.printed ++ [.minEvents least, .maxEvents most], ?_, ?_, fun _ => ?_, fun _ => ?_⟩
    · rw [HandleVars.report, hmin, hmax]
    all_goals rw [List.filterMap_append, hkeeps.stats]
    · rw [← stats_shown htimes]
      exact congrArg _ (List.append_nil _)
    · refine ⟨least, by simp, List.mem_append_left _ hleast, ?_⟩
      have hall : ∀ n ∈ (log.filterMap (LogCall.stat fromtimestamp)).map Stat.eventCount,
        least.eventCount ≤ n :=
        List.forall_mem_map.mpr hle
      rw [hcounts] at hall
      exact fun r hr => hall _ (List.mem_map_of_mem hr)
    · refine ⟨most, by simp, List.mem_append_left _ hmost, ?_⟩
      have hall : ∀ n ∈ (log.filterMap (LogCall.stat fromtimestamp)).map Stat.eventCount, n ≤ most.eventCount :=
        List.forall_mem_map.mpr hgreatest
      rw [hcounts] at hall
      exact fun r hr => hall _ (List.mem_map_of_mem hr)

/-- What `handle_cscan_entry` makes of the events of a log: it shows the records if it can show their times and
one of them has new events, and raises an exception otherwise. -/
theorem handle_shows_iff {entry : Entry} {log : List LogCall}
    (hevents : entry.events = log.flatMap LogCall.logged) :
    (∃ lines, handleCscanEntry fromtimestamp entry = .ok lines ∧
        Shows fromtimestamp lines (log.filterMap LogCall.record)) ↔
      (∃ r ∈ log.filterMap LogCall.record, 0 < r.2.1) ∧
        ∀ r ∈ log.filterMap LogCall.record, (fromtimestamp r.1).isSome := by
  have hcanary : (canaryLines entry.dict : List (Line τ)).filterMap Line.stat? = [] := by
    unfold canaryLines
    split_ifs <;> rfl
  have hstart : ({ printed := canaryLines entry.dict } : HandleVars τ).Keeps [] :=
    ⟨hcanary, Or.inl ⟨rfl, rfl⟩, Or.inl ⟨rfl, rfl, by simp⟩⟩
  have hhandle : handleCscanEntry fromtimestamp entry =
      (log.foldlM (LogCall.handled fromtimestamp) { printed := canaryLines entry.dict }).bind
        HandleVars.report := by
    unfold handleCscanEntry
    rw [hevents]
    exact congrArg (Except.bind · HandleVars.report) (handleLoop_log log [] _)
  by_cases htimes : ∀ r ∈ log.filterMap LogCall.record, (fromtimestamp r.1).isSome
  swap
  · refine iff_of_false ?_ fun h => htimes h.2
    rintro ⟨lines, hlines, -⟩
    push Not at htimes
    obtain ⟨r, hr, htime⟩ := htimes
    obtain ⟨e, he⟩ := handled_time { printed := canaryLines entry.dict } hr (by simpa using htime)
    rw [hhandle, he] at hlines
    cases hlines
  obtain ⟨v, hv, hkeeps⟩ := hstart.log htimes
  rw [List.nil_append] at hkeeps
  rw [hhandle, hv, and_iff_left htimes]
  exact hkeeps.shows_iff htimes

/-! ### Reading the log -/

/-- The call with the text that is in the file. -/
def LogCall.clipped : LogCall → LogCall
  | event text => event (Writer.formatted text)
  | c => c

theorem formatted_formatted (text : List UInt8) :
    Writer.formatted (Writer.formatted text) = Writer.formatted text := by
  refine formatted_plain (fun hmem => ?_) (formatted_length text)
  simpa using List.mem_takeWhile_imp hmem

/-- What is cut off of a text is not written anyway. -/
theorem calls_clipped (order : ByteOrder) (w : Writer) (log : List LogCall) :
    w.calls order ((log.map LogCall.clipped).flatMap LogCall.calls) = w.calls order
      (log.flatMap LogCall.calls) := by
  induction log generalizing w with
  | nil => rfl
  | cons c log ih =>
    cases c with
    | event text =>
      have hstr : ∀ w : Writer, w.log order (.str (Writer.formatted text)) = w.log order
        (.str text) := fun w => by
        simp only [Writer.log, Writer.str, Writer.writeStr, formatted_formatted]
      simp only [List.map_cons, LogCall.clipped, LogCall.calls, List.flatMap_cons, List.cons_append,
        List.nil_append, Writer.calls, Writer.call, hstr, ih]
    | _ =>
      simp only [List.map_cons, LogCall.clipped, LogCall.calls, List.flatMap_cons, List.cons_append,
        List.nil_append, Writer.calls, Writer.call, ih]

theorem records_clipped (log : List LogCall) :
    (log.map LogCall.clipped).filterMap LogCall.record = log.filterMap LogCall.record := by
  rw [List.filterMap_map]
  refine congrArg (List.filterMap · log) (funext fun c => ?_)
  cases c <;> rfl

/-- The section of the main thread. -/
def mainSection (log : List LogCall) : Section :=
  ⟨cscanName, none, (log.map LogCall.clipped).flatMap LogCall.labelled⟩

theorem calls_mainSection (order : ByteOrder) (w : Writer) (log : List LogCall) :
    w.calls order (mainSection log).calls = w.calls order (mainCalls log) := by
  have hcalls : (mainSection log).calls =
      .head cscanName :: (log.map LogCall.clipped).flatMap LogCall.calls := by
    rw [Section.calls, mainSection, List.flatMap_assoc, funext LogCall.calls_eq]
    rfl
  rw [hcalls, mainCalls, Writer.calls, Writer.calls]
  exact congrArg _ (funext fun r => congrArg (Option.bind · _) (calls_clipped order r.2 log))

theorem mainSection_cases (log : List LogCall) {l : Labelled} (hl : l ∈ (mainSection log).events) :
    l.Plain ∧ (∀ order, l.Sent order) ∧ ∀ name reads, l.event ≠ .file name reads := by
  obtain ⟨c, hc, hl⟩ := List.mem_flatMap.mp hl
  obtain ⟨d, -, rfl⟩ := List.mem_map.mp hc
  cases d with
  | event text =>
    obtain rfl : l = ⟨some 20, .str (Writer.formatted text)⟩ := List.mem_singleton.mp hl
    refine ⟨⟨fun hmem => ?_, formatted_length text⟩, fun _ => trivial, fun _ _ h => by cases h⟩
    simpa using List.mem_takeWhile_imp hmem
  | _ =>
    simp only [LogCall.clipped, LogCall.labelled, List.mem_cons, List.not_mem_nil, or_false] at hl
    rcases hl with rfl | rfl | rfl <;> exact ⟨trivial, fun _ => trivial, fun _ _ h => by cases h⟩

theorem mainSection_plain (log : List LogCall) : (mainSection log).Plain where
  short := (by decide : cscanName.length < 256)
  ascii := rfl
  events l hl := (mainSection_cases log hl).1
  deferred _ _ h := by cases h

/-- The reader yields one entry for the log, unless the log is empty. -/
theorem log_read (cfg : Config) (order : ByteOrder) (log : List LogCall) :
    ∃ actions w, (Writer.init 0).calls order (mainCalls log) = some (actions, w) ∧
      (entries cfg (some (latin1 cscanName)) (newReader (mark order :: written actions))).1 =
        ⟨(mainSection log).entry.toList.map (Prod.mk 0), none⟩ := by
  have hplain : ∀ s ∈ [mainSection log], s.Plain := by simpa using mainSection_plain log
  have hextract : ∀ s ∈ [mainSection log], s.Extracted cfg := by
    intro s hs l hl name reads h
    rw [List.mem_singleton.mp hs] at hl
    exact absurd h ((mainSection_cases log hl).2.2 name reads)
  obtain ⟨actions, w, hcalls, hentries, -⟩ := @sections_read cfg (some (latin1 cscanName)) order 0 _ hplain
    (by simpa using fun l hl => (mainSection_cases log hl).2.1 order) hextract
  rw [List.flatMap_singleton, calls_mainSection] at hcalls
  refine ⟨actions, w, hcalls, ?_⟩
  have hdecode := decode_sections hplain hextract {}
  rw [hentries, decode_filter, decode_alone, decodeThread, hdecode]
  have hmodule : ∀ e ∈ (mainSection log).entry, e.module = latin1 cscanName := by
    intro e he
    unfold Section.entry at he
    split_ifs at he
    · cases he
    · cases he
      rfl
  cases hentry : (mainSection log).entry with
  | none => simp [hentry, ThreadState.final, wanted]
  | some e => simp [hentry, ThreadState.final, wanted, hmodule e hentry]

/-- The file has the entry of the main thread in it, and the reader handles nothing else. -/
theorem readsLog_entry (cfg : Config) (order : ByteOrder) (fromtimestamp : Int → Option τ)
    (log : List LogCall) :
    ReadsLog cfg order fromtimestamp log ↔ ∀ e ∈ (mainSection log).entry, ∃ lines,
      handleCscanEntry fromtimestamp e = .ok lines ∧
        Shows fromtimestamp lines (log.filterMap LogCall.record) := by
  obtain ⟨actions, w, hcalls, hentries⟩ := log_read cfg order log
  constructor
  · rintro ⟨actions', w', hcalls', -, hall⟩ e he
    obtain ⟨rfl, rfl⟩ := Prod.mk.inj (Option.some.inj (hcalls.symm.trans hcalls'))
    rw [hentries] at hall
    exact hall (0, e) (by simpa using he)
  · intro hall
    refine ⟨actions, w, hcalls, ?_⟩
    rw [hentries]
    refine ⟨rfl, fun e he => ?_⟩
    obtain ⟨e, he, rfl⟩ := List.mem_map.mp he
    exact hall e (by simpa using he)

theorem readsLog_iff_of_ne_nil (cfg : Config) (order : ByteOrder) (fromtimestamp : Int → Option τ)
    {log : List LogCall} (hlog : log ≠ []) :
    ReadsLog cfg order fromtimestamp log ↔ (∃ r ∈ log.filterMap LogCall.record, 0 < r.2.1) ∧
      ∀ r ∈ log.filterMap LogCall.record, (fromtimestamp r.1).isSome := by
  obtain ⟨c, rest, rfl⟩ := List.exists_cons_of_ne_nil hlog
  have hevents : (mainSection (c :: rest)).events ≠ [] := by
    cases c <;> exact List.cons_ne_nil _ _
  have hentry : (mainSection (c :: rest)).entry = some (.ofEvents (latin1 cscanName)
      (((c :: rest).map LogCall.clipped).flatMap LogCall.logged)) := by
    rw [Section.entry, if_neg hevents, mainSection, List.map_flatMap]
    rfl
  have hshows := @handle_shows_iff _ fromtimestamp (.ofEvents (latin1 cscanName)
    (((c :: rest).map LogCall.clipped).flatMap LogCall.logged)) _ rfl
  rw [records_clipped] at hshows
  rw [readsLog_entry]
  simp only [hentry, Option.mem_some_iff, forall_eq', hshows]

/-- What the main thread logs is read back exactly if nothing is logged, or there is a record with new events and
the time of every record is in the range of `fromtimestamp`. -/
theorem reads_log_iff (cfg : Config) (order : ByteOrder) (fromtimestamp : Int → Option τ) (log : List LogCall) :
    ReadsLog cfg order fromtimestamp log ↔
      log = [] ∨ (∃ r ∈ log.filterMap LogCall.record, 0 < r.2.1) ∧
        ∀ r ∈ log.filterMap LogCall.record, (fromtimestamp r.1).isSome := by
  by_cases hnil : log = []
  · subst hnil
    rw [readsLog_entry]
    exact iff_of_true (fun e he => by cases he) (Or.inl rfl)
  · rw [readsLog_iff_of_ne_nil cfg order fromtimestamp hnil, or_iff_right hnil]

/-- With results from `stdin` there is no `log_stats`, and `handle_cscan_entry` raises a `TypeError`. -/
theorem no_stats_raises :
    ¬ ReadsLog ⟨[], [], false, fun _ => true⟩ .little (some : Int → Option Int) [.statsEvery 10] := by
  rw [readsLog_iff_of_ne_nil _ _ _ (List.cons_ne_nil _ _)]
  decide

end Read

end Cscan.Cba
