import Cscan.Cba.Scripts
import Cscan.Cba.Stats

/-! All the lines that `handle_cscan_entry` prints of a log, in their order: the one about the canary, those of the
calls, and the two about the least and the greatest record. -/

namespace Cscan.Cba

open Cscan.Lib

variable {τ : Type} {fromtimestamp : Int → Option τ}

/-- The line for a call, if there is one. -/
def LogCall.line (fromtimestamp : Int → Option τ) (c : LogCall) : Option (Line τ) :=
  match c with
  | .event text => some (.event (.text (latin1 text)))
  | c => (c.stat fromtimestamp).map .stat

/-- The line about the canary: that it timed out comes first. -/
def canaryFailed (log : List LogCall) : List (Line τ) :=
  if .canaryFail false ∈ log then [.canaryTimedOut]
  else if .canaryFail true ∈ log then [.canaryInvalid]
  else []

theorem canaryFailed_stats (log : List LogCall) : (canaryFailed log : List (Line τ)).filterMap Line.stat? = [] := by
  unfold canaryFailed
  split_ifs <;> rfl

/-- The records among the lines are those of the calls. -/
theorem lines_stats (log : List LogCall) :
    (log.filterMap (LogCall.line fromtimestamp)).filterMap Line.stat? =
      log.filterMap (LogCall.stat fromtimestamp) := by
  rw [List.filterMap_filterMap]
  refine congrArg (List.filterMap · log) (funext fun c => ?_)
  cases c with
  | event text => rfl
  | stats time newEvents newResults =>
    simp only [LogCall.line, LogCall.stat, LogCall.record, Option.bind_some]
    cases fromtimestamp time.toInt <;> rfl
  | _ => rfl

/-! ### The codes of the canary -/

/-- The code of a failure is in the events exactly if `log_canary_fail` was called. -/
theorem canary_code_iff (log : List LogCall) (gotReply : Bool) :
    (∃ e ∈ log.flatMap LogCall.logged, e.code = if gotReply then 22 else 21) ↔
      LogCall.canaryFail gotReply ∈ log := by
  have hcall : ∀ c : LogCall, (∃ e ∈ c.logged, e.code = if gotReply then 22 else 21) ↔
      c = .canaryFail gotReply := by
    intro c
    cases c with
    | canaryFail reply => cases reply <;> cases gotReply <;> decide
    | _ => cases gotReply <;> simp [LogCall.logged, LogCall.labelled, Labelled.logged] <;> decide
  constructor
  · rintro ⟨e, he, hcode⟩
    obtain ⟨c, hc, he⟩ := List.mem_flatMap.mp he
    exact (hcall c).mp ⟨e, he, hcode⟩ ▸ hc
  · intro hmem
    obtain ⟨e, he, hcode⟩ := (hcall _).mpr rfl
    exact ⟨e, List.mem_flatMap.mpr ⟨_, hmem, he⟩, hcode⟩

theorem canaryLines_ofEvents (module : List Char) (log : List LogCall) :
    (canaryLines (Entry.ofEvents module (log.flatMap LogCall.logged)).dict : List (Line τ)) =
      canaryFailed log := by
  have hcode : ∀ gotReply : Bool,
      ((Entry.ofEvents module (log.flatMap LogCall.logged)).dict.any (·.1 = if gotReply then 22 else 21)) = true ↔
        LogCall.canaryFail gotReply ∈ log := fun gotReply => by
    rw [← canary_code_iff, ← lookup_ofEvents_isSome module, lookup_isSome_iff]
  have htimedOut := hcode false
  have hinvalid := hcode true
  simp only [Bool.false_eq_true, if_false] at htimedOut
  simp only [if_true] at hinvalid
  unfold canaryLines canaryFailed
  simp only [htimedOut, hinvalid]

/-! ### The lines -/

theorem handled_printed {log : List LogCall} {v v' : HandleVars τ}
    (h : log.foldlM (LogCall.handled fromtimestamp) v = .ok v') :
    v'.printed = v.printed ++ log.filterMap (LogCall.line fromtimestamp) := by
  induction log generalizing v with
  | nil =>
    cases h
    exact (List.append_nil _).symm
  | cons c log ih =>
    rw [List.foldlM_cons] at h
    cases hc : c.handled fromtimestamp v with
    | error e =>
      rw [hc] at h
      cases h
    | ok u =>
      rw [hc] at h
      have hprinted : u.printed = v.printed ++ (c.line fromtimestamp).toList := by
        cases c with
        | stats time newEvents newResults =>
          cases htime : fromtimestamp time.toInt with
          | none => simp [LogCall.handled, htime] at hc
          | some ts =>
            simp only [LogCall.handled, htime] at hc
            cases hc
            simp [LogCall.line, LogCall.stat, LogCall.record, htime, HandleVars.add]
        | event text =>
          cases hc
          rfl
        | _ =>
          cases hc
          exact (List.append_nil _).symm
      rw [ih h, hprinted, List.append_assoc, List.filterMap_cons]
      cases c.line fromtimestamp <;> rfl

/-- A least and a greatest of the records. -/
structure Extremes (records : List (Stat τ)) (least most : Stat τ) : Prop where
  least : least ∈ records ∧ ∀ s ∈ records, least.eventCount ≤ s.eventCount
  greatest : most ∈ records ∧ ∀ s ∈ records, s.eventCount ≤ most.eventCount

/-- The lines of a log whose times can be shown: an exception ends them if no record has new events. -/
theorem handle_lines (module : List Char) {log : List LogCall}
    (htimes : ∀ r ∈ log.filterMap LogCall.record, (fromtimestamp r.1).isSome) :
    let entry := Entry.ofEvents module (log.flatMap LogCall.logged)
    ((∀ r ∈ log.filterMap LogCall.record, r.2.1 ≤ 0) → handleCscanEntry fromtimestamp entry = .error .type) ∧
    ((∃ r ∈ log.filterMap LogCall.record, 0 < r.2.1) → ∃ least most,
      handleCscanEntry fromtimestamp entry = .ok (canaryFailed log ++ log.filterMap (LogCall.line fromtimestamp) ++
        [.minEvents least, .maxEvents most]) ∧
      Extremes (log.filterMap (LogCall.stat fromtimestamp)) least most) := by
  intro entry
  have hcounts := stats_events htimes
  have hstart : ({ printed := canaryFailed log } : HandleVars τ).Keeps [] :=
    ⟨canaryFailed_stats log, Or.inl ⟨rfl, rfl⟩, Or.inl ⟨rfl, rfl, by simp⟩⟩
  obtain ⟨v, hv, hkeeps⟩ := hstart.log htimes
  rw [List.nil_append] at hkeeps
  have hhandle : handleCscanEntry fromtimestamp entry = v.report := by
    unfold handleCscanEntry
    rw [canaryLines_ofEvents]
    refine (congrArg (Except.bind · HandleVars.report) (handleLoop_log log [] _)).trans ?_
    rw [hv]
    rfl
  rw [hhandle]
  constructor
  · intro hnone
    rcases hkeeps.greatest with ⟨hmax, -⟩ | ⟨s, hs, -, -, hpos, -⟩
    · rw [HandleVars.report, hmax]
      cases v.minStat <;> rfl
    · obtain ⟨r, hr, hcount⟩ := List.mem_map.mp (hcounts ▸ List.mem_map_of_mem hs)
      have hle := hnone r hr
      omega
  · rintro ⟨r, hr, hpos⟩
    obtain ⟨s, hs, hcount⟩ := List.mem_map.mp (hcounts.symm ▸ List.mem_map_of_mem hr)
    obtain ⟨most, hmost, hmax, -, -, hgreatest⟩ := hkeeps.greatest.resolve_left fun h => by
      have hle := h.2.2 s hs
      omega
    obtain ⟨least, hleast, hmin, -, hle⟩ := hkeeps.least.resolve_left fun h => by
      rw [h.1] at hs
      cases hs
    refine ⟨least, most, ?_, ⟨hleast, hle⟩, hmost, hgreatest⟩
    rw [HandleVars.report, hmin, hmax, handled_printed hv]

end Cscan.Cba
