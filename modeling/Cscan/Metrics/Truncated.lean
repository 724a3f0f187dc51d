import Cscan.Metrics.Parse

/-! What the tables of `metrics.py` hold of a log, of which the end may be missing. -/

namespace Cscan.Metrics

open Cscan.Lib

/-! ### The tables of a list of records -/

/-- The events of a record of the kind `kind`: one on its own axis, and one on the axis for all kinds. -/
def kindEvents (axis : Int → Option Nat) (key kind : Int) : List (Int × Nat) :=
  (axis kind).toList.map (Prod.mk key) ++ [(key, 4)]

namespace Row

def kind? (r : Row) : Option Int :=
  match r.fields with
  | .ret _ kind => some kind
  | _ => none

def fd? (r : Row) : Option Int :=
  match r.fields with
  | .packet fd => some fd
  | _ => none

def epoll? (r : Row) : Option (List Int) :=
  match r.fields with
  | .epoll returned timeout => some [r.time, returned, timeout]
  | _ => none

def delta? (r : Row) : Option (List Int) :=
  match r.fields with
  | .ret delta _ => some [r.time - delta, delta]
  | .delta delta => some [r.time - delta, delta]
  | _ => none

def sendinfo? (r : Row) : Option (List Int) :=
  match r.fields with
  | .sendinfo delta sent => some [r.time - delta, delta, sent]
  | _ => none

def delinfo? (r : Row) : Option (List Int) :=
  match r.fields with
  | .delinfo delta deleted => some [r.time - delta, delta, deleted]
  | _ => none

def packet? (r : Row) : Option (Int × Nat) :=
  match r.fields with
  | .packet _ => some (r.time, 0)
  | _ => none

/-- The events under the time of the record. -/
def received (axis : Int → Option Nat) (r : Row) : List (Int × Nat) :=
  match r.fields with
  | .ret _ kind => kindEvents axis r.time kind
  | _ => []

/-- The events under the time when the socket was opened. -/
def opened (axis : Int → Option Nat) (r : Row) : List (Int × Nat) :=
  match r.fields with
  | .ret delta kind => kindEvents axis (r.time - delta) kind
  | _ => []

end Row

/-- How many of the records are successes. -/
def wins (rows : List Row) : Nat := (rows.filterMap Row.kind?).countP (2 ≤ ·)

/-- How many of them are failures. -/
def losses (rows : List Row) : Nat := (rows.filterMap Row.kind?).countP (· < 2)

/-- After each success or failure the numbers of both, from `score` and `other` on. -/
def scored (score other : Nat) : List Row → List (List Int)
  | [] => []
  | r :: rows =>
    match r.kind? with
    | some kind =>
      let score := if 2 ≤ kind then score + 1 else score
      let other := if 2 ≤ kind then other else other + 1
      [r.time, score, other] :: scored score other rows
    | none => scored score other rows

/-- The tables hold these records and nothing else, with the events of each kind on its axis. -/
structure Holds (axis : Int → Option Nat) (s : Vars) (rows : List Row) : Prop where
  mtlog : s.mtlog = rows.map fun r => (r.fields.tag, r.time)
  packetfd : s.packetfd = rows.filterMap Row.fd?
  epoll : s.epoll = .ofRows 3 (rows.filterMap Row.epoll?)
  deltainfo : s.deltainfo = .ofRows 2 (rows.filterMap Row.delta?)
  sendinfo : s.sendinfo = .ofRows 3 (rows.filterMap Row.sendinfo?)
  delinfo : s.delinfo = .ofRows 3 (rows.filterMap Row.delinfo?)
  scoreinfo : s.scoreinfo = .ofRows 3 (scored 0 0 rows)
  tbuckets : s.tbuckets.Counts (rows.filterMap Row.packet?)
  ebuckets : s.ebuckets.Counts (rows.flatMap (Row.received axis))
  esbuckets : s.esbuckets.Counts (rows.flatMap (Row.opened axis))

/-- The kinds `fail`, `fail_imm`, `win` and `win_imm` have axes of their own. -/
def kindAxis (kind : Int) : Option Nat := if 0 ≤ kind ∧ kind ≤ 3 then some kind.toNat else none

/-- The time of the first call. -/
def firstTime (calls : List Call) : Nat := (calls.head?.map fun c => c.time.toNat).getD 0

/-- What the calls log, with times from the first one on. -/
def relative (calls : List Call) : List Row := calls.map fun c => ⟨c.time.toNat - firstTime calls, c.fields⟩

/-- From the first `n` bytes of a log the script gets the complete records. -/
def Decodes (order : ByteOrder) (connectTimeout : Int32) (calls : List Call) (n : Nat) : Prop :=
  ∃ s, parse ((log order connectTimeout calls).take n) = .ok true s ∧
    Holds kindAxis s (relative (complete calls (n - 4)))

/-- A record that the script reads as it was logged: the time since the first record, and every `int`. -/
def Legible (order : ByteOrder) (first : Nat) (c : Call) : Prop :=
  reread64 order c.time.toNat - reread64 order first = (c.time.toNat : Int) - first ∧
    c.fields.mapInt (reread32 order) = c.fields

/-- When the tables hold the complete records of the first `n` bytes. -/
structure Clean (order : ByteOrder) (calls : List Call) (n : Nat) : Prop where
  torn : torn calls (n - 4) < 9
  kinds : ∀ c ∈ complete calls (n - 4), ∀ kind, c.kind? = some kind → 0 ≤ kind ∧ kind ≤ 3
  first : firstTime (complete calls (n - 4)) ≠ 0 ∨ ∀ c ∈ complete calls (n - 4), c.time = 0
  legible : ∀ c ∈ complete calls (n - 4), Legible order (firstTime (complete calls (n - 4))) c

/-! ### What the loop keeps -/

/-- The tables, with what the branches rely on. -/
structure Inv (s : Vars) (rows : List Row) : Prop extends Holds (Python.subscript 5) s rows where
  ordered : s.tbuckets.Ordered ∧ s.ebuckets.Ordered ∧ s.esbuckets.Ordered
  sofar : s.scoreSofar = wins rows ∧ s.otherSofar = losses rows

variable {order : ByteOrder} {s s' : Vars} {rows : List Row}

theorem wins_append (rows more : List Row) : wins (rows ++ more) = wins rows + wins more := by
  rw [wins, List.filterMap_append, List.countP_append]
  rfl

theorem losses_append (rows more : List Row) : losses (rows ++ more) = losses rows + losses more := by
  rw [losses, List.filterMap_append, List.countP_append]
  rfl

theorem wins_singleton {r : Row} {kind : Int} (hkind : r.kind? = some kind) :
    wins [r] = if 2 ≤ kind then 1 else 0 := by
  rw [wins, List.filterMap_cons_some hkind, List.filterMap_nil, List.countP_singleton]
  simp only [decide_eq_true_eq]

theorem losses_singleton {r : Row} {kind : Int} (hkind : r.kind? = some kind) :
    losses [r] = if 2 ≤ kind then 0 else 1 := by
  rw [losses, List.filterMap_cons_some hkind, List.filterMap_nil, List.countP_singleton]
  simp only [decide_eq_true_eq]
  split_ifs <;> omega

theorem scored_append (score other : Nat) (rows more : List Row) :
    scored score other (rows ++ more) =
      scored score other rows ++ scored (score + wins rows) (other + losses rows) more := by
  induction rows generalizing score other with
  | nil => rfl
  | cons r rows ih =>
    have hwins : wins (r :: rows) = wins [r] + wins rows := wins_append [r] rows
    have hlosses : losses (r :: rows) = losses [r] + losses rows := losses_append [r] rows
    rw [List.cons_append, scored, scored, hwins, hlosses, ← Nat.add_assoc, ← Nat.add_assoc]
    cases hkind : r.kind? with
    | none => simp [wins, losses, hkind, ih]
    | some kind =>
      rw [wins_singleton hkind, losses_singleton hkind]
      by_cases hle : 2 ≤ kind
      · simp only [hle, if_true, ih, Nat.add_zero, List.cons_append]
      · simp only [hle, if_false, ih, Nat.add_zero, List.cons_append]

theorem Row.length_epoll? (r : Row) (row : List Int) (h : r.epoll? = some row) : row.length = 3 := by
  unfold epoll? at h
  split at h <;> cases h
  rfl

theorem Row.length_delta? (r : Row) (row : List Int) (h : r.delta? = some row) : row.length = 2 := by
  unfold delta? at h
  split at h <;> cases h <;> rfl

theorem Row.length_sendinfo? (r : Row) (row : List Int) (h : r.sendinfo? = some row) : row.length = 3 := by
  unfold sendinfo? at h
  split at h <;> cases h
  rfl

theorem Row.length_delinfo? (r : Row) (row : List Int) (h : r.delinfo? = some row) : row.length = 3 := by
  unfold delinfo? at h
  split at h <;> cases h
  rfl

theorem ofRows_filterMap {dimensions : Nat} {row? : Row → Option (List Int)}
    (hlength : ∀ r row, row? r = some row → row.length = dimensions) (rows : List Row) (r : Row) :
    TVec.ofRows dimensions ((rows ++ [r]).filterMap row?) =
      (row? r).elim (TVec.ofRows dimensions (rows.filterMap row?))
        (TVec.ofRows dimensions (rows.filterMap row?)).add := by
  rw [List.filterMap_append]
  cases hrow : row? r with
  | none => simp [hrow]
  | some row =>
    rw [Option.elim_some, TVec.ofRows_add (hlength r row hrow)]
    simp [hrow]

/-- What a branch has to do for its record. -/
theorem Inv.extend (h : Inv s rows) {r : Row} (hmtlog : s'.mtlog = s.mtlog ++ [(r.fields.tag, r.time)])
    (hpacketfd : s'.packetfd = s.packetfd ++ r.fd?.toList)
    (hepoll : s'.epoll = r.epoll?.elim s.epoll s.epoll.add)
    (hdeltainfo : s'.deltainfo = r.delta?.elim s.deltainfo s.deltainfo.add)
    (hsendinfo : s'.sendinfo = r.sendinfo?.elim s.sendinfo s.sendinfo.add)
    (hdelinfo : s'.delinfo = r.delinfo?.elim s.delinfo s.delinfo.add)
    (hscoreinfo : s'.scoreinfo = (scored (wins rows) (losses rows) [r]).foldl TVec.add s.scoreinfo)
    (htbuckets : s'.tbuckets.Counts (rows.filterMap Row.packet? ++ r.packet?.toList))
    (hebuckets : s'.ebuckets.Counts (rows.flatMap (Row.received (Python.subscript 5)) ++
      r.received (Python.subscript 5)))
    (hesbuckets : s'.esbuckets.Counts (rows.flatMap (Row.opened (Python.subscript 5)) ++
      r.opened (Python.subscript 5)))
    (hordered : s'.tbuckets.Ordered ∧ s'.ebuckets.Ordered ∧ s'.esbuckets.Ordered)
    (hsofar : s'.scoreSofar = wins rows + wins [r] ∧ s'.otherSofar = losses rows + losses [r]) :
    Inv s' (rows ++ [r]) where
  mtlog := by rw [hmtlog, h.mtlog, List.map_append, List.map_singleton]
  packetfd := by
    rw [hpacketfd, h.packetfd, List.filterMap_append]
    cases hfd : r.fd? <;> simp [hfd]
  epoll := by
    rw [hepoll, h.epoll, ofRows_filterMap Row.length_epoll?]
  deltainfo := by
    rw [hdeltainfo, h.deltainfo, ofRows_filterMap Row.length_delta?]
  sendinfo := by
    rw [hsendinfo, h.sendinfo, ofRows_filterMap Row.length_sendinfo?]
  delinfo := by
    rw [hdelinfo, h.delinfo, ofRows_filterMap Row.length_delinfo?]
  scoreinfo := by
    rw [hscoreinfo, h.scoreinfo, scored_append, Nat.zero_add, Nat.zero_add]
    cases hkind : r.kind? with
    | none => simp [scored, hkind]
    | some kind =>
      simp only [scored, hkind, List.foldl_cons, List.foldl_nil]
      exact TVec.ofRows_add rfl
  tbuckets := by
    rw [List.filterMap_append]
    cases hpacket : r.packet? <;> simpa [hpacket] using htbuckets
  ebuckets := by
    rw [List.flatMap_append, List.flatMap_singleton]
    exact hebuckets
  esbuckets := by
    rw [List.flatMap_append, List.flatMap_singleton]
    exact hesbuckets
  ordered := hordered
  sofar := by
    rw [wins_append, losses_append]
    exact hsofar

/-- Two events of a record. -/
theorem addEvent_kind {b b₁ b₂ : TimeBucket 5} {events : List (Int × Nat)} (h : b.Counts events)
    (hordered : b.Ordered) {key kind : Int} (hkind : b.addEvent key kind = some b₁)
    (hall : b₁.addEvent key 4 = some b₂) :
    (Python.subscript 5 kind).isSome ∧
      b₂.Counts (events ++ kindEvents (Python.subscript 5) key kind) ∧ b₂.Ordered := by
  obtain ⟨axis, haxis, hcounts, hordered'⟩ := TimeBucket.addEvent_of_eq h hordered hkind
  obtain ⟨four, hfour, hcounts', hordered''⟩ := TimeBucket.addEvent_of_eq hcounts hordered' hall
  obtain rfl : 4 = four := Option.some.inj hfour
  refine ⟨by rw [haxis]; rfl, ?_, hordered''⟩
  rw [List.append_assoc] at hcounts'
  simpa [kindEvents, haxis] using hcounts'

/-- A record extends the tables, and its kind has an axis. -/
theorem Inv.handle (h : Inv s rows) {r : Row} (hhandle : s.handle r = some s') :
    Inv s' (rows ++ [⟨r.time - s'.firstPacket, r.fields⟩]) ∧
      s'.firstPacket = (if s.firstPacket = 0 then r.time else s.firstPacket) ∧
      ∀ kind, r.kind? = some kind → (Python.subscript 5 kind).isSome := by
  obtain ⟨time, f⟩ := r
  cases f with
  | packet fd =>
    obtain ⟨b, hb, heq⟩ := Option.bind_eq_some_iff.mp hhandle
    obtain rfl := Option.some.inj heq
    obtain ⟨axis, haxis, hcounts, hordered⟩ := TimeBucket.addEvent_of_eq h.tbuckets h.ordered.1 hb
    obtain rfl : 0 = axis := Option.some.inj haxis
    exact ⟨h.extend rfl rfl rfl rfl rfl rfl rfl hcounts h.ebuckets.append_nil h.esbuckets.append_nil
      ⟨hordered, h.ordered.2⟩ h.sofar, rfl, by simp [Row.kind?]⟩
  | ret delta kind =>
    obtain ⟨e₁, he₁, hrest⟩ := Option.bind_eq_some_iff.mp hhandle
    obtain ⟨e₂, he₂, hrest⟩ := Option.bind_eq_some_iff.mp hrest
    obtain ⟨o₁, ho₁, hrest⟩ := Option.bind_eq_some_iff.mp hrest
    obtain ⟨o₂, ho₂, heq⟩ := Option.bind_eq_some_iff.mp hrest
    obtain rfl := Option.some.inj heq
    obtain ⟨hkind, hecounts, heordered⟩ := addEvent_kind h.ebuckets h.ordered.2.1 he₁ he₂
    obtain ⟨-, hocounts, hoordered⟩ := addEvent_kind h.esbuckets h.ordered.2.2 ho₁ ho₂
    refine ⟨h.extend rfl (List.append_nil _).symm rfl rfl rfl rfl ?_ h.tbuckets.append_nil hecounts hocounts
      ⟨h.ordered.1, heordered, hoordered⟩ ?_, rfl, ?_⟩
    · show s.scoreinfo.add [_, ((if 2 ≤ kind then s.scoreSofar + 1 else s.scoreSofar : Nat) : Int),
        ((if 2 ≤ kind then s.otherSofar else s.otherSofar + 1 : Nat) : Int)] = _
      rw [h.sofar.1, h.sofar.2]
      rfl
    · show (if 2 ≤ kind then s.scoreSofar + 1 else s.scoreSofar) = _ ∧
        (if 2 ≤ kind then s.otherSofar else s.otherSofar + 1) = _
      rw [h.sofar.1, h.sofar.2, @wins_singleton _ kind rfl, @losses_singleton _ kind rfl]
      by_cases hle : 2 ≤ kind
      · simp only [hle, if_true, Nat.add_zero, and_self]
      · simp only [hle, if_false, Nat.add_zero, and_self]
    · intro kind' hkind'
      cases hkind'
      exact hkind
  | _ =>
    obtain rfl := Option.some.inj hhandle
    exact ⟨h.extend rfl (List.append_nil _).symm rfl rfl rfl rfl rfl h.tbuckets.append_nil h.ebuckets.append_nil
      h.esbuckets.append_nil h.ordered h.sofar, rfl, by simp [Row.kind?]⟩

/-- A record is handled if its kind has an axis. -/
theorem Inv.handle_some (h : Inv s rows) {r : Row}
    (hkind : ∀ kind, r.kind? = some kind → (Python.subscript 5 kind).isSome) : ∃ s', s.handle r = some s' := by
  obtain ⟨time, f⟩ := r
  cases f with
  | packet fd =>
    obtain ⟨b, hb, -⟩ := TimeBucket.addEvent_counts h.tbuckets h.ordered.1
      (show Python.subscript 5 0 = some 0 from rfl)
    exact ⟨_, Option.bind_eq_some_iff.mpr ⟨b, hb, rfl⟩⟩
  | ret delta kind =>
    obtain ⟨axis, haxis⟩ := Option.isSome_iff_exists.mp (hkind kind rfl)
    obtain ⟨e₁, he₁, hcounts, hordered⟩ := TimeBucket.addEvent_counts h.ebuckets h.ordered.2.1 haxis
    obtain ⟨e₂, he₂, -⟩ := TimeBucket.addEvent_counts hcounts hordered
      (show Python.subscript 5 4 = some 4 from rfl)
    obtain ⟨o₁, ho₁, hcounts, hordered⟩ := TimeBucket.addEvent_counts h.esbuckets h.ordered.2.2 haxis
    obtain ⟨o₂, ho₂, -⟩ := TimeBucket.addEvent_counts hcounts hordered
      (show Python.subscript 5 4 = some 4 from rfl)
    exact ⟨_, Option.bind_eq_some_iff.mpr ⟨e₁, he₁, Option.bind_eq_some_iff.mpr ⟨e₂, he₂,
      Option.bind_eq_some_iff.mpr ⟨o₁, ho₁, Option.bind_eq_some_iff.mpr ⟨o₂, ho₂, rfl⟩⟩⟩⟩⟩
  | _ => exact ⟨_, rfl⟩

/-- The times of the records from the first one that is not 0. -/
def shift (first : Int) : List Row → List Row
  | [] => []
  | r :: rows =>
    let first := if first = 0 then r.time else first
    ⟨r.time - first, r.fields⟩ :: shift first rows

theorem Inv.run {s s' : Vars} (h : Inv s rows) {calls : List Call}
    (hrun : calls.foldlM (fun s c => s.handle (c.read order)) s = some s') :
    Inv s' (rows ++ shift s.firstPacket (calls.map (Call.read order))) ∧
      ∀ c ∈ calls, ∀ kind, c.kind? = some kind → (Python.subscript 5 kind).isSome := by
  induction calls generalizing s rows with
  | nil =>
    cases hrun
    rw [List.map_nil, shift, List.append_nil]
    exact ⟨h, by simp⟩
  | cons c calls ih =>
    rw [List.foldlM_cons] at hrun
    obtain ⟨t, ht, hrest⟩ := Option.bind_eq_some_iff.mp hrun
    obtain ⟨hinv, hfirst, hkind⟩ := h.handle ht
    obtain ⟨hinv', hkinds⟩ := ih hinv hrest
    rw [List.append_assoc, hfirst] at hinv'
    refine ⟨hinv', List.forall_mem_cons.mpr ⟨fun kind hc => hkind kind ?_, hkinds⟩⟩
    rw [← hc]
    cases c <;> rfl

theorem Inv.run_some {s : Vars} (h : Inv s rows) {calls : List Call}
    (hkinds : ∀ c ∈ calls, ∀ kind, c.kind? = some kind → (Python.subscript 5 kind).isSome) :
    ∃ s', calls.foldlM (fun s c => s.handle (c.read order)) s = some s' := by
  induction calls generalizing s rows with
  | nil => exact ⟨s, rfl⟩
  | cons c calls ih =>
    obtain ⟨hkind, hkinds⟩ := List.forall_mem_cons.mp hkinds
    have hread : (c.read order).kind? = c.kind? := by
      cases c <;> rfl
    obtain ⟨t, ht⟩ := h.handle_some (r := c.read order) fun kind hc => hkind kind (hread ▸ hc)
    obtain ⟨s', hs'⟩ := ih (h.handle ht).1 hkinds
    exact ⟨s', by rw [List.foldlM_cons, ht]; exact hs'⟩

theorem inv_start (size : Nat) (ct : Int) : Inv (.start size ct) [] where
  mtlog := rfl
  packetfd := rfl
  epoll := TVec.ofRows_nil.symm
  deltainfo := TVec.ofRows_nil.symm
  sendinfo := TVec.ofRows_nil.symm
  delinfo := TVec.ofRows_nil.symm
  scoreinfo := TVec.ofRows_nil.symm
  tbuckets := TimeBucket.counts_new
  ebuckets := TimeBucket.counts_new
  esbuckets := TimeBucket.counts_new
  ordered := ⟨TimeBucket.ordered_new, TimeBucket.ordered_new, TimeBucket.ordered_new⟩
  sofar := ⟨rfl, rfl⟩

/-! ### Which records the tables can hold -/

/-- The script reads what a little-endian machine writes. -/
theorem legible_little {first : Nat} (hfirst : first < 256 ^ 8) (c : Call) : Legible .little first c := by
  have hint : ∀ n : Int32, reread32 .little n.toInt = n.toInt := by
    intro n
    have hlow := n.le_toInt
    have hhigh := n.toInt_lt
    exact ByteOrder.decodeInt_encodeInt (by omega) (by omega)
  have hword : ∀ n : Nat, n < 256 ^ 8 → reread64 .little n = n :=
    fun n hn => congrArg Int.ofNat (ByteOrder.decode_encode hn)
  refine ⟨by rw [hword _ c.time.toNat_lt, hword _ hfirst], ?_⟩
  cases c <;> simp [Call.fields, Fields.mapInt, hint]

theorem TVec.ofRows_inj {dimensions : Nat} {rows more : List (List Int)}
    (hrows : ∀ row ∈ rows, row.length = dimensions) (hmore : ∀ row ∈ more, row.length = dimensions)
    (hpos : 0 < dimensions) (h : ofRows dimensions rows = ofRows dimensions more) : rows = more := by
  have hcolumns := List.map_inj_left.mp (TVec.mk.inj h)
  have hcolumn : ∀ i < dimensions, rows.map (fun row => row.getD i 0) = more.map fun row => row.getD i 0 :=
    fun i hi => hcolumns i (List.mem_range.mpr hi)
  have hlength : rows.length = more.length := by
    have := congrArg List.length (hcolumn 0 hpos)
    rwa [List.length_map, List.length_map] at this
  refine List.ext_getElem hlength fun k hk hk' => ?_
  have hrow := hrows _ (List.getElem_mem hk)
  have hrow' := hmore _ (List.getElem_mem hk')
  refine List.ext_getElem (by omega) fun i hi hi' => ?_
  have hentry := congrArg (fun column => column[k]?) (hcolumn i (by omega))
  simp only [List.getElem?_map, List.getElem?_eq_getElem hk, List.getElem?_eq_getElem hk', Option.map_some,
    List.getD_eq_getElem?_getD, List.getElem?_eq_getElem hi, List.getElem?_eq_getElem hi', Option.getD_some,
    Option.some.injEq] at hentry
  exact hentry

theorem filterMap_inj {dimensions : Nat} {row? : Row → Option (List Int)} {rows more : List Row}
    (hlength : ∀ r row, row? r = some row → row.length = dimensions) (hpos : 0 < dimensions)
    (h : TVec.ofRows dimensions (rows.filterMap row?) = .ofRows dimensions (more.filterMap row?)) :
    rows.filterMap row? = more.filterMap row? := by
  refine TVec.ofRows_inj ?_ ?_ hpos h
  all_goals
    intro row hrow
    obtain ⟨r, -, hr⟩ := List.mem_filterMap.mp hrow
    exact hlength r row hr

theorem filterMap_cons_inj {β : Type} {kept? : Row → Option β} {r r' : Row} {rows more : List Row}
    (hsome : (kept? r).isSome = (kept? r').isSome)
    (h : (r :: rows).filterMap kept? = (r' :: more).filterMap kept?) :
    kept? r = kept? r' ∧ rows.filterMap kept? = more.filterMap kept? := by
  rw [List.filterMap_cons, List.filterMap_cons] at h
  cases hr : kept? r <;> cases hr' : kept? r' <;> simp [hr, hr'] at hsome h ⊢
  · exact h
  · exact h

/-- Records with one time, one tag and the same entries are the same. -/
theorem fields_eq_of_entries {time : Int} {f f' : Fields} (htag : f.tag = f'.tag)
    (hkind : (⟨time, f⟩ : Row).kind? = (⟨time, f'⟩ : Row).kind?)
    (hfd : (⟨time, f⟩ : Row).fd? = (⟨time, f'⟩ : Row).fd?)
    (hepoll : (⟨time, f⟩ : Row).epoll? = (⟨time, f'⟩ : Row).epoll?)
    (hdelta : (⟨time, f⟩ : Row).delta? = (⟨time, f'⟩ : Row).delta?)
    (hsendinfo : (⟨time, f⟩ : Row).sendinfo? = (⟨time, f'⟩ : Row).sendinfo?)
    (hdelinfo : (⟨time, f⟩ : Row).delinfo? = (⟨time, f'⟩ : Row).delinfo?) : f = f' := by
  cases f <;> cases f' <;> simp [Fields.tag] at htag
  · simpa [Row.fd?] using hfd
  · simpa [Row.epoll?] using hepoll
  · simp [Row.delta?, Row.kind?] at hdelta hkind
    simp [hdelta, hkind]
  · simpa [Row.delta?] using hdelta
  · simpa [Row.sendinfo?] using hsendinfo
  · simpa [Row.delinfo?] using hdelinfo

/-- The tables that keep the order of the records say what they are, up to the kinds. -/
theorem rows_eq {rows more : List Row}
    (hmtlog : rows.map (fun r => (r.fields.tag, r.time)) = more.map fun r => (r.fields.tag, r.time))
    (hkinds : rows.map Row.kind? = more.map Row.kind?)
    (hpacketfd : rows.filterMap Row.fd? = more.filterMap Row.fd?)
    (hepoll : rows.filterMap Row.epoll? = more.filterMap Row.epoll?)
    (hdelta : rows.filterMap Row.delta? = more.filterMap Row.delta?)
    (hsendinfo : rows.filterMap Row.sendinfo? = more.filterMap Row.sendinfo?)
    (hdelinfo : rows.filterMap Row.delinfo? = more.filterMap Row.delinfo?) : rows = more := by
  induction rows generalizing more with
  | nil => exact (List.map_eq_nil_iff.mp hmtlog.symm).symm
  | cons r rows ih =>
    cases more with
    | nil => cases hmtlog
    | cons r' more =>
      obtain ⟨time, f⟩ := r
      obtain ⟨time', f'⟩ := r'
      obtain ⟨hhead, hmtlog'⟩ := List.cons.inj hmtlog
      obtain ⟨htag, rfl⟩ : f.tag = f'.tag ∧ time = time' := Prod.mk.inj hhead
      obtain ⟨hkind, hkinds'⟩ := List.cons.inj hkinds
      -- which tables have an entry is a matter of the tag
      have hsome : ∀ {β : Type} (kept? : Row → Option β) (tags : UInt8 → Bool),
          (∀ f, (kept? ⟨time, f⟩).isSome = tags f.tag) →
          (kept? ⟨time, f⟩).isSome = (kept? ⟨time, f'⟩).isSome := by
        intro β kept? tags htags
        rw [htags, htags, htag]
      obtain ⟨hfd, hpacketfd⟩ :=
        filterMap_cons_inj (hsome Row.fd? (· = 0xe0) fun f => by cases f <;> rfl) hpacketfd
      obtain ⟨hepoll', hepoll⟩ :=
        filterMap_cons_inj (hsome Row.epoll? (· = 0xe1) fun f => by cases f <;> rfl) hepoll
      obtain ⟨hdelta', hdelta⟩ := filterMap_cons_inj
        (hsome Row.delta? (fun tag => tag = 0xe2 ∨ tag = 0xe3) fun f => by cases f <;> rfl) hdelta
      obtain ⟨hsendinfo', hsendinfo⟩ := filterMap_cons_inj
        (hsome Row.sendinfo? (· = 0xe4) fun f => by cases f <;> rfl) hsendinfo
      obtain ⟨hdelinfo', hdelinfo⟩ := filterMap_cons_inj
        (hsome Row.delinfo? (· = 0xe5) fun f => by cases f <;> rfl) hdelinfo
      rw [fields_eq_of_entries htag hkind hfd hepoll' hdelta' hsendinfo' hdelinfo',
        ih hmtlog' hkinds' hpacketfd hepoll hdelta hsendinfo hdelinfo]

theorem subscript_kind {kind : Int} (h : 0 ≤ kind ∧ kind ≤ 3) : Python.subscript 5 kind = kindAxis kind := by
  rw [Python.subscript, if_pos (by omega), kindAxis, if_pos h]

theorem Row.received_eq (axis : Int → Option Nat) (r : Row) :
    r.received axis = r.kind?.elim [] (kindEvents axis r.time) := by
  obtain ⟨time, f⟩ := r
  cases f <;> rfl

theorem Row.opened_eq (r : Row) : ∃ key, ∀ axis, r.opened axis = r.kind?.elim [] (kindEvents axis key) := by
  obtain ⟨time, f⟩ := r
  cases f with
  | ret delta kind => exact ⟨time - delta, fun axis => rfl⟩
  | _ => exact ⟨0, fun axis => rfl⟩

/-- With kinds that have axes of their own it is the same where the events of other kinds would be. -/
theorem Holds.kinds (h : Holds (Python.subscript 5) s rows)
    (hkinds : ∀ r ∈ rows, ∀ kind, r.kind? = some kind → 0 ≤ kind ∧ kind ≤ 3) : Holds kindAxis s rows := by
  have hevents : ∀ r ∈ rows, ∀ key, r.kind?.elim [] (kindEvents kindAxis key) =
      r.kind?.elim [] (kindEvents (Python.subscript 5) key) := by
    intro r hr key
    cases hkind : r.kind? with
    | none => rfl
    | some kind => simp only [Option.elim_some, kindEvents, subscript_kind (hkinds r hr kind hkind)]
  have hreceived : rows.flatMap (Row.received kindAxis) = rows.flatMap (Row.received (Python.subscript 5)) :=
    List.flatMap_congr fun r hr => by rw [r.received_eq, r.received_eq, hevents r hr]
  have hopened : rows.flatMap (Row.opened kindAxis) = rows.flatMap (Row.opened (Python.subscript 5)) := by
    refine List.flatMap_congr fun r hr => ?_
    obtain ⟨key, hkey⟩ := r.opened_eq
    rw [hkey, hkey, hevents r hr]
  refine ⟨h.mtlog, h.packetfd, h.epoll, h.deltainfo, h.sendinfo, h.delinfo, h.scoreinfo, h.tbuckets, ?_, ?_⟩
  · rw [hreceived]
    exact h.ebuckets
  · rw [hopened]
    exact h.esbuckets

theorem TimeBucket.Counts.count_eq {dimensions : Nat} {b : TimeBucket dimensions} {events more : List (Int × Nat)}
    (h : b.Counts events) (h' : b.Counts more) {e : Int × Nat} (hmem : e ∈ events) (haxis : e.2 < dimensions) :
    events.count e = more.count e := by
  obtain ⟨key, axis⟩ := e
  have hkey : key ∈ b.indices := (h.mem_indices key).mpr ⟨_, hmem, rfl⟩
  have hrow := (h.values key).symm.trans (h'.values key)
  rw [if_pos hkey, if_pos hkey] at hrow
  exact List.map_inj_left.mp (Option.some.inj hrow) axis (List.mem_range.mpr haxis)

/-- Another kind is counted on an axis that is not its own. -/
theorem kinds_of_holds (h : Holds (Python.subscript 5) s rows)
    (hsome : ∀ r ∈ rows, ∀ kind, r.kind? = some kind → (Python.subscript 5 kind).isSome)
    (h' : s.ebuckets.Counts (rows.flatMap (Row.received kindAxis))) :
    ∀ r ∈ rows, ∀ kind, r.kind? = some kind → 0 ≤ kind ∧ kind ≤ 3 := by
  intro r hr kind hkind
  by_contra hnot
  obtain ⟨axis, haxis⟩ := Option.isSome_iff_exists.mp (hsome r hr kind hkind)
  have hreceived : r.received (Python.subscript 5) = [(r.time, axis), (r.time, 4)] := by
    simp [Row.received_eq, hkind, kindEvents, haxis]
  have hown : r.received kindAxis = [(r.time, 4)] := by
    simp [Row.received_eq, hkind, kindEvents, kindAxis, hnot]
  have hfewer : ∀ r : Row, (r.received kindAxis).Sublist (r.received (Python.subscript 5)) := by
    intro r
    rw [r.received_eq, r.received_eq]
    cases r.kind? with
    | none => exact List.Sublist.refl _
    | some kind =>
      by_cases hvalid : 0 ≤ kind ∧ kind ≤ 3
      · rw [Option.elim_some, Option.elim_some, kindEvents, kindEvents, subscript_kind hvalid]
      · rw [Option.elim_some, Option.elim_some, kindEvents, kindAxis, if_neg hvalid]
        exact List.sublist_append_right _ _
  have hmem : (r.time, axis) ∈ rows.flatMap (Row.received (Python.subscript 5)) :=
    List.mem_flatMap.mpr ⟨r, hr, by rw [hreceived]; exact List.mem_cons_self⟩
  have hcount := h.ebuckets.count_eq h' hmem (Python.subscript_lt haxis)
  rw [List.count_flatMap, List.count_flatMap] at hcount
  refine absurd hcount.symm (ne_of_lt (List.sum_lt_sum _ _ (fun r' _ => (hfewer r').count_le _) ⟨r, hr, ?_⟩))
  simp [hreceived, hown]

/-- An order of bytes does not hide a 0. -/
theorem reread64_eq_zero_iff (order : ByteOrder) {n : Nat} (hn : n < 256 ^ 8) :
    reread64 order n = 0 ↔ n = 0 := by
  have hzeros : ByteOrder.little.encode 8 0 = order.encode 8 0 := by
    cases order <;> decide
  rw [reread64, decodeQ, Int.natCast_eq_zero]
  constructor
  · intro h
    have hbytes := ByteOrder.encode_decode .little (order.encode 8 n)
    rw [h, ByteOrder.length_encode, hzeros] at hbytes
    rw [← @ByteOrder.decode_encode order 8 n hn, ← hbytes, ByteOrder.decode_encode (by decide)]
  · rintro rfl
    rw [← hzeros, ByteOrder.decode_encode (by decide)]

theorem shift_of_ne {first : Int} (hne : first ≠ 0) (rows : List Row) :
    shift first rows = rows.map fun r => ⟨r.time - first, r.fields⟩ := by
  induction rows with
  | nil => rfl
  | cons r rows ih => rw [shift, if_neg hne, ih, List.map_cons]

/-- While `first_packet` is 0, every time has to be 0. -/
theorem shift_zero_iff (order : ByteOrder) (calls : List Call) :
    shift 0 (calls.map (Call.read order)) = calls.map (fun c => ⟨c.time.toNat - (0 : Nat), c.fields⟩) ↔
      (∀ c ∈ calls, c.time = 0) ∧ ∀ c ∈ calls, Legible order 0 c := by
  induction calls with
  | nil => simp [shift]
  | cons c calls ih =>
    rw [List.map_cons, List.map_cons, shift, if_pos rfl, List.cons.injEq, Row.mk.injEq, List.forall_mem_cons,
      List.forall_mem_cons]
    by_cases htime : c.time = 0
    · have hzero : (c.read order).time = 0 := by
        rw [Call.read, htime]
        exact (reread64_eq_zero_iff order (by decide)).mpr rfl
      have hread : reread64 order c.time.toNat = 0 := hzero
      have hfirst : reread64 order 0 = 0 := (reread64_eq_zero_iff order (by decide)).mpr rfl
      have hlegible : Legible order 0 c ↔ c.fields.mapInt (reread32 order) = c.fields := by
        rw [Legible, hread, hfirst, htime]
        exact and_iff_right rfl
      rw [hzero, ih, hlegible, htime]
      constructor
      · rintro ⟨⟨-, hfields⟩, htimes, hlegibles⟩
        exact ⟨⟨rfl, htimes⟩, hfields, hlegibles⟩
      · rintro ⟨⟨-, htimes⟩, hfields, hlegibles⟩
        exact ⟨⟨rfl, hfields⟩, htimes, hlegibles⟩
    · refine iff_of_false ?_ fun h => htime h.1.1
      rintro ⟨⟨h, -⟩, -⟩
      have hpos : 0 < c.time.toNat := Nat.pos_of_ne_zero fun hz => htime (UInt64.toNat_inj.mp hz)
      rw [sub_self] at h
      omega

/-- When the script has the same records as were logged. -/
theorem shift_iff (order : ByteOrder) (calls : List Call) :
    shift 0 (calls.map (Call.read order)) = relative calls ↔
      (firstTime calls ≠ 0 ∨ ∀ c ∈ calls, c.time = 0) ∧ ∀ c ∈ calls, Legible order (firstTime calls) c := by
  cases calls with
  | nil => simp [shift, relative]
  | cons c calls =>
    by_cases htime : c.time = 0
    · have hfirst : firstTime (c :: calls) = 0 := by
        rw [firstTime, List.head?_cons, Option.map_some, Option.getD_some, htime]
        rfl
      rw [relative, hfirst, shift_zero_iff]
      simp
    · have hne : c.time.toNat ≠ 0 := fun hz => htime (UInt64.toNat_inj.mp hz)
      have hread : reread64 order c.time.toNat ≠ 0 :=
        fun hz => hne ((reread64_eq_zero_iff order c.time.toNat_lt).mp hz)
      have hfirst : firstTime (c :: calls) = c.time.toNat := rfl
      have hshift : shift 0 ((c :: calls).map (Call.read order)) =
          (c :: calls).map fun d => ⟨reread64 order d.time.toNat - reread64 order c.time.toNat,
            d.fields.mapInt (reread32 order)⟩ := by
        rw [List.map_cons, shift, if_pos rfl]
        rw [shift_of_ne (by exact hread), List.map_map, List.map_cons]
        rfl
      rw [hshift, relative, hfirst, List.map_inj_left, and_iff_right (Or.inl hne)]
      simp only [Row.mk.injEq, Legible]

theorem shift_kinds (order : ByteOrder) (first : Int) (calls : List Call) :
    (shift first (calls.map (Call.read order))).map Row.kind? = calls.map Call.kind? := by
  induction calls generalizing first with
  | nil => rfl
  | cons c calls ih =>
    rw [List.map_cons, shift, List.map_cons, List.map_cons, ih]
    cases c <;> rfl

theorem relative_kinds (calls : List Call) : (relative calls).map Row.kind? = calls.map Call.kind? := by
  rw [relative, List.map_map]
  refine List.map_congr_left fun c _ => ?_
  cases c <;> rfl

/-- A property of the kinds of the calls is one of the kinds of their records. -/
theorem forall_kinds {calls : List Call} {rows : List Row} (h : rows.map Row.kind? = calls.map Call.kind?)
    {P : Int → Prop} : (∀ r ∈ rows, ∀ kind, r.kind? = some kind → P kind) ↔
      ∀ c ∈ calls, ∀ kind, c.kind? = some kind → P kind := by
  have hrows : (∀ r ∈ rows, ∀ kind, r.kind? = some kind → P kind) ↔
      ∀ k ∈ rows.map Row.kind?, ∀ kind, k = some kind → P kind := by simp
  have hcalls : (∀ c ∈ calls, ∀ kind, c.kind? = some kind → P kind) ↔
      ∀ k ∈ calls.map Call.kind?, ∀ kind, k = some kind → P kind := by simp
  rw [hrows, hcalls, h]

theorem Holds.setInput {axis : Int → Option Nat} (h : Holds axis s rows) (left : List UInt8) :
    Holds axis (putInput left s) rows :=
  ⟨h.mtlog, h.packetfd, h.epoll, h.deltainfo, h.sendinfo, h.delinfo, h.scoreinfo, h.tbuckets,
    h.ebuckets, h.esbuckets⟩

/-- The tables hold the complete records only if these were read as they were logged. -/
theorem Inv.legible {cs : List Call} (hinv : Inv s (shift 0 (cs.map (Call.read order))))
    (hsome : ∀ c ∈ cs, ∀ kind, c.kind? = some kind → (Python.subscript 5 kind).isSome)
    (hholds : Holds kindAxis (putInput [] s) (relative cs)) :
    (∀ c ∈ cs, ∀ kind, c.kind? = some kind → 0 ≤ kind ∧ kind ≤ 3) ∧
      (firstTime cs ≠ 0 ∨ ∀ c ∈ cs, c.time = 0) ∧ ∀ c ∈ cs, Legible order (firstTime cs) c := by
  have hrows : shift 0 (cs.map (Call.read order)) = relative cs :=
    rows_eq (hinv.mtlog.symm.trans hholds.mtlog) ((shift_kinds order 0 cs).trans (relative_kinds cs).symm)
      (hinv.packetfd.symm.trans hholds.packetfd)
      (filterMap_inj Row.length_epoll? (by decide) (hinv.epoll.symm.trans hholds.epoll))
      (filterMap_inj Row.length_delta? (by decide) (hinv.deltainfo.symm.trans hholds.deltainfo))
      (filterMap_inj Row.length_sendinfo? (by decide) (hinv.sendinfo.symm.trans hholds.sendinfo))
      (filterMap_inj Row.length_delinfo? (by decide) (hinv.delinfo.symm.trans hholds.delinfo))
  have hactual : Holds (Python.subscript 5) s (relative cs) := hrows ▸ hinv.toHolds
  have hkinds := kinds_of_holds hactual ((forall_kinds (relative_kinds cs)).mpr hsome) hholds.ebuckets
  exact ⟨(forall_kinds (relative_kinds cs)).mp hkinds, (shift_iff order cs).mp hrows⟩

/-- A stamp of a record that is torn behind it is one too many in `mtlog`. -/
theorem Inv.stamped {cs : List Call} {mt : UInt8} {time : Int}
    (hinv : Inv s (shift 0 (cs.map (Call.read order)))) :
    ¬ Holds kindAxis (putInput [] (s.stamp mt time)) (relative cs) := by
  intro hholds
  have hlong := congrArg List.length hholds.mtlog
  have hlength := congrArg List.length hinv.mtlog
  have hkinds := congrArg List.length ((shift_kinds order 0 cs).trans (relative_kinds cs).symm)
  have hstamp : (putInput [] (s.stamp mt time)).mtlog.length = s.mtlog.length + 1 := List.length_append
  simp only [List.length_map] at hlong hlength hkinds
  omega

/-- Records that were read as they were logged are in the tables. -/
theorem Inv.holds {cs : List Call} (hinv : Inv s (shift 0 (cs.map (Call.read order))))
    (hkinds : ∀ c ∈ cs, ∀ kind, c.kind? = some kind → 0 ≤ kind ∧ kind ≤ 3)
    (hfirst : firstTime cs ≠ 0 ∨ ∀ c ∈ cs, c.time = 0) (hlegible : ∀ c ∈ cs, Legible order (firstTime cs) c) :
    Holds kindAxis (putInput [] s) (relative cs) := by
  have hrows := (shift_iff order cs).mpr ⟨hfirst, hlegible⟩
  have hactual : Holds (Python.subscript 5) s (relative cs) := hrows ▸ hinv.toHolds
  exact (hactual.kinds ((forall_kinds (relative_kinds cs)).mpr hkinds)).setInput []

/-- When the first bytes of a log are decoded to its complete records. -/
theorem decodes_iff (order : ByteOrder) (connectTimeout : Int32) (calls : List Call) {n : Nat} (hn : 4 ≤ n) :
    Decodes order connectTimeout calls n ↔ Clean order calls n := by
  obtain ⟨size, hparse⟩ := parse_take order connectTimeout calls hn
  generalize hcs : complete calls (n - 4) = cs at hparse
  have hinv : ∀ {s' : Vars}, cs.foldlM (fun s c => s.handle (c.read order))
      (Vars.start size (reread32 order connectTimeout.toInt)) = some s' →
      Inv s' (shift 0 (cs.map (Call.read order))) ∧
        ∀ c ∈ cs, ∀ kind, c.kind? = some kind → (Python.subscript 5 kind).isSome := by
    intro s' hrun
    have hrun' := (inv_start size _).run hrun
    rwa [List.nil_append] at hrun'
  constructor
  · rintro ⟨s, hs, hholds⟩
    rw [hcs] at hholds
    rcases hparse with ⟨-, s', herror⟩ | ⟨s', hrun, ⟨htorn, hend⟩ | ⟨-, mt, time, hend⟩⟩
    · rw [hs] at herror
      cases herror
    · cases hs.symm.trans hend
      obtain ⟨hkinds, hfirst, hlegible⟩ := (hinv hrun).1.legible (hinv hrun).2 hholds
      exact ⟨htorn, hcs ▸ hkinds, hcs ▸ hfirst, hcs ▸ hlegible⟩
    · cases hs.symm.trans hend
      exact absurd hholds (hinv hrun).1.stamped
  · rintro ⟨htorn, hkinds, hfirst, hlegible⟩
    rw [hcs] at hkinds hfirst hlegible
    have hsome : ∀ c ∈ cs, ∀ kind, c.kind? = some kind → (Python.subscript 5 kind).isSome := by
      intro c hc kind hkind
      rw [subscript_kind (hkinds c hc kind hkind), kindAxis, if_pos (hkinds c hc kind hkind)]
      rfl
    obtain ⟨t, ht⟩ : ∃ t, cs.foldlM (fun s c => s.handle (c.read order))
        (Vars.start size (reread32 order connectTimeout.toInt)) = some t := (inv_start size _).run_some hsome
    rcases hparse with ⟨hnone, -⟩ | ⟨s', hrun, ⟨-, hend⟩ | ⟨hlong, -⟩⟩
    · rw [ht] at hnone
      cases hnone
    · exact ⟨_, hend, hcs ▸ (hinv hrun).1.holds hkinds hfirst hlegible⟩
    · omega

/-- A record of which there are 3 bytes, behind two complete ones. -/
theorem decodes_iff_torn : Decodes .little 400 [.packet 5 3, .ret 7 6 2, .delta 8 1] 34 :=
  (decodes_iff .little 400 [.packet 5 3, .ret 7 6 2, .delta 8 1] (by decide)).mpr
    ⟨by decide, by decide, by decide, fun c _ => legible_little (by decide) c⟩

/-- A record without its `fd`, which is in `mtlog`. -/
theorem cut_decodes_not : (∃ s, parse ((log .little 400 [.packet 5 3]).take 13) = .ok true s ∧ s.mtlog = [(0xe0, 0)]) ∧
    ¬ Decodes .little 400 [.packet 5 3] 13 := by
  have hcut : ∃ s, parse ((log .little 400 [.packet 5 3]).take 13) = .ok true s ∧ s.mtlog = [(0xe0, 0)] :=
    ⟨_, rfl, rfl⟩
  refine ⟨hcut, ?_⟩
  obtain ⟨s, hs, hmtlog⟩ := hcut
  rintro ⟨s', hs', hholds⟩
  obtain rfl : s = s' := by
    rw [hs] at hs'
    cases hs'
    rfl
  have hnone := hmtlog.symm.trans hholds.mtlog
  revert hnone
  decide

end Cscan.Metrics
