import Cscan.Options.Args
import Cscan.Target.PortTable

/-! The tables of a run: which range files and portspecs `parse_args` takes, and which it refuses. -/

namespace Cscan.Options

open Cscan.Lib Cscan.Target

/-! ### Range files -/

variable {env : Env} {file : List Char} {bytes : List UInt8} {cfg : RangeCfg}

def Env.load (env : Env) (file : List Char) : Loaded := loadRangeCfg env.order env.malloc (env.files file)

def Env.Holds (env : Env) (file : List Char) (cfg : RangeCfg) : Prop :=
  ∃ bytes, env.files file = some bytes ∧ Whole bytes cfg

/-- `load_range_cfg` of `file` gives the record that the file holds and stores nothing outside of it, and
`parse_args` refuses a file that holds none. -/
structure AllOrNothing (env : Env) (file : List Char) : Prop where
  defined : env.load file ≠ .undefined
  whole : ∀ cfg, env.load file = .record cfg → env.Holds file cfg
  read : ∀ cfg, env.Holds file cfg → (env.malloc (allocSize cfg.num)).isSome → env.load file = .record cfg
  ranges : (∀ cfg, ¬ env.Holds file cfg) → ∀ fuel s, s.rangesFile = some file →
    loadTables env fuel s = .fail "Can't read ranges from file."
  ports : (∀ cfg, ¬ env.Holds file cfg) → ∀ fuel s, s.portsFile = some file →
    (∀ other ∈ s.rangesFile, ∃ ranges, env.load other = .record ranges) →
    loadTables env fuel s = .fail "Can't read ports from file."

/-- The number of words that the file announces is an `int`, and if there is memory for them the file does not
end before the last of them. -/
def Env.Complete (env : Env) (bytes : List UInt8) : Prop :=
  (-2 ^ 31 ≤ announced bytes * 2 ∧ announced bytes * 2 < 2 ^ 31) ∧
    (env.malloc (allocSize (announced bytes)) = none ∨
      0 ≤ announced bytes ∧ 12 + 8 * announced bytes ≤ bytes.length)

theorem loadTables_ranges (hload : env.load file = .null) (fuel : Nat) {s : Settings}
    (hs : s.rangesFile = some file) : loadTables env fuel s = .fail "Can't read ranges from file." := by
  unfold Env.load at hload
  simp only [loadTables, hs, hload]

theorem loadTables_ports (hload : env.load file = .null) (fuel : Nat) {s : Settings}
    (hs : s.portsFile = some file)
    (hranges : ∀ other ∈ s.rangesFile, ∃ ranges, env.load other = .record ranges) :
    loadTables env fuel s = .fail "Can't read ports from file." := by
  unfold Env.load at hload hranges
  have hports : loadPorts env fuel s = (some .null, "Can't read ports from file.") := by
    simp only [loadPorts, hs, hload]
  cases hother : s.rangesFile with
  | none => simp only [loadTables, hother, hports]
  | some other =>
    obtain ⟨ranges, hrecord⟩ := hranges other hother
    simp only [loadTables, hother, hrecord, hports]

theorem AllOrNothing.of_null (hload : env.load file = .null)
    (hnone : ∀ cfg, env.Holds file cfg → env.malloc (allocSize cfg.num) = none) : AllOrNothing env file where
  defined := by simp [hload]
  whole := fun cfg h => by simp [hload] at h
  read := fun cfg h hmem => by simp [hnone cfg h] at hmem
  ranges := fun _ fuel s hs => loadTables_ranges hload fuel hs
  ports := fun _ fuel s hs hranges => loadTables_ports hload fuel hs hranges

theorem AllOrNothing.of_record (hload : env.load file = .record cfg) (hholds : env.Holds file cfg)
    (honly : ∀ cfg', env.Holds file cfg' → cfg' = cfg) : AllOrNothing env file where
  defined := by simp [hload]
  whole := fun cfg' h => by cases hload.symm.trans h; exact hholds
  read := fun cfg' h _ => by rw [honly cfg' h, hload]
  ranges := fun hnot => (hnot cfg hholds).elim
  ports := fun hnot => (hnot cfg hholds).elim

theorem AllOrNothing.of_complete (hfile : env.files file = some bytes) (hlength : 4 ≤ bytes.length)
    (hcomplete : env.Complete bytes) : AllOrNothing env file := by
  have hfound : ∀ cfg, env.Holds file cfg → Whole bytes cfg := by
    rintro cfg ⟨bytes', hbytes, hwhole⟩
    cases hfile.symm.trans hbytes
    exact hwhole
  obtain ⟨hint, hmem⟩ := hcomplete
  cases hword : env.malloc (allocSize (announced bytes)) with
  | none =>
    refine .of_null (by rw [Env.load, hfile]; exact loadRangeCfg_null hlength hint hword) fun cfg h => ?_
    rw [← (hfound cfg h).announced.1, hword]
  | some word =>
    obtain ⟨h0, hends⟩ := hmem.resolve_left (by simp [hword])
    have hread : ∀ cfg, Whole bytes cfg → env.load file = .record cfg := by
      intro cfg hwhole
      have hnum := hwhole.announced.1
      rw [Env.load, hfile]
      exact hwhole.load env.order (by omega) (by rw [← hnum, hword]; rfl)
    obtain ⟨cfg, hwhole⟩ := exists_whole h0 hends
    refine .of_record (hread cfg hwhole) ⟨bytes, hfile, hwhole⟩ fun cfg' h => ?_
    exact Loaded.record.inj ((hread cfg' (hfound cfg' h)).symm.trans (hread cfg hwhole))

theorem allOrNothing_iff (env : Env) (file : List Char) :
    AllOrNothing env file ↔ ∀ bytes, env.files file = some bytes → 4 ≤ bytes.length → env.Complete bytes := by
  constructor
  · intro h bytes hfile hlength
    have hload : env.load file = loadRangeCfg env.order env.malloc (some bytes) := by rw [Env.load, hfile]
    have hint : -2 ^ 31 ≤ announced bytes * 2 ∧ announced bytes * 2 < 2 ^ 31 := by
      by_contra hint
      exact h.defined (hload.trans (loadRangeCfg_overflow hlength hint))
    refine ⟨hint, ?_⟩
    cases hword : env.malloc (allocSize (announced bytes)) with
    | none => exact .inl rfl
    | some word =>
      rcases loadRangeCfg_filled env.order hlength hint hword with hundefined | ⟨cfg, hcfg, hnum⟩
      · exact (h.defined (hload.trans hundefined)).elim
      · obtain ⟨bytes', hbytes, hwhole⟩ := h.whole cfg (hload.trans hcfg)
        cases hfile.symm.trans hbytes
        obtain ⟨-, h0, hends⟩ := hwhole.announced
        rw [← hnum]
        exact .inr ⟨h0, hends⟩
  · intro h
    cases hfile : env.files file with
    | none =>
      have hnot : ∀ cfg, ¬ env.Holds file cfg := fun cfg ⟨bytes, hbytes, _⟩ => by simp [hfile] at hbytes
      exact .of_null (by rw [Env.load, hfile]; rfl) fun cfg hholds => (hnot cfg hholds).elim
    | some bytes =>
      by_cases hlength : 4 ≤ bytes.length
      · exact .of_complete hfile hlength (h bytes hfile hlength)
      · have hshort : bytes.length < 4 := Nat.lt_of_not_le hlength
        refine .of_null (by rw [Env.load, hfile]; exact loadRangeCfg_short hshort)
          fun cfg ⟨bytes', hbytes, hwhole⟩ => ?_
        cases hfile.symm.trans hbytes
        have hends := hwhole.announced
        omega

/-- An environment with one file, which announces a range and ends, and with memory. -/
def truncatedEnv : Env where
  order := .little
  enabledModules := ['p', 'r', 'i', 'n', 't']
  modulesConfig := []
  files := fun file => if file = ['t', '.', 'c', 's', 'w'] then some [1, 0, 0, 0] else none
  malloc := fun _ => some fun _ => 0xA5A5A5A5
  builtinRanges := ⟨0, 0, 0, []⟩
  builtinPorts := ⟨0, 0, 0, []⟩

/-- The record has the count of the file and, for the rest, what was in the memory. -/
theorem truncated_file_scanned :
    truncatedEnv.load ['t', '.', 'c', 's', 'w'] =
        .record ⟨1, 0xA5A5A5A5, 0xA5A5A5A5, [0xA5A5A5A5, 0xA5A5A5A5]⟩ ∧
      ¬ AllOrNothing truncatedEnv ['t', '.', 'c', 's', 'w'] := by
  have hload : truncatedEnv.load ['t', '.', 'c', 's', 'w'] =
      .record ⟨1, 0xA5A5A5A5, 0xA5A5A5A5, [0xA5A5A5A5, 0xA5A5A5A5]⟩ := by decide +kernel
  refine ⟨hload, fun h => ?_⟩
  obtain ⟨bytes, hfile, hwhole⟩ := h.whole _ hload
  cases (show some [1, 0, 0, 0] = some bytes from hfile)
  obtain ⟨-, -, hends⟩ := hwhole.announced
  exact absurd hends (by decide)

/-! ### Portspecs -/

/-- The portspec is in the grammar `port[:weight](,port[:weight])*`, where the numbers may have signs, and the
sum of its weights is positive. -/
structure Lists (es : List PortEntry) (spec : List Char) : Prop where
  nonempty : es ≠ []
  signed : ∀ e ∈ es, e.Signed
  spec : portspec es = spec
  total : 0 < signedTotal es

/-- `make_port_ranges` returns the record of a well-formed portspec, with a pair for each item, and `NULL` for any
other, which `parse_args` reports. -/
structure RefusesMalformed (spec : List Char) : Prop where
  built : ∀ malloc cfg, Builds malloc spec cfg →
    ∃ es, Lists es spec ∧ cfg.num = es.length ∧ cfg.ranges = pairWords (signedPairs 0 es)
  refused : (∀ es, ¬ Lists es spec) → ∀ malloc, ∃ turns, ∀ fuel ≥ turns,
    makePortRanges fuel malloc spec = some .null
  reported : (∀ es, ¬ Lists es spec) → ∀ env s, s.rangesFile = none → s.portsFile = none →
    s.portspec = some spec →
    ∃ turns, ∀ fuel ≥ turns, loadTables env fuel s = .fail "Invalid portspec."

/-- A malformed portspec is refused only where there is no memory. -/
theorem refusesMalformed_iff (spec : List Char) : RefusesMalformed spec ↔ ∃ es, Lists es spec := by
  constructor
  · intro h
    by_contra hmalformed
    obtain ⟨turns, hnull⟩ := h.refused (fun es hes => hmalformed ⟨es, hes⟩) fun _ => some fun _ => 0
    exact makePortRanges_ne_null _ turns spec (hnull turns (Nat.le_refl _))
  · rintro ⟨es, hes⟩
    refine ⟨fun malloc cfg ⟨turns, hbuilds⟩ => ⟨es, hes, ?_⟩, fun hnot => (hnot es hes).elim,
      fun hnot => (hnot es hes).elim⟩
    have hbuilt := hbuilds turns (Nat.le_refl _)
    rw [← hes.spec] at hbuilt
    exact makePortRanges_some hes.nonempty hes.signed hbuilt

/-- From `80,` a record of two ports is built, and from `http` a record of none. -/
theorem malformed_portspec_taken :
    Builds (fun _ => some fun _ => 0) ['8', '0', ','] ⟨2, 1, 1, [80, 0, 80, 1]⟩ ∧
      Builds (fun _ => some fun _ => 0) ['h', 't', 't', 'p'] ⟨0, 0xFFFFFFFF, 0, []⟩ ∧
      ¬ RefusesMalformed ['h', 't', 't', 'p'] := by
  have hhttp : Builds (fun _ => some fun _ => 0) ['h', 't', 't', 'p'] ⟨0, 0xFFFFFFFF, 0, []⟩ := by
    refine ⟨1, fun fuel hfuel => ?_⟩
    obtain ⟨fuel, rfl⟩ := Nat.exists_eq_add_of_le' hfuel
    rfl
  refine ⟨?_, hhttp, fun h => ?_⟩
  · refine ⟨2, fun fuel hfuel => ?_⟩
    obtain ⟨fuel, rfl⟩ := Nat.exists_eq_add_of_le' hfuel
    rfl
  · obtain ⟨es, hes, hnum, -⟩ := h.built _ _ hhttp
    have hnone : es.length = 0 := Int.ofNat_eq_zero.mp hnum.symm
    exact hes.nonempty (List.length_eq_zero_iff.mp hnone)

end Cscan.Options
