import Cscan.Target.PortTable

/-! `make_port_ranges` and `compile-targets.py -p` build the same table up to `2^30` points. Beyond, the
loop of `make_port_ranges` that looks for the mask does not end. -/

namespace Cscan.Target

open Cscan.Lib

variable {es : List PortEntry} {e : PortEntry}

/-! ### The words that `compile-targets.py` writes -/

theorem portWeight_text (h : e.WellFormed) :
    portWeight e.text = some ((e.number : Int), (e.points : Int)) := by
  have hport : Python.int e.port = some (e.number : Int) := Python.int_digits h.port.1 h.port.2
  have hcolon : ∀ digits, PortEntry.IsNumeral digits → ':' ∉ digits := by
    rintro digits ⟨-, hdigits⟩ hmem
    exact absurd (hdigits ':' hmem) (by decide)
  unfold portWeight PortEntry.text PortEntry.points
  cases hweight : e.weight with
  | none => simp [hcolon _ h.port, hport]
  | some weight =>
    have hnumeral := h.weight weight hweight
    have hsplit : (e.port ++ ':' :: weight).splitOn ':' = [e.port, weight] := by
      rw [List.splitOn_append_cons_self_of_not_mem (hcolon _ h.port),
        List.splitOn_eq_singleton (hcolon _ hnumeral)]
    have hpoints := Python.int_digits hnumeral.1 hnumeral.2
    simp [hsplit, hport, hpoints]

theorem mapM_portWeight (h : ∀ e ∈ es, e.WellFormed) :
    (es.map PortEntry.text).mapM portWeight =
      some (es.map fun e => ((e.number : Int), (e.points : Int))) := by
  induction es with
  | nil => rfl
  | cons e es ih =>
    obtain ⟨he, hrest⟩ := List.forall_mem_cons.mp h
    simp [portWeight_text he, ih hrest]

theorem weights_of_portspec (hes : es ≠ []) (h : ∀ e ∈ es, e.WellFormed) :
    ((portspec es).splitOn ',').mapM portWeight =
      some (es.map fun e => ((e.number : Int), (e.points : Int))) := by
  have hcomma : ∀ text ∈ es.map PortEntry.text, ',' ∉ text := by
    intro text htext
    obtain ⟨e, he, rfl⟩ := List.mem_map.mp htext
    exact (h e he).signed.not_mem_text (by decide) (by decide) (by decide)
  rw [portspec, List.splitOn_intercalate ',' hcomma (by simpa using hes), mapM_portWeight h]

theorem compilePorts_eq {portspec : List Char} {weights : List (Int × Int)}
    (h : (portspec.splitOn ',').mapM portWeight = some weights) :
    compilePorts portspec = packWords (portWords weights) := by
  rw [compilePorts, h, Option.bind_eq_bind, Option.bind_some]

theorem portData_eq (sum : Nat) (es : List PortEntry) (h : ∀ e ∈ es, e.WellFormed)
    (hweights : ∀ e ∈ es, 0 < e.points) (hsum : sum + total es < 2 ^ 32) :
    let (ptSum, data) := portData sum (es.map fun e => ((e.number : Int), (e.points : Int)))
    ptSum = ((sum + total es : Nat) : Int) ∧ data.length = 2 * es.length ∧ (∀ v ∈ data, Fits v) ∧
      data.map (fun v => UInt32.ofNat v.toNat) = pairWords (cumPairs sum es) := by
  induction es generalizing sum with
  | nil => exact ⟨rfl, rfl, nofun, rfl⟩
  | cons e es ih =>
    obtain ⟨he, hrest⟩ := List.forall_mem_cons.mp h
    obtain ⟨hpoints, hrestWeights⟩ := List.forall_mem_cons.mp hweights
    rw [total_cons] at hsum
    have hcast : (sum : Int) + e.points = ((sum + e.points : Nat) : Int) := by push_cast; rfl
    obtain ⟨hptSum, hlength, hfits, hdata⟩ := ih (sum + e.points) hrest hrestWeights (by omega)
    have hnumber := he.number
    have hword : ∀ v : Int, Fits v → UInt32.ofNat v.toNat = toUInt32 v := by
      rintro v ⟨h0, h1⟩
      rw [toUInt32, Int.emod_eq_of_lt h0 h1]
    have hport : Fits (e.number : Int) := ⟨by omega, by omega⟩
    have hlast : Fits (((sum + e.points : Nat) : Int) - 1) := ⟨by omega, by omega⟩
    simp only [List.map_cons, portData, hcast, hptSum, List.length_cons, hlength, List.forall_mem_cons,
      hdata, cumPairs, pairWords_cons, total_cons, hword _ hport, hword _ hlast]
    exact ⟨by rw [Nat.add_assoc], by omega, ⟨hport, hlast, hfits⟩, trivial⟩

/-- The file that `compile-targets.py` writes is the table of the portspec. -/
theorem load_compilePorts (order : ByteOrder) {malloc : Nat → Option (Nat → UInt32)} (hes : es ≠ [])
    (h : ∀ e ∈ es, e.WellFormed) (hweights : ∀ e ∈ es, 0 < e.points) (hshort : es.length < 2 ^ 30)
    (hpos : 0 < total es) (hlt : total es < 2 ^ 31)
    (hmem : (malloc (12 + 8 * es.length)).isSome) :
    ∃ bytes, compilePorts (portspec es) = some bytes ∧
      loadRangeCfg order malloc (some bytes) = .record (portTable es) := by
  have hdata := portData_eq 0 es h hweights (by omega)
  rw [Nat.cast_zero, Nat.zero_add] at hdata
  obtain ⟨hptSum, hlength, hfits, hdata⟩ := hdata
  obtain ⟨k, hmask, hcover, hhalf⟩ := getBinmask_pow (show (0 : Int) < total es by exact_mod_cast hpos)
  have hone : (1 : Int) ≤ 2 ^ k := one_le_pow₀ (by norm_num)
  have hmaskFits : Fits (getBinmask (total es)) := by
    rw [hmask]
    constructor <;> omega
  have hmaxFits : Fits ((total es : Int) - 1) := ⟨by omega, by omega⟩
  have hnumFits : Fits (es.length : Int) := ⟨by omega, by omega⟩
  have hwords : portWords (es.map fun e => ((e.number : Int), (e.points : Int))) =
      (es.length : Int) :: ((total es : Int) - 1) :: getBinmask (total es) ::
        (portData 0 (es.map fun e => ((e.number : Int), (e.points : Int)))).2 := by
    simp only [portWords, List.length_map]
    rw [show (portData 0 (es.map fun e => ((e.number : Int), (e.points : Int)))).1 = total es from hptSum]
  obtain ⟨bytes, hbytes, hload⟩ := @loadRangeCfg_words order malloc es.length _ _ _ hshort hlength
    (List.forall_mem_cons.mpr ⟨hnumFits, List.forall_mem_cons.mpr ⟨hmaxFits,
      List.forall_mem_cons.mpr ⟨hmaskFits, hfits⟩⟩⟩) hmem
  refine ⟨bytes, ?_, ?_⟩
  · rw [compilePorts_eq (weights_of_portspec hes h), hwords, hbytes]
  · rw [hload, portTable]
    have hmaxWord : UInt32.ofNat ((total es : Int) - 1).toNat = toUInt32 ((total es : Int) - 1) := by
      rw [toUInt32, Int.emod_eq_of_lt hmaxFits.1 hmaxFits.2]
    have hmaskWord : UInt32.ofNat (getBinmask (total es)).toNat = toUInt32 (getBinmask (total es)) := by
      rw [toUInt32, Int.emod_eq_of_lt hmaskFits.1 hmaskFits.2]
    rw [hmaxWord, hmaskWord]
    exact congrArg (fun words => Loaded.record ⟨es.length, _, _, words⟩) hdata

/-- `make_port_ranges` builds the record that `load_range_cfg` reads from the file of
`compile-targets.py -p`. -/
def Agree (order : ByteOrder) (malloc malloc' : Nat → Option (Nat → UInt32)) (portspec : List Char) :
    Prop :=
  ∃ cfg bytes, Builds malloc portspec cfg ∧ compilePorts portspec = some bytes ∧
    loadRangeCfg order malloc' (some bytes) = .record cfg

/-- The two compilers agree exactly on the portspecs of fewer than `2^30` entries with at most `2^30`
points. -/
theorem compilers_agree_iff (order : ByteOrder) {malloc malloc' : Nat → Option (Nat → UInt32)}
    {es : List PortEntry} (hes : es ≠ []) (h : ∀ e ∈ es, e.WellFormed)
    (hweights : ∀ e ∈ es, 0 < e.points) (hlt : total es < 2 ^ 31)
    (hmem : (malloc (12 + 8 * es.length)).isSome) (hmem' : (malloc' (12 + 8 * es.length)).isSome) :
    Agree order malloc malloc' (portspec es) ↔ es.length < 2 ^ 30 ∧ total es ≤ 2 ^ 30 := by
  have hpos : 0 < total es := by
    obtain ⟨e, es', rfl⟩ := List.exists_cons_of_ne_nil hes
    have := hweights e List.mem_cons_self
    rw [total_cons]
    omega
  have hbuilds := builds_iff hes h hpos hlt hmem
  constructor
  · rintro ⟨cfg, bytes, hcfg, -⟩
    obtain ⟨hshort, hle, -⟩ := (hbuilds cfg).mp hcfg
    exact ⟨hshort, hle⟩
  · rintro ⟨hshort, hle⟩
    obtain ⟨bytes, hbytes, hload⟩ := load_compilePorts order hes h hweights hshort hpos hlt hmem'
    exact ⟨_, bytes, (hbuilds _).mpr ⟨hshort, hle, rfl⟩, hbytes, hload⟩

theorem compilers_agree_test :
    Agree .big (fun _ => some fun _ => 0) (fun _ => some fun _ => 7)
      ['4', '4', '3', ':', '2', ',', '8', '0'] := by
  have hformed : ∀ e ∈ [PortEntry.mk ['4', '4', '3'] (some ['2']), ⟨['8', '0'], none⟩],
      e.WellFormed := by
    simp only [List.forall_mem_cons]
    exact ⟨⟨by decide, by decide, by decide⟩, ⟨by decide, by decide, by decide⟩, by simp⟩
  exact (compilers_agree_iff .big (List.cons_ne_nil _ _) hformed (by decide) (by decide) rfl rfl).mpr
    ⟨by decide, by decide⟩

/-- The portspec `80:1073741825`: `compile-targets.py` writes its table, but `make_port_ranges` does not
return. -/
theorem mask_loop_runs_on :
    (compilePorts ['8', '0', ':', '1', '0', '7', '3', '7', '4', '1', '8', '2', '5']).isSome ∧
      (∀ fuel, makePortRanges fuel (fun _ => some fun _ => 0)
        ['8', '0', ':', '1', '0', '7', '3', '7', '4', '1', '8', '2', '5'] = none) ∧
      ¬ Agree .little (fun _ => some fun _ => 0) (fun _ => some fun _ => 0)
        ['8', '0', ':', '1', '0', '7', '3', '7', '4', '1', '8', '2', '5'] := by
  have hcount : countLoop 14 ['8', '0', ':', '1', '0', '7', '3', '7', '4', '1', '8', '2', '5'] none 0 0 =
      some (some 80, 1, 1073741825) := by decide
  have hnone : ∀ fuel, makePortRanges fuel (fun _ => some fun _ => 0)
      ['8', '0', ':', '1', '0', '7', '3', '7', '4', '1', '8', '2', '5'] = none := by
    intro fuel
    have hloop := @maskLoop_endless 1073741825 (by decide) fuel
    have hmax : checked (1073741825 - 1) = some 1073741824 := by decide
    simp only [makePortRanges, List.length_cons, List.length_nil, hcount, hmax, hloop]
    rfl
  refine ⟨by decide +kernel, hnone, ?_⟩
  rintro ⟨cfg, bytes, ⟨turns, hbuilds⟩, -⟩
  have hsome := hbuilds turns (Nat.le_refl _)
  rw [hnone] at hsome
  cases hsome

end Cscan.Target
