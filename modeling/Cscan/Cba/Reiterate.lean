import Cscan.Cba.Entries

/-! Several passes over one `CBA` object. `reset` seeks to the start of the file, where the byte-order
mark stands, and keeps the states of the threads, so that only the first pass reads what a new object
reads. -/

namespace Cscan.Cba

open Cscan.Lib

/-- `entries(m)` run to its end for each `m` in turn, on one object. -/
def passes (cfg : Config) : List (Option (List Char)) → Reader → List Pass
  | [], _ => []
  | module :: modules, s => (entries cfg module s).1 :: passes cfg modules (entries cfg module s).2

/-- The same passes, each on a new object. -/
def freshPasses (cfg : Config) (modules : List (Option (List Char))) (data : List UInt8) : List Pass :=
  modules.map fun module => (entries cfg module (newReader data)).1

/-- The second pass over a file without packets takes the mark for the thread of a packet. -/
theorem passes_mark (cfg : Config) (m m' : Option (List Char)) (ms : List (Option (List Char))) :
    ∃ ps, passes cfg (m :: m' :: ms) (newReader (fileOf .little [])) =
      ⟨[], none⟩ :: ⟨[], some .struct⟩ :: ps := ⟨_, rfl⟩

theorem freshPasses_mark (cfg : Config) (m m' : Option (List Char)) (ms : List (Option (List Char))) :
    ∃ ps, freshPasses cfg (m :: m' :: ms) (fileOf .little []) = ⟨[], none⟩ :: ⟨[], none⟩ :: ps :=
  ⟨_, rfl⟩

/-- On every well-formed file the passes over one object give what new objects give just when there
is at most one pass. -/
theorem reiterating_iff (cfg : Config) (modules : List (Option (List Char))) :
    (∀ order units, WellFormed units →
      passes cfg modules (newReader (fileOf order units)) =
        freshPasses cfg modules (fileOf order units)) ↔ modules.length ≤ 1 := by
  constructor
  · intro h
    rcases modules with _ | ⟨m, _ | ⟨m', ms⟩⟩
    · exact Nat.zero_le 1
    · exact Nat.le_refl 1
    · obtain ⟨ps, hpasses⟩ := passes_mark cfg m m' ms
      obtain ⟨ps', hfresh⟩ := freshPasses_mark cfg m m' ms
      have hsame := h .little [] fun _ => rfl
      rw [hpasses, hfresh] at hsame
      cases hsame
  · intro h order units _
    rcases modules with _ | ⟨m, _ | ⟨m', ms⟩⟩
    · rfl
    · rfl
    · exact absurd h (by simp)

/-- A statistics entry and then a result, as the scanner writes them. -/
def scanUnits : List (UInt8 × Atom) :=
  [(0, .packet none (.head [99, 115, 99, 97, 110])), (0, .packet none (.int32 5)),
    (0, .packet none (.head [])), (0, .packet none (.int32 6))]

/-- Reading the statistics first and the results second yields a result that is not in the file. -/
theorem second_pass_mixes_entries :
    let cfg : Config := ⟨['c', 'b', 'a'], [], false, fun _ => true⟩
    let modules := [some ['c', 's', 'c', 'a', 'n'], some []]
    WellFormed scanUnits ∧ passes cfg modules (newReader (fileOf .little scanUnits)) ≠
      freshPasses cfg modules (fileOf .little scanUnits) := by
  refine ⟨fun tid => ?_, by decide +kernel⟩
  by_cases h : (0 : UInt8) = tid
  · subst h
    simp [scanUnits, proj, Follows, Atom.Allowed, Atom.leavesOpen, Packet.Fits, Packet.opensStream]
  · simp [scanUnits, proj, h, Follows]

end Cscan.Cba
