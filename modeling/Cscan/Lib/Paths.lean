import Mathlib.Data.List.Basic

/-! POSIX paths as lists of characters, and the paths inside of a directory. -/

namespace Cscan.Lib.Paths

def dotDot : List Char := ['.', '.']

/-- The parts between the slashes. -/
def components (path : List Char) : List (List Char) := path.splitOn '/'

def IsAbsolute (path : List Char) : Prop := path.head? = some '/'

instance (path : List Char) : Decidable (IsAbsolute path) := inferInstanceAs (Decidable (_ = _))

/-- A relative path behind a directory, and a slash between them if there is none. -/
def inDir (dir rel : List Char) : List Char :=
  if dir = [] ∨ dir.getLast? = some '/' then dir ++ rel else dir ++ '/' :: rel

/-- The path is relative to the directory and does not leave it. -/
def StaysIn (dir path : List Char) : Prop :=
  ∃ rel, ¬ IsAbsolute rel ∧ dotDot ∉ components rel ∧ path = inDir dir rel

theorem infix_of_mem_intercalate {c : Char} {part : List Char} {parts : List (List Char)}
    (h : part ∈ parts) : part <:+: [c].intercalate parts := by
  induction parts with
  | nil => cases h
  | cons first parts ih =>
    cases parts with
    | nil =>
      obtain rfl := List.mem_singleton.mp h
      simp
    | cons second parts =>
      rw [List.intercalate_cons_cons]
      rcases List.mem_cons.mp h with rfl | h
      · exact (List.prefix_append ..).isInfix.trans (List.prefix_append ..).isInfix
      · exact (ih h).trans (List.suffix_append ..).isInfix

theorem infix_of_mem_components {part path : List Char} (h : part ∈ components path) :
    part <:+: path := by
  have hinfix := @infix_of_mem_intercalate '/' part (components path) h
  rwa [components, List.intercalate_splitOn] at hinfix

/-- A relative path without two dots in a row stays in every directory. -/
theorem staysIn_inDir {rel : List Char} (hrel : ¬ IsAbsolute rel) (hdots : ¬ dotDot <:+: rel)
    (dir : List Char) : StaysIn dir (inDir dir rel) :=
  ⟨rel, hrel, fun hmem => hdots (infix_of_mem_components hmem), rfl⟩

/-- An absolute path is not in the current directory. -/
theorem not_staysIn_nil {path : List Char} (h : IsAbsolute path) : ¬ StaysIn [] path := by
  rintro ⟨rel, hrel, -, rfl⟩
  exact hrel h

end Cscan.Lib.Paths
