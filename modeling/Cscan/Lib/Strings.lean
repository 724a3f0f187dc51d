import Mathlib.Data.List.Infix

/-! `strstr` of the C library, on texts that are lists of characters. -/

namespace Cscan.Lib

/-- The text from the first place on where it goes on with `needle`. -/
def strstr (needle : List Char) : List Char → Option (List Char)
  | [] => if needle = [] then some [] else none
  | c :: text => if needle <+: c :: text then some (c :: text) else strstr needle text

/-- What is found begins with the needle. -/
theorem strstr_prefix {needle text found : List Char} (h : strstr needle text = some found) :
    needle <+: found := by
  induction text with
  | nil =>
    unfold strstr at h
    split_ifs at h with hnil
    exact hnil ▸ List.nil_prefix
  | cons c text ih =>
    unfold strstr at h
    split_ifs at h with hhere
    · cases h
      exact hhere
    · exact ih h

end Cscan.Lib
