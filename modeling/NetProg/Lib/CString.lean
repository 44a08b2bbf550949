import Mathlib.Tactic

/-!
# Strings in arrays

A string in an array of `cap` bytes has fewer than `cap` characters, since one byte ends it.
`strcpy` and `strcat` give `none` when the copy would run past the end of the array.
-/

namespace NetProg.Lib

/-- A string in an array of `cap` bytes. -/
@[ext]
structure CString (α : Type*) (cap : ℕ) where
  chars : List α
  length_lt : chars.length < cap

namespace CString

variable {α : Type*} {cap : ℕ}

/-- Copy a string into an array. -/
def strcpy (s : List α) : Option (CString α cap) :=
  if h : s.length < cap then some ⟨s, h⟩ else none

/-- Copy a string behind the string that is in the array. -/
def strcat (dst : CString α cap) (s : List α) : Option (CString α cap) :=
  strcpy (dst.chars ++ s)

/-- The empty string. -/
def empty : CString α (cap + 1) :=
  ⟨[], Nat.succ_pos cap⟩

@[simp]
theorem chars_empty : (empty : CString α (cap + 1)).chars = [] :=
  rfl

theorem strcpy_of_lt {s : List α} (h : s.length < cap) :
    strcpy s = some (⟨s, h⟩ : CString α cap) :=
  dif_pos h

theorem strcpy_eq_none {s : List α} (h : cap ≤ s.length) :
    (strcpy s : Option (CString α cap)) = none :=
  dif_neg h.not_gt

@[simp]
theorem strcpy_chars (dst : CString α cap) : strcpy dst.chars = some dst :=
  strcpy_of_lt dst.length_lt

theorem chars_of_strcpy {s : List α} {dst : CString α cap} (h : strcpy s = some dst) :
    dst.chars = s := by
  unfold strcpy at h
  split at h
  · obtain rfl := Option.some.inj h
    rfl
  · cases h

/-- Strings put one behind the other fit when they fit together. -/
theorem foldlM_strcat (ss : List (List α)) (dst : CString α cap) :
    ss.foldlM strcat dst = strcpy (dst.chars ++ ss.flatten) := by
  induction ss generalizing dst with
  | nil => simp
  | cons s ss ih =>
    rw [List.foldlM_cons, strcat, List.flatten_cons, ← List.append_assoc]
    by_cases h : (dst.chars ++ s).length < cap
    · rw [strcpy_of_lt h, Option.bind_eq_bind, Option.bind_some, ih]
    · rw [strcpy_eq_none (not_lt.1 h), strcpy_eq_none]
      · rfl
      · rw [List.length_append]
        exact (not_lt.1 h).trans (Nat.le_add_right _ _)

end CString

end NetProg.Lib
