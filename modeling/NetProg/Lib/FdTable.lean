import Mathlib.Tactic

/-!
# Descriptor tables

A descriptor table maps small numbers to open files. `openFile` takes the lowest number that is
free, `dup2` replaces one entry, `close` frees one. Each operation comes with the lemma that
says what `get` finds afterwards.
-/

namespace NetProg

variable {φ : Type*}

/-- The entry at index `fd` is the file that `fd` stands for. -/
abbrev FdTable (φ : Type*) :=
  List (Option φ)

namespace FdTable

/-- The file behind a number. -/
def get (t : FdTable φ) (fd : ℕ) : Option φ :=
  (t[fd]?).join

/-- The process has the file open. -/
def Holds (t : FdTable φ) (f : φ) : Prop :=
  some f ∈ t

instance [DecidableEq φ] (t : FdTable φ) (f : φ) : Decidable (t.Holds f) :=
  inferInstanceAs (Decidable (_ ∈ _))

theorem holds_iff {t : FdTable φ} {f : φ} : t.Holds f ↔ ∃ fd, t.get fd = some f := by
  unfold Holds get
  simp only [List.mem_iff_getElem?, Option.join_eq_some_iff]

/-- The lowest free number. -/
def free (t : FdTable φ) : ℕ :=
  t.findIdx fun f => f.isNone

/-- The entry at `fd` becomes `f`. -/
def place (t : FdTable φ) (fd : ℕ) (f : φ) : FdTable φ :=
  if fd < t.length then t.set fd (some f)
  else t ++ List.replicate (fd - t.length) none ++ [some f]

/-- `close`. -/
def close (t : FdTable φ) (fd : ℕ) : FdTable φ :=
  t.set fd none

/-- `close` in a loop. -/
def closeAll (t : FdTable φ) (fds : List ℕ) : FdTable φ :=
  fds.foldl close t

/-- The number that opening a file returns. -/
def openFile (t : FdTable φ) (f : φ) : ℕ × FdTable φ :=
  (t.free, t.place t.free f)

/-- `dup2`, which fails when `fd` is not open. -/
def dup2 (t : FdTable φ) (fd new : ℕ) : Option (FdTable φ) :=
  (t.get fd).map (t.place new)

/-- The same numbers, for other files. -/
def map {ψ : Type*} (g : φ → ψ) (t : FdTable φ) : FdTable ψ :=
  List.map (Option.map g) t

theorem get_map {ψ : Type*} (g : φ → ψ) (t : FdTable φ) (fd : ℕ) :
    (t.map g).get fd = (t.get fd).map g := by
  unfold get map
  rw [List.getElem?_map]
  rcases t[fd]? with _ | _ | f <;> rfl

theorem get_free (t : FdTable φ) : t.get t.free = none := by
  unfold get free
  by_cases hlt : (t.findIdx fun f => f.isNone) < t.length
  · rw [List.getElem?_eq_getElem hlt]
    simpa using List.findIdx_getElem (w := hlt)
  · rw [List.getElem?_eq_none (by omega)]
    rfl

@[simp] theorem get_close (t : FdTable φ) (fd x : ℕ) :
    (t.close fd).get x = if x = fd then none else t.get x := by
  unfold get close
  rw [List.getElem?_set]
  split_ifs with h₁ h₂ h₃
  · rfl
  · omega
  · rfl
  · omega
  · omega
  · rfl

@[simp] theorem get_place (t : FdTable φ) (fd : ℕ) (f : φ) (x : ℕ) :
    (t.place fd f).get x = if x = fd then some f else t.get x := by
  unfold get place
  by_cases hlt : fd < t.length
  · rw [if_pos hlt, List.getElem?_set]
    split_ifs <;> first | rfl | omega
  · rw [if_neg hlt, List.append_assoc, List.getElem?_append]
    by_cases hx : x < t.length
    · rw [if_pos hx, if_neg (by omega)]
    · rw [if_neg hx, List.getElem?_eq_none (by omega : t.length ≤ x), List.getElem?_append,
        List.length_replicate]
      rcases lt_trichotomy x fd with hlt' | rfl | hgt
      · rw [if_pos (by omega), if_neg (by omega), List.getElem?_replicate, if_pos (by omega)]
        rfl
      · rw [if_neg (by omega), if_pos rfl, Nat.sub_self]
        rfl
      · rw [if_neg (by omega), if_neg (by omega), List.getElem?_eq_none (by simp; omega)]

@[simp] theorem get_closeAll (t : FdTable φ) (fds : List ℕ) (x : ℕ) :
    (t.closeAll fds).get x = if x ∈ fds then none else t.get x := by
  induction fds generalizing t with
  | nil => simp [closeAll]
  | cons fd fds ih =>
    rw [closeAll, List.foldl_cons, ← closeAll, ih, get_close]
    by_cases hmem : x ∈ fds
    · simp [hmem]
    · simp [hmem]

/-- An open file keeps its number from being taken. -/
theorem ne_free {t : FdTable φ} {fd : ℕ} {f : φ} (h : t.get fd = some f) : fd ≠ t.free := by
  rintro rfl
  rw [get_free] at h
  cases h

theorem get_place_self (t : FdTable φ) (fd : ℕ) (f : φ) : (t.place fd f).get fd = some f := by
  rw [get_place, if_pos rfl]

/-- Opening a file keeps those that are open. -/
theorem get_place_free {t : FdTable φ} {fd : ℕ} {g : φ} (h : t.get fd = some g) (f : φ) :
    (t.place t.free f).get fd = some g := by
  rw [get_place, if_neg (ne_free h), h]

/-- A file that is open after another one was opened is that one, or was open before. -/
theorem get_of_get_place_free {t : FdTable φ} {fd : ℕ} {f g : φ}
    (h : (t.place t.free f).get fd = some g) : fd = t.free ∧ g = f ∨ t.get fd = some g := by
  rw [get_place] at h
  split_ifs at h with hfd
  · exact .inl ⟨hfd, (Option.some.inj h).symm⟩
  · exact .inr h

end FdTable

end NetProg
