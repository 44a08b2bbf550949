import Mathlib.Data.List.TakeWhile
import Mathlib.Tactic

/-!
# Cutting a text at delimiters

`strtok d` skips the delimiters `d` in front of a text and takes what comes up to the next
one. It goes on behind this delimiter, so calls with different delimiters can take turns on
one text. `tokens d` is what calls with one delimiter give (`strtok_fst`, `tokens_strtok`).
-/

namespace NetProg.Lib

variable {α : Type*} [DecidableEq α]

/-- `strtok` : the next token, if there is one, and the text from which the next call goes
on. -/
def strtok (d : α) (s : List α) : Option (List α) × List α :=
  match s.dropWhile fun c => c == d with
  | [] => (none, [])
  | c :: s => (some ((c :: s).takeWhile fun c => c != d), ((c :: s).dropWhile fun c => c != d).tail)

/-- All tokens. -/
def tokens (d : α) (s : List α) : List (List α) :=
  (s.splitOn d).filter fun t => !t.isEmpty

variable {d : α} {s w : List α}

@[simp]
theorem strtok_nil : strtok d [] = (none, []) :=
  rfl

@[simp]
theorem strtok_cons_self : strtok d (d :: s) = strtok d s := by
  simp [strtok]

theorem strtok_cons_of_ne {c : α} (h : c ≠ d) : strtok d (c :: s) =
    (some ((c :: s).takeWhile fun c => c != d), ((c :: s).dropWhile fun c => c != d).tail) := by
  rw [strtok, List.dropWhile_cons_of_neg (by simpa using h)]

theorem forall_ne_of_notMem (hd : d ∉ w) : ∀ x ∈ w, (x != d) = true := fun x hx => by
  have hne : x ≠ d := ne_of_mem_of_not_mem hx hd
  simpa using hne

/-- What is in front of the first delimiter. -/
theorem takeWhile_of_notMem (hd : d ∉ w) : (w ++ d :: s).takeWhile (fun c => c != d) = w := by
  rw [List.takeWhile_append_of_pos (forall_ne_of_notMem hd)]
  simp

/-- A token with a delimiter behind it. -/
theorem strtok_append (hne : w ≠ []) (hd : d ∉ w) : strtok d (w ++ d :: s) = (some w, s) := by
  obtain ⟨c, w, rfl⟩ := List.exists_cons_of_ne_nil hne
  have hall := forall_ne_of_notMem hd
  rw [List.cons_append, strtok_cons_of_ne (List.ne_of_not_mem_cons hd).symm, ← List.cons_append,
    takeWhile_of_notMem hd, List.dropWhile_append_of_pos hall]
  simp

/-- The last token. -/
theorem strtok_of_notMem (hne : w ≠ []) (hd : d ∉ w) : strtok d w = (some w, []) := by
  obtain ⟨c, w, rfl⟩ := List.exists_cons_of_ne_nil hne
  have hall := forall_ne_of_notMem hd
  rw [strtok_cons_of_ne (List.ne_of_not_mem_cons hd).symm, List.takeWhile_eq_self_iff.2 hall,
    List.dropWhile_eq_nil_iff.2 hall, List.tail_nil]

/-- The first of some words with single delimiters between them. -/
theorem strtok_intercalate (hne : w ≠ []) (hd : d ∉ w) (ws : List (List α)) :
    strtok d ([d].intercalate (w :: ws)) = (some w, [d].intercalate ws) := by
  cases ws with
  | nil =>
    rw [List.intercalate_singleton]
    exact strtok_of_notMem hne hd
  | cons w' ws =>
    rw [List.intercalate_cons_cons, List.append_assoc]
    exact strtok_append hne hd

@[simp]
theorem tokens_nil : tokens d [] = [] :=
  rfl

@[simp]
theorem tokens_cons_self : tokens d (d :: s) = tokens d s := by
  simp [tokens, List.splitOn_cons_eq_if_modifyHead]

theorem tokens_append (hne : w ≠ []) (hd : d ∉ w) : tokens d (w ++ d :: s) = w :: tokens d s := by
  simp [tokens, List.splitOn_append_cons_self_of_not_mem hd, hne]

theorem tokens_of_notMem (hne : w ≠ []) (hd : d ∉ w) : tokens d w = [w] := by
  simp [tokens, List.splitOn_eq_singleton hd, hne]

/-- A text begins with a token, up to its end or to a delimiter, or with a delimiter. -/
theorem exists_token (d : α) (s : List α) : s = [] ∨ (∃ t, s = d :: t) ∨
    ∃ w, w ≠ [] ∧ d ∉ w ∧ (s = w ∨ ∃ t, s = w ++ d :: t) := by
  by_cases hs : d ∈ s
  · obtain ⟨w, t, rfl, hw⟩ := List.eq_append_cons_of_mem hs
    by_cases hne : w = []
    · subst hne
      exact .inr (.inl ⟨t, rfl⟩)
    · exact .inr (.inr ⟨w, hne, hw, .inr ⟨t, rfl⟩⟩)
  · by_cases hne : s = []
    · exact .inl hne
    · exact .inr (.inr ⟨s, hne, hs, .inl rfl⟩)

/-- The two ways a call of `strtok` ends. -/
theorem strtok_cases (d : α) (s : List α) : strtok d s = (none, []) ∧ tokens d s = [] ∨
    ∃ w t, strtok d s = (some w, t) ∧ tokens d s = w :: tokens d t := by
  induction s with
  | nil => exact .inl ⟨rfl, rfl⟩
  | cons c s ih =>
    rcases exists_token d (c :: s) with h | ⟨t, h⟩ | ⟨w, hne, hd, h | ⟨t, h⟩⟩
    · cases h
    · obtain ⟨rfl, rfl⟩ := List.cons.inj h
      rwa [strtok_cons_self, tokens_cons_self]
    · rw [h]
      exact .inr ⟨w, [], strtok_of_notMem hne hd, tokens_of_notMem hne hd⟩
    · rw [h]
      exact .inr ⟨w, t, strtok_append hne hd, tokens_append hne hd⟩

theorem strtok_fst (d : α) (s : List α) : (strtok d s).1 = (tokens d s).head? := by
  rcases strtok_cases d s with ⟨h, htokens⟩ | ⟨w, t, h, htokens⟩
  · rw [h, htokens]
    rfl
  · rw [h, htokens]
    rfl

theorem tokens_strtok (d : α) (s : List α) : tokens d (strtok d s).2 = (tokens d s).tail := by
  rcases strtok_cases d s with ⟨h, htokens⟩ | ⟨w, t, h, htokens⟩
  · rw [h, htokens]
    rfl
  · rw [h, htokens]
    rfl

end NetProg.Lib
