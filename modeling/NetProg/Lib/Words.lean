import Mathlib.Data.List.TakeWhile
import Mathlib.Tactic

/-!
# Words

The words of a text are its maximal runs of elements that are no separators. A separator ends
a word (`words_append_cons`), and separators in front and at the end of a text change nothing
(`words_of_forall_append`, `words_append_of_forall`). The first word is what is behind the
separators in front, up to the next one (`words_of_dropWhile_eq_cons`). Words lie in the text
(`infix_of_mem_words`).
-/

namespace NetProg.Lib

variable {α : Type*}

/-- The maximal runs of elements that are no separators. -/
def words (sep : α → Bool) (s : List α) : List (List α) :=
  (s.splitOnP sep).filter fun w => !w.isEmpty

variable {sep : α → Bool} {c : α} {s t w : List α}

@[simp]
theorem words_nil : words sep [] = [] :=
  rfl

theorem ne_nil_of_mem_words (h : w ∈ words sep s) : w ≠ [] := by
  rintro rfl
  simpa using (List.mem_filter.1 h).2

theorem words_append_cons (hc : sep c = true) (s t : List α) :
    words sep (s ++ c :: t) = words sep s ++ words sep t := by
  rw [words, List.splitOnP_append_cons s t hc, List.filter_append]
  rfl

theorem words_cons (hc : sep c = true) (s : List α) : words sep (c :: s) = words sep s :=
  words_append_cons hc [] s

theorem words_of_forall_not (hne : w ≠ []) (hw : ∀ c ∈ w, sep c = false) : words sep w = [w] := by
  rw [words, List.splitOnP_eq_singleton hw]
  simp [hne]

/-- A word with a separator behind it. -/
theorem words_word_append (hne : w ≠ []) (hw : ∀ c ∈ w, sep c = false) (hc : sep c = true) :
    words sep (w ++ c :: s) = w :: words sep s := by
  rw [words_append_cons hc, words_of_forall_not hne hw, List.singleton_append]

/-- Separators at the end. -/
theorem words_append_of_forall (ht : ∀ c ∈ t, sep c = true) :
    words sep (s ++ t) = words sep s := by
  induction t generalizing s with
  | nil => rw [List.append_nil]
  | cons c t ih =>
    obtain ⟨hc, ht⟩ := List.forall_mem_cons.1 ht
    have hnil : words sep ([] ++ t) = [] := ih ht
    rw [words_append_cons hc, show words sep t = [] from hnil, List.append_nil]

/-- Separators in front. -/
theorem words_of_forall_append (hs : ∀ c ∈ s, sep c = true) : words sep (s ++ t) = words sep t := by
  induction s with
  | nil => rfl
  | cons c s ih =>
    obtain ⟨hc, hs⟩ := List.forall_mem_cons.1 hs
    rw [List.cons_append, words_cons hc, ih hs]

theorem sep_of_dropWhile_eq_cons (h : s.dropWhile sep = c :: t) : sep c = false := by
  have hhead := List.head_dropWhile_not sep (l := s) (by rw [h]; simp)
  simpa [h] using hhead

theorem words_of_dropWhile (s : List α) : words sep (s.dropWhile sep) = words sep s := by
  conv_rhs => rw [← List.takeWhile_append_dropWhile (p := sep) (l := s)]
  exact (words_of_forall_append fun c hc => List.mem_takeWhile_imp hc).symm

/-- The first word of a text ends in front of the next separator. -/
theorem words_of_dropWhile_eq_cons (h : s.dropWhile sep = c :: t) :
    words sep s = (c :: t).takeWhile (fun d => !sep d) ::
      words sep ((c :: t).dropWhile fun d => !sep d) := by
  have hc := sep_of_dropWhile_eq_cons h
  have hne : (c :: t).takeWhile (fun d => !sep d) ≠ [] := by
    rw [List.takeWhile_cons_of_pos (by simpa using hc)]
    exact List.cons_ne_nil _ _
  have hword : ∀ d ∈ (c :: t).takeWhile (fun d => !sep d), sep d = false := by
    intro d hd
    simpa using List.mem_takeWhile_imp hd
  rw [← words_of_dropWhile s, h]
  conv_lhs => rw [← List.takeWhile_append_dropWhile (p := fun d => !sep d) (l := c :: t)]
  cases hrest : (c :: t).dropWhile fun d => !sep d with
  | nil => rw [List.append_nil, words_of_forall_not hne hword, words_nil]
  | cons d t' =>
    have hd : sep d = true := by simpa using sep_of_dropWhile_eq_cons hrest
    rw [words_word_append hne hword hd, words_cons hd]

/-- The first word of a text, with what is around it. -/
theorem exists_of_words_eq_cons {ws : List (List α)} (h : words sep s = w :: ws) :
    ∃ b t, s = b ++ (w ++ t) ∧ (∀ c ∈ b, sep c = true) ∧ (∀ c ∈ w, sep c = false) ∧
      (∀ c ∈ t.head?, sep c = true) ∧ words sep t = ws := by
  have hsplit := List.takeWhile_append_dropWhile (p := sep) (l := s)
  cases hdrop : s.dropWhile sep with
  | nil =>
    rw [← words_of_dropWhile, hdrop] at h
    cases h
  | cons c t =>
    rw [words_of_dropWhile_eq_cons hdrop] at h
    obtain ⟨rfl, rfl⟩ := List.cons.inj h
    refine ⟨s.takeWhile sep, (c :: t).dropWhile fun d => !sep d, ?_,
      fun c' hc' => List.mem_takeWhile_imp hc', ?_, ?_, rfl⟩
    · rw [List.takeWhile_append_dropWhile, ← hdrop, hsplit]
    · intro d hd
      simpa using List.mem_takeWhile_imp hd
    · intro d hd
      obtain ⟨t', ht'⟩ := List.head?_eq_some_iff.1 hd
      simpa using sep_of_dropWhile_eq_cons ht'

theorem infix_of_mem_words (h : w ∈ words sep s) : w <:+: s ∧ ∀ c ∈ w, sep c = false := by
  induction hws : words sep s generalizing s with
  | nil =>
    rw [hws] at h
    cases h
  | cons w' ws ih =>
    obtain ⟨b, t, rfl, -, hw', -, ht⟩ := exists_of_words_eq_cons hws
    rw [hws] at h
    rcases List.mem_cons.1 h with rfl | hmem
    · exact ⟨List.infix_append' b w t, hw'⟩
    · obtain ⟨hsub, hw⟩ := ih (ht ▸ hmem) ht
      have hsuffix : t <:+ b ++ (w' ++ t) :=
        (List.suffix_append w' t).trans (List.suffix_append b _)
      exact ⟨hsub.trans hsuffix.isInfix, hw⟩

/-- The parts of a text lie in it. -/
theorem infix_of_mem_splitOn [BEq α] [LawfulBEq α] {x : α} (h : w ∈ s.splitOn x) : w <:+: s := by
  have hjoin : [x].intercalate (s.splitOn x) = s := List.intercalate_splitOn x
  rw [← hjoin]
  generalize s.splitOn x = l at h
  induction l with
  | nil => cases h
  | cons a l ih =>
    cases l with
    | nil =>
      obtain rfl := List.mem_singleton.1 h
      simp
    | cons b l =>
      rw [List.intercalate_cons_cons]
      rcases List.mem_cons.1 h with rfl | hmem
      · simp only [List.append_assoc]
        exact (List.prefix_append w _).isInfix
      · exact (ih hmem).trans (List.suffix_append _ _).isInfix

end NetProg.Lib
