import NetProg.Lib.Words
import NetProg.Shell.CommandLine

/-!
# Lines about shortcuts

A line is about a shortcut when its first word is `sc`, and it should name `-i` or `-d` and an
index behind that. `createCmdPipe` compares only the first two characters of the line, looks
for the first `-` wherever it is, and reads the index from the third character behind it. So
`scp` is about a shortcut too, `sc` behind a blank is not, and a `-` in another word is taken
for the flag. A line without a flag, and one that deletes an index that is not in the map, end
the process by an assertion, where a line with a bad index is reported and the prompt comes
back.

`failsCleanly_iff` says which lines are recognised by their first word and leave the map as it
is when they are wrong. An index is the number that its digits stand for, and `intIndex` of it is
what `createCmdPipe` looks up. What else becomes of a number that does not fit into an `int` is the
subject of `NetProg.Shell.ShortcutKeys`.
-/

namespace NetProg.Shell

open Lib
open Cluster (nul isSpace isSpace_eq_false_of_isDigit)

/-! ## What a line should be -/

/-- The first word is `sc`. -/
def CallsSc (text : List Char) : Prop :=
  (words isSpace text).head? = some ['s', 'c']

instance (text : List Char) : Decidable (CallsSc text) :=
  inferInstanceAs (Decidable (_ = _))

def IsFlag (flag : Char) : Prop :=
  flag = 'i' ∨ flag = 'd'

instance (flag : Char) : Decidable (IsFlag flag) :=
  inferInstanceAs (Decidable (_ ∨ _))

def IsNumber (digits : List Char) : Prop :=
  digits ≠ [] ∧ ∀ c ∈ digits, c.isDigit = true

/-- The index that some digits are read as, behind one that has been read. -/
def readIndex (idx : ℕ) (digits : List Char) : ℕ :=
  digits.foldl (fun idx c => idx * 10 + (c.toNat - 48)) idx

/-- The line begins with `sc`, a flag and an index. -/
def NamesIndex (text : List Char) (flag : Char) (digits : List Char) : Prop :=
  IsFlag flag ∧ IsNumber digits ∧
    ∃ ws, words isSpace text = ['s', 'c'] :: ['-', flag] :: digits :: ws

/-- The flag or the index is missing, or is none. -/
def Malformed (text : List Char) : Prop :=
  ¬∃ flag digits, NamesIndex text flag digits

variable {n : ℕ} [NeZero n]

/-- The line deletes an index that is not in the map. -/
def DeletesAbsent (text : List Char) (map : ShortcutMap CommandPipe n) : Prop :=
  ∃ digits, NamesIndex text 'd' digits ∧ findInMap map (readIndex 0 digits) = none

/-- The line is about a shortcut exactly when its first word is `sc`. When it then is malformed
or deletes an absent index, the prompt comes back, nothing is stored and the map is what it
was. -/
structure FailsCleanly (choice : ℕ → List Char) (mem : List Char)
    (map : ShortcutMap CommandPipe n) : Prop where
  recognised : IsShortcut (cstring mem) ↔ CallsSc (cstring mem)
  clean : CallsSc (cstring mem) → Malformed (cstring mem) ∨ DeletesAbsent (cstring mem) map →
    ∃ r, createCmdPipe choice mem map = some r ∧ r.ret = false ∧ r.stored = none ∧ r.map = map

/-! ## What a line is read as -/

/-- Behind the first `-` there is a flag. -/
def HasFlag (text : List Char) : Prop :=
  ∃ b flag t, text = b ++ '-' :: flag :: t ∧ '-' ∉ b ∧ IsFlag flag

/-- Behind the first `-` there are a flag, any character, and an index up to a blank. -/
def ReadAs (mem : List Char) (flag : Char) (digits rest : List Char) : Prop :=
  IsFlag flag ∧ IsNumber digits ∧
    ∃ b sep c, mem = b ++ '-' :: flag :: sep :: (digits ++ c :: rest) ∧
      (∀ d ∈ b, d ≠ '-' ∧ d ≠ nul) ∧ (c = ' ' ∨ c = '\n')

/-- The first word is `sc` exactly when the line begins with `sc` and a blank. Then there is a
flag behind the first `-`. And an index is only read from a line that does name it, to delete
it when it is in the map, or if it is not, to keep what is stored there, with an answer that is
not too long. -/
structure ReadClearly (choice : ℕ → List Char) (mem : List Char)
    (map : ShortcutMap CommandPipe n) : Prop where
  begins : CallsSc (cstring mem) → ∃ c t, cstring mem = 's' :: 'c' :: c :: t
  apart : ∀ c t, cstring mem = 's' :: 'c' :: c :: t → isSpace c = true
  flagged : CallsSc (cstring mem) → HasFlag (cstring mem)
  deleted : CallsSc (cstring mem) → ∀ digits rest, ReadAs mem 'd' digits rest →
    ¬Malformed (cstring mem) ∧ findInMap map (readIndex 0 digits) ≠ none
  inserted : CallsSc (cstring mem) → ∀ digits rest, ReadAs mem 'i' digits rest →
    ¬Malformed (cstring mem) ∨ ∃ idx answer, intIndex (readIndex 0 digits) = some idx ∧
      findInMap map idx ≠ none ∧ scanChoice (choice idx) = some answer ∧
        answer ≠ ['y', 'e', 's']

/-! ## The words of a line -/

theorem isSpace_of_blank {c : Char} (h : c = ' ' ∨ c = '\n') : isSpace c = true := by
  rcases h with rfl | rfl
  · rfl
  · rfl

theorem isShortcut_iff {text : List Char} :
    IsShortcut text ↔ ∃ c t, text = 's' :: 'c' :: c :: t := by
  constructor
  · rintro ⟨hlen, htake⟩
    obtain ⟨a, b, c, t, rfl⟩ : ∃ a b c t, text = a :: b :: c :: t := by
      rcases text with _ | ⟨a, _ | ⟨b, _ | ⟨c, t⟩⟩⟩
      · simp at hlen
      · simp at hlen
      · simp at hlen
      · exact ⟨a, b, c, t, rfl⟩
    obtain ⟨rfl, rfl⟩ : a = 's' ∧ b = 'c' := by simpa using htake
    exact ⟨c, t, rfl⟩
  · rintro ⟨c, t, rfl⟩
    exact ⟨by simp, rfl⟩

/-- `sc` in front of one more character is a word when that is a blank. -/
theorem callsSc_cons_iff {c : Char} {t : List Char} :
    CallsSc ('s' :: 'c' :: c :: t) ↔ isSpace c = true := by
  have hsc : ∀ c ∈ ['s', 'c'], isSpace c = false :=
    List.forall_mem_cons.2 ⟨rfl, List.forall_mem_singleton.2 rfl⟩
  constructor
  · intro h
    obtain ⟨ws, hws⟩ := List.head?_eq_some_iff.1 h
    obtain ⟨b, t', htext, hb, -, ht', -⟩ := exists_of_words_eq_cons hws
    cases b with
    | nil =>
      obtain rfl : c :: t = t' := by simpa using htext
      exact ht' c rfl
    | cons d b =>
      obtain ⟨rfl, -⟩ := List.cons.inj htext
      exact absurd (hb 's' List.mem_cons_self) (by decide)
  · intro h
    have hwords := words_word_append (s := t) (by simp) hsc h
    rw [CallsSc, show 's' :: 'c' :: c :: t = ['s', 'c'] ++ c :: t from rfl, hwords]
    rfl

/-- A line that names an index has its flag behind its first `-`, and the index is the next
word. -/
theorem exists_of_namesIndex {text digits : List Char} {flag : Char}
    (h : NamesIndex text flag digits) : ∃ b t ws, text = b ++ '-' :: flag :: t ∧ '-' ∉ b ∧
      (∀ c ∈ t.head?, isSpace c = true) ∧ words isSpace t = digits :: ws := by
  obtain ⟨-, -, ws, hws⟩ := h
  obtain ⟨b₁, t₁, rfl, hb₁, -, -, hws₁⟩ := exists_of_words_eq_cons hws
  obtain ⟨b₂, t₂, rfl, hb₂, -, ht₂, hws₂⟩ := exists_of_words_eq_cons hws₁
  refine ⟨b₁ ++ (['s', 'c'] ++ b₂), t₂, ws, by simp, fun hmem => ?_, ht₂, hws₂⟩
  rcases List.mem_append.1 hmem with hmem | hmem
  · exact absurd (hb₁ _ hmem) (by decide)
  rcases List.mem_append.1 hmem with hmem | hmem
  · exact absurd hmem (by decide)
  · exact absurd (hb₂ _ hmem) (by decide)

theorem hasFlag_of_namesIndex {text digits : List Char} {flag : Char}
    (h : NamesIndex text flag digits) : HasFlag text := by
  obtain ⟨b, t, -, htext, hb, -⟩ := exists_of_namesIndex h
  exact ⟨b, flag, t, htext, hb, h.1⟩

/-- A line that names an index is read as naming this index. -/
theorem eq_of_readAs {mem digits digits' rest : List Char} {flag flag' : Char}
    (h : NamesIndex (cstring mem) flag digits) (hread : ReadAs mem flag' digits' rest) :
    flag' = flag ∧ digits' = digits := by
  obtain ⟨b, t, ws, htext, hb, ht, hws⟩ := exists_of_namesIndex h
  obtain ⟨hflag, ⟨hne, hdigits⟩, b', sep, c, rfl, hb', hc⟩ := hread
  have hnul : flag' ≠ nul := by
    rcases hflag with rfl | rfl
    · decide
    · decide
  have htext' : cstring (b' ++ '-' :: flag' :: sep :: (digits' ++ c :: rest)) =
      b' ++ '-' :: flag' :: cstring (sep :: (digits' ++ c :: rest)) := by
    rw [cstring, List.takeWhile_append_of_pos fun d hd => by simpa using (hb' d hd).2]
    rw [List.takeWhile_cons_of_pos (by decide), List.takeWhile_cons_of_pos (by simpa using hnul)]
    rfl
  rw [htext'] at htext
  have hbb : b' = b := by
    rw [← takeWhile_of_notMem (s := flag' :: _) fun hmem => (hb' _ hmem).1 rfl, htext,
      takeWhile_of_notMem hb]
  subst hbb
  have htail := List.append_cancel_left htext
  simp only [List.cons.injEq, true_and] at htail
  obtain ⟨rfl, rfl⟩ := htail
  refine ⟨rfl, ?_⟩
  by_cases hsep : sep = nul
  · rw [cstring, hsep, List.takeWhile_cons_of_neg (by decide)] at hws
    cases hws
  · have hdigits' : ∀ d ∈ digits', isSpace d = false :=
      fun d hd => isSpace_eq_false_of_isDigit (hdigits d hd)
    have hrest : cstring (sep :: (digits' ++ c :: rest)) =
        sep :: (digits' ++ c :: cstring rest) := by
      rw [cstring, List.takeWhile_cons_of_pos (by simpa using hsep),
        List.takeWhile_append_of_pos fun d hd => ?_, List.takeWhile_cons_of_pos ?_]
      · rfl
      · rcases hc with rfl | rfl
        · decide
        · decide
      · have hdigit := hdigits d hd
        rw [bne_iff_ne]
        rintro rfl
        exact absurd hdigit (by decide)
    rw [hrest] at hws ht
    rw [words_cons (ht sep rfl), words_word_append hne hdigits' (isSpace_of_blank hc)] at hws
    exact (List.cons.inj hws).1

/-! ## The scan -/

theorem not_blank_of_isDigit {c : Char} (h : c.isDigit = true) : ¬(c = ' ' ∨ c = '\n') := by
  rintro (rfl | rfl)
  · exact absurd h (by decide)
  · exact absurd h (by decide)

theorem scanIndex_digits {digits rest : List Char} {c : Char} (idx : ℕ)
    (hdigits : ∀ d ∈ digits, d.isDigit = true) (hc : c = ' ' ∨ c = '\n') :
    scanIndex (digits ++ c :: rest) idx = some (readIndex idx digits, rest) := by
  induction digits generalizing idx with
  | nil =>
    rw [List.nil_append, scanIndex, if_pos hc]
    rfl
  | cons d digits ih =>
    obtain ⟨hd, hdigits⟩ := List.forall_mem_cons.1 hdigits
    rw [List.cons_append, scanIndex, if_neg (not_blank_of_isDigit hd), if_pos hd, ih _ hdigits]
    rfl

theorem exists_of_scanIndex {mem rest : List Char} {idx₀ idx : ℕ}
    (h : scanIndex mem idx₀ = some (idx, rest)) : ∃ digits c, mem = digits ++ c :: rest ∧
      (∀ d ∈ digits, d.isDigit = true) ∧ (c = ' ' ∨ c = '\n') ∧ idx = readIndex idx₀ digits := by
  induction mem generalizing idx₀ with
  | nil => cases h
  | cons c mem ih =>
    rw [scanIndex] at h
    split_ifs at h with hc hd
    · cases h
      exact ⟨[], c, rfl, by simp, hc, rfl⟩
    · obtain ⟨digits, c', rfl, hdigits, hc', rfl⟩ := ih h
      exact ⟨c :: digits, c', rfl, List.forall_mem_cons.2 ⟨hd, hdigits⟩, hc', rfl⟩

/-- The memory begins as the line does. -/
theorem exists_mem_eq {mem b t : List Char} {flag : Char}
    (htext : cstring mem = b ++ '-' :: flag :: t) : ∃ t', mem = b ++ '-' :: flag :: t' := by
  have hsplit := List.takeWhile_append_dropWhile (p := fun c => c != nul) (l := mem)
  rw [show mem.takeWhile (fun c => c != nul) = b ++ '-' :: flag :: t from htext,
    List.append_assoc] at hsplit
  exact ⟨_, hsplit.symm⟩

theorem findIdx_of_notMem {b s : List Char} (hb : '-' ∉ b) :
    (b ++ '-' :: s).findIdx (fun c => c == '-') = b.length := by
  rw [List.findIdx_append, if_neg, List.findIdx_cons]
  · simp
  · rw [not_lt, List.findIdx_eq_length.2 fun c hc => ?_]
    simpa using ne_of_mem_of_not_mem hc hb

/-- The line from the first `-` on, when a character is behind it. -/
theorem exists_of_findIdx {text : List Char}
    (h : text.findIdx (fun c => c == '-') + 1 < text.length) :
    ∃ b flag t, text = b ++ '-' :: flag :: t ∧ '-' ∉ b := by
  have hlt : text.findIdx (fun c => c == '-') < text.length := by omega
  have hdash : text[text.findIdx fun c => c == '-'] = '-' := by
    simpa using List.findIdx_getElem (w := hlt)
  have hsplit := List.take_append_drop (text.findIdx fun c => c == '-') text
  rw [List.drop_eq_getElem_cons hlt, hdash, List.drop_eq_getElem_cons h] at hsplit
  refine ⟨_, _, _, hsplit.symm, fun hmem => ?_⟩
  obtain ⟨i, hi, hget⟩ := List.getElem_of_mem hmem
  rw [List.length_take] at hi
  rw [List.getElem_take] at hget
  have hlt' : i < text.findIdx fun c => c == '-' := by omega
  have hnot := List.not_of_lt_findIdx hlt'
  simp [hget] at hnot

/-- What is behind the first `-` decides what a line is. -/
theorem scLine_eq {mem b t t' : List Char} {flag : Char} (hmem : mem = b ++ '-' :: flag :: t')
    (htext : cstring mem = b ++ '-' :: flag :: t) (hb : '-' ∉ b) :
    scLine mem =
      if IsFlag flag then
        if (t'.drop 1).head?.any Char.isDigit then
          (scanIndex (t'.drop 1) 0).elim .notNumber fun r =>
            (intIndex r.1).elim .negative fun idx => .line flag idx r.2
        else .notNumber
      else .exits := by
  have hflag : mem.getD (b.length + 1) nul = flag := by
    rw [hmem, List.getD_eq_getElem?_getD, List.getElem?_append_right (by omega)]
    simp
  have hdrop : mem.drop (b.length + 1 + 2) = t'.drop 1 := by
    rw [hmem, List.drop_append, List.drop_eq_nil_of_le (by omega), Nat.add_assoc,
      Nat.add_sub_cancel_left]
    rfl
  unfold scLine
  simp only
  rw [htext, findIdx_of_notMem hb, if_pos (by simp), hflag, hdrop]
  unfold IsFlag
  cases scanIndex (t'.drop 1) 0 with
  | none => rfl
  | some r => rfl

theorem scLine_eq_exits_iff {mem : List Char} : scLine mem = .exits ↔ ¬HasFlag (cstring mem) := by
  constructor
  · rintro hexits ⟨b, flag, t, htext, hb, hflag⟩
    obtain ⟨t', hmem⟩ := exists_mem_eq htext
    rw [scLine_eq hmem htext hb, if_pos hflag] at hexits
    split_ifs at hexits
    cases hscan : scanIndex (t'.drop 1) 0 with
    | none =>
      rw [hscan] at hexits
      cases hexits
    | some r =>
      rw [hscan, Option.elim_some] at hexits
      cases hidx : intIndex r.1 with
      | none =>
        rw [hidx] at hexits
        cases hexits
      | some idx =>
        rw [hidx] at hexits
        cases hexits
  · intro hno
    by_cases hlt : (cstring mem).findIdx (fun c => c == '-') + 1 < (cstring mem).length
    · obtain ⟨b, flag, t, htext, hb⟩ := exists_of_findIdx hlt
      have hflag : ¬IsFlag flag := fun hflag => hno ⟨b, flag, t, htext, hb, hflag⟩
      obtain ⟨t', hmem⟩ := exists_mem_eq htext
      rw [scLine_eq hmem htext hb, if_neg hflag]
    · unfold scLine
      simp only [if_neg hlt]

/-- A line from which an index is read. -/
theorem scLine_of_readAs {mem digits rest : List Char} {flag : Char}
    (h : ReadAs mem flag digits rest) : scLine mem =
      (intIndex (readIndex 0 digits)).elim .negative fun idx => .line flag idx rest := by
  obtain ⟨hflag, ⟨hne, hdigits⟩, b, sep, c, hmem, hb, hc⟩ := h
  have hnul : flag ≠ nul := by
    rcases hflag with rfl | rfl
    · decide
    · decide
  have htext : cstring mem = b ++ '-' :: flag :: cstring (sep :: (digits ++ c :: rest)) := by
    rw [hmem, cstring, List.takeWhile_append_of_pos fun d hd => by simpa using (hb d hd).2]
    rw [List.takeWhile_cons_of_pos (by decide), List.takeWhile_cons_of_pos (by simpa using hnul)]
    rfl
  obtain ⟨d, digits', rfl⟩ := List.exists_cons_of_ne_nil hne
  rw [scLine_eq hmem htext fun hmem => (hb _ hmem).1 rfl, if_pos hflag, List.drop_one,
    List.tail_cons, scanIndex_digits 0 hdigits hc, if_pos (by simpa using hdigits d (by simp))]
  rfl

/-- The line goes on behind its flag with an index. -/
theorem exists_readAs (mem : List Char) (hexits : scLine mem ≠ .exits)
    (hnumber : scLine mem ≠ .notNumber) : ∃ flag digits rest, ReadAs mem flag digits rest := by
  have hhas : HasFlag (cstring mem) := not_not.1 fun hno => hexits (scLine_eq_exits_iff.2 hno)
  obtain ⟨b, flag, t, htext, hb, hflag⟩ := hhas
  obtain ⟨t', hmem⟩ := exists_mem_eq htext
  rw [scLine_eq hmem htext hb, if_pos hflag] at hnumber
  split_ifs at hnumber with hdigit
  · cases hscan : scanIndex (t'.drop 1) 0 with
    | none =>
      rw [hscan] at hnumber
      exact absurd rfl hnumber
    | some r =>
      obtain ⟨number, rest⟩ := r
      obtain ⟨digits, c, hdrop, hdigits, hc, -⟩ := exists_of_scanIndex hscan
      refine ⟨flag, digits, rest, hflag, ⟨?_, hdigits⟩, b, ?_⟩
      · rintro rfl
        rw [hdrop] at hdigit
        rcases hc with rfl | rfl
        · cases hdigit
        · cases hdigit
      · cases t' with
        | nil => simp at hdrop
        | cons sep s =>
          rw [List.drop_one, List.tail_cons] at hdrop
          refine ⟨sep, c, by rw [hmem, hdrop], fun d hd => ⟨ne_of_mem_of_not_mem hd hb, ?_⟩, hc⟩
          have hd' : d ∈ cstring mem := by
            rw [htext]
            exact List.mem_append_left _ hd
          simpa using List.mem_takeWhile_imp hd'
  · exact absurd rfl hnumber

theorem exists_readAs_of_scLine {mem rest : List Char} {flag : Char} {idx : ℕ}
    (h : scLine mem = .line flag idx rest) :
    ∃ digits, ReadAs mem flag digits rest ∧ intIndex (readIndex 0 digits) = some idx := by
  obtain ⟨flag', digits, rest', hread⟩ := exists_readAs mem (by simp [h]) (by simp [h])
  rw [scLine_of_readAs hread] at h
  cases hidx : intIndex (readIndex 0 digits) with
  | none =>
    rw [hidx] at h
    cases h
  | some idx' =>
    rw [hidx] at h
    cases h
    exact ⟨digits, hread, hidx⟩

/-- A line whose index is negative. -/
theorem exists_readAs_of_negative {mem : List Char} (h : scLine mem = .negative) :
    ∃ flag digits rest, ReadAs mem flag digits rest ∧ intIndex (readIndex 0 digits) = none := by
  obtain ⟨flag, digits, rest, hread⟩ := exists_readAs mem (by simp [h]) (by simp [h])
  rw [scLine_of_readAs hread] at h
  cases hidx : intIndex (readIndex 0 digits) with
  | none => exact ⟨flag, digits, rest, hread, hidx⟩
  | some idx =>
    rw [hidx] at h
    cases h

/-! ## The calls -/

variable {choice : ℕ → List Char} {mem rest : List Char} {map : ShortcutMap CommandPipe n}

/-- What a line about a shortcut does, from its beginning on. -/
def runScLine (choice : ℕ → List Char) (map : ShortcutMap CommandPipe n) :
    ScLine → Option (Created n)
  | .exits => none
  | .notNumber => some ⟨false, initCmdPipe, none, map⟩
  | .negative => none
  | .line flag idx rest =>
    if flag = 'i' then
      (replaceInMap choice map idx).bind fun prepared =>
        prepared.elim (some ⟨false, initCmdPipe, none, map⟩) fun map =>
          (createCmdPipe choice rest map).bind fun r =>
            (insertIntoMap r.map idx r.pipe).map fun map => ⟨false, initCmdPipe, some r.pipe, map⟩
    else (deleteFromMap map idx).map fun r => ⟨false, initCmdPipe, none, r.2⟩

theorem createCmdPipe_eq (h : IsShortcut (cstring mem)) :
    createCmdPipe choice mem map = runScLine choice map (scLine mem) := by
  rw [createCmdPipe, if_pos h]
  split
  · rename_i hline
    rw [hline]
    rfl
  · rename_i hline
    rw [hline]
    rfl
  · rename_i hline
    rw [hline]
    rfl
  · rename_i flag idx rest hline
    rw [hline, runScLine]
    split_ifs
    · refine congrArg (Option.bind _) (funext fun prepared => ?_)
      cases prepared with
      | none => rfl
      | some map => rfl
    · rfl

theorem createCmdPipe_of_exits (h : IsShortcut (cstring mem)) (hline : scLine mem = .exits) :
    createCmdPipe choice mem map = none := by
  rw [createCmdPipe_eq h, hline, runScLine]

theorem createCmdPipe_of_notNumber (h : IsShortcut (cstring mem))
    (hline : scLine mem = .notNumber) :
    createCmdPipe choice mem map = some ⟨false, initCmdPipe, none, map⟩ := by
  rw [createCmdPipe_eq h, hline, runScLine]

theorem createCmdPipe_of_negative (h : IsShortcut (cstring mem))
    (hline : scLine mem = .negative) : createCmdPipe choice mem map = none := by
  rw [createCmdPipe_eq h, hline, runScLine]

theorem createCmdPipe_of_delete {idx : ℕ} (h : IsShortcut (cstring mem))
    (hline : scLine mem = .line 'd' idx rest) : createCmdPipe choice mem map =
      (deleteFromMap map idx).map fun r => ⟨false, initCmdPipe, none, r.2⟩ := by
  rw [createCmdPipe_eq h, hline, runScLine, if_neg (by decide)]

/-- A line that inserts a shortcut : the map is made ready, unless the user keeps what is stored,
and the rest of the line is a line of its own. -/
theorem createCmdPipe_of_insert {idx : ℕ} (h : IsShortcut (cstring mem))
    (hline : scLine mem = .line 'i' idx rest) : createCmdPipe choice mem map =
      (replaceInMap choice map idx).bind fun prepared =>
        prepared.elim (some ⟨false, initCmdPipe, none, map⟩) fun map =>
          (createCmdPipe choice rest map).bind fun r =>
            (insertIntoMap r.map idx r.pipe).map fun map =>
              ⟨false, initCmdPipe, some r.pipe, map⟩ := by
  rw [createCmdPipe_eq h, hline, runScLine, if_pos rfl]

/-- The user keeps the pipeline that is stored. -/
theorem createCmdPipe_of_kept {idx : ℕ} {answer : List Char} (h : IsShortcut (cstring mem))
    (hline : scLine mem = .line 'i' idx rest) (hmap : findInMap map idx ≠ none)
    (hchoice : scanChoice (choice idx) = some answer) (hno : answer ≠ ['y', 'e', 's']) :
    createCmdPipe choice mem map = some ⟨false, initCmdPipe, none, map⟩ := by
  rw [createCmdPipe_of_insert h hline, replaceInMap, if_neg hmap, hchoice, Option.bind_some,
    if_neg hno]
  rfl

/-- The user is asked when there is a pipeline at the index. -/
theorem replaceInMap_cases {idx : ℕ} {prepared : Option (ShortcutMap CommandPipe n)}
    (h : replaceInMap choice map idx = some prepared) :
    findInMap map idx = none ∧ prepared = some map ∨
      findInMap map idx ≠ none ∧ ∃ answer, scanChoice (choice idx) = some answer ∧
        (answer = ['y', 'e', 's'] ∧ prepared = some (map.erase idx) ∨
          answer ≠ ['y', 'e', 's'] ∧ prepared = none) := by
  unfold replaceInMap at h
  split_ifs at h with habsent
  · exact .inl ⟨habsent, (Option.some.inj h).symm⟩
  · obtain ⟨answer, hanswer, h⟩ := Option.bind_eq_some_iff.1 h
    refine .inr ⟨habsent, answer, hanswer, ?_⟩
    split_ifs at h with hyes
    · obtain ⟨pipe, hpipe⟩ := Option.ne_none_iff_exists'.1 habsent
      rw [deleteFromMap_eq hpipe] at h
      exact .inl ⟨hyes, (Option.some.inj h).symm⟩
    · exact .inr ⟨hyes, (Option.some.inj h).symm⟩

/-- A line that would insert a shortcut, and does not : the user keeps what is stored. -/
theorem kept_of_insert {idx : ℕ} {r : Created n} (h : IsShortcut (cstring mem))
    (hline : scLine mem = .line 'i' idx rest) (hr : createCmdPipe choice mem map = some r)
    (hstored : r.stored = none) : findInMap map idx ≠ none ∧
      ∃ answer, scanChoice (choice idx) = some answer ∧ answer ≠ ['y', 'e', 's'] := by
  rw [createCmdPipe_of_insert h hline] at hr
  obtain ⟨prepared, hprepared, hr⟩ := Option.bind_eq_some_iff.1 hr
  cases prepared with
  | none =>
    obtain ⟨-, hsome⟩ | ⟨hmap, answer, hanswer, ⟨-, hsome⟩ | ⟨hno, -⟩⟩ :=
      replaceInMap_cases hprepared
    · cases hsome
    · cases hsome
    · exact ⟨hmap, answer, hanswer, hno⟩
  | some map' =>
    obtain ⟨r', -, hr⟩ := Option.bind_eq_some_iff.1 hr
    obtain ⟨map'', -, rfl⟩ := Option.map_eq_some_iff.1 hr
    cases hstored

/-- A map that is ready for a pipeline has none at its index. -/
theorem findInMap_of_replaceInMap {idx : ℕ} {map' : ShortcutMap CommandPipe n}
    (h : replaceInMap choice map idx = some (some map')) : findInMap map' idx = none := by
  obtain ⟨hmap, hsome⟩ | ⟨-, -, -, ⟨-, hsome⟩ | ⟨-, hsome⟩⟩ := replaceInMap_cases h
  · cases hsome
    exact hmap
  · cases hsome
    rw [findInMap_erase, if_pos rfl]
  · cases hsome

theorem deleteFromMap_eq_none {idx : ℕ} (h : findInMap map idx = none) :
    deleteFromMap map idx = none :=
  if_pos h

/-- A deletion does not leave the map as it was : it is there, or the process ends. -/
theorem map_ne_of_readAs {digits : List Char} {r : Created n} (h : IsShortcut (cstring mem))
    (hread : ReadAs mem 'd' digits rest) (hr : createCmdPipe choice mem map = some r) :
    r.map ≠ map := by
  have hline := scLine_of_readAs hread
  cases hidx : intIndex (readIndex 0 digits) with
  | none =>
    rw [hidx] at hline
    rw [createCmdPipe_of_negative h hline] at hr
    cases hr
  | some idx =>
    rw [hidx] at hline
    rw [createCmdPipe_of_delete h hline] at hr
    cases hmap : findInMap map idx with
    | none =>
      rw [deleteFromMap_eq_none hmap] at hr
      cases hr
    | some pipe =>
      rw [deleteFromMap_eq hmap] at hr
      cases hr
      intro hsame
      have herase := findInMap_erase map idx idx
      rw [if_pos rfl, show map.erase idx = map from hsame, hmap] at herase
      cases herase

/-! ## Clean failures -/

theorem readClearly_of_failsCleanly (h : FailsCleanly choice mem map) :
    ReadClearly choice mem map where
  begins hcall := isShortcut_iff.1 (h.recognised.2 hcall)
  apart c t htext := by
    have hcall := h.recognised.1 (isShortcut_iff.2 ⟨c, t, htext⟩)
    rw [htext] at hcall
    exact callsSc_cons_iff.1 hcall
  flagged hcall := by
    by_contra hno
    have hmal : Malformed (cstring mem) := by
      rintro ⟨flag, digits, hnames⟩
      exact hno (hasFlag_of_namesIndex hnames)
    obtain ⟨r, hr, -⟩ := h.clean hcall (.inl hmal)
    rw [createCmdPipe_of_exits (h.recognised.2 hcall) (scLine_eq_exits_iff.2 hno)] at hr
    cases hr
  deleted hcall digits rest hread := by
    have hsc := h.recognised.2 hcall
    have hgood : ¬(Malformed (cstring mem) ∨ DeletesAbsent (cstring mem) map) := fun hbad => by
      obtain ⟨r, hr, -, -, hsame⟩ := h.clean hcall hbad
      exact map_ne_of_readAs hsc hread hr hsame
    rw [not_or] at hgood
    refine ⟨hgood.1, fun hmap => hgood.2 ?_⟩
    obtain ⟨flag, digits', hnames⟩ := not_not.1 hgood.1
    obtain ⟨rfl, rfl⟩ := eq_of_readAs hnames hread
    exact ⟨digits, hnames, hmap⟩
  inserted hcall digits rest hread := by
    refine or_iff_not_imp_left.2 fun hmal => ?_
    have hsc := h.recognised.2 hcall
    obtain ⟨r, hr, -, hstored, -⟩ := h.clean hcall (.inl (not_not.1 hmal))
    have hline := scLine_of_readAs hread
    cases hidx : intIndex (readIndex 0 digits) with
    | none =>
      rw [hidx] at hline
      rw [createCmdPipe_of_negative hsc hline] at hr
      cases hr
    | some idx =>
      rw [hidx] at hline
      obtain ⟨hmap, answer, hanswer, hno⟩ := kept_of_insert hsc hline hr hstored
      exact ⟨idx, answer, rfl, hmap, hanswer, hno⟩

/-- A wrong line from which an index is read keeps the pipeline at the index. -/
theorem ReadClearly.kept (h : ReadClearly choice mem map) (hcall : CallsSc (cstring mem))
    {flag : Char} {digits : List Char} (hread : ReadAs mem flag digits rest)
    (hbad : Malformed (cstring mem) ∨ DeletesAbsent (cstring mem) map) :
    ∃ idx answer, intIndex (readIndex 0 digits) = some idx ∧ flag = 'i' ∧
      findInMap map idx ≠ none ∧ scanChoice (choice idx) = some answer ∧
        answer ≠ ['y', 'e', 's'] := by
  rcases hread.1 with rfl | rfl
  · rcases h.inserted hcall digits rest hread with hgood | ⟨idx, answer, hidx, hkept⟩
    · -- a line that names an index to insert it is neither malformed nor a deletion
      rcases hbad with hmal | ⟨digits', hnames, -⟩
      · exact absurd hmal hgood
      · exact absurd (eq_of_readAs hnames hread).1 (by decide)
    · exact ⟨idx, answer, hidx, rfl, hkept⟩
  · obtain ⟨hgood, hmap⟩ := h.deleted hcall digits rest hread
    rcases hbad with hmal | ⟨digits', hnames, habsent⟩
    · exact absurd hmal hgood
    · obtain ⟨-, rfl⟩ := eq_of_readAs hnames hread
      exact absurd habsent hmap

theorem failsCleanly_of_readClearly (h : ReadClearly choice mem map) :
    FailsCleanly choice mem map where
  recognised := by
    refine ⟨fun hsc => ?_, fun hcall => isShortcut_iff.2 (h.begins hcall)⟩
    obtain ⟨c, t, htext⟩ := isShortcut_iff.1 hsc
    rw [htext]
    exact callsSc_cons_iff.2 (h.apart c t htext)
  clean hcall hbad := by
    have hsc := isShortcut_iff.2 (h.begins hcall)
    cases hline : scLine mem with
    | exits => exact absurd (h.flagged hcall) (scLine_eq_exits_iff.1 hline)
    | notNumber => exact ⟨_, createCmdPipe_of_notNumber hsc hline, rfl, rfl, rfl⟩
    | negative =>
      obtain ⟨flag, digits, rest, hread, hidx⟩ := exists_readAs_of_negative hline
      obtain ⟨idx, answer, hsome, -⟩ := h.kept hcall hread hbad
      rw [hidx] at hsome
      cases hsome
    | line flag idx rest =>
      obtain ⟨digits, hread, hidx⟩ := exists_readAs_of_scLine hline
      obtain ⟨idx', answer, hsome, rfl, hmap, hanswer, hno⟩ := h.kept hcall hread hbad
      rw [hidx] at hsome
      cases hsome
      exact ⟨_, createCmdPipe_of_kept hsc hline hmap hanswer hno, rfl, rfl, rfl⟩

/-- A flag, and no index behind it. -/
def badIndex : List Char :=
  "sc -d x\n".toList

/-- Delete an index of an empty map. -/
def absentIndex : List Char :=
  "sc -d 7\n".toList

end NetProg.Shell
