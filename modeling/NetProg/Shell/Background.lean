import Mathlib.Data.List.DropRight
import NetProg.Shell.Arguments
import NetProg.Shell.Shortcuts

/-!
# Commands in the background

A line with `&` behind its last command is for the background. `createCmdPipe` looks for the
marker at the end of every field between bars, and cuts it off together with the blanks
behind it, but only if there are some. `Marks` is what it should do : `is_background` says
whether the line ends with the marker, and the commands are those of the line without it.
`marks_iff` says for which lines it does, those that store a shortcut among them.
-/

namespace NetProg.Shell

open Lib
open Cluster (nul isSpace)

/-! ## The marker of a line -/

/-- What may stand behind the marker. -/
def isBlank (c : Char) : Bool :=
  c == ' ' || c == '\n'

/-- The text without the blanks at its end. -/
def trimmed (text : List Char) : List Char :=
  text.rdropWhile isBlank

/-- The last character that is no blank is `&`. -/
def Marked (text : List Char) : Prop :=
  (trimmed text).getLast? = some '&'

instance (text : List Char) : Decidable (Marked text) :=
  inferInstanceAs (Decidable (_ = _))

/-- The text without its marker. -/
def unmarked (text : List Char) : List Char :=
  if Marked text then (trimmed text).dropLast ++ text.rtakeWhile isBlank else text

/-- A command without the blanks at the end of its text. -/
def ParsedCommand.trim (cmd : ParsedCommand) : ParsedCommand :=
  { cmd with token := trimmed cmd.token }

/-- The loop over the fields, where `cut` looks for a marker. -/
def commandFields (cut : List Char → Bool × List Char) :
    ℕ → List (List Char) → CommandPipe → Option CommandPipe
  | _, [], pipe => some pipe
  | pipeCount, field :: fields, pipe =>
    if field = [] then commandFields cut (pipeCount + 1) fields pipe
    else
      let r := cut field
      (insertBlock pipeCount r.2 { pipe with isBackground := pipe.isBackground || r.1 }).bind
        fun pipe => commandFields cut 1 fields pipe

/-- The pipeline of a text in which `&` has no meaning. -/
def plainPipe (text : List Char) : Option CommandPipe :=
  commandFields (fun field => (false, field)) 1 (text.splitOn '|') initCmdPipe

/-- The pipeline is for the background if the text is marked, and has the commands of `bare`. -/
structure Marks (text : List Char) (bare pipe : CommandPipe) : Prop where
  background : pipe.isBackground = true ↔ Marked text
  commands : pipe.cmds.toList.map ParsedCommand.trim = bare.cmds.toList.map ParsedCommand.trim

/-- The line asks for a pipeline : it is no shortcut line, or it stores one, which is written in
the line. -/
def AsksForPipeline {n : ℕ} [NeZero n] (choice : ℕ → List Char) (mem : List Char)
    (map : ShortcutMap CommandPipe n) : Prop :=
  IsShortcut (cstring mem) → ∃ (idx : ℕ) (rest : List Char) (map' : ShortcutMap CommandPipe n),
    scLine mem = .line 'i' idx rest ∧ nul ∉ mem.take (mem.length - rest.length) ∧
      replaceInMap choice map idx = some (some map')

/-! ## Where markers go wrong -/

/-- The fields of a text that a bar follows. -/
def innerFields (text : List Char) : List (List Char) :=
  (text.splitOn '|').dropLast

/-- The field at the end of a text. -/
def lastField (text : List Char) : List Char :=
  (text.splitOn '|').getLastD []

/-- The counter behind some fields. -/
def barsBehind (fields : List (List Char)) : ℕ :=
  fields.foldl (fun n field => if field = [] then n + 1 else 1) 1

/-- The end of a field belongs to a command. Behind `n` bars, what is behind comma number `n` is
left out. -/
def EndsInCommand (g : ℕ × List Char) : Prop :=
  g.1 = 1 ∨ (g.2.splitOn ',').length ≤ g.1

instance (g : ℕ × List Char) : Decidable (EndsInCommand g) :=
  inferInstanceAs (Decidable (_ ∨ _))

def EndsInBlank (text : List Char) : Prop :=
  ∃ c ∈ text.getLast?, isBlank c = true

instance (text : List Char) : Decidable (EndsInBlank text) :=
  Option.decidableExistsMem text.getLast?

/-- A field that a bar follows has no marker, unless the line has one too and the marker of the
field is not cut off a command. The marker of the line has a blank behind it, unless it is in
no command. -/
structure MarkersRight (text : List Char) : Prop where
  inner : ∀ g ∈ fieldGroups 1 (innerFields text), Marked g.2 →
    Marked text ∧ (EndsInCommand g → ¬EndsInBlank g.2)
  last : Marked text → EndsInCommand (barsBehind (innerFields text), lastField text) →
    EndsInBlank (lastField text)

instance (text : List Char) : Decidable (MarkersRight text) :=
  decidable_of_iff ((∀ g ∈ fieldGroups 1 (innerFields text), Marked g.2 →
      Marked text ∧ (EndsInCommand g → ¬EndsInBlank g.2)) ∧
    (Marked text → EndsInCommand (barsBehind (innerFields text), lastField text) →
      EndsInBlank (lastField text))) ⟨fun h => ⟨h.1, h.2⟩, fun h => ⟨h.inner, h.last⟩⟩

/-! ## Blanks -/

section Blanks

variable {s f b t : List Char}

theorem exists_trimmed (s : List Char) : ∃ b, (∀ c ∈ b, isBlank c = true) ∧ s = trimmed s ++ b :=
  ⟨s.rtakeWhile isBlank, fun _ hc => List.mem_rtakeWhile_imp hc,
    (List.rdropWhile_append_rtakeWhile ..).symm⟩

theorem trimmed_append_of_forall (hb : ∀ c ∈ b, isBlank c = true) : trimmed (s ++ b) = trimmed s := by
  induction b using List.reverseRecOn with
  | nil => rw [List.append_nil]
  | append_singleton b c ih =>
    obtain ⟨hb, hc⟩ := List.forall_mem_append.1 hb
    rw [trimmed, ← List.append_assoc,
      List.rdropWhile_concat_pos _ _ _ (hc c (List.mem_singleton_self c))]
    exact ih hb

theorem trimmed_amp (f : List Char) : trimmed (f ++ ['&']) = f ++ ['&'] :=
  List.rdropWhile_concat_neg _ _ _ (by decide)

/-- A marked text, around its marker. -/
theorem trimmed_marked (hb : ∀ c ∈ b, isBlank c = true) : trimmed (f ++ '&' :: b) = f ++ ['&'] := by
  rw [← List.singleton_append, ← List.append_assoc, trimmed_append_of_forall hb, trimmed_amp]

theorem marked_append (hb : ∀ c ∈ b, isBlank c = true) : Marked (f ++ '&' :: b) := by
  rw [Marked, trimmed_marked hb, List.getLast?_concat]

theorem exists_of_marked (h : Marked s) :
    ∃ f b, (∀ c ∈ b, isBlank c = true) ∧ s = f ++ '&' :: b := by
  obtain ⟨b, hb, hs⟩ := exists_trimmed s
  obtain ⟨f, hf⟩ := List.getLast?_eq_some_iff.1 h
  exact ⟨f, b, hb, by rw [hs, hf, List.append_assoc, List.singleton_append]⟩

/-- What is in front of a text makes no difference when it is not marked itself. -/
theorem marked_append_iff (hf : ¬Marked f) : Marked (f ++ s) ↔ Marked s := by
  constructor
  · intro h
    obtain ⟨x, b, hb, heq⟩ := exists_of_marked h
    obtain ⟨t, rfl, hs⟩ | ⟨t, hx, hs⟩ := List.append_eq_append_iff.1 heq
    · rw [hs]
      exact marked_append hb
    · cases t with
      | nil =>
        rw [← hs.trans (List.nil_append s)]
        exact marked_append (f := []) hb
      | cons c t =>
        obtain ⟨rfl, rfl⟩ := List.cons.inj hs
        rw [hx] at hf
        exact absurd (marked_append (List.forall_mem_append.1 hb).1) hf
  · intro h
    obtain ⟨x, b, hb, rfl⟩ := exists_of_marked h
    rw [← List.append_assoc]
    exact marked_append hb

theorem ne_nil_of_marked (h : Marked s) : s ≠ [] := by
  rintro rfl
  cases h

theorem length_trimmed_le (s : List Char) : (trimmed s).length ≤ s.length :=
  (List.rdropWhile_prefix ..).length_le

theorem unmarked_append (hb : ∀ c ∈ b, isBlank c = true) : unmarked (f ++ '&' :: b) = f ++ b := by
  rw [unmarked, if_pos (marked_append hb), trimmed_marked hb, List.dropLast_concat]
  congr 1
  have hsplit := List.rdropWhile_append_rtakeWhile (p := isBlank) (l := f ++ '&' :: b)
  rw [show (f ++ '&' :: b).rdropWhile isBlank = _ from trimmed_marked hb, List.append_assoc] at hsplit
  exact (List.cons.inj (List.append_cancel_left hsplit)).2

end Blanks

/-! ## The search for the marker -/

section Search

variable {s f b temp : List Char} {c x : Char}

theorem isBlank_iff : isBlank c = true ↔ c = ' ' ∨ c = '\n' := by
  simp [isBlank]

/-- The search goes back over the blanks to the last character that is none. -/
theorem scanBack_blanks (hb : ∀ c ∈ b, isBlank c = true) (hx : ¬isBlank x = true)
    (hc : isBlank c = true) {m : ℕ} (hm : m ≤ b.length) :
    scanBack (f ++ x :: b) (f.length + 1 + m) c = (x, f.length) := by
  induction m generalizing c with
  | zero =>
    have hget : (f ++ x :: b).getD f.length nul = x := by
      simp [List.getD_eq_getElem?_getD]
    rw [Nat.add_zero, scanBack, if_pos (isBlank_iff.1 hc), hget]
    cases f.length with
    | zero => rfl
    | succ k => rw [scanBack, if_neg fun h => hx (isBlank_iff.2 h)]
  | succ m ih =>
    have hget : (f ++ x :: b).getD (f.length + 1 + m) nul = b[m] := by
      rw [List.getD_eq_getElem?_getD, List.getElem?_append_right (by omega),
        show f.length + 1 + m - f.length = m + 1 by omega, List.getElem?_cons_succ,
        List.getElem?_eq_getElem hm, Option.getD_some]
    rw [← Nat.add_assoc, scanBack, if_pos (isBlank_iff.1 hc), hget]
    exact ih (hb _ (List.getElem_mem _)) (Nat.le_of_succ_le hm)

/-- Blanks alone. -/
theorem isBlank_scanBack (hs : ∀ c ∈ s, isBlank c = true) (hc : isBlank c = true) {k : ℕ}
    (hk : k ≤ s.length) : isBlank (scanBack s k c).1 = true := by
  induction k generalizing c with
  | zero => exact hc
  | succ k ih =>
    rw [scanBack, if_pos (isBlank_iff.1 hc)]
    refine ih ?_ (Nat.le_of_succ_le hk)
    rw [List.getD_eq_getElem?_getD, List.getElem?_eq_getElem hk]
    exact hs _ (List.getElem_mem _)

/-- What the search finds in a text with a character that is no blank. -/
theorem scanBack_eq (hb : ∀ c ∈ b, isBlank c = true) (hx : ¬isBlank x = true) :
    scanBack (f ++ x :: b) (f ++ x :: b).length
        ((f ++ x :: b).getD ((f ++ x :: b).length - 1) nul) =
      (x, if b = [] then f.length + 1 else f.length) := by
  rcases List.eq_nil_or_concat' b with rfl | ⟨b, c, rfl⟩
  · have hlen : (f ++ [x]).length = f.length + 1 := by simp
    have hget : (f ++ [x]).getD f.length nul = x := by
      simp [List.getD_eq_getElem?_getD]
    rw [hlen, Nat.add_sub_cancel, hget, scanBack, if_neg fun h => hx (isBlank_iff.2 h), if_pos rfl]
  · have hlen : (f ++ x :: (b ++ [c])).length = f.length + 1 + (b ++ [c]).length := by
      rw [List.length_append, List.length_cons]
      omega
    have hget : (f ++ x :: (b ++ [c])).getD ((f ++ x :: (b ++ [c])).length - 1) nul = c := by
      rw [List.getD_eq_getElem?_getD, ← List.getLast?_eq_getElem?,
        show f ++ x :: (b ++ [c]) = (f ++ x :: b) ++ [c] by simp, List.getLast?_concat]
      rfl
    rw [hget, if_neg (by simp), hlen]
    exact scanBack_blanks hb hx (hb c (by simp)) le_rfl

theorem cutAmp_of_marked (hb : ∀ c ∈ b, isBlank c = true) :
    cutAmp (f ++ '&' :: b) = (true, if b = [] then f ++ ['&'] else f) := by
  rw [cutAmp, scanBack_eq hb (by decide)]
  simp only [if_true]
  split_ifs with hnil
  · rw [hnil, List.take_of_length_le (by simp)]
  · rw [List.take_left]

theorem cutAmp_of_not_marked (h : ¬Marked s) : cutAmp s = (false, s) := by
  have hne : (scanBack s s.length (s.getD (s.length - 1) nul)).1 ≠ '&' := by
    obtain ⟨b, hb, hs⟩ := exists_trimmed s
    rcases List.eq_nil_or_concat' (trimmed s) with hnil | ⟨f, x, hf⟩
    · rw [hnil, List.nil_append] at hs
      rcases List.eq_nil_or_concat' s with rfl | ⟨s', c, rfl⟩
      · decide
      · have hblanks : ∀ c' ∈ s' ++ [c], isBlank c' = true := hs ▸ hb
        intro heq
        have hlast : (s' ++ [c]).getD ((s' ++ [c]).length - 1) nul = c := by
          simp [List.getD_eq_getElem?_getD]
        have := isBlank_scanBack hblanks (hblanks c (by simp)) (le_refl (s' ++ [c]).length)
        rw [hlast] at heq
        rw [heq] at this
        exact absurd this (by decide)
    · have hx : ¬isBlank x = true := by
        have hlast := List.rdropWhile_last_not isBlank s (by
          rw [show s.rdropWhile isBlank = _ from hf]
          simp)
        simpa [show s.rdropWhile isBlank = _ from hf] using hlast
      rw [hf, List.append_assoc, List.singleton_append] at hs
      rw [hs, scanBack_eq hb hx]
      rintro rfl
      exact h (by rw [Marked, hf, List.getLast?_concat])
  rw [cutAmp, if_neg hne]

end Search

/-! ## Blocks -/

/-- The kind of a block behind `n` bars. -/
def kindOf : ℕ → PipeCount
  | 1 => .single
  | 2 => .double
  | _ => .triple

/-- The texts of the commands behind some bars. -/
def blockTokens (g : ℕ × List Char) : List (List Char) :=
  if g.1 = 1 then [g.2] else (g.2.splitOn ',').take g.1

/-- There are at most three bars, enough commands behind them, and these are within the limits. -/
def BlockOk (g : ℕ × List Char) : Prop :=
  (1 ≤ g.1 ∧ g.1 ≤ 3) ∧ (g.1 = 1 ∨ g.1 ≤ (g.2.splitOn ',').length) ∧
    ∀ token ∈ blockTokens g, WithinLimits token

instance (g : ℕ × List Char) : Decidable (BlockOk g) :=
  inferInstanceAs (Decidable (_ ∧ _))

/-- The commands behind some bars. -/
def groupCommands (g : ℕ × List Char) : List ParsedCommand :=
  List.zipWith described ((List.range g.1).map (kindOf g.1).command) (blockTokens g)

section Blocks

variable {pipe : CommandPipe} {xs : List ParsedCommand}

/-- One command for each shape, when there are enough texts and they are within the limits. -/
theorem mapM_parseCmd {shapes : List Command} {strs : List (List Char)}
    (hlen : shapes.length ≤ strs.length) :
    ((shapes.zip strs).mapM fun r => parseCmd r.1 r.2) =
      if ∀ token ∈ strs.take shapes.length, WithinLimits token then
        some (List.zipWith described shapes (strs.take shapes.length))
      else none := by
  induction shapes generalizing strs with
  | nil => simp
  | cons shape shapes ih =>
    cases strs with
    | nil => simp at hlen
    | cons str strs =>
      rw [List.zip_cons_cons, List.mapM_cons, parseCmd_eq, ih (by simpa using hlen)]
      simp only [List.length_cons, List.take_succ_cons, List.forall_mem_cons, List.zipWith_cons_cons]
      by_cases hstr : WithinLimits str
      · simp only [hstr, if_true, true_and]
        split_ifs <;> rfl
      · simp only [hstr, if_false, false_and]
        rfl

theorem initCmdPipe_holds : initCmdPipe.cmds.Holds [] :=
  SList.holds_empty

/-- A block of a kind, from texts of which there are enough. -/
theorem insertAlternatives_eq (k : PipeCount) (strs : List (List Char)) (pipe : CommandPipe) :
    insertAlternatives k strs pipe =
      if k.size ≤ strs.length ∧ ∀ token ∈ strs.take k.size, WithinLimits token then
        (List.zipWith described ((List.range k.size).map k.command) (strs.take k.size)).foldlM
          insertCmdInPipe pipe
      else none := by
  have hshapes : ((List.range k.size).map k.command).length = k.size := by simp
  unfold insertAlternatives
  by_cases hlen : k.size ≤ strs.length
  · have hmap := mapM_parseCmd (hshapes ▸ hlen)
    rw [hshapes] at hmap
    rw [if_neg (not_lt.2 hlen), hmap]
    simp only [hlen, true_and]
    split_ifs <;> rfl
  · rw [if_pos (not_le.1 hlen), if_neg fun h => hlen h.1]

/-- A block is made of the commands behind some bars. -/
theorem insertBlock_eq (g : ℕ × List Char) (pipe : CommandPipe) : insertBlock g.1 g.2 pipe =
    if BlockOk g then (groupCommands g).foldlM insertCmdInPipe pipe else none := by
  obtain ⟨n, s⟩ := g
  obtain rfl | rfl | rfl | rfl | hn : n = 0 ∨ n = 1 ∨ n = 2 ∨ n = 3 ∨ 4 ≤ n := by omega
  · rw [if_neg fun h => Nat.not_succ_le_zero 0 h.1.1]
    rfl
  · change insertAlternatives .single [s] pipe = _
    rw [insertAlternatives_eq]
    exact if_congr (by simp [BlockOk, blockTokens, PipeCount.size]) rfl rfl
  · change insertAlternatives .double (s.splitOn ',') pipe = _
    rw [insertAlternatives_eq]
    exact if_congr (by simp [BlockOk, blockTokens, PipeCount.size]) rfl rfl
  · change insertAlternatives .triple (s.splitOn ',') pipe = _
    rw [insertAlternatives_eq]
    exact if_congr (by simp [BlockOk, blockTokens, PipeCount.size]) rfl rfl
  · rw [if_neg fun h => absurd h.1.2 (by simp only; omega)]
    obtain ⟨n, rfl⟩ := Nat.exists_eq_add_of_le hn
    rw [Nat.add_comm]
    rfl

theorem length_groupCommands {g : ℕ × List Char} (h : BlockOk g) :
    (groupCommands g).length = g.1 := by
  obtain ⟨n, s⟩ := g
  obtain ⟨-, hlen, -⟩ := h
  simp only [groupCommands, blockTokens, List.length_zipWith, List.length_map, List.length_range]
  split_ifs with hn
  · rw [hn]
    rfl
  · rw [List.length_take, min_eq_left (hlen.resolve_left hn), min_self]

/-- The loop over the fields, when all blocks can be made. -/
theorem commandFields_spec (cut : List Char → Bool × List Char) {n : ℕ}
    {fields : List (List Char)} (hok : ∀ g ∈ fieldGroups n fields, BlockOk (g.1, (cut g.2).2))
    (hpipe : pipe.cmds.Holds xs) :
    ∃ pipe', commandFields cut n fields pipe = some pipe' ∧
      pipe'.cmds.Holds (xs ++
        (fieldGroups n fields).flatMap fun g => groupCommands (g.1, (cut g.2).2)) ∧
      pipe'.isBackground =
        (pipe.isBackground || (fieldGroups n fields).any fun g => (cut g.2).1) := by
  induction fields generalizing n pipe xs with
  | nil => exact ⟨pipe, rfl, by simpa [fieldGroups] using hpipe, by simp [fieldGroups]⟩
  | cons field fields ih =>
    rw [commandFields]
    rw [fieldGroups] at hok ⊢
    split_ifs at hok ⊢ with hfield
    · exact ih hok hpipe
    · obtain ⟨hblock, hrest⟩ := List.forall_mem_cons.1 hok
      have hsame : ({ pipe with isBackground := pipe.isBackground || (cut field).1 } :
          CommandPipe).cmds.Holds xs := hpipe
      obtain ⟨pipe₁, hinsert, hholds, hback⟩ :=
        exists_insertCmds hsame (groupCommands (n, (cut field).2))
      obtain ⟨pipe', hfields, hholds', hback'⟩ := ih hrest hholds
      refine ⟨pipe', ?_, ?_, ?_⟩
      · have hblock' := insertBlock_eq (n, (cut field).2)
          { pipe with isBackground := pipe.isBackground || (cut field).1 }
        rw [if_pos hblock, hinsert] at hblock'
        simp only [hblock', Option.bind_some, hfields]
      · rwa [List.flatMap_cons, ← List.append_assoc]
      · rw [hback', hback, List.any_cons, Bool.or_assoc]

/-- The loop gets through only if all blocks can be made. -/
theorem blockOk_of_commandFields (cut : List Char → Bool × List Char) {n : ℕ}
    {fields : List (List Char)} {pipe' : CommandPipe}
    (h : commandFields cut n fields pipe = some pipe') :
    ∀ g ∈ fieldGroups n fields, BlockOk (g.1, (cut g.2).2) := by
  induction fields generalizing n pipe with
  | nil => exact fun g hg => absurd hg List.not_mem_nil
  | cons field fields ih =>
    rw [commandFields] at h
    rw [fieldGroups]
    split_ifs at h ⊢ with hfield
    · exact ih h
    · obtain ⟨pipe₁, hblock, hrest⟩ := Option.bind_eq_some_iff.1 h
      refine List.forall_mem_cons.2 ⟨?_, ih hrest⟩
      by_contra hnot
      have hnone := insertBlock_eq (n, (cut field).2)
        { pipe with isBackground := pipe.isBackground || (cut field).1 }
      rw [if_neg hnot] at hnone
      exact absurd (hnone.symm.trans hblock) (by simp)

theorem parseFields_eq (n : ℕ) (fields : List (List Char)) (pipe : CommandPipe) :
    parseFields n fields pipe = commandFields cutAmp n fields pipe := by
  induction fields generalizing n pipe with
  | nil => rfl
  | cons field fields ih =>
    simp only [parseFields, commandFields, ih]

end Blocks

/-! ## The end of a field -/

section FieldEnd

variable {n : ℕ} {f s s' b b' w : List Char}

/-- What is added to a text without a delimiter is added to the last field. -/
theorem exists_splitOn (d : Char) (f : List Char) : ∃ front x, ∀ w, d ∉ w →
    (f ++ w).splitOn d = front ++ [x ++ w] := by
  induction f with
  | nil => exact ⟨[], [], fun w hw => List.splitOn_eq_singleton hw⟩
  | cons c f ih =>
    obtain ⟨front, x, ih⟩ := ih
    by_cases hc : c = d
    · subst hc
      refine ⟨[] :: front, x, fun w hw => ?_⟩
      rw [List.cons_append, List.splitOn_cons_eq_if_modifyHead, if_pos (by simp), ih w hw,
        List.cons_append]
    · cases front with
      | nil =>
        refine ⟨[], c :: x, fun w hw => ?_⟩
        rw [List.cons_append, List.splitOn_cons_eq_if_modifyHead, if_neg (by simpa using hc),
          ih w hw]
        rfl
      | cons a front =>
        refine ⟨(c :: a) :: front, x, fun w hw => ?_⟩
        rw [List.cons_append, List.splitOn_cons_eq_if_modifyHead, if_neg (by simpa using hc),
          ih w hw]
        rfl

/-- What is added to a field without a comma is added to its last command, or left out. -/
theorem exists_blockTokens (n : ℕ) (f : List Char) : ∃ front x, ∀ w, ',' ∉ w →
    ((f ++ w).splitOn ',').length = (f.splitOn ',').length ∧
      blockTokens (n, f ++ w) = front ++ if EndsInCommand (n, f) then [x ++ w] else [] := by
  obtain ⟨front, x, hsplit⟩ := exists_splitOn ',' f
  have hlen : (f.splitOn ',').length = front.length + 1 := by
    have := hsplit [] List.not_mem_nil
    rw [List.append_nil, List.append_nil] at this
    rw [this, List.length_append, List.length_singleton]
  have hlen' : ∀ w, ',' ∉ w → ((f ++ w).splitOn ',').length = (f.splitOn ',').length :=
    fun w hw => by rw [hsplit w hw, List.length_append, List.length_singleton, hlen]
  by_cases hn : n = 1
  · refine ⟨[], f, fun w hw => ⟨hlen' w hw, ?_⟩⟩
    have hends : EndsInCommand (n, f) := .inl hn
    rw [blockTokens, if_pos hn, if_pos hends, List.nil_append]
  · refine ⟨front.take n, x, fun w hw => ⟨hlen' w hw, ?_⟩⟩
    rw [blockTokens, if_neg hn]
    simp only [hsplit w hw]
    split_ifs with hends
    · have hle : front.length + 1 ≤ n := hlen ▸ hends.resolve_left hn
      rw [List.take_of_length_le (by simpa using hle), List.take_of_length_le (by omega)]
    · have hlt : n < front.length + 1 := by
        rw [← hlen]
        exact not_le.1 fun h => hends (.inr h)
      rw [List.take_append_of_le_length (by omega), List.append_nil]

theorem comma_notMem_blanks (hb : ∀ c ∈ b, isBlank c = true) : ',' ∉ b :=
  fun h => absurd (hb ',' h) (by decide)

theorem comma_notMem_marker (hb : ∀ c ∈ b, isBlank c = true) : ',' ∉ '&' :: b :=
  List.not_mem_cons_of_ne_of_not_mem (by decide) (comma_notMem_blanks hb)

theorem endsInCommand_append (hw : ',' ∉ w) :
    EndsInCommand (n, f ++ w) ↔ EndsInCommand (n, f) := by
  obtain ⟨front, x, h⟩ := exists_blockTokens n f
  simp only [EndsInCommand, (h w hw).1]

theorem endsInBlank_marked (hb : ∀ c ∈ b, isBlank c = true) :
    EndsInBlank (f ++ '&' :: b) ↔ b ≠ [] := by
  rcases List.eq_nil_or_concat' b with rfl | ⟨b, c, rfl⟩
  · simp [EndsInBlank, isBlank]
  · rw [EndsInBlank, show f ++ '&' :: (b ++ [c]) = (f ++ '&' :: b) ++ [c] by simp,
      List.getLast?_concat]
    simpa using hb c (by simp)

/-- Blanks at the end of a field make no difference. -/
theorem map_trimmed_blanks (hb : ∀ c ∈ b, isBlank c = true) (hb' : ∀ c ∈ b', isBlank c = true) :
    (blockTokens (n, f ++ b)).map trimmed = (blockTokens (n, f ++ b')).map trimmed := by
  obtain ⟨front, x, h⟩ := exists_blockTokens n f
  rw [(h b (comma_notMem_blanks hb)).2, (h b' (comma_notMem_blanks hb')).2]
  split_ifs
  · simp [trimmed_append_of_forall hb, trimmed_append_of_forall hb']
  · rfl

/-- A marker at the end of a field makes one, if it is in a command. -/
theorem map_trimmed_marker_iff (hb : ∀ c ∈ b, isBlank c = true)
    (hb' : ∀ c ∈ b', isBlank c = true) :
    (blockTokens (n, f ++ '&' :: b)).map trimmed = (blockTokens (n, f ++ b')).map trimmed ↔
      ¬EndsInCommand (n, f) := by
  obtain ⟨front, x, h⟩ := exists_blockTokens n f
  rw [(h _ (comma_notMem_marker hb)).2, (h b' (comma_notMem_blanks hb')).2]
  split_ifs with hends
  · refine iff_of_false (fun heq => ?_) (not_not.2 hends)
    simp only [List.map_append, List.map_singleton, List.append_cancel_left_eq, List.cons.injEq,
      and_true] at heq
    rw [trimmed_marked hb, trimmed_append_of_forall hb'] at heq
    have hlen := congrArg List.length heq
    have := length_trimmed_le x
    rw [List.length_append, List.length_singleton] at hlen
    omega
  · exact iff_of_true rfl hends

/-- What the search cuts off a field is only blanks, unless it is a marker with blanks behind it
in a command. -/
theorem map_trimmed_cutAmp_iff :
    (blockTokens (n, (cutAmp s).2)).map trimmed = (blockTokens (n, s)).map trimmed ↔
      (Marked s → EndsInCommand (n, s) → ¬EndsInBlank s) := by
  by_cases hmarked : Marked s
  · obtain ⟨f, b, hb, rfl⟩ := exists_of_marked hmarked
    rw [cutAmp_of_marked hb, endsInCommand_append (comma_notMem_marker hb), endsInBlank_marked hb]
    by_cases hnil : b = []
    · subst hnil
      exact iff_of_true rfl fun _ _ h => h rfl
    · have hnone : ∀ c ∈ ([] : List Char), isBlank c = true := by simp
      have := map_trimmed_marker_iff (n := n) (f := f) hb hnone
      rw [List.append_nil] at this
      simp only [hnil, if_false]
      rw [eq_comm, this]
      exact ⟨fun hends _ hin => absurd hin hends, fun h hin => h hmarked hin hnil⟩
  · rw [cutAmp_of_not_marked hmarked]
    exact iff_of_true rfl fun h => absurd h hmarked

/-- The marker of a line is cut off, if a blank is behind it, or it is in no command. -/
theorem map_trimmed_unmarked_iff (hmarked : Marked s) :
    (blockTokens (n, (cutAmp s).2)).map trimmed = (blockTokens (n, unmarked s)).map trimmed ↔
      (EndsInCommand (n, s) → EndsInBlank s) := by
  obtain ⟨f, b, hb, rfl⟩ := exists_of_marked hmarked
  rw [cutAmp_of_marked hb, unmarked_append hb, endsInCommand_append (comma_notMem_marker hb),
    endsInBlank_marked hb]
  by_cases hnil : b = []
  · subst hnil
    rw [if_pos rfl, map_trimmed_marker_iff hb (by simp)]
    exact ⟨fun hends hin => absurd hin hends, fun h hin => h hin rfl⟩
  · have := map_trimmed_blanks (n := n) (f := f) (b := []) (by simp) hb
    rw [List.append_nil] at this
    rw [if_neg hnil]
    exact iff_of_true this fun _ => hnil

theorem length_splitOn_cutAmp (s : List Char) :
    ((cutAmp s).2.splitOn ',').length = (s.splitOn ',').length := by
  by_cases hmarked : Marked s
  · obtain ⟨f, b, hb, rfl⟩ := exists_of_marked hmarked
    obtain ⟨front, x, h⟩ := exists_blockTokens 1 f
    rw [cutAmp_of_marked hb]
    split_ifs with hnil
    · rw [hnil]
    · exact ((h _ (comma_notMem_marker hb)).1).symm
  · rw [cutAmp_of_not_marked hmarked]

theorem length_splitOn_unmarked (s : List Char) :
    ((unmarked s).splitOn ',').length = (s.splitOn ',').length := by
  by_cases hmarked : Marked s
  · obtain ⟨f, b, hb, rfl⟩ := exists_of_marked hmarked
    obtain ⟨front, x, h⟩ := exists_blockTokens 1 f
    rw [unmarked_append hb, (h b (comma_notMem_blanks hb)).1, (h _ (comma_notMem_marker hb)).1]
  · rw [unmarked, if_neg hmarked]

theorem words_trimmed (s : List Char) : words isSpace (trimmed s) = words isSpace s := by
  obtain ⟨b, hb, hs⟩ := exists_trimmed s
  have hspace : ∀ c ∈ b, isSpace c = true := fun c hc => by
    rcases isBlank_iff.1 (hb c hc) with rfl | rfl <;> rfl
  nth_rewrite 2 [hs]
  exact (words_append_of_forall hspace).symm

theorem withinLimits_trimmed : WithinLimits (trimmed s) ↔ WithinLimits s := by
  rw [WithinLimits, WithinLimits, words_trimmed]

theorem described_trim (shape : Command) (s : List Char) :
    (described shape s).trim = described shape (trimmed s) := by
  simp only [described, ParsedCommand.trim, words_trimmed]

/-- Fields with the same commands up to blanks. -/
theorem blockOk_congr (hlen : (s.splitOn ',').length = (s'.splitOn ',').length)
    (h : (blockTokens (n, s)).map trimmed = (blockTokens (n, s')).map trimmed) :
    BlockOk (n, s) ↔ BlockOk (n, s') := by
  have hlimits : ∀ g, (∀ token ∈ blockTokens g, WithinLimits token) ↔
      ∀ token ∈ (blockTokens g).map trimmed, WithinLimits token := fun g => by
    simp only [List.forall_mem_map, withinLimits_trimmed]
  simp only [BlockOk, hlen, hlimits, h]

theorem map_trim_groupCommands (g : ℕ × List Char) :
    (groupCommands g).map ParsedCommand.trim = List.zipWith described
      ((List.range g.1).map (kindOf g.1).command) ((blockTokens g).map trimmed) := by
  simp only [groupCommands, List.map_zipWith, described_trim, List.zipWith_map_right]

theorem map_token_groupCommands (g : ℕ × List Char) :
    (groupCommands g).map ParsedCommand.token = blockTokens g := by
  have hlen : (blockTokens g).length ≤ g.1 := by
    rw [blockTokens]
    split_ifs with hn
    · rw [hn]
      rfl
    · exact List.length_take_le _ _
  rw [groupCommands, List.map_zipWith, ← List.map_uncurry_zip_eq_zipWith]
  exact List.map_snd_zip (by simpa using hlen)

/-- Two blocks have the same commands when these have the same texts up to blanks. -/
theorem map_trim_groupCommands_iff :
    (groupCommands (n, s)).map ParsedCommand.trim = (groupCommands (n, s')).map ParsedCommand.trim ↔
      (blockTokens (n, s)).map trimmed = (blockTokens (n, s')).map trimmed := by
  refine ⟨fun heq => ?_, fun heq => by simp only [map_trim_groupCommands, heq]⟩
  have htoken := congrArg (List.map ParsedCommand.token) heq
  simp only [List.map_map] at htoken
  rw [← map_token_groupCommands, ← map_token_groupCommands, List.map_map, List.map_map]
  exact htoken

end FieldEnd

/-! ## The last field -/

section LastField

variable {text : List Char}

theorem splitOn_eq (text : List Char) : text.splitOn '|' = innerFields text ++ [lastField text] := by
  have hne := List.splitOn_ne_nil '|' text
  rw [innerFields, lastField, List.getLastD_eq_getLast?, List.getLast?_eq_some_getLast hne,
    Option.getD_some, List.dropLast_append_getLast]

/-- The last field is the end of the text. -/
theorem exists_eq_append_lastField (text : List Char) : ∃ front, text = front ++ lastField text := by
  have htext : ['|'].intercalate (text.splitOn '|') = text := List.intercalate_splitOn '|'
  rw [splitOn_eq] at htext
  cases hinner : innerFields text with
  | nil =>
    rw [hinner, List.nil_append, List.intercalate_singleton] at htext
    exact ⟨[], htext.symm⟩
  | cons field fields =>
    rw [hinner, List.cons_append, intercalate_bar, List.flatMap_append] at htext
    exact ⟨field ++ (fields.flatMap fun field => '|' :: field) ++ ['|'], htext.symm.trans (by simp)⟩

/-- The marker of a text is in its last field. -/
theorem lastField_of_marked {f b : List Char} (hb : ∀ c ∈ b, isBlank c = true) :
    ∃ x, lastField (f ++ '&' :: b) = x ++ '&' :: b ∧
      (f ++ b).splitOn '|' = innerFields (f ++ '&' :: b) ++ [x ++ b] := by
  have hbar : '|' ∉ b := fun h => absurd (hb '|' h) (by decide)
  obtain ⟨front, x, h⟩ := exists_splitOn '|' f
  have hmarked := h ('&' :: b) (List.not_mem_cons_of_ne_of_not_mem (by decide) hbar)
  refine ⟨x, ?_, ?_⟩
  · rw [lastField, hmarked, List.getLastD_concat]
  · rw [h b hbar, innerFields, hmarked, List.dropLast_concat]

theorem marked_lastField : Marked (lastField text) ↔ Marked text := by
  constructor
  · intro h
    obtain ⟨front, htext⟩ := exists_eq_append_lastField text
    obtain ⟨f, b, hb, hlast⟩ := exists_of_marked h
    rw [htext, hlast, ← List.append_assoc]
    exact marked_append hb
  · intro h
    obtain ⟨f, b, hb, rfl⟩ := exists_of_marked h
    obtain ⟨x, hlast, -⟩ := lastField_of_marked (f := f) hb
    rw [hlast]
    exact marked_append hb

theorem splitOn_unmarked (text : List Char) :
    (unmarked text).splitOn '|' = innerFields text ++ [unmarked (lastField text)] := by
  by_cases hmarked : Marked text
  · obtain ⟨f, b, hb, rfl⟩ := exists_of_marked hmarked
    obtain ⟨x, hlast, hsplit⟩ := lastField_of_marked (f := f) hb
    rw [hlast, unmarked_append hb, unmarked_append hb, hsplit]
  · rw [unmarked, if_neg hmarked, unmarked, if_neg (mt marked_lastField.1 hmarked), splitOn_eq]

theorem fieldGroups_append (n : ℕ) (fields fields' : List (List Char)) :
    fieldGroups n (fields ++ fields') = fieldGroups n fields ++
      fieldGroups (fields.foldl (fun n field => if field = [] then n + 1 else 1) n) fields' := by
  induction fields generalizing n with
  | nil => rfl
  | cons field fields ih =>
    rw [List.cons_append, fieldGroups, fieldGroups, List.foldl_cons]
    split_ifs
    · exact ih _
    · rw [ih, List.cons_append]

theorem barsBehind_pos (fields : List (List Char)) : 0 < barsBehind fields := by
  induction fields using List.reverseRecOn with
  | nil => exact Nat.one_pos
  | append_singleton fields field ih =>
    rw [barsBehind, List.foldl_concat]
    split_ifs
    · exact Nat.succ_pos _
    · exact Nat.one_pos

theorem cutAmp_fst (s : List Char) : (cutAmp s).1 = true ↔ Marked s := by
  by_cases hmarked : Marked s
  · obtain ⟨f, b, hb, rfl⟩ := exists_of_marked hmarked
    rw [cutAmp_of_marked hb]
    exact iff_of_true rfl hmarked
  · rw [cutAmp_of_not_marked hmarked]
    exact iff_of_false (by simp) hmarked

end LastField

/-! ## Lists of blocks -/

/-- Two lists of blocks that are as long block by block are the same only if the blocks are. -/
theorem eq_of_flatMap_eq {α β : Type*} {f g : α → List β} {l : List α} {r r' : List β}
    (hlen : ∀ x ∈ l, (f x).length = (g x).length) (h : l.flatMap f ++ r = l.flatMap g ++ r') :
    (∀ x ∈ l, f x = g x) ∧ r = r' := by
  induction l with
  | nil => exact ⟨fun x hx => absurd hx List.not_mem_nil, h⟩
  | cons x l ih =>
    obtain ⟨hx, hl⟩ := List.forall_mem_cons.1 hlen
    rw [List.flatMap_cons, List.flatMap_cons, List.append_assoc, List.append_assoc] at h
    obtain ⟨heq, hrest⟩ := List.append_inj h hx
    obtain ⟨hall, hr⟩ := ih hl hrest
    exact ⟨List.forall_mem_cons.2 ⟨heq, hall⟩, hr⟩

section Text

variable {text : List Char} {bare : CommandPipe}

/-- The groups of a text : those that a bar follows, and the last field. -/
theorem fieldGroups_text (last : List Char) :
    fieldGroups 1 (innerFields text ++ [last]) = fieldGroups 1 (innerFields text) ++
      if last = [] then [] else [(barsBehind (innerFields text), last)] := by
  rw [fieldGroups_append]
  rfl

/-- The pipeline of a text without markers has the commands of its groups. -/
theorem plainPipe_spec (hbare : plainPipe (unmarked text) = some bare) :
    (∀ g ∈ fieldGroups 1 (innerFields text ++ [unmarked (lastField text)]), BlockOk g) ∧
      bare.cmds.toList =
        (fieldGroups 1 (innerFields text ++ [unmarked (lastField text)])).flatMap groupCommands := by
  rw [plainPipe, splitOn_unmarked] at hbare
  have hok := blockOk_of_commandFields _ hbare
  obtain ⟨pipe, hpipe, hholds, -⟩ :=
    commandFields_spec _ hok initCmdPipe_holds
  obtain rfl := Option.some.inj (hbare.symm.trans hpipe)
  exact ⟨hok, hholds.toList_eq⟩

theorem markersRight_of_marks (hbare : plainPipe (unmarked text) = some bare) {pipe : CommandPipe}
    (hparse : parseFields 1 (text.splitOn '|') initCmdPipe = some pipe)
    (hmarks : Marks text bare pipe) : MarkersRight text := by
  obtain ⟨hok₀, hlist₀⟩ := plainPipe_spec hbare
  rw [parseFields_eq, splitOn_eq] at hparse
  have hok := blockOk_of_commandFields _ hparse
  obtain ⟨pipe', hpipe', hholds, hback⟩ :=
    commandFields_spec _ hok initCmdPipe_holds
  obtain rfl := Option.some.inj (hparse.symm.trans hpipe')
  have hcmds := hmarks.commands
  have hmarked := hback ▸ hmarks.background
  rw [hholds.toList_eq, hlist₀, List.nil_append] at hcmds
  rw [fieldGroups_text] at hok hok₀ hcmds hmarked
  rw [fieldGroups_text] at hcmds
  simp only [List.flatMap_append, List.map_append, List.map_flatMap] at hcmds
  have hlen : ∀ g ∈ fieldGroups 1 (innerFields text),
      ((groupCommands (g.1, (cutAmp g.2).2)).map ParsedCommand.trim).length =
        ((groupCommands g).map ParsedCommand.trim).length := fun g hg => by
    rw [List.length_map, List.length_map, length_groupCommands (hok g (List.mem_append_left _ hg)),
      length_groupCommands (hok₀ g (List.mem_append_left _ hg))]
  obtain ⟨hinner, hlast⟩ := eq_of_flatMap_eq hlen hcmds
  refine ⟨fun g hg hg' => ⟨?_, ?_⟩, fun htext => ?_⟩
  · refine hmarked.1 (Bool.or_eq_true_iff.2 (.inr (List.any_eq_true.2 ⟨g, ?_, ?_⟩)))
    · exact List.mem_append_left _ hg
    · exact (cutAmp_fst _).2 hg'
  · exact map_trimmed_cutAmp_iff.1 (map_trim_groupCommands_iff.1 (hinner g hg)) hg'
  · have hmarkedLast := marked_lastField.2 htext
    have hne := ne_nil_of_marked hmarkedLast
    rw [if_neg hne] at hlast hok
    rw [List.flatMap_singleton] at hlast
    by_cases hnil : unmarked (lastField text) = []
    · -- a field with the marker alone is a command, and without it is none
      rw [if_pos hnil, List.flatMap_nil] at hlast
      have hlength :=
        length_groupCommands (hok _ (List.mem_append_right _ (List.mem_singleton_self _)))
      rw [List.map_eq_nil_iff.1 hlast] at hlength
      exact absurd hlength.symm (barsBehind_pos _).ne'
    · rw [if_neg hnil, List.flatMap_singleton] at hlast
      exact (map_trimmed_unmarked_iff hmarkedLast).1 (map_trim_groupCommands_iff.1 hlast)

/-- The last groups of a text and of the text without its marker have the same commands. -/
theorem last_of_markersRight (hright : MarkersRight text)
    (hlast : lastField text ≠ []) : unmarked (lastField text) ≠ [] ∧
      (blockTokens (barsBehind (innerFields text), (cutAmp (lastField text)).2)).map trimmed =
        (blockTokens (barsBehind (innerFields text), unmarked (lastField text))).map trimmed := by
  by_cases hmarked : Marked (lastField text)
  · have hblank := hright.last (marked_lastField.1 hmarked)
    refine ⟨fun hnil => ?_, (map_trimmed_unmarked_iff hmarked).2 hblank⟩
    obtain ⟨f, b, hb, hf⟩ := exists_of_marked hmarked
    rw [hf, unmarked_append hb, List.append_eq_nil_iff] at hnil
    obtain ⟨rfl, rfl⟩ := hnil
    rw [hf] at hblank
    have hbars := barsBehind_pos (innerFields text)
    exact (endsInBlank_marked hb).1 (hblank (.inr hbars)) rfl
  · rw [cutAmp_of_not_marked hmarked, unmarked, if_neg hmarked]
    exact ⟨hlast, rfl⟩

/-- The blocks of the text are within the limits when those without the marker are. -/
theorem blockOk_of_markersRight (hbare : plainPipe (unmarked text) = some bare)
    (hright : MarkersRight text) :
    ∀ g ∈ fieldGroups 1 (innerFields text ++ [lastField text]), BlockOk (g.1, (cutAmp g.2).2) := by
  obtain ⟨hok₀, -⟩ := plainPipe_spec hbare
  rw [fieldGroups_text] at hok₀ ⊢
  refine List.forall_mem_append.2 ⟨fun g hg => ?_, fun g hg => ?_⟩
  · have hsame := map_trimmed_cutAmp_iff.2 fun hmarked => (hright.inner g hg hmarked).2
    exact (blockOk_congr (length_splitOn_cutAmp g.2) hsame).2
      (hok₀ g (List.mem_append_left _ hg))
  · split_ifs at hg with hnil
    · exact absurd hg List.not_mem_nil
    · obtain rfl := List.mem_singleton.1 hg
      obtain ⟨hne, htokens⟩ := last_of_markersRight hright hnil
      refine (blockOk_congr ?_ htokens).2 (hok₀ _ (List.mem_append_right _ ?_))
      · rw [length_splitOn_cutAmp, length_splitOn_unmarked]
      · rw [if_neg hne]
        exact List.mem_singleton_self _

/-- A marker is found when the text has one. -/
theorem any_cutAmp_iff (hright : MarkersRight text) :
    ((fieldGroups 1 (innerFields text ++ [lastField text])).any fun g => (cutAmp g.2).1) = true ↔
      Marked text := by
  rw [List.any_eq_true, fieldGroups_text]
  constructor
  · rintro ⟨g, hg, hamp⟩
    have hmarked := (cutAmp_fst g.2).1 hamp
    rcases List.mem_append.1 hg with hg | hg
    · exact (hright.inner g hg hmarked).1
    · split_ifs at hg
      · exact absurd hg List.not_mem_nil
      · obtain rfl := List.mem_singleton.1 hg
        exact marked_lastField.1 hmarked
  · intro hmarked
    have hlast := marked_lastField.2 hmarked
    refine ⟨(barsBehind (innerFields text), lastField text), ?_, (cutAmp_fst _).2 hlast⟩
    rw [if_neg (ne_nil_of_marked hlast)]
    exact List.mem_append_right _ (List.mem_singleton_self _)

/-- The commands of the text are those without the marker, up to blanks. -/
theorem trim_of_markersRight (hright : MarkersRight text) :
    ((fieldGroups 1 (innerFields text ++ [lastField text])).flatMap
        fun g => groupCommands (g.1, (cutAmp g.2).2)).map ParsedCommand.trim =
      ((fieldGroups 1 (innerFields text ++ [unmarked (lastField text)])).flatMap
        groupCommands).map ParsedCommand.trim := by
  rw [fieldGroups_text, fieldGroups_text]
  simp only [List.flatMap_append, List.map_append, List.map_flatMap]
  congr 1
  · refine List.flatMap_congr fun g hg => map_trim_groupCommands_iff.2 ?_
    exact map_trimmed_cutAmp_iff.2 fun hmarked => (hright.inner g hg hmarked).2
  · by_cases hnil : lastField text = []
    · have hbare : unmarked (lastField text) = [] := by
        rw [hnil]
        rfl
      rw [if_pos hnil, if_pos hbare]
      rfl
    · obtain ⟨hne, htokens⟩ := last_of_markersRight hright hnil
      rw [if_neg hnil, if_neg hne, List.flatMap_singleton, List.flatMap_singleton]
      exact map_trim_groupCommands_iff.2 htokens

theorem exists_marks (hbare : plainPipe (unmarked text) = some bare) (hright : MarkersRight text) :
    ∃ pipe, parseFields 1 (text.splitOn '|') initCmdPipe = some pipe ∧ Marks text bare pipe := by
  obtain ⟨-, hlist₀⟩ := plainPipe_spec hbare
  have hok := blockOk_of_markersRight hbare hright
  obtain ⟨pipe, hparse, hholds, hback⟩ := commandFields_spec cutAmp hok initCmdPipe_holds
  refine ⟨pipe, ?_, ?_, ?_⟩
  · rw [parseFields_eq, splitOn_eq, hparse]
  · rw [hback, show initCmdPipe.isBackground = false from rfl, Bool.false_or]
    exact any_cutAmp_iff hright
  · rw [hholds.toList_eq, hlist₀, List.nil_append]
    exact trim_of_markersRight hright

end Text

/-! ## Lines -/

/-- A text that ends with a digit and a blank. -/
theorem not_marked_of_digit {front : List Char} {d c : Char} (hd : d.isDigit = true)
    (hc : c = ' ' ∨ c = '\n') : ¬Marked (front ++ [d] ++ [c]) := by
  have hblank : ∀ x ∈ [c], isBlank x = true := List.forall_mem_singleton.2 (isBlank_iff.2 hc)
  have hdigit : ¬isBlank d = true := fun h => not_blank_of_isDigit hd (isBlank_iff.1 h)
  rw [Marked, trimmed_append_of_forall hblank, trimmed, List.rdropWhile_concat_neg _ _ _ hdigit,
    List.getLast?_concat, Option.some.injEq]
  rintro rfl
  exact absurd hd (by decide)

variable {n : ℕ} [NeZero n] {choice : ℕ → List Char} {mem rest : List Char}
  {map : ShortcutMap CommandPipe n} {bare : CommandPipe} {r : Created n}

/-- The pipeline of a shortcut is at the end of its line. -/
theorem marked_cstring_iff {flag : Char} {idx : ℕ} (hline : scLine mem = .line flag idx rest)
    (hnul : nul ∉ mem.take (mem.length - rest.length)) :
    Marked (cstring mem) ↔ Marked (cstring rest) := by
  obtain ⟨digits, ⟨-, ⟨hne, hdigits⟩, b, sep, c, hmem, -, hc⟩, -⟩ := exists_readAs_of_scLine hline
  obtain ⟨digits, d, rfl⟩ := (List.eq_nil_or_concat' digits).resolve_left hne
  have hsplit : mem = (b ++ '-' :: flag :: sep :: digits) ++ [d] ++ [c] ++ rest := by
    rw [hmem]
    simp
  have htake : mem.take (mem.length - rest.length) =
      (b ++ '-' :: flag :: sep :: digits) ++ [d] ++ [c] := by
    rw [hsplit, List.length_append, Nat.add_sub_cancel, List.take_left]
  rw [htake] at hnul
  rw [hsplit, cstring, List.takeWhile_append_of_pos (Lib.forall_ne_of_notMem hnul)]
  exact marked_append_iff (not_marked_of_digit (hdigits d (by simp)) hc)

/-- A shortcut line that is read as a pipeline has a command. -/
theorem cmds_ne_nil {text : List Char} (h : IsShortcut text)
    (hbare : plainPipe (unmarked text) = some bare) : bare.cmds.toList ≠ [] := by
  obtain ⟨c, t, htext⟩ := isShortcut_iff.1 h
  obtain ⟨u, hu⟩ : ∃ u, unmarked text = 's' :: u := by
    by_cases hmarked : Marked text
    · obtain ⟨f, b, hb, hf⟩ := exists_of_marked hmarked
      rw [hf, unmarked_append hb]
      cases f with
      | nil => exact absurd (List.cons.inj (htext.symm.trans hf)).1 (by decide)
      | cons x f =>
        obtain rfl := (List.cons.inj (htext.symm.trans hf)).1
        exact ⟨f ++ b, rfl⟩
    · exact ⟨'c' :: c :: t, by rw [unmarked, if_neg hmarked, htext]⟩
  obtain ⟨field, fields, hfields⟩ := List.exists_cons_of_ne_nil (List.splitOn_ne_nil '|' u)
  have hsplit : ('s' :: u).splitOn '|' = ('s' :: field) :: fields := by
    rw [List.splitOn_cons_eq_if_modifyHead, hfields]
    rfl
  obtain ⟨-, hlist⟩ := plainPipe_spec hbare
  rw [← splitOn_unmarked, hu, hsplit, fieldGroups, if_neg (List.cons_ne_nil _ _),
    List.flatMap_cons] at hlist
  rw [hlist]
  exact List.cons_ne_nil _ _

/-- A call that gives the pipeline of its text. -/
theorem markersRight_of_created (hbare : plainPipe (unmarked (cstring mem)) = some bare)
    (hr : createCmdPipe choice mem map = some r) (hmarks : Marks (cstring mem) bare r.pipe) :
    ¬IsShortcut (cstring mem) ∧ MarkersRight (cstring mem) := by
  have hline : ¬IsShortcut (cstring mem) := fun h => by
    have hcmds := hmarks.commands
    rw [(created_of_isShortcut h hr).2.1, initCmdPipe_holds.toList_eq] at hcmds
    exact cmds_ne_nil h hbare (List.map_eq_nil_iff.1 hcmds.symm)
  rw [createCmdPipe_of_not_isShortcut hline] at hr
  obtain ⟨pipe, hparse, rfl⟩ := Option.map_eq_some_iff.1 hr
  exact ⟨hline, markersRight_of_marks hbare hparse hmarks⟩

theorem exists_created (choice : ℕ → List Char) (map : ShortcutMap CommandPipe n)
    (hbare : plainPipe (unmarked (cstring mem)) = some bare)
    (hline : ¬IsShortcut (cstring mem)) (hright : MarkersRight (cstring mem)) :
    ∃ pipe, createCmdPipe choice mem map = some ⟨true, pipe, none, map⟩ ∧
      Marks (cstring mem) bare pipe := by
  obtain ⟨pipe, hparse, hmarks⟩ := exists_marks hbare hright
  refine ⟨pipe, ?_, hmarks⟩
  rw [createCmdPipe_of_not_isShortcut hline, hparse]
  rfl

/-- A line that asks for a pipeline, whose commands, without the marker, are within the limits :
the pipeline is for the background if and only if the line ends with `&`, and has the commands
of the line without it, if and only if its text is no shortcut line itself and its markers are
where they should be. -/
theorem marks_iff (hasks : AsksForPipeline choice mem map)
    (hbare : plainPipe (unmarked (pipelineText mem)) = some bare) :
    (∃ r pipe, createCmdPipe choice mem map = some r ∧ r.accepted = some pipe ∧
        Marks (cstring mem) bare pipe) ↔
      ¬IsShortcut (pipelineText mem) ∧ MarkersRight (pipelineText mem) := by
  by_cases h : IsShortcut (cstring mem)
  · obtain ⟨idx, rest, map', hline, hnul, hmap⟩ := hasks h
    have htext : pipelineText mem = cstring rest := by
      rw [pipelineText, if_pos h, hline]
    have hmarked := marked_cstring_iff hline hnul
    rw [htext] at hbare ⊢
    rw [createCmdPipe_of_insert h hline, hmap, Option.bind_some, Option.elim_some]
    constructor
    · rintro ⟨r, pipe, hr, haccepted, hmarks⟩
      obtain ⟨r', hr', hr⟩ := Option.bind_eq_some_iff.1 hr
      obtain ⟨map'', -, rfl⟩ := Option.map_eq_some_iff.1 hr
      obtain rfl := Option.some.inj haccepted
      exact markersRight_of_created hbare hr' ⟨hmarks.background.trans hmarked, hmarks.commands⟩
    · rintro ⟨hrest, hright⟩
      obtain ⟨pipe, hpipe, hmarks⟩ := exists_created choice map' hbare hrest hright
      obtain ⟨map'', hinsert⟩ : ∃ map'', insertIntoMap map' idx pipe = some map'' :=
        ⟨_, dif_pos (findInMap_of_replaceInMap hmap)⟩
      refine ⟨⟨false, initCmdPipe, some pipe, map''⟩, pipe, ?_, rfl,
        hmarks.background.trans hmarked.symm, hmarks.commands⟩
      simp only [hpipe, Option.bind_some, hinsert, Option.map_some]
  · have htext : pipelineText mem = cstring mem := if_neg h
    rw [htext] at hbare ⊢
    constructor
    · rintro ⟨r, pipe, hr, haccepted, hmarks⟩
      have hpipe : r.pipe = pipe := by
        rw [createCmdPipe_of_not_isShortcut h] at hr
        obtain ⟨_, -, rfl⟩ := Option.map_eq_some_iff.1 hr
        exact Option.some.inj haccepted
      exact markersRight_of_created hbare hr (hpipe ▸ hmarks)
    · rintro ⟨-, hright⟩
      obtain ⟨pipe, hpipe, hmarks⟩ := exists_created choice map hbare h hright
      exact ⟨_, pipe, hpipe, rfl, hmarks⟩

/-- A shortcut for the background. -/
def storedLine : List Char :=
  "sc -i 3 ls | wc &\n".toList

theorem marks_storedLine : ∃ bare, plainPipe (unmarked (pipelineText storedLine)) = some bare ∧
    ∃ (r : Created 19) (pipe : CommandPipe),
      createCmdPipe (fun _ => []) storedLine (initMap 19) = some r ∧ r.accepted = some pipe ∧
        Marks (cstring storedLine) bare pipe := by
  have hasks : AsksForPipeline (fun _ => []) storedLine (initMap 19) :=
    fun _ => ⟨3, "ls | wc &\n".toList, initMap 19, rfl, by decide, if_pos rfl⟩
  have hsome : (plainPipe (unmarked (pipelineText storedLine))).isSome := by decide
  obtain ⟨bare, hbare⟩ := Option.isSome_iff_exists.1 hsome
  exact ⟨bare, hbare, (marks_iff hasks hbare).2 ⟨by decide, by decide⟩⟩

/-- A marker at the end of the input. -/
def markerAtEnd : List Char :=
  "ls &".toList

/-- The marker is an argument of the command. -/
theorem not_marks_markerAtEnd : ∃ bare, plainPipe (unmarked (cstring markerAtEnd)) = some bare ∧
    ¬∃ (r : Created 19) (pipe : CommandPipe),
      createCmdPipe (fun _ => []) markerAtEnd (initMap 19) = some r ∧ r.accepted = some pipe ∧
        Marks (cstring markerAtEnd) bare pipe := by
  have hsome : (plainPipe (unmarked (cstring markerAtEnd))).isSome := by decide
  obtain ⟨bare, hbare⟩ := Option.isSome_iff_exists.1 hsome
  refine ⟨bare, hbare, ?_⟩
  rintro ⟨r, pipe, hr, haccepted, hmarks⟩
  have hparse := hr
  rw [createCmdPipe_of_not_isShortcut (by decide)] at hparse
  obtain ⟨pipe', -, rfl⟩ := Option.map_eq_some_iff.1 hparse
  obtain rfl := Option.some.inj haccepted
  exact absurd (markersRight_of_created hbare hr hmarks).2 (by decide)

end NetProg.Shell
