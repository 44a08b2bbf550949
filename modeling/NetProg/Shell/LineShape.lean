import NetProg.Shell.CommandLine

/-!
# From a line to a pipeline

A text has a command in front of its first bars and one or more behind each group of bars,
as many as there are bars. `textCommands` lists them. `createCmdPipe` makes of them a
sequence of blocks in this order, but it accepts a command without arguments, and with it
bars at the beginning and at the end of the text : in front the empty command is left out
and its bars count for the next one, and at the end bars have no block. The pipeline of a line
that is accepted is well formed exactly when every command of its text has an argument
(`wellFormed_iff`).
-/

namespace NetProg.Shell

open Lib
open Cluster (isSpace)

/-! ## The commands of a text -/

/-- The groups of bars in front of the fields of a text, and the text behind each, when `n`
bars are already counted. -/
def barGroups : ℕ → List (List Char) → List (ℕ × List Char)
  | 0, [] => []
  | n + 1, [] => [(n + 1, [])]
  | n, field :: fields =>
    if field = [] then barGroups (n + 1) fields else (n + 1, field) :: barGroups 0 fields

/-- The groups of bars of a text. What is in front of the first bars counts as behind one. -/
def segments (text : List Char) : List (ℕ × List Char) :=
  match text.splitOn '|' with
  | [] => []
  | field :: fields => (1, field) :: barGroups 0 fields

/-- The commands behind a group of bars. -/
def alternatives (g : ℕ × List Char) : List (List Char) :=
  let temp := (cutAmp g.2).2
  if g.1 = 1 then [temp] else (temp.splitOn ',').take g.1

/-- The commands of a text. -/
def textCommands (text : List Char) : List (List Char) :=
  (segments text).flatMap alternatives

/-- The words of a text, behind the characters of one that has begun. -/
def wordsFrom : List Char → List Char → List (List Char)
  | word, [] => if word = [] then [] else [word]
  | word, c :: rest =>
    if isSpace c = false then wordsFrom (word ++ [c]) rest
    else if word = [] then wordsFrom [] rest
    else word :: wordsFrom [] rest

def IsRedirect (word : List Char) : Prop :=
  word = ['>'] ∨ word = ['>', '>'] ∨ word = ['<']

instance (word : List Char) : Decidable (IsRedirect word) :=
  inferInstanceAs (Decidable (_ ∨ _))

/-- The words that are no redirections and stand behind none. -/
def argWords : List Char → List (List Char) → List (List Char)
  | _, [] => []
  | prev, word :: words =>
    if IsRedirect prev ∨ IsRedirect word then argWords word words else word :: argWords word words

/-- The arguments of a command. -/
def arguments (token : List Char) : List (List Char) :=
  argWords [] (wordsFrom [] token)

/-- The pipeline is a command and a block for each group of bars, the commands of the text in
their order, each with an argument. -/
structure WellFormed (text : List Char) (pipe : CommandPipe) : Prop where
  count_pos : 1 ≤ pipe.cmds.count
  count_eq : pipe.cmds.count = pipe.cmds.toList.length
  argc_pos : ∀ cmd ∈ pipe.cmds.toList, 1 ≤ cmd.argc
  blocks : ∃ ks : List PipeCount, ks.map PipeCount.size = (segments text).tail.map Prod.fst ∧
    pipe.cmds.toList.map ParsedCommand.toCommand = commands (.single :: ks)
  order : pipe.cmds.toList.map ParsedCommand.token = textCommands text

/-- The text is no shortcut line, and each of its commands has an argument. -/
def HasCommands (text : List Char) : Prop :=
  ¬IsShortcut text ∧ ∀ token ∈ textCommands text, arguments token ≠ []

instance (text : List Char) : Decidable (HasCommands text) :=
  inferInstanceAs (Decidable (_ ∧ _))

/-- What a pipeline is made from : the line, or what follows the index of a shortcut. -/
def pipelineText (mem : List Char) : List Char :=
  if IsShortcut (cstring mem) then
    match scLine mem with
    | .line _ _ rest => cstring rest
    | _ => []
  else cstring mem

/-- The pipeline that is executed or was stored. -/
def Created.accepted {n : ℕ} [NeZero n] (r : Created n) : Option CommandPipe :=
  if r.ret then some r.pipe else r.stored

/-! ## The segments of a text -/

theorem flatMap_barGroups (n : ℕ) (fields : List (List Char)) :
    (barGroups n fields).flatMap (fun g => List.replicate g.1 '|' ++ g.2) =
      List.replicate n '|' ++ fields.flatMap fun field => '|' :: field := by
  induction fields generalizing n with
  | nil =>
    cases n with
    | zero => rfl
    | succ n => simp [barGroups]
  | cons field fields ih =>
    rw [barGroups, List.flatMap_cons]
    split_ifs with hfield
    · rw [ih, hfield, List.replicate_succ']
      simp
    · rw [List.flatMap_cons, ih, List.replicate_succ']
      simp

theorem intercalate_bar (field : List Char) (fields : List (List Char)) :
    ['|'].intercalate (field :: fields) = field ++ fields.flatMap fun field => '|' :: field := by
  induction fields generalizing field with
  | nil => simp
  | cons field' fields ih =>
    rw [List.intercalate_cons_cons, ih, List.flatMap_cons]
    simp

/-- The text is its first segment, followed by groups of bars with their segments. -/
theorem exists_segments (text : List Char) : ∃ field groups, segments text = (1, field) :: groups ∧
    text = field ++ groups.flatMap fun g => List.replicate g.1 '|' ++ g.2 := by
  obtain ⟨field, fields, hfields⟩ := List.exists_cons_of_ne_nil (List.splitOn_ne_nil '|' text)
  refine ⟨field, barGroups 0 fields, by rw [segments, hfields], ?_⟩
  rw [flatMap_barGroups, List.replicate_zero, List.nil_append, ← intercalate_bar, ← hfields,
    List.intercalate_splitOn]

/-! ## Arguments -/

theorem endArg_spec {s s' : ArgState} (h : endArg s = some s') :
    s'.currArg = [] ∧ s'.prevArg = s.currArg ∧ s'.cmd.toCommand = s.cmd.toCommand ∧
      s'.cmd.token = s.cmd.token ∧ s'.cmd.argv = s.cmd.argv ++
        if IsRedirect s.prevArg ∨ IsRedirect s.currArg then [] else [s.currArg] := by
  unfold endArg at h
  simp only at h
  by_cases hredirect : IsRedirect s.prevArg ∨ IsRedirect s.currArg
  · -- every branch but the last keeps the arguments
    rw [if_pos hredirect, List.append_nil]
    split_ifs at h with hout hin happend hnew happend' hroom
    · cases h
      exact ⟨rfl, rfl, rfl, rfl, rfl⟩
    · cases h
      exact ⟨rfl, rfl, rfl, rfl, rfl⟩
    · cases h
      exact ⟨rfl, rfl, rfl, rfl, rfl⟩
    · cases h
      exact ⟨rfl, rfl, rfl, rfl, rfl⟩
    · cases h
      exact ⟨rfl, rfl, rfl, rfl, rfl⟩
    · unfold IsRedirect at hredirect
      tauto
  · unfold IsRedirect at hredirect
    rw [if_neg (by tauto), if_neg (by tauto), if_neg (by tauto), if_neg (by tauto),
      if_neg (by tauto)] at h
    split_ifs at h
    cases h
    exact ⟨rfl, rfl, rfl, rfl, by rw [if_neg (by unfold IsRedirect; tauto)]⟩

theorem scanArgs_spec {rest : List Char} {s s' : ArgState} (h : scanArgs rest s = some s') :
    s'.cmd.toCommand = s.cmd.toCommand ∧ s'.cmd.token = s.cmd.token ∧
      s'.cmd.argv = s.cmd.argv ++ argWords s.prevArg (wordsFrom s.currArg rest) := by
  induction rest generalizing s with
  | nil =>
    rw [scanArgs] at h
    split_ifs at h with hcurr
    · cases h
      exact ⟨rfl, rfl, by rw [wordsFrom, if_pos hcurr, argWords, List.append_nil]⟩
    · obtain ⟨-, -, hshape, htoken, hargv⟩ := endArg_spec h
      refine ⟨hshape, htoken, ?_⟩
      rw [hargv, wordsFrom, if_neg hcurr, argWords, argWords]
  | cons c rest ih =>
    rw [scanArgs] at h
    split_ifs at h with hspace hlen hcurr hnext
    · obtain ⟨hshape, htoken, hargv⟩ := ih h
      exact ⟨hshape, htoken, by rw [hargv, wordsFrom, if_pos hspace]⟩
    · obtain ⟨hshape, htoken, hargv⟩ := ih h
      exact ⟨hshape, htoken, by rw [hargv, wordsFrom, if_neg hspace, if_pos hcurr, hcurr]⟩
    · -- the argument ends at the last of some spaces
      obtain ⟨hshape, htoken, hargv⟩ := ih h
      obtain ⟨c', rest, rfl⟩ : ∃ c' rest', rest = c' :: rest' := by
        cases rest with
        | nil => cases hnext
        | cons c' rest' => exact ⟨c', rest', rfl⟩
      have hc' : ¬isSpace c' = false := by simpa using hnext
      refine ⟨hshape, htoken, ?_⟩
      rw [hargv, wordsFrom, if_neg hc', if_neg hcurr, wordsFrom, if_neg hspace, if_neg hcurr,
        wordsFrom, if_neg hc', if_pos rfl]
    · obtain ⟨s₁, hend, h⟩ := Option.bind_eq_some_iff.1 h
      obtain ⟨hcurr₁, hprev₁, hshape₁, htoken₁, hargv₁⟩ := endArg_spec hend
      obtain ⟨hshape, htoken, hargv⟩ := ih h
      refine ⟨hshape.trans hshape₁, htoken.trans htoken₁, ?_⟩
      rw [hargv, hargv₁, hcurr₁, hprev₁, wordsFrom, if_neg hspace, if_neg hcurr, argWords,
        List.append_assoc]
      split_ifs <;> rfl

/-- The command that a text is parsed to. -/
structure Parses (shape : Command) (cmdInput : List Char) (cmd : ParsedCommand) : Prop where
  shape_eq : cmd.toCommand = shape
  token_eq : cmd.token = cmdInput
  argv_eq : cmd.argv = arguments cmdInput

theorem parses_of_parseCmd {shape : Command} {cmdInput : List Char} {cmd : ParsedCommand}
    (h : parseCmd shape cmdInput = some cmd) : Parses shape cmdInput cmd := by
  obtain ⟨s, hs, rfl⟩ := Option.map_eq_some_iff.1 h
  obtain ⟨hshape, htoken, hargv⟩ := scanArgs_spec hs
  exact ⟨hshape, htoken, hargv⟩

/-! ## Blocks -/

/-- What is inserted is linked behind what was there. -/
theorem holds_insertCmds {pipe pipe' : CommandPipe} {xs cmds : List ParsedCommand}
    (h : pipe.cmds.Holds xs) (hinsert : cmds.foldlM insertCmdInPipe pipe = some pipe') :
    pipe'.cmds.Holds (xs ++ cmds) := by
  induction cmds generalizing pipe xs with
  | nil =>
    obtain rfl := Option.some.inj hinsert
    rwa [List.append_nil]
  | cons cmd cmds ih =>
    rw [List.foldlM_cons] at hinsert
    obtain ⟨pipe₁, hpipe₁, hinsert⟩ := Option.bind_eq_some_iff.1 hinsert
    obtain ⟨l, hl, rfl⟩ := Option.map_eq_some_iff.1 hpipe₁
    obtain ⟨l', hl', hholds⟩ := h.append cmd
    obtain rfl := Option.some.inj (hl'.symm.trans hl)
    have := ih hholds hinsert
    rwa [List.append_assoc, List.singleton_append] at this

/-- A pipeline takes any commands. -/
theorem exists_insertCmds {pipe : CommandPipe} {xs : List ParsedCommand}
    (h : pipe.cmds.Holds xs) (cmds : List ParsedCommand) :
    ∃ pipe', cmds.foldlM insertCmdInPipe pipe = some pipe' ∧ pipe'.cmds.Holds (xs ++ cmds) ∧
      pipe'.isBackground = pipe.isBackground := by
  induction cmds generalizing pipe xs with
  | nil => exact ⟨pipe, rfl, by rwa [List.append_nil], rfl⟩
  | cons cmd cmds ih =>
    obtain ⟨l, hl, hholds⟩ := h.append cmd
    have hlinked : ({ pipe with cmds := l } : CommandPipe).cmds.Holds (xs ++ [cmd]) := hholds
    obtain ⟨pipe', hpipe', hholds', hback⟩ := ih hlinked
    refine ⟨pipe', ?_, by rwa [List.append_assoc, List.singleton_append] at hholds', hback⟩
    rw [List.foldlM_cons, insertCmdInPipe, hl]
    exact hpipe'

/-- Commands are made of these texts, and have these shapes. -/
structure Makes (shapes : List Command) (tokens : List (List Char)) (cmds : List ParsedCommand) :
    Prop where
  shapes_eq : cmds.map ParsedCommand.toCommand = shapes
  tokens_eq : cmds.map ParsedCommand.token = tokens
  argv_eq : ∀ cmd ∈ cmds, cmd.argv = arguments cmd.token

theorem Makes.nil : Makes [] [] [] :=
  ⟨rfl, rfl, fun _ h => absurd h List.not_mem_nil⟩

theorem Makes.cons {shape : Command} {token : List Char} {cmd : ParsedCommand}
    {shapes : List Command} {tokens : List (List Char)} {cmds : List ParsedCommand}
    (hcmd : Parses shape token cmd) (h : Makes shapes tokens cmds) :
    Makes (shape :: shapes) (token :: tokens) (cmd :: cmds) where
  shapes_eq := by rw [List.map_cons, hcmd.shape_eq, h.shapes_eq]
  tokens_eq := by rw [List.map_cons, hcmd.token_eq, h.tokens_eq]
  argv_eq := List.forall_mem_cons.2 ⟨by rw [hcmd.argv_eq, hcmd.token_eq], h.argv_eq⟩

theorem Makes.append {shapes shapes' : List Command} {tokens tokens' : List (List Char)}
    {cmds cmds' : List ParsedCommand} (h : Makes shapes tokens cmds)
    (h' : Makes shapes' tokens' cmds') :
    Makes (shapes ++ shapes') (tokens ++ tokens') (cmds ++ cmds') where
  shapes_eq := by rw [List.map_append, h.shapes_eq, h'.shapes_eq]
  tokens_eq := by rw [List.map_append, h.tokens_eq, h'.tokens_eq]
  argv_eq := List.forall_mem_append.2 ⟨h.argv_eq, h'.argv_eq⟩

/-- One command for each shape, when there are enough texts. -/
theorem makes_of_mapM {shapes : List Command} {strs : List (List Char)}
    {cmds : List ParsedCommand} (hlen : shapes.length ≤ strs.length)
    (h : ((shapes.zip strs).mapM fun r => parseCmd r.1 r.2) = some cmds) :
    Makes shapes (strs.take shapes.length) cmds := by
  induction shapes generalizing strs cmds with
  | nil =>
    obtain rfl : [] = cmds := by simpa using h
    exact .nil
  | cons shape shapes ih =>
    cases strs with
    | nil => simp at hlen
    | cons str strs =>
      rw [List.zip_cons_cons, List.mapM_cons] at h
      obtain ⟨cmd, hcmd, h⟩ := Option.bind_eq_some_iff.1 h
      obtain ⟨cmds', hcmds', h⟩ := Option.bind_eq_some_iff.1 h
      obtain rfl := Option.some.inj h
      exact .cons (parses_of_parseCmd hcmd) (ih (by simpa using hlen) hcmds')

theorem exists_of_insertAlternatives {k : PipeCount} {strs : List (List Char)}
    {pipe pipe' : CommandPipe} {xs : List ParsedCommand} (h : pipe.cmds.Holds xs)
    (hinsert : insertAlternatives k strs pipe = some pipe') :
    ∃ cmds, pipe'.cmds.Holds (xs ++ cmds) ∧
      Makes ((List.range k.size).map k.command) (strs.take k.size) cmds := by
  unfold insertAlternatives at hinsert
  split_ifs at hinsert with hlen
  obtain ⟨cmds, hcmds, hinsert⟩ := Option.bind_eq_some_iff.1 hinsert
  have hmakes := makes_of_mapM (by simpa using hlen) hcmds
  rw [List.length_map, List.length_range] at hmakes
  exact ⟨cmds, holds_insertCmds h hinsert, hmakes⟩

/-- The block behind some bars. -/
theorem exists_of_insertBlock {n : ℕ} {field : List Char} {pipe pipe' : CommandPipe}
    {xs : List ParsedCommand} (h : pipe.cmds.Holds xs)
    (hinsert : insertBlock n (cutAmp field).2 pipe = some pipe') :
    ∃ k : PipeCount, k.size = n ∧ ∃ cmds, pipe'.cmds.Holds (xs ++ cmds) ∧
      Makes ((List.range k.size).map k.command) (alternatives (n, field)) cmds := by
  unfold insertBlock at hinsert
  split at hinsert
  · exact ⟨.single, rfl, exists_of_insertAlternatives h hinsert⟩
  · exact ⟨.double, rfl, exists_of_insertAlternatives h hinsert⟩
  · exact ⟨.triple, rfl, exists_of_insertAlternatives h hinsert⟩
  · cases hinsert

/-! ## Fields -/

/-- The fields that are parsed, with the counter in front of each. -/
def fieldGroups : ℕ → List (List Char) → List (ℕ × List Char)
  | _, [] => []
  | n, field :: fields =>
    if field = [] then fieldGroups (n + 1) fields else (n, field) :: fieldGroups 1 fields

theorem exists_of_parseFields {n : ℕ} {fields : List (List Char)} {pipe pipe' : CommandPipe}
    {xs : List ParsedCommand} (h : pipe.cmds.Holds xs)
    (hparse : parseFields n fields pipe = some pipe') :
    ∃ ks : List PipeCount, ks.map PipeCount.size = (fieldGroups n fields).map Prod.fst ∧
      ∃ cmds, pipe'.cmds.Holds (xs ++ cmds) ∧
        Makes (commands ks) ((fieldGroups n fields).flatMap alternatives) cmds := by
  induction fields generalizing n pipe xs with
  | nil =>
    obtain rfl := Option.some.inj hparse
    exact ⟨[], rfl, [], by rwa [List.append_nil], .nil⟩
  | cons field fields ih =>
    rw [parseFields] at hparse
    rw [fieldGroups]
    split_ifs at hparse ⊢ with hfield
    · exact ih h hparse
    · obtain ⟨pipe₁, hblock, hparse⟩ := Option.bind_eq_some_iff.1 hparse
      obtain ⟨k, hk, cmds, hholds, hmakes⟩ := exists_of_insertBlock (by exact h) hblock
      obtain ⟨ks, hks, cmds', hholds', hmakes'⟩ := ih hholds hparse
      refine ⟨k :: ks, by rw [List.map_cons, List.map_cons, hk, hks], cmds ++ cmds', ?_, ?_⟩
      · rwa [List.append_assoc] at hholds'
      · exact hmakes.append hmakes'

/-- Bars at the end of a text have no field. -/
theorem barGroups_eq (n : ℕ) (fields : List (List Char)) :
    barGroups n fields = fieldGroups (n + 1) fields ∨
      ∃ m, barGroups n fields = fieldGroups (n + 1) fields ++ [(m + 1, [])] := by
  induction fields generalizing n with
  | nil =>
    cases n with
    | zero => exact .inl rfl
    | succ n => exact .inr ⟨n, rfl⟩
  | cons field fields ih =>
    rw [barGroups, fieldGroups]
    split_ifs with hfield
    · exact ih (n + 1)
    · rcases ih 0 with heq | ⟨m, heq⟩
      · exact .inl (by rw [heq])
      · exact .inr ⟨m, by rw [heq, List.cons_append]⟩

theorem arguments_nil : arguments [] = [] :=
  rfl

/-- Behind bars without a text there is an empty command. -/
theorem exists_alternatives_nil {n : ℕ} (hn : 0 < n) :
    ∃ token ∈ alternatives (n, []), arguments token = [] := by
  obtain ⟨n, rfl⟩ := Nat.exists_eq_add_of_lt hn
  refine ⟨[], ?_, arguments_nil⟩
  rw [alternatives]
  split_ifs
  · exact List.mem_singleton_self []
  · exact List.mem_cons_self

/-- When every command of a text has an argument, its fields are its segments. -/
theorem segments_eq {text : List Char} (h : ∀ token ∈ textCommands text, arguments token ≠ []) :
    ∃ field groups, segments text = (1, field) :: groups ∧
      fieldGroups 1 (text.splitOn '|') = (1, field) :: groups := by
  have hne : ∀ g ∈ segments text, 0 < g.1 → g.2 ≠ [] := by
    rintro ⟨n, seg⟩ hg hn rfl
    obtain ⟨token, htoken, hnil⟩ := exists_alternatives_nil hn
    exact h token (List.mem_flatMap_of_mem hg htoken) hnil
  obtain ⟨field, fields, hfields⟩ := List.exists_cons_of_ne_nil (List.splitOn_ne_nil '|' text)
  have hsegments : segments text = (1, field) :: barGroups 0 fields := by
    rw [segments, hfields]
  rw [hsegments] at hne ⊢
  have hfield : field ≠ [] := hne (1, field) List.mem_cons_self Nat.one_pos
  have hgroups : barGroups 0 fields = fieldGroups 1 fields := by
    refine (barGroups_eq 0 fields).resolve_right ?_
    rintro ⟨m, hm⟩
    have hlast : (m + 1, []) ∈ (1, field) :: barGroups 0 fields := by
      rw [hm]
      exact List.mem_cons_of_mem _ (List.mem_append_right _ (List.mem_singleton_self _))
    exact hne _ hlast m.succ_pos rfl
  exact ⟨field, _, rfl, by rw [hfields, fieldGroups, if_neg hfield, hgroups]⟩

/-! ## Texts -/

/-- The pipeline of a text that is no shortcut line. -/
theorem wellFormed_parseFields_iff {text : List Char} {pipe : CommandPipe}
    (hparse : parseFields 1 (text.splitOn '|') initCmdPipe = some pipe) :
    WellFormed text pipe ↔ ∀ token ∈ textCommands text, arguments token ≠ [] := by
  obtain ⟨ks, hks, cmds, hholds, hmakes⟩ := exists_of_parseFields SList.holds_empty hparse
  rw [List.nil_append] at hholds
  have hlist : pipe.cmds.toList = cmds := hholds.toList_eq
  constructor
  · intro hwell token htoken
    rw [← hwell.order] at htoken
    obtain ⟨cmd, hcmd, rfl⟩ := List.mem_map.1 htoken
    have hpos := hwell.argc_pos cmd hcmd
    rw [← hmakes.argv_eq cmd (hlist ▸ hcmd)]
    exact List.length_pos_iff.1 hpos
  · intro hargs
    obtain ⟨field, groups, hsegments, hgroups⟩ := segments_eq hargs
    rw [hgroups] at hks hmakes
    obtain ⟨k, ks, rfl⟩ : ∃ k ks', ks = k :: ks' := by
      cases ks with
      | nil => cases hks
      | cons k ks' => exact ⟨k, ks', rfl⟩
    obtain ⟨hk, hks'⟩ := List.cons.inj hks
    obtain rfl : k = .single := by
      cases k with
      | single => rfl
      | double => cases hk
      | triple => cases hk
    have htokens : cmds.map ParsedCommand.token = textCommands text := by
      rw [hmakes.tokens_eq, textCommands, hsegments]
    have hpos : 0 < cmds.length := by
      rw [← List.length_map ParsedCommand.toCommand, hmakes.shapes_eq, length_commands_cons]
      exact Nat.lt_of_lt_of_le PipeCount.single.size_pos (Nat.le_add_right _ _)
    refine ⟨?_, ?_, fun cmd hcmd => ?_, ⟨ks, ?_, ?_⟩, ?_⟩
    · rw [hholds.count_eq]
      exact_mod_cast hpos
    · rw [hlist, hholds.count_eq]
    · rw [hlist] at hcmd
      have hne := hargs cmd.token (htokens ▸ List.mem_map_of_mem hcmd)
      rw [← hmakes.argv_eq cmd hcmd] at hne
      exact List.length_pos_iff.2 hne
    · rw [hsegments, List.tail_cons]
      exact hks'
    · rw [hlist, hmakes.shapes_eq]
    · rw [hlist, htokens]

/-! ## Lines -/

variable {n : ℕ} [NeZero n] {choice : ℕ → List Char} {mem : List Char}
  {map : ShortcutMap CommandPipe n} {r : Created n}

/-- A line that is about no shortcut. -/
theorem createCmdPipe_of_not_isShortcut (h : ¬IsShortcut (cstring mem)) :
    createCmdPipe choice mem map =
      (parseFields 1 ((cstring mem).splitOn '|') initCmdPipe).map fun pipe =>
        ⟨true, pipe, none, map⟩ := by
  rw [createCmdPipe, if_neg h]

/-- A line about a shortcut leaves its pipeline empty, and what it stores is what the rest of
it is parsed to. -/
theorem created_of_isShortcut (h : IsShortcut (cstring mem))
    (hr : createCmdPipe choice mem map = some r) : r.ret = false ∧ r.pipe = initCmdPipe ∧
      ∀ pipe, r.stored = some pipe → ∃ (flag : Char) (idx : ℕ) (rest : List Char)
        (map' : ShortcutMap CommandPipe n) (r' : Created n), scLine mem = .line flag idx rest ∧
          createCmdPipe choice rest map' = some r' ∧ r'.pipe = pipe := by
  rw [createCmdPipe, if_pos h] at hr
  split at hr
  · cases hr
  · cases hr
    exact ⟨rfl, rfl, fun _ h => by cases h⟩
  · cases hr
  · rename_i flag idx rest hline
    split_ifs at hr
    · obtain ⟨prepared, -, hr⟩ := Option.bind_eq_some_iff.1 hr
      cases prepared with
      | none =>
        cases hr
        exact ⟨rfl, rfl, fun _ h => by cases h⟩
      | some map' =>
        obtain ⟨r', hr', hr⟩ := Option.bind_eq_some_iff.1 hr
        obtain ⟨map'', -, rfl⟩ := Option.map_eq_some_iff.1 hr
        refine ⟨rfl, rfl, fun pipe hpipe => ?_⟩
        exact ⟨flag, idx, rest, map', r', hline, hr', Option.some.inj hpipe⟩
    · obtain ⟨_, -, rfl⟩ := Option.map_eq_some_iff.1 hr
      exact ⟨rfl, rfl, fun _ h => by cases h⟩

theorem not_wellFormed_initCmdPipe (text : List Char) : ¬WellFormed text initCmdPipe :=
  fun h => absurd h.count_pos (by decide)

/-- The pipeline that a call of `createCmdPipe` makes is well formed exactly when its text is no
shortcut line and has commands with arguments only. -/
theorem wellFormed_pipe_iff (hr : createCmdPipe choice mem map = some r) :
    WellFormed (cstring mem) r.pipe ↔ HasCommands (cstring mem) := by
  by_cases h : IsShortcut (cstring mem)
  · rw [(created_of_isShortcut h hr).2.1]
    exact iff_of_false (not_wellFormed_initCmdPipe _) fun hcommands => hcommands.1 h
  · rw [createCmdPipe_of_not_isShortcut h] at hr
    obtain ⟨pipe, hparse, rfl⟩ := Option.map_eq_some_iff.1 hr
    exact (wellFormed_parseFields_iff hparse).trans (and_iff_right h).symm

/-- The pipeline of a line that is accepted. -/
theorem wellFormed_iff {pipe : CommandPipe} (hr : createCmdPipe choice mem map = some r)
    (haccepted : r.accepted = some pipe) :
    WellFormed (pipelineText mem) pipe ↔ HasCommands (pipelineText mem) := by
  by_cases h : IsShortcut (cstring mem)
  · obtain ⟨hret, -, hstored⟩ := created_of_isShortcut h hr
    rw [Created.accepted, hret] at haccepted
    obtain ⟨flag, idx, rest, map', r', hline, hr', rfl⟩ := hstored pipe haccepted
    have htext : pipelineText mem = cstring rest := by
      rw [pipelineText, if_pos h, hline]
    rw [htext]
    exact wellFormed_pipe_iff hr'
  · have hpipe : r.pipe = pipe := by
      have hr' := hr
      rw [createCmdPipe_of_not_isShortcut h] at hr'
      obtain ⟨_, -, rfl⟩ := Option.map_eq_some_iff.1 hr'
      exact Option.some.inj haccepted
    rw [pipelineText, if_neg h, ← hpipe]
    exact wellFormed_pipe_iff hr

/-- Three commands, two of them behind one group of bars. -/
def someLine : List Char :=
  "ls -l || wc, cat >> out.txt &\n".toList

theorem wellFormed_someLine : ∃ (r : Created 19) (pipe : CommandPipe),
    createCmdPipe (fun _ => []) someLine (initMap 19) = some r ∧ r.accepted = some pipe ∧
      WellFormed (pipelineText someLine) pipe := by
  have hline : ¬IsShortcut (cstring someLine) := by decide
  have hsome : (parseFields 1 ((cstring someLine).splitOn '|') initCmdPipe).isSome := by decide
  obtain ⟨pipe, hpipe⟩ := Option.isSome_iff_exists.1 hsome
  have hr : createCmdPipe (fun _ => []) someLine (initMap 19) =
      some ⟨true, pipe, none, initMap 19⟩ := by
    rw [createCmdPipe_of_not_isShortcut hline, hpipe]
    rfl
  exact ⟨_, pipe, hr, rfl, (wellFormed_iff hr rfl).2 (by decide)⟩

/-- A bar at the end. -/
def barAtEnd : List Char :=
  "ls |\n".toList

/-- The command behind the bar has no arguments. -/
theorem not_wellFormed_barAtEnd : ∃ (r : Created 19) (pipe : CommandPipe),
    createCmdPipe (fun _ => []) barAtEnd (initMap 19) = some r ∧ r.accepted = some pipe ∧
      ¬WellFormed (pipelineText barAtEnd) pipe := by
  have hline : ¬IsShortcut (cstring barAtEnd) := by decide
  have hargc : (parseFields 1 ((cstring barAtEnd).splitOn '|') initCmdPipe).map
      (fun pipe => pipe.cmds.toList.map ParsedCommand.argc) = some [1, 0] := by decide
  obtain ⟨pipe, hpipe, hargc⟩ := Option.map_eq_some_iff.1 hargc
  refine ⟨⟨true, pipe, none, initMap 19⟩, pipe, ?_, rfl, fun hwell => ?_⟩
  · rw [createCmdPipe_of_not_isShortcut hline, hpipe]
    rfl
  · have hzero : 0 ∈ pipe.cmds.toList.map ParsedCommand.argc := by
      rw [hargc]
      decide
    obtain ⟨cmd, hcmd, hzero⟩ := List.mem_map.1 hzero
    have hpos := hwell.argc_pos cmd hcmd
    omega

end NetProg.Shell
