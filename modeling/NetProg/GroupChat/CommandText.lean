import NetProg.GroupChat.Commands

/-!
# Writing commands

`CommandObj.write` writes a command as the list of commands shows it : the name and what follows
it, with single spaces, and the texts in double quotes. `parseCommand` reads it back
(`parseCommand_write`). After a name the cursor is in front of the next word, after a text
behind its quote, and after an option and what follows it behind the quote that opens the
next one.
-/

namespace NetProg.GroupChat

open Lib
open Cluster (nul isSpace digitsValue toInt32 atoi)

/-! ## Numbers -/

/-- `%d` of a number that is not negative. -/
def decimal (n : ℤ) : List Char :=
  Nat.toDigits 10 n.toNat

theorem isDigit_of_mem_decimal {n : ℤ} {c : Char} (h : c ∈ decimal n) : c.isDigit = true :=
  Nat.isDigit_of_mem_toDigits (by decide) (by decide) h

theorem isDigit_bounds {c : Char} (h : c.isDigit = true) : 48 ≤ c.toNat ∧ c.toNat ≤ 57 :=
  Char.isDigit_iff_toNat.1 h

theorem atoi_of_isDigit {s : List Char} (h : ∀ c ∈ s, c.isDigit = true) :
    atoi s = toInt32 (digitsValue s) := by
  cases s with
  | nil => rfl
  | cons c s =>
    have hspace : isSpace c = false := by
      have hc := isDigit_bounds (h c List.mem_cons_self)
      have hne : c ≠ ' ' := by
        rintro rfl
        exact absurd hc.1 (by decide)
      simp only [isSpace, Bool.or_eq_false_iff, beq_eq_false_iff_ne, Bool.and_eq_false_iff,
        decide_eq_false_iff_not]
      exact ⟨hne, .inr (by omega)⟩
    have hall : (c :: s).takeWhile Char.isDigit = c :: s := List.takeWhile_eq_self_iff.2 h
    rw [atoi, List.dropWhile_cons_of_neg (by simp [hspace])]
    split
    · rename_i heq
      obtain ⟨rfl, -⟩ := List.cons.inj heq
      exact absurd (h '-' List.mem_cons_self) (by decide)
    · rename_i heq
      obtain ⟨rfl, -⟩ := List.cons.inj heq
      exact absurd (h '+' List.mem_cons_self) (by decide)
    · rw [hall]

theorem digitsValue_eq {s : List Char} (h : ∀ c ∈ s, c.isDigit = true) :
    digitsValue s = Nat.ofDigitChars 10 s 0 := by
  have hfold : ∀ m : ℕ, s.foldl (fun n c => 10 * n + ((c.toNat : ℤ) - 48)) m =
      (Nat.ofDigitChars 10 s m : ℤ) := by
    induction s with
    | nil => exact fun m => by rw [Nat.ofDigitChars_nil]; rfl
    | cons c s ih =>
      intro m
      have hc := (isDigit_bounds (h c List.mem_cons_self)).1
      have hnext : 10 * (m : ℤ) + ((c.toNat : ℤ) - 48) = ((10 * m + (c.toNat - 48) : ℕ) : ℤ) := by
        push_cast [hc]
        ring
      rw [Nat.ofDigitChars_cons, List.foldl_cons, hnext]
      exact ih (fun x hx => h x (List.mem_cons_of_mem c hx)) _
  exact hfold 0

theorem toInt32_eq {n : ℤ} (hn : 0 ≤ n ∧ n < 2 ^ 31) : toInt32 n = n := by
  rw [toInt32, BitVec.toInt_ofInt, min_eq_right (by omega), max_eq_right (by omega)]
  exact Int.bmod_eq_of_le (by omega) (by omega)

theorem atoi_decimal {n : ℤ} (hn : 0 ≤ n ∧ n < 2 ^ 31) : atoi (decimal n) = n := by
  have hdigits : ∀ c ∈ decimal n, c.isDigit = true := fun c => isDigit_of_mem_decimal
  rw [atoi_of_isDigit hdigits, digitsValue_eq hdigits, decimal, Nat.ofDigitChars_ten_toDigits,
    Int.toNat_of_nonneg hn.1, toInt32_eq hn]

/-! ## The text of a command -/

/-- A text in double quotes. -/
def quote (s : List Char) : List Char :=
  '"' :: s ++ ['"']

def CommandObj.cmdName : CommandObj → Cmds
  | .createGroup _ _ _ => .createGroup
  | .joinGroup _ => .joinGroup
  | .leaveGroup _ => .leaveGroup
  | .findGroup _ => .findGroup
  | .sendMessage _ _ => .sendMessage
  | .initPoll _ => .initPoll
  | .listGroups => .listGroups
  | .listFiles => .listFiles
  | .requestFile _ => .requestFile
  | .helpCmd => .helpCmd
  | .exitCmd => .exitCmd

/-- The words behind the name. -/
def CommandObj.args : CommandObj → List (List Char)
  | .createGroup grpName ip port => [grpName.chars, ip.chars, decimal port]
  | .joinGroup grpName => [grpName.chars]
  | .leaveGroup grpName => [grpName.chars]
  | .findGroup query => [query.chars]
  | .sendMessage grpName msg => [grpName.chars, quote msg.chars]
  | .initPoll poll =>
    poll.grpName.chars :: quote poll.que.chars :: decimal poll.optionCnt ::
      poll.options.strs.map fun opt => quote opt.chars
  | .requestFile fileName => [fileName.chars]
  | .listGroups | .listFiles | .helpCmd | .exitCmd => []

/-- The line of a command, without a newline. -/
def CommandObj.write (cmd : CommandObj) : List Char :=
  [' '].intercalate (cmd.cmdName.str :: cmd.args)

/-- A name, an address or the name of a file. -/
structure IsName (s : List Char) : Prop where
  ne_nil : s ≠ []
  noSpace : ' ' ∉ s
  noNewline : '\n' ∉ s
  noNul : nul ∉ s

/-- The text of a message, a question or an option. -/
structure IsText (s : List Char) : Prop where
  ne_nil : s ≠ []
  noQuote : '"' ∉ s
  noNewline : '\n' ∉ s
  noNul : nul ∉ s

/-- The command can be written. -/
def CommandObj.Writable : CommandObj → Prop
  | .createGroup grpName ip port =>
    IsName grpName.chars ∧ IsName ip.chars ∧ 0 ≤ port ∧ port < 2 ^ 31
  | .joinGroup grpName => IsName grpName.chars
  | .leaveGroup grpName => IsName grpName.chars
  | .findGroup query => IsName query.chars
  | .sendMessage grpName msg => IsName grpName.chars ∧ IsText msg.chars
  | .initPoll poll =>
    IsName poll.grpName.chars ∧ IsText poll.que.chars ∧
      (∀ opt ∈ poll.options.strs, IsText opt.chars) ∧ poll.optionCnt = poll.options.strs.length
  | .requestFile fileName => IsName fileName.chars
  | .listGroups | .listFiles | .helpCmd | .exitCmd => True

theorem isName_decimal (n : ℤ) : IsName (decimal n) where
  ne_nil := Nat.toDigits_ne_nil
  noSpace h := absurd (isDigit_of_mem_decimal h) (by decide)
  noNewline h := absurd (isDigit_of_mem_decimal h) (by decide)
  noNul h := absurd (isDigit_of_mem_decimal h) (by decide)

/-! ## Where the cursor is -/

/-- The text in front of the cursor when a text in quotes has been taken and the words `ws`
follow. -/
def behind : List (List Char) → List Char
  | [] => []
  | w :: ws => ' ' :: [' '].intercalate (w :: ws)

theorem intercalate_quote (t : List Char) (ws : List (List Char)) :
    [' '].intercalate (quote t :: ws) = '"' :: (t ++ '"' :: behind ws) := by
  cases ws with
  | nil =>
    rw [List.intercalate_singleton]
    rfl
  | cons w ws =>
    rw [List.intercalate_cons_cons]
    simp [quote, behind]

theorem strtok_name {w : List Char} (h : IsName w) (ws : List (List Char)) :
    strtok ' ' ([' '].intercalate (w :: ws)) = (some w, [' '].intercalate ws) :=
  strtok_intercalate h.ne_nil h.noSpace ws

theorem strtok_quote {t : List Char} (h : IsText t) (ws : List (List Char)) :
    strtok '"' ([' '].intercalate (quote t :: ws)) = (some t, behind ws) := by
  rw [intercalate_quote, strtok_cons_self, strtok_append h.ne_nil h.noQuote]

/-- The space between two options is a token of its own. The option behind it is found with or
without its first quote. -/
theorem strtok_behind_quotes (ts : List (List Char)) :
    strtok '"' (strtok '"' (behind (ts.map quote))).2 =
      strtok '"' ([' '].intercalate (ts.map quote)) := by
  cases ts with
  | nil => rfl
  | cons t ts =>
    have hspace : strtok '"' (behind ((t :: ts).map quote)) =
        (some [' '], t ++ '"' :: behind (ts.map quote)) := by
      rw [List.map_cons, behind, intercalate_quote]
      exact strtok_append (w := [' ']) (by decide) (by decide)
    rw [hspace, List.map_cons, intercalate_quote, strtok_cons_self]

/-! ## Reading what was written -/

theorem copy_chars {cap : ℕ} (dst : CString Char cap) : copy dst.chars = .ok dst := by
  rw [copy, CString.strcpy_chars]

theorem Options.push_chars {options : Options} (opt : CString Char messageLen)
    (h : options.strs.length < numOptions) :
    ∃ options', options.push opt.chars = .ok options' ∧ options'.strs = options.strs ++ [opt] := by
  rw [Options.push, dif_pos h, copy_chars]
  exact ⟨_, rfl, rfl⟩

/-- The loop reads the options in order. -/
theorem readOptions_write {opts : List (CString Char messageLen)}
    (h : ∀ opt ∈ opts, IsText opt.chars) {options : Options}
    (hroom : options.strs.length + opts.length ≤ numOptions) {s : List Char}
    (hs : strtok '"' s = strtok '"' ([' '].intercalate ((opts.map CString.chars).map quote))) :
    ∃ options', readOptions opts.length options s = .ok (some options') ∧
      options'.strs = options.strs ++ opts := by
  induction opts generalizing options s with
  | nil => exact ⟨options, rfl, (List.append_nil _).symm⟩
  | cons opt opts ih =>
    rw [List.map_cons, List.map_cons, strtok_quote (h opt List.mem_cons_self)] at hs
    rw [List.length_cons] at hroom
    obtain ⟨options₁, hpush, hstrs⟩ := options.push_chars opt (by omega)
    have hroom₁ : options₁.strs.length + opts.length ≤ numOptions := by
      rw [hstrs, List.length_append, List.length_singleton]
      omega
    obtain ⟨options', hread, heq⟩ := ih (fun o ho => h o (List.mem_cons_of_mem opt ho)) hroom₁
      (strtok_behind_quotes (opts.map CString.chars))
    refine ⟨options', ?_, ?_⟩
    · rw [List.length_cons, readOptions, hs]
      simp only [hpush]
      exact hread
    · rw [heq, hstrs, List.append_assoc, List.singleton_append]

theorem parseName_write (mk : CString Char groupNameLen → CommandObj)
    {name : CString Char groupNameLen} (h : IsName name.chars) :
    parseName mk ([' '].intercalate [name.chars]) = .ok (some (mk name)) := by
  rw [parseName, strtok_name h]
  simp only [copy_chars]
  rfl

theorem parseArgs_write {cmd : CommandObj} (h : cmd.Writable) :
    parseArgs ([' '].intercalate cmd.args) cmd.cmdName = .ok (some cmd) := by
  cases cmd with
  | createGroup grpName ip port =>
    obtain ⟨hname, hip, hport⟩ := h
    simp only [CommandObj.cmdName, CommandObj.args, parseArgs, parseCreateGroup, strtok_name hname,
      strtok_name hip, strtok_name (isName_decimal port), copy_chars, atoi_decimal hport]
    rfl
  | joinGroup grpName => exact parseName_write .joinGroup h
  | leaveGroup grpName => exact parseName_write .leaveGroup h
  | findGroup query => exact parseName_write .findGroup h
  | sendMessage grpName msg =>
    obtain ⟨hname, hmsg⟩ := h
    simp only [CommandObj.cmdName, CommandObj.args, parseArgs, parseSendMessage, strtok_name hname,
      strtok_quote hmsg, copy_chars]
    rfl
  | initPoll poll =>
    obtain ⟨grpName, que, ⟨opts, hlen⟩, optionCnt⟩ := poll
    obtain ⟨hname, hque, hopts, hcnt⟩ := h
    obtain rfl : optionCnt = opts.length := hcnt
    have hrange : (0 : ℤ) ≤ opts.length ∧ (opts.length : ℤ) < 2 ^ 31 := by
      rw [numOptions] at hlen
      omega
    have hroom : (⟨[], Nat.zero_le _⟩ : Options).strs.length + opts.length ≤ numOptions := by
      simpa using hlen
    obtain ⟨⟨strs, hlen'⟩, hread, hstrs⟩ := readOptions_write hopts hroom rfl
    obtain rfl : strs = opts := hstrs
    have hnext : strtok ' ' (behind (decimal strs.length :: strs.map fun opt => quote opt.chars)) =
        (some (decimal strs.length), [' '].intercalate ((strs.map CString.chars).map quote)) := by
      rw [behind, strtok_cons_self, strtok_name (isName_decimal _), List.map_map]
      rfl
    simp only [CommandObj.cmdName, CommandObj.args, parseArgs, parseInitPoll, strtok_name hname,
      strtok_quote hque, hnext, copy_chars, atoi_decimal hrange, Int.toNat_natCast]
    simp only [bind, Except.bind]
    rw [hread]
    rfl
  | requestFile fileName =>
    have hlen : ¬fileName.chars.length > fileNameLen := not_lt.2 fileName.length_lt.le
    simp only [CommandObj.cmdName, CommandObj.args, parseArgs, parseRequestFile, strtok_name h,
      if_neg hlen, copy_chars]
    rfl
  | listGroups | listFiles | helpCmd | exitCmd => rfl

theorem findCmd_str (c : Cmds) : findCmd c.str = some c := by
  cases c <;> decide

theorem isName_str (c : Cmds) : IsName c.str := by
  cases c <;> exact ⟨by decide, by decide, by decide, by decide⟩

theorem parseText_write {cmd : CommandObj} (h : cmd.Writable) :
    parseText cmd.write = .ok (some cmd) := by
  rw [parseText, CommandObj.write, strtok_name (isName_str _)]
  simp only [findCmd_str]
  exact parseArgs_write h

/-! ## Lines -/

/-- A line is parsed from its text. -/
theorem parseCommand_text {text ending : List Char} (hne : text ≠ []) (hnewline : '\n' ∉ text)
    (hnul : nul ∉ text) (hlen : text.length < commandLen)
    (hending : ending = [] ∨ ending = ['\n']) :
    parseCommand true (text ++ ending) = parseText text := by
  have hpos : 0 < text.length := List.length_pos_iff.2 hne
  rw [commandLen] at hlen
  have hraw : rawCmd (text ++ ending) = text ++ ending := by
    refine List.takeWhile_eq_self_iff.2 (forall_ne_of_notMem fun h => ?_)
    rcases List.mem_append.1 h with h | h
    · exact hnul h
    · rcases hending with rfl | rfl
      · cases h
      · exact absurd h (by decide)
  have hend : (text ++ ending).length ≤ text.length + 1 := by
    rcases hending with rfl | rfl <;> simp
  have hcmdLen : cmdLen (text ++ ending) = (text ++ ending).length := by
    rw [cmdLen, BitVec.toInt_ofNat']
    exact Int.bmod_eq_of_le (by omega) (by omega)
  have htrimmed : trimmedLen (text ++ ending) (text ++ ending).length = text.length := by
    unfold trimmedLen
    rcases hending with rfl | rfl
    · have hlast : text.getD (text.length - 1) nul ≠ '\n' := by
        rw [List.getD_eq_getElem?_getD, List.getElem?_eq_getElem (by omega), Option.getD_some]
        exact ne_of_mem_of_not_mem (List.getElem_mem _) hnewline
      rw [List.append_nil, if_neg hlast]
    · have hlast : (text ++ ['\n']).getD (text.length + 1 - 1) nul = '\n' := by
        simp [List.getD_eq_getElem?_getD]
      rw [List.length_append, List.length_singleton, if_pos hlast, Nat.add_sub_cancel]
  have htext : cmdText (text ++ ending) text.length = text := by
    obtain ⟨c, text, rfl⟩ := List.exists_cons_of_ne_nil hne
    have hfirst : ((c :: text) ++ ending).headD nul ≠ '\n' :=
      (List.ne_of_not_mem_cons hnewline).symm
    rw [cmdText, if_neg hfirst, List.take_left]
  rw [parseCommand, if_pos rfl]
  simp only [hraw, hcmdLen]
  rw [if_neg (by rw [List.length_append]; omega), Int.toNat_natCast, htrimmed,
    if_neg (by omega), htext]
  have hcopy : copy text = .ok (⟨text, hlen⟩ : CString Char commandLen) := copy_chars ⟨text, hlen⟩
  rw [hcopy]
  rfl

/-- A character that is in no word is not in the words with spaces between them. -/
theorem notMem_intercalate {c : Char} (hc : c ≠ ' ') {ws : List (List Char)}
    (h : ∀ w ∈ ws, c ∉ w) : c ∉ [' '].intercalate ws := by
  induction ws with
  | nil => exact List.not_mem_nil
  | cons w ws ih =>
    obtain ⟨hw, hws⟩ := List.forall_mem_cons.1 h
    cases ws with
    | nil => rwa [List.intercalate_singleton]
    | cons w' ws =>
      rw [List.intercalate_cons_cons, List.append_assoc, List.mem_append, List.mem_append,
        List.mem_singleton]
      rintro (hmem | rfl | hmem)
      · exact hw hmem
      · exact hc rfl
      · exact ih hws hmem

/-- No newline and no zero byte. -/
def OneLine (s : List Char) : Prop :=
  '\n' ∉ s ∧ nul ∉ s

theorem IsName.oneLine {s : List Char} (h : IsName s) : OneLine s :=
  ⟨h.noNewline, h.noNul⟩

theorem IsText.oneLine_quote {s : List Char} (h : IsText s) : OneLine (quote s) := by
  constructor
  · simpa [quote] using h.noNewline
  · simpa [quote, nul] using h.noNul

theorem forall_args {cmd : CommandObj} (h : cmd.Writable) : ∀ w ∈ cmd.args, OneLine w := by
  cases cmd with
  | createGroup grpName ip port =>
    simpa [CommandObj.args] using ⟨h.1.oneLine, h.2.1.oneLine, (isName_decimal port).oneLine⟩
  | joinGroup grpName => simpa [CommandObj.args] using IsName.oneLine h
  | leaveGroup grpName => simpa [CommandObj.args] using IsName.oneLine h
  | findGroup query => simpa [CommandObj.args] using IsName.oneLine h
  | sendMessage grpName msg => simpa [CommandObj.args] using ⟨h.1.oneLine, h.2.oneLine_quote⟩
  | initPoll poll =>
    simpa [CommandObj.args] using ⟨h.1.oneLine, h.2.1.oneLine_quote,
      (isName_decimal poll.optionCnt).oneLine, fun opt hopt => (h.2.2.1 opt hopt).oneLine_quote⟩
  | requestFile fileName => simpa [CommandObj.args] using IsName.oneLine h
  | listGroups | listFiles | helpCmd | exitCmd => exact fun w hw => absurd hw List.not_mem_nil

theorem oneLine_write {cmd : CommandObj} (h : cmd.Writable) : OneLine cmd.write := by
  have hwords : ∀ w ∈ cmd.cmdName.str :: cmd.args, OneLine w :=
    List.forall_mem_cons.2 ⟨(isName_str _).oneLine, forall_args h⟩
  exact ⟨notMem_intercalate (by decide) fun w hw => (hwords w hw).1,
    notMem_intercalate (by decide) fun w hw => (hwords w hw).2⟩

/-- A command that is written, with or without a newline, is parsed again. -/
theorem parseCommand_write {cmd : CommandObj} (h : cmd.Writable)
    (hlen : cmd.write.length < commandLen) {ending : List Char}
    (hending : ending = [] ∨ ending = ['\n']) :
    parseCommand true (cmd.write ++ ending) = .ok (some cmd) := by
  have hne : cmd.write ≠ [] := fun hnil => by
    have hparse := parseText_write h
    rw [hnil] at hparse
    cases hparse
  rw [parseCommand_text hne (oneLine_write h).1 (oneLine_write h).2 hlen hending]
  exact parseText_write h

/-- A poll with two options. -/
def somePoll : CommandObj :=
  .initPoll ⟨⟨['a', 'b', 'c'], by decide⟩, ⟨['w', 'h', 'e', 'n', ' ', '?'], by decide⟩,
    ⟨[⟨['M', 'a', 'y', ' ', '1'], by decide⟩, ⟨[' '], by decide⟩], by decide⟩, 2⟩

theorem writable_somePoll : somePoll.Writable := by
  refine ⟨?_, ?_, ?_, rfl⟩
  · exact ⟨by decide, by decide, by decide, by decide⟩
  · exact ⟨by decide, by decide, by decide, by decide⟩
  · exact List.forall_mem_cons.2 ⟨⟨by decide, by decide, by decide, by decide⟩,
      List.forall_mem_singleton.2 ⟨by decide, by decide, by decide, by decide⟩⟩

theorem parseCommand_somePoll :
    somePoll.write = "init-poll abc \"when ?\" 2 \"May 1\" \" \"".toList ∧
      parseCommand true (somePoll.write ++ ['\n']) = .ok (some somePoll) :=
  ⟨by decide, parseCommand_write writable_somePoll (by decide) (.inr rfl)⟩

end NetProg.GroupChat
