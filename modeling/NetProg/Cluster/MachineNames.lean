import Mathlib.Data.List.TakeWhile
import NetProg.Cluster.Parse

/-!
# Which commands are for a machine

A segment of a command line is for machine `k` when it begins with `n`, the number `k` and a dot,
and for all machines when it begins with `n*.`. Every other segment is a local command.
`createCommandPipe` decides this by what is in front of the first dot : when a digit or a star
is, all of the text up to the dot is copied into `machine_name`, which has 10 bytes, and is
taken for a machine name. So a local command with an argument like `file1.txt` ends the thread
of the client, or runs over the buffer when the dot is further behind.

`parsedRight_iff` says which command lines are parsed as they should be.
-/

namespace NetProg.Cluster

open Lib (takeWhile_of_notMem)

/-! ## What a segment should become -/

/-- The text without one blank at its end. -/
def dropBlank (text : List Char) : List Char :=
  if text.getLast? = some ' ' ∨ text.getLast? = some '\n' then text.dropLast else text

/-- `n*`, or `n` and a number from 1 on. -/
def NamesMachine (name : List Char) (k : ℤ) : Prop :=
  (name = ['n', '*'] ∧ k = 0) ∨
    ∃ digits, name = 'n' :: digits ∧ (∀ c ∈ digits, c.isDigit = true) ∧ 1 ≤ digitsValue digits ∧
      k = digitsValue digits

/-- The segment begins with spaces, a machine name and a dot. -/
def Prefixed (tok : List Char) (k : ℤ) (text : List Char) : Prop :=
  ∃ blanks name, tok = blanks ++ (name ++ '.' :: text) ∧ (∀ c ∈ blanks, c = ' ') ∧
    NamesMachine name k

/-- A segment with a machine name becomes the text behind the dot, for this machine. Any other
becomes a local command. -/
def Becomes (tok : List Char) (cmd : Command) : Prop :=
  (∃ k text, Prefixed tok k text ∧ cmd = (k, dropBlank text)) ∨
    (¬∃ k text, Prefixed tok k text) ∧ cmd = (-1, tok)

/-- The size of `machine_name`. -/
def machineNameSize : ℕ :=
  10

/-- The name and its zero byte do not fit into `machine_name`. -/
def Overruns (tok : List Char) : Prop :=
  ∃ dotIdx ∈ tok.idxOf? '.', HasMachineName tok dotIdx ∧ machineNameSize < dotIdx + 1

instance (tok : List Char) : Decidable (Overruns tok) :=
  inferInstanceAs (Decidable (∃ dotIdx ∈ _, _))

/-- The segments that the loop comes to : it ends with the first one that cannot be parsed. -/
def reached (line : List Char) : List (List Char) :=
  (tokens line).take (((tokens line).takeWhile fun tok => !Unparsable tok).length + 1)

/-- The names that are copied fit into `machine_name`. -/
def NamesFit (line : List Char) : Prop :=
  ∀ tok ∈ reached line, ¬Overruns tok

instance (line : List Char) : Decidable (NamesFit line) :=
  inferInstanceAs (Decidable (∀ tok ∈ reached line, ¬Overruns tok))

/-- `createCommandPipe` returns a command for each segment, the one that it should become, and
no name runs over `machine_name`. -/
structure ParsedRight (line : List Char) : Prop where
  inside : ∀ tok ∈ tokens line, ¬Overruns tok
  commands : ∃ cmds, createCommandPipe line = some cmds ∧ List.Forall₂ Becomes (tokens line) cmds

/-- The text in front of a dot looks like a machine name. -/
def LooksNamed (front : List Char) : Prop :=
  2 ≤ front.length ∧ ∃ c ∈ front.getLast?, c.isDigit = true ∨ c = '*'

/-- When the text in front of the first dot looks like a machine name, it is one, perhaps behind
spaces, and has fewer than 10 characters. -/
def NamedRight (tok : List Char) : Prop :=
  ∀ front text, tok = front ++ '.' :: text → '.' ∉ front → LooksNamed front →
    front.length < machineNameSize ∧ ∃ k, NamesMachine (front.dropWhile fun c => c == ' ') k

/-! ## Numbers -/

theorem digitsValue_bounds {s : List Char} (h : ∀ c ∈ s, c.isDigit = true) :
    0 ≤ digitsValue s ∧ digitsValue s < 10 ^ s.length := by
  induction s using List.reverseRecOn with
  | nil => exact ⟨le_rfl, Int.one_pos⟩
  | append_singleton s c ih =>
    obtain ⟨hs, hc⟩ := List.forall_mem_append.1 h
    obtain ⟨hlow, hhigh⟩ := digit_bounds (hc c (List.mem_singleton_self c))
    obtain ⟨hpos, hlt⟩ := ih hs
    have hvalue : digitsValue (s ++ [c]) = 10 * digitsValue s + (c.toNat - 48) := by
      rw [digitsValue, List.foldl_append]
      rfl
    rw [hvalue, List.length_append, List.length_singleton, pow_succ]
    omega

theorem toInt32_of_lt {n : ℤ} (hpos : 0 ≤ n) (hlt : n < 10 ^ 9) : toInt32 n = n := by
  have hclamp : max (-2 ^ 63) (min (2 ^ 63 - 1) n) = n := by omega
  rw [toInt32, hclamp, BitVec.toInt_ofInt, Int.bmod_eq_of_le]
  · omega
  · omega

/-- `atoi` of a number that is not too long. -/
theorem atoi_digits {digits : List Char} (h : ∀ c ∈ digits, c.isDigit = true)
    (hlen : digits.length ≤ 9) : atoi digits = digitsValue digits := by
  have hbounds := digitsValue_bounds h
  have hlt : digitsValue digits < 10 ^ 9 := hbounds.2.trans_le (pow_le_pow_right₀ (by decide) hlen)
  have htake : digits.takeWhile Char.isDigit = digits := List.takeWhile_eq_self_iff.2 h
  cases digits with
  | nil => rfl
  | cons c digits =>
    have hc := h c List.mem_cons_self
    have hspace := isSpace_eq_false_of_isDigit hc
    have hminus : c ≠ '-' := fun heq => by
      rw [heq] at hc
      exact absurd hc (by decide)
    have hplus : c ≠ '+' := fun heq => by
      rw [heq] at hc
      exact absurd hc (by decide)
    rw [atoi, List.dropWhile_cons_of_neg (by simpa using hspace)]
    split
    · rename_i heq
      exact absurd (List.cons.inj heq).1 hminus
    · rename_i heq
      exact absurd (List.cons.inj heq).1 hplus
    · rw [htake, toInt32_of_lt hbounds.1 hlt]

/-! ## Segments -/

theorem idxOf?_dot {front text : List Char} (h : '.' ∉ front) :
    (front ++ '.' :: text).idxOf? '.' = some front.length := by
  induction front with
  | nil => simp [List.idxOf?_cons]
  | cons c front ih =>
    obtain ⟨hc, hfront⟩ := not_or.1 (mt List.mem_cons.2 h)
    rw [List.cons_append, List.idxOf?_cons, if_neg (by simpa using Ne.symm hc), ih hfront]
    rfl

theorem hasMachineName_iff {front text : List Char} :
    HasMachineName (front ++ '.' :: text) front.length ↔ LooksNamed front := by
  unfold HasMachineName LooksNamed
  cases front using List.reverseRecOn with
  | nil => simp
  | append_singleton front c =>
    have hlast : (front ++ [c] ++ '.' :: text).getD ((front ++ [c]).length - 1) nul = c := by
      rw [List.getD_eq_getElem?_getD, List.length_append, List.length_singleton,
        Nat.add_sub_cancel, List.append_assoc, List.getElem?_append_right le_rfl]
      simp
    rw [hlast, List.getLast?_append_of_ne_nil _ (List.cons_ne_nil _ _)]
    simp only [List.getLast?_singleton, Option.mem_def, Option.some.injEq, exists_eq_left']
    constructor
    · rintro ⟨-, hc, hlen⟩
      exact ⟨hlen, hc⟩
    · rintro ⟨hlen, hc⟩
      exact ⟨by omega, hc, hlen⟩

theorem overruns_iff {front text : List Char} (h : '.' ∉ front) :
    Overruns (front ++ '.' :: text) ↔ LooksNamed front ∧ machineNameSize ≤ front.length := by
  unfold Overruns
  rw [idxOf?_dot h]
  simp only [Option.mem_def, Option.some.injEq, exists_eq_left', hasMachineName_iff]
  exact and_congr_right fun _ => Nat.lt_succ_iff

/-- What becomes of a token whose first dot has no machine name in front of it. -/
theorem createCommand_of_not_looksNamed {front text : List Char} (h : '.' ∉ front)
    (hlooks : ¬LooksNamed front) :
    createCommand (front ++ '.' :: text) = some (-1, front ++ '.' :: text) := by
  rw [createCommand, parseToken, idxOf?_dot h]
  simp only [if_neg (mt hasMachineName_iff.1 hlooks)]
  rfl

/-- What becomes of a token with the text in front of its first dot taken for a name. -/
theorem createCommand_of_looksNamed {front text name : List Char} (h : '.' ∉ front)
    (hlooks : LooksNamed front) (hname : front.dropWhile (fun c => c == ' ') = name) :
    createCommand (front ++ '.' :: text) =
      if name.headD nul ≠ 'n' then none
      else if name.getD 1 nul = '*' then some (0, dropBlank text)
      else if atoi (name.drop 1) = 0 then none
      else some (atoi (name.drop 1), dropBlank text) := by
  have htake : machineName (front ++ '.' :: text) front.length = name := by
    rw [machineName, List.take_left, hname]
  have hdrop : (front ++ '.' :: text).drop (front.length + 1) = text := by
    rw [List.drop_append, List.drop_eq_nil_of_le (Nat.le_succ _), Nat.add_sub_cancel_left]
    rfl
  have htext : ∀ machine : ℤ, (⟨machine, front.length + 1, text.getLast? = some ' ' ∨
      text.getLast? = some '\n'⟩ : Parsed).text (front ++ '.' :: text) = dropBlank text := by
    intro machine
    simp only [Parsed.text, hdrop, dropBlank, decide_eq_true_eq]
  rw [createCommand, parseToken, idxOf?_dot h]
  simp only [if_pos (hasMachineName_iff.2 hlooks), htake, hdrop]
  split_ifs
  · rfl
  · rw [Option.map_some, htext]
  · rfl
  · rw [Option.map_some, htext]

/-- A machine name in front of a dot looks like one. -/
theorem looksNamed_of_namesMachine {front : List Char} {k : ℤ}
    (h : NamesMachine (front.dropWhile fun c => c == ' ') k) : LooksNamed front := by
  have hsplit := List.takeWhile_append_dropWhile (p := fun c => c == ' ') (l := front)
  generalize front.takeWhile (fun c => c == ' ') = blanks at hsplit
  rcases h with ⟨hname, -⟩ | ⟨digits, hname, hdigits, hvalue, -⟩
  · rw [hname] at hsplit
    rw [← hsplit]
    exact ⟨by simp, '*', by simp, .inr rfl⟩
  · rw [hname] at hsplit
    cases digits using List.reverseRecOn with
    | nil => exact absurd hvalue (by decide)
    | append_singleton digits c =>
      rw [← hsplit]
      have hlast : (blanks ++ 'n' :: (digits ++ [c])).getLast? = some c := by
        rw [← List.cons_append, ← List.append_assoc, List.getLast?_concat]
      exact ⟨by simp; omega, c, hlast, .inl (hdigits c (by simp))⟩

theorem dot_notMem_name {name : List Char} {k : ℤ} (h : NamesMachine name k) : '.' ∉ name := by
  rcases h with ⟨rfl, -⟩ | ⟨digits, rfl, hdigits, -⟩
  · decide
  · intro hmem
    rcases List.mem_cons.1 hmem with heq | hmem
    · cases heq
    · exact absurd (hdigits _ hmem) (by decide)

theorem dropWhile_blanks {blanks name : List Char} {k : ℤ} (hblanks : ∀ c ∈ blanks, c = ' ')
    (h : NamesMachine name k) : (blanks ++ name).dropWhile (fun c => c == ' ') = name := by
  rw [List.dropWhile_append_of_pos fun c hc => by simpa using hblanks c hc]
  rcases h with ⟨rfl, -⟩ | ⟨digits, rfl, -⟩
  · rfl
  · rfl

/-- A machine name is what is in front of the first dot. -/
theorem prefixed_iff {front text text' : List Char} {k : ℤ} (h : '.' ∉ front) :
    Prefixed (front ++ '.' :: text) k text' ↔
      text' = text ∧ NamesMachine (front.dropWhile fun c => c == ' ') k := by
  constructor
  · rintro ⟨blanks, name, htok, hblanks, hname⟩
    have hnot : '.' ∉ blanks ++ name := by
      intro hmem
      rcases List.mem_append.1 hmem with hmem | hmem
      · exact absurd (hblanks _ hmem) (by decide)
      · exact dot_notMem_name hname hmem
    rw [← List.append_assoc] at htok
    have hfront : front = blanks ++ name := by
      rw [← takeWhile_of_notMem (s := text) h, htok, takeWhile_of_notMem hnot]
    subst hfront
    have htext := List.append_cancel_left htok
    refine ⟨(List.cons.inj htext).2.symm, ?_⟩
    rwa [dropWhile_blanks hblanks hname]
  · rintro ⟨rfl, hname⟩
    refine ⟨front.takeWhile fun c => c == ' ', _, ?_, fun c hc => ?_, hname⟩
    · rw [← List.append_assoc, List.takeWhile_append_dropWhile]
    · simpa using List.mem_takeWhile_imp hc

theorem length_dropBlank_le (text : List Char) : (dropBlank text).length ≤ text.length := by
  unfold dropBlank
  split_ifs
  · rw [List.length_dropLast]
    omega
  · exact le_rfl

/-- What is taken for a machine name has to be one. -/
theorem becomes_looksNamed_iff {front text : List Char} (h : '.' ∉ front)
    (hshort : front.length < machineNameSize) (hlooks : LooksNamed front) :
    (∃ cmd, createCommand (front ++ '.' :: text) = some cmd ∧
      Becomes (front ++ '.' :: text) cmd) ↔
      ∃ k, NamesMachine (front.dropWhile fun c => c == ' ') k := by
  constructor
  · rintro ⟨cmd, hcmd, ⟨k, text', hprefixed, -⟩ | ⟨-, rfl⟩⟩
    · exact ⟨k, ((prefixed_iff h).1 hprefixed).2⟩
    · -- the text of the command is shorter than the token
      rw [createCommand_of_looksNamed h hlooks rfl] at hcmd
      have hle := length_dropBlank_le text
      have hne : dropBlank text ≠ front ++ '.' :: text := fun heq => by
        rw [heq, List.length_append, List.length_cons] at hle
        omega
      split_ifs at hcmd
      · exact absurd (Prod.mk.inj (Option.some.inj hcmd)).2 hne
      · exact absurd (Prod.mk.inj (Option.some.inj hcmd)).2 hne
  · rintro ⟨k, hname⟩
    refine ⟨(k, dropBlank text), ?_, .inl ⟨k, text, (prefixed_iff h).2 ⟨rfl, hname⟩, rfl⟩⟩
    rcases hname with ⟨hname, rfl⟩ | ⟨digits, hname, hdigits, hvalue, rfl⟩
    · rw [createCommand_of_looksNamed h hlooks hname]
      rfl
    · have hlen : digits.length ≤ 9 := by
        have hle := (List.dropWhile_sublist (l := front) fun c => c == ' ').length_le
        rw [hname, List.length_cons] at hle
        unfold machineNameSize at hshort
        omega
      have hstar : ('n' :: digits).getD 1 nul ≠ '*' := by
        cases digits with
        | nil => exact absurd hvalue (by decide)
        | cons c digits =>
          intro heq
          have hc : c = '*' := heq
          have hdigit := hdigits c List.mem_cons_self
          rw [hc] at hdigit
          exact absurd hdigit (by decide)
      have hatoi : atoi (('n' :: digits).drop 1) = digitsValue digits := atoi_digits hdigits hlen
      rw [createCommand_of_looksNamed h hlooks hname, if_neg (by simp), if_neg hstar, hatoi,
        if_neg (by omega)]

/-- A token that becomes what it should, without running over the buffer. -/
theorem becomes_iff (tok : List Char) :
    (¬Overruns tok ∧ ∃ cmd, createCommand tok = some cmd ∧ Becomes tok cmd) ↔ NamedRight tok := by
  by_cases hdot : '.' ∈ tok
  · obtain ⟨front, text, rfl, h⟩ := List.eq_append_cons_of_mem hdot
    have hright : NamedRight (front ++ '.' :: text) ↔ (LooksNamed front →
        front.length < machineNameSize ∧
          ∃ k, NamesMachine (front.dropWhile fun c => c == ' ') k) := by
      refine ⟨fun hright hlooks => hright front text rfl h hlooks, ?_⟩
      intro hright front' text' heq h' hlooks
      have hfront : front' = front := by
        rw [← takeWhile_of_notMem (s := text') h', ← heq, takeWhile_of_notMem h]
      rw [hfront] at hlooks ⊢
      exact hright hlooks
    rw [overruns_iff h, hright]
    by_cases hlooks : LooksNamed front
    · rw [forall_prop_of_true hlooks, and_iff_right hlooks, not_le]
      exact and_congr_right fun hshort => becomes_looksNamed_iff h hshort hlooks
    · -- no machine name, and none is seen
      refine iff_of_true ⟨fun h => hlooks h.1, _, createCommand_of_not_looksNamed h hlooks,
        .inr ⟨?_, rfl⟩⟩ fun hl => absurd hl hlooks
      rintro ⟨k, text', hprefixed⟩
      exact hlooks (looksNamed_of_namesMachine ((prefixed_iff h).1 hprefixed).2)
  · have hnone : tok.idxOf? '.' = none := List.idxOf?_eq_none_iff.2 hdot
    refine iff_of_true ⟨?_, (-1, tok), ?_, .inr ⟨?_, rfl⟩⟩ ?_
    · rintro ⟨dotIdx, hmem, -⟩
      rw [hnone] at hmem
      cases hmem
    · rw [createCommand, parseToken, hnone]
      rfl
    · rintro ⟨k, text, blanks, name, rfl, -⟩
      exact hdot (by simp)
    · rintro front text rfl
      exact absurd (by simp) hdot

/-! ## Command lines -/

theorem exists_forall₂_iff {toks : List (List Char)} :
    (∃ cmds, toks.mapM createCommand = some cmds ∧ List.Forall₂ Becomes toks cmds) ↔
      ∀ tok ∈ toks, ∃ cmd, createCommand tok = some cmd ∧ Becomes tok cmd := by
  induction toks with
  | nil => exact iff_of_true ⟨[], rfl, .nil⟩ fun _ h => absurd h List.not_mem_nil
  | cons tok toks ih =>
    rw [List.forall_mem_cons, ← ih]
    constructor
    · rintro ⟨cmds, hcmds, hbecome⟩
      rw [List.mapM_cons] at hcmds
      obtain ⟨cmd, hcmd, hcmds⟩ := Option.bind_eq_some_iff.1 hcmds
      obtain ⟨cmds', hcmds', hcmds⟩ := Option.bind_eq_some_iff.1 hcmds
      obtain rfl := Option.some.inj hcmds
      obtain ⟨hhead, htail⟩ := List.forall₂_cons.1 hbecome
      exact ⟨⟨cmd, hcmd, hhead⟩, cmds', hcmds', htail⟩
    · rintro ⟨⟨cmd, hcmd, hhead⟩, cmds, hcmds, htail⟩
      refine ⟨cmd :: cmds, ?_, .cons hhead htail⟩
      rw [List.mapM_cons, hcmd, hcmds]
      rfl

/-- A command line is parsed as it should be exactly when in each of its segments the text in
front of the first dot is a machine name of fewer than 10 characters, spaces included, whenever
it ends with a digit or a star and has more than one character. -/
theorem parsedRight_iff (line : List Char) :
    ParsedRight line ↔ ∀ tok ∈ tokens line, NamedRight tok := by
  constructor
  · rintro ⟨hinside, hcommands⟩ tok htok
    exact (becomes_iff tok).1 ⟨hinside tok htok, exists_forall₂_iff.1 hcommands tok htok⟩
  · intro h
    refine ⟨fun tok htok => ((becomes_iff tok).2 (h tok htok)).1, ?_⟩
    exact exists_forall₂_iff.2 fun tok htok => ((becomes_iff tok).2 (h tok htok)).2

/-- A local command with a digit in front of a dot. -/
def localArgument : List Char :=
  "cat file1.txt\n".toList

/-- The thread of the client ends. -/
theorem not_parsedRight_localArgument : ¬ParsedRight localArgument := by
  rintro ⟨-, cmds, hcmds, -⟩
  have hnone : createCommandPipe localArgument = none := by decide
  rw [hnone] at hcmds
  cases hcmds

end NetProg.Cluster
