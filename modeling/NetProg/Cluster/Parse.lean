import NetProg.Lib.Tokens

/-!
# Parsing command lines

`createCommandPipe` cuts a command line at `|` with `strtok` and turns each token into a
command for a machine. A token whose first dot stands behind a digit or a star names a
machine (`n2.ls`, `n*.ls`), any other token is a local command. A token that looks like a
machine name and is not one ends the calling thread.

`parseToken` is the body of the loop, on the text of the token. `createCommandPipe` here is
the whole loop for a caller that is alone : `tokens` are the tokens that `strtok` then
returns. The calls of several threads are the subject of `NetProg.Cluster.Strtok`. The copy
of the name into `machine_name`, 10 bytes long, is taken to succeed.
-/

namespace NetProg.Cluster

/-- The byte that ends a string. -/
def nul : Char :=
  Char.ofNat 0

/-- `isspace`. -/
def isSpace (c : Char) : Bool :=
  c == ' ' || (9 ≤ c.toNat && c.toNat ≤ 13)

theorem digit_bounds {c : Char} (h : c.isDigit = true) : 48 ≤ c.toNat ∧ c.toNat ≤ 57 := by
  simpa [Char.isDigit, UInt32.le_iff_toNat_le] using h

theorem isSpace_eq_false_of_isDigit {c : Char} (h : c.isDigit = true) : isSpace c = false := by
  obtain ⟨hlow, -⟩ := digit_bounds h
  have hne : c ≠ ' ' := fun heq => by
    rw [heq] at hlow
    exact absurd hlow (by decide)
  simp [isSpace, hne]
  omega

/-- The value of a string of digits. -/
def digitsValue (s : List Char) : ℤ :=
  s.foldl (fun n c => 10 * n + (c.toNat - 48)) 0

/-- A `long` that `strtol` has clamped, converted to `int`. -/
def toInt32 (n : ℤ) : ℤ :=
  (BitVec.ofInt 32 (max (-2 ^ 63) (min (2 ^ 63 - 1) n))).toInt

/-- `atoi`. -/
def atoi (s : List Char) : ℤ :=
  match s.dropWhile isSpace with
  | '-' :: s => toInt32 (-digitsValue (s.takeWhile Char.isDigit))
  | '+' :: s => toInt32 (digitsValue (s.takeWhile Char.isDigit))
  | s => toInt32 (digitsValue (s.takeWhile Char.isDigit))

/-- What the loop makes of a token : the machine, how many characters are in front of the
command, and whether the last character is cut off. -/
structure Parsed where
  machine : ℤ
  skip : ℕ
  trim : Bool
deriving DecidableEq, Repr

/-- The text of the command. -/
def Parsed.text (p : Parsed) (tok : List Char) : List Char :=
  if p.trim then (tok.drop p.skip).dropLast else tok.drop p.skip

/-- The whole token, to be run on the machine of the caller. -/
def localCommand : Parsed :=
  ⟨-1, 0, false⟩

/-- The token has a machine name in front of its first dot, which is at `dotIdx`. -/
def HasMachineName (tok : List Char) (dotIdx : ℕ) : Prop :=
  dotIdx > 0 ∧ ((tok.getD (dotIdx - 1) nul).isDigit ∨ tok.getD (dotIdx - 1) nul = '*') ∧ dotIdx ≥ 2

instance (tok : List Char) (dotIdx : ℕ) : Decidable (HasMachineName tok dotIdx) :=
  inferInstanceAs (Decidable (_ ∧ _))

/-- The name without the blanks in front of it. -/
def machineName (tok : List Char) (dotIdx : ℕ) : List Char :=
  (tok.take dotIdx).dropWhile fun c => c == ' '

/-- The name is neither `n*` nor `n` and a number. -/
def BadMachineName (name : List Char) : Prop :=
  name.headD nul ≠ 'n' ∨ name.getD 1 nul ≠ '*' ∧ atoi (name.drop 1) = 0

instance (name : List Char) : Decidable (BadMachineName name) :=
  inferInstanceAs (Decidable (_ ∨ _))

/-- The body of the loop of `createCommandPipe`. `none` is `pthread_exit`. -/
def parseToken (tok : List Char) : Option Parsed :=
  match tok.idxOf? '.' with
  | none => some localCommand
  | some dotIdx =>
    if HasMachineName tok dotIdx then
      let name := machineName tok dotIdx
      let command := tok.drop (dotIdx + 1)
      let trim := command.getLast? = some ' ' ∨ command.getLast? = some '\n'
      if name.headD nul ≠ 'n' then none
      else if name.getD 1 nul = '*' then some ⟨0, dotIdx + 1, trim⟩
      else if atoi (name.drop 1) = 0 then none
      else some ⟨atoi (name.drop 1), dotIdx + 1, trim⟩
    else some localCommand

/-- A command : its machine and its text. -/
abbrev Command :=
  ℤ × List Char

/-- The command that a token becomes. -/
def createCommand (tok : List Char) : Option Command :=
  (parseToken tok).map fun p => (p.machine, p.text tok)

/-- The token looks like a command for a machine and has a bad name. -/
def Unparsable (tok : List Char) : Prop :=
  ∃ dotIdx ∈ tok.idxOf? '.', HasMachineName tok dotIdx ∧ BadMachineName (machineName tok dotIdx)

instance (tok : List Char) : Decidable (Unparsable tok) :=
  inferInstanceAs (Decidable (∃ dotIdx ∈ _, _))

theorem parseToken_eq_none_iff {tok : List Char} : parseToken tok = none ↔ Unparsable tok := by
  unfold parseToken Unparsable BadMachineName
  cases tok.idxOf? '.' with
  | none => simp
  | some dotIdx =>
    simp only [Option.mem_def, Option.some.injEq, exists_eq_left']
    by_cases hname : HasMachineName tok dotIdx
    · rw [if_pos hname, and_iff_right hname]
      split_ifs with hn hstar hzero
      · exact iff_of_true rfl (.inl hn)
      · exact iff_of_false (by simp) fun h => h.elim hn fun h => h.1 hstar
      · exact iff_of_true rfl (.inr ⟨hstar, hzero⟩)
      · exact iff_of_false (by simp) fun h => h.elim hn fun h => hzero h.2
    · rw [if_neg hname]
      exact iff_of_false (by simp) fun h => hname h.1

/-- The command is inside the token, and is not empty when a character is cut off. -/
theorem parseToken_bounds {tok : List Char} {p : Parsed} (h : parseToken tok = some p) :
    p.skip ≤ tok.length ∧ (p.trim = true → p.skip < tok.length) := by
  have hmachine : ∀ dotIdx machine, dotIdx < tok.length →
      (⟨machine, dotIdx + 1, (tok.drop (dotIdx + 1)).getLast? = some ' ' ∨
        (tok.drop (dotIdx + 1)).getLast? = some '\n'⟩ : Parsed) = p →
      p.skip ≤ tok.length ∧ (p.trim = true → p.skip < tok.length) := by
    rintro dotIdx machine hlt rfl
    refine ⟨hlt, fun htrim => ?_⟩
    by_contra hge
    rw [List.drop_eq_nil_of_le (by simpa using hge)] at htrim
    simp at htrim
  unfold parseToken at h
  cases hdot : tok.idxOf? '.' with
  | none =>
    rw [hdot] at h
    obtain rfl := Option.some.inj h
    simp [localCommand]
  | some dotIdx =>
    have hlt : dotIdx < tok.length := by
      obtain ⟨hlt, -⟩ := List.findIdx?_eq_some_iff_getElem.1 hdot
      exact hlt
    rw [hdot] at h
    simp only at h
    split_ifs at h
    · exact hmachine dotIdx 0 hlt (Option.some.inj h)
    · exact hmachine dotIdx _ hlt (Option.some.inj h)
    · obtain rfl := Option.some.inj h
      simp [localCommand]

/-! ## Tokens -/

/-- The first token of a text and what follows it, as `strtok` finds them. -/
def firstToken (s : List Char) : Option (List Char × List Char) :=
  match s.dropWhile fun c => c == '|' with
  | [] => none
  | c :: t => some ((c :: t).takeWhile fun c => c != '|', ((c :: t).dropWhile fun c => c != '|').tail)

theorem firstToken_eq_none {s : List Char} (h : (s.dropWhile fun c => c == '|') = []) :
    firstToken s = none := by
  rw [firstToken, h]

theorem firstToken_eq_some {s t : List Char} (h : (s.dropWhile fun c => c == '|') = t)
    (hne : t ≠ []) :
    firstToken s = some (t.takeWhile fun c => c != '|', (t.dropWhile fun c => c != '|').tail) := by
  obtain ⟨c, t, rfl⟩ := List.exists_cons_of_ne_nil hne
  rw [firstToken, h]

/-- What is left of a text after its first token. -/
def afterToken (s : List Char) : List Char :=
  ((firstToken s).map Prod.snd).getD []

/-- All tokens. -/
def tokens (s : List Char) : List (List Char) :=
  (s.splitOn '|').filter fun t => !t.isEmpty

/-- `createCommandPipe`. `none` is `pthread_exit`. -/
def createCommandPipe (cmdInput : List Char) : Option (List Command) :=
  (tokens cmdInput).mapM createCommand

/-- `createCommandPipe` ends the thread when one of the tokens is not parsable. -/
theorem createCommandPipe_eq_none_iff {s : List Char} :
    createCommandPipe s = none ↔ ∃ tok ∈ tokens s, Unparsable tok := by
  unfold createCommandPipe
  induction tokens s with
  | nil => simp
  | cons tok toks ih =>
    rw [List.mapM_cons]
    cases htok : createCommand tok with
    | none =>
      have hun : Unparsable tok := parseToken_eq_none_iff.1 (Option.map_eq_none_iff.1 htok)
      simp [hun]
    | some cmd =>
      have hok : ¬Unparsable tok := fun h => by
        rw [createCommand, parseToken_eq_none_iff.2 h] at htok
        cases htok
      cases hrest : toks.mapM createCommand with
      | none => simpa [hok] using ih.1 hrest
      | some cmds =>
        have hnot : ¬∃ tok ∈ toks, Unparsable tok := fun h => by
          rw [ih.2 h] at hrest
          cases hrest
        simpa [hok] using hnot

theorem firstToken_eq (s : List Char) :
    firstToken s = (Lib.strtok '|' s).1.map fun tok => (tok, (Lib.strtok '|' s).2) := by
  unfold firstToken Lib.strtok
  cases s.dropWhile fun c => c == '|' with
  | nil => rfl
  | cons c t => rfl

/-- The tokens are what repeated `firstToken` gives. -/
theorem tokens_eq (s : List Char) :
    tokens s = match firstToken s with
      | none => []
      | some (tok, rest) => tok :: tokens rest := by
  rw [firstToken_eq]
  rcases Lib.strtok_cases '|' s with ⟨h, htokens⟩ | ⟨tok, rest, h, htokens⟩
  · rw [h]
    exact htokens
  · rw [h]
    exact htokens

end NetProg.Cluster
