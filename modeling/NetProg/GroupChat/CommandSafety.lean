import NetProg.GroupChat.CommandText

/-!
# Lines that are parsed without a fault

`parseCommand` reads in front of an empty line, hands NULL to `strcmp` for a line of spaces,
and copies tokens of any length into arrays. `SafeLine` says what a line must be to be parsed
without a fault, and `safe_parseCommand_iff` that it must be this. The length of a line is an
`int`, so of a line that is longer than an `int` can say only a part is seen.
-/

namespace NetProg.GroupChat

open Lib
open Cluster (nul atoi)

/-- There is no fault. -/
def Safe {β : Type*} (r : Except Fault β) : Prop :=
  ∃ b, r = .ok b

/-! ## The condition -/

/-- The text from which the next call goes on. -/
def afterToken (d : Char) (s : List Char) : List Char :=
  (strtok d s).2

/-- What follows the name of a command fits. A poll is read option by option as long as there
are any, whatever the count says. A file name that is longer than the array is refused, up to
one character. -/
def SafeArgs (s : List Char) : Cmds → Prop
  | .createGroup => ∀ grpName ip port rest, tokens ' ' s = grpName :: ip :: port :: rest →
    grpName.length < groupNameLen ∧ ip.length < ipLen
  | .joinGroup | .leaveGroup | .findGroup =>
    ∀ name ∈ (tokens ' ' s).head?, name.length < groupNameLen
  | .sendMessage => ∀ grpName ∈ (tokens ' ' s).head?,
    ∀ msg ∈ (tokens '"' (afterToken ' ' s)).head?,
      grpName.length < groupNameLen ∧ msg.length < messageLen
  | .initPoll =>
    let quoted := afterToken ' ' s
    let count := afterToken '"' quoted
    let options := afterToken ' ' count
    ∀ grpName ∈ (tokens ' ' s).head?, ∀ que ∈ (tokens '"' quoted).head?,
      ∀ cnt ∈ (tokens ' ' count).head?,
        grpName.length < groupNameLen ∧ que.length < messageLen ∧
          ∀ i opt, i < (atoi cnt).toNat → (tokens '"' options)[2 * i]? = some opt →
            i < numOptions ∧ opt.length < messageLen
  | .requestFile => ∀ fileName ∈ (tokens ' ' s).head?, fileName.length ≠ fileNameLen
  | .listGroups | .listFiles | .helpCmd | .exitCmd => True

/-- There is a word, and if it names a command, what follows it fits. -/
def SafeText (text : List Char) : Prop :=
  ∃ cmdName ∈ (tokens ' ' text).head?,
    ∀ c : Cmds, cmdName = c.str → SafeArgs (afterToken ' ' text) c

/-- The text without a newline at its end. -/
def chomp (s : List Char) : List Char :=
  if s.getLast? = some '\n' then s.dropLast else s

/-- The line is not empty, and it is a newline or a text that fits. -/
def SafeLine (line : List Char) : Prop :=
  let raw := rawCmd line
  let text := chomp (raw.take (cmdLen raw).toNat)
  let copied := if text.head? = some '\n' then text.tail else text
  0 < cmdLen raw ∧ (text = [] ∨ copied.length < commandLen ∧ SafeText copied)

/-! ## Faults -/

section Safe

variable {β γ : Type}

theorem safe_ok (b : β) : Safe (.ok b) :=
  ⟨b, rfl⟩

theorem not_safe_error (f : Fault) : ¬Safe (.error f : Except Fault β) := by
  rintro ⟨b, hb⟩
  cases hb

theorem safe_bind {r : Except Fault β} {f : β → Except Fault γ} :
    Safe (r >>= f) ↔ ∃ b, r = .ok b ∧ Safe (f b) := by
  cases r with
  | error e =>
    refine iff_of_false (not_safe_error e) ?_
    rintro ⟨b, hb, -⟩
    cases hb
  | ok b =>
    refine ⟨fun h => ⟨b, rfl, h⟩, ?_⟩
    rintro ⟨b', hb, h⟩
    cases hb
    exact h

/-- Two steps of which the second one succeeds. -/
theorem bind_eq_ok {r : Except Fault β} {f : β → Except Fault γ} {c : γ} (h : r >>= f = .ok c) :
    ∃ b, r = .ok b ∧ f b = .ok c := by
  cases r with
  | error e => cases h
  | ok b => exact ⟨b, rfl, h⟩

theorem safe_map {r : Except Fault β} {f : β → γ} : Safe (r.map f) ↔ Safe r := by
  cases r with
  | error e => exact iff_of_false (not_safe_error e) (not_safe_error e)
  | ok b => exact iff_of_true (safe_ok _) (safe_ok b)

theorem safe_bind_pure {r : Except Fault β} {f : β → γ} :
    Safe (r >>= fun b => pure (f b)) ↔ Safe r := by
  rw [safe_bind]
  exact exists_congr fun b => and_iff_left (safe_ok (f b))

variable {cap : ℕ} {s : List Char}

/-- `strcpy` succeeds when the string fits with its end. -/
theorem safe_copy : Safe (copy s : Except Fault (CString Char cap)) ↔ s.length < cap := by
  by_cases h : s.length < cap
  · exact iff_of_true ⟨⟨s, h⟩, copy_chars ⟨s, h⟩⟩ h
  · refine iff_of_false ?_ h
    rw [copy, CString.strcpy_eq_none (not_lt.1 h)]
    exact not_safe_error _

/-- What follows a `strcpy`. -/
theorem safe_copy_bind {f : CString Char cap → Except Fault γ} :
    Safe (copy s >>= f) ↔ ∃ h : s.length < cap, Safe (f ⟨s, h⟩) := by
  rw [safe_bind]
  constructor
  · rintro ⟨dst, hdst, hf⟩
    have hlt : s.length < cap := safe_copy.1 ⟨dst, hdst⟩
    obtain rfl := Except.ok.inj ((copy_chars ⟨s, hlt⟩).symm.trans hdst)
    exact ⟨hlt, hf⟩
  · rintro ⟨hlt, hf⟩
    exact ⟨⟨s, hlt⟩, copy_chars ⟨s, hlt⟩, hf⟩

end Safe

/-! ## The forms -/

variable {s : List Char}

theorem safe_parseName_iff (mk : CString Char groupNameLen → CommandObj) :
    Safe (parseName mk s) ↔ ∀ name ∈ (tokens ' ' s).head?, name.length < groupNameLen := by
  rw [parseName, strtok_fst]
  cases (tokens ' ' s).head? with
  | none => exact iff_of_true (safe_ok _) fun name h => absurd h (Option.not_mem_none name)
  | some name => simpa using safe_map.trans safe_copy

theorem safe_parseRequestFile_iff : Safe (parseRequestFile s) ↔ SafeArgs s .requestFile := by
  rw [parseRequestFile, strtok_fst, SafeArgs]
  cases (tokens ' ' s).head? with
  | none => exact iff_of_true (safe_ok _) fun name h => absurd h (Option.not_mem_none name)
  | some fileName =>
    simp only [Option.mem_some_iff, forall_eq']
    split
    · rename_i hlong
      exact iff_of_true (safe_ok _) (by omega)
    · rename_i hlong
      rw [safe_map, safe_copy]
      omega

theorem safe_parseCreateGroup_iff : Safe (parseCreateGroup s) ↔ SafeArgs s .createGroup := by
  unfold parseCreateGroup SafeArgs
  rcases strtok_cases ' ' s with ⟨h, htokens⟩ | ⟨grpName, s₁, h, htokens⟩
  · rw [h, htokens]
    exact iff_of_true (safe_ok _) fun _ _ _ _ heq => by cases heq
  rcases strtok_cases ' ' s₁ with ⟨h₁, htokens₁⟩ | ⟨ip, s₂, h₁, htokens₁⟩
  · rw [h, htokens, htokens₁]
    simp only [h₁]
    exact iff_of_true (safe_ok _) fun _ _ _ _ heq => by cases heq
  rcases strtok_cases ' ' s₂ with ⟨h₂, htokens₂⟩ | ⟨port, s₃, h₂, htokens₂⟩
  · rw [h, htokens, htokens₁, htokens₂]
    simp only [h₁, h₂]
    exact iff_of_true (safe_ok _) fun _ _ _ _ heq => by cases heq
  · rw [h, htokens, htokens₁, htokens₂]
    simp only [h₁, h₂, safe_copy_bind]
    constructor
    · rintro ⟨hname, hip, -⟩ g i p rest heq
      obtain ⟨rfl, rfl, -⟩ : grpName = g ∧ ip = i ∧ port :: tokens ' ' s₃ = p :: rest := by
        simpa using heq
      exact ⟨hname, hip⟩
    · intro hfit
      obtain ⟨hname, hip⟩ := hfit _ _ _ _ rfl
      exact ⟨hname, hip, safe_ok _⟩

theorem safe_parseSendMessage_iff : Safe (parseSendMessage s) ↔ SafeArgs s .sendMessage := by
  unfold parseSendMessage SafeArgs afterToken
  rw [← strtok_fst, ← strtok_fst]
  rcases strtok ' ' s with ⟨grpName, s₁⟩
  rcases hmsg : strtok '"' s₁ with ⟨msg, s₂⟩
  cases grpName with
  | none => simpa only [hmsg] using iff_of_true (safe_ok _) fun _ h => by cases h
  | some grpName =>
    cases msg with
    | none => simpa [hmsg] using safe_ok _
    | some msg =>
      simp only [hmsg, safe_copy_bind]
      simp [safe_ok, pure, Except.pure]

/-- An entry of `options` is filled in. -/
theorem Options.safe_push_iff {options : Options} {opt : List Char} :
    Safe (options.push opt) ↔ options.strs.length < numOptions ∧ opt.length < messageLen := by
  unfold Options.push
  split
  · rename_i hroom
    rw [safe_map, safe_copy, and_iff_right hroom]
  · rename_i hroom
    exact iff_of_false (not_safe_error _) fun h => hroom h.1

theorem Options.length_of_push {options options' : Options} {opt : List Char}
    (h : options.push opt = .ok options') : options'.strs.length = options.strs.length + 1 := by
  unfold Options.push at h
  split at h
  · cases hcopy : (copy opt : Except Fault (CString Char messageLen)) with
    | error e =>
      rw [hcopy] at h
      cases h
    | ok str =>
      rw [hcopy] at h
      cases h
      exact List.length_append
  · cases h

/-- The loop meets each option that there is, as far as the count says. -/
theorem safe_readOptions_iff (n : ℕ) (options : Options) (s : List Char) :
    Safe (readOptions n options s) ↔ ∀ i opt, i < n → (tokens '"' s)[2 * i]? = some opt →
      options.strs.length + i < numOptions ∧ opt.length < messageLen := by
  induction n generalizing options s with
  | zero => exact iff_of_true (safe_ok _) fun i _ hi => absurd hi i.not_lt_zero
  | succ n ih =>
    rcases strtok_cases '"' s with ⟨h, htokens⟩ | ⟨opt, s₁, h, htokens⟩
    · rw [readOptions, h, htokens]
      exact iff_of_true (safe_ok _) fun _ _ _ ho => by cases ho
    have hnext : ∀ i, (tokens '"' s)[2 * (i + 1)]? = (tokens '"' (strtok '"' s₁).2)[2 * i]? := by
      intro i
      rw [htokens, tokens_strtok, List.getElem?_tail, Nat.mul_add, List.getElem?_cons_succ]
    rw [readOptions, h]
    simp only [safe_bind]
    constructor
    · rintro ⟨options', hpush, hrest⟩ i o hi ho
      cases i with
      | zero =>
        rw [htokens] at ho
        cases ho
        exact Options.safe_push_iff.1 ⟨options', hpush⟩
      | succ i =>
        have := (ih _ _).1 hrest i o (by omega) ((hnext i).symm.trans ho)
        rw [Options.length_of_push hpush] at this
        exact ⟨by omega, this.2⟩
    · intro hfit
      obtain ⟨options', hpush⟩ := Options.safe_push_iff.2
        (hfit 0 opt n.succ_pos (by rw [htokens]; rfl))
      refine ⟨options', hpush, (ih _ _).2 fun i o hi ho => ?_⟩
      have := hfit (i + 1) o (by omega) ((hnext i).trans ho)
      rw [Options.length_of_push hpush]
      exact ⟨by omega, this.2⟩

theorem safe_parseInitPoll_iff : Safe (parseInitPoll s) ↔ SafeArgs s .initPoll := by
  unfold parseInitPoll SafeArgs afterToken
  simp only
  rw [← strtok_fst, ← strtok_fst, ← strtok_fst]
  rcases strtok ' ' s with ⟨grpName, s₁⟩
  rcases hque : strtok '"' s₁ with ⟨que, s₂⟩
  rcases hcnt : strtok ' ' s₂ with ⟨cnt, s₃⟩
  cases grpName with
  | none => simpa [hque, hcnt] using safe_ok _
  | some grpName =>
    cases que with
    | none => simpa [hque, hcnt] using safe_ok _
    | some que =>
      cases cnt with
      | none => simpa [hque, hcnt] using safe_ok _
      | some cnt =>
        have hread := safe_readOptions_iff (atoi cnt).toNat ⟨[], Nat.zero_le _⟩ s₃
        simp only [List.length_nil, Nat.zero_add] at hread
        simp only [safe_copy_bind, safe_bind_pure, hread, exists_prop, Option.mem_some_iff,
          forall_eq']

theorem length_of_readOptions {n : ℕ} {options options' : Options}
    (h : readOptions n options s = .ok (some options')) :
    options'.strs.length = options.strs.length + n := by
  induction n generalizing options s with
  | zero =>
    cases h
    rfl
  | succ n ih =>
    rcases strtok_cases '"' s with ⟨htok, -⟩ | ⟨opt, s₁, htok, -⟩
    · rw [readOptions, htok] at h
      cases h
    · rw [readOptions, htok] at h
      obtain ⟨options₁, hpush, hrest⟩ := bind_eq_ok h
      rw [ih hrest, Options.length_of_push hpush]
      omega

/-- A poll that is accepted has no more options than there is room for. -/
theorem optionCnt_le_of_parseInitPoll {poll : InitPollCmd}
    (h : parseInitPoll s = .ok (some (.initPoll poll))) : poll.optionCnt ≤ numOptions := by
  unfold parseInitPoll at h
  simp only at h
  split at h
  · rename_i cnt _ _ _
    obtain ⟨name, -, h⟩ := bind_eq_ok h
    obtain ⟨que, -, h⟩ := bind_eq_ok h
    obtain ⟨found, hread, h⟩ := bind_eq_ok h
    cases found with
    | none => cases h
    | some options =>
      cases h
      have hlen := length_of_readOptions hread
      have hroom := options.length_le
      rw [List.length_nil] at hlen
      dsimp only
      omega
  · cases h

theorem safe_parseArgs_iff (s : List Char) (c : Cmds) : Safe (parseArgs s c) ↔ SafeArgs s c := by
  cases c with
  | createGroup => exact safe_parseCreateGroup_iff
  | joinGroup => exact safe_parseName_iff .joinGroup
  | leaveGroup => exact safe_parseName_iff .leaveGroup
  | findGroup => exact safe_parseName_iff .findGroup
  | sendMessage => exact safe_parseSendMessage_iff
  | initPoll => exact safe_parseInitPoll_iff
  | requestFile => exact safe_parseRequestFile_iff
  | listGroups | listFiles | helpCmd | exitCmd => exact iff_of_true (safe_ok _) trivial

/-! ## Lines -/

theorem findCmd_eq_some_iff {cmdName : List Char} {c : Cmds} :
    findCmd cmdName = some c ↔ cmdName = c.str := by
  constructor
  · intro h
    simpa using List.find?_some h
  · rintro rfl
    exact findCmd_str c

theorem safe_parseText_iff (text : List Char) : Safe (parseText text) ↔ SafeText text := by
  unfold parseText SafeText afterToken
  rw [← strtok_fst]
  rcases strtok ' ' text with ⟨cmdName, s⟩
  cases cmdName with
  | none =>
    refine iff_of_false (not_safe_error _) ?_
    rintro ⟨cmdName, hname, -⟩
    cases hname
  | some cmdName =>
    simp only [Option.mem_some_iff, exists_eq_left']
    cases hfind : findCmd cmdName with
    | none =>
      refine iff_of_true (safe_ok _) fun c hc => ?_
      rw [findCmd_eq_some_iff.2 hc] at hfind
      cases hfind
    | some c =>
      obtain rfl := findCmd_eq_some_iff.1 hfind
      refine (safe_parseArgs_iff s c).trans ⟨fun h c' hc => ?_, fun h => h c rfl⟩
      obtain rfl := Option.some.inj (hfind.symm.trans (findCmd_eq_some_iff.2 hc))
      exact h

/-- The newline is taken off. -/
theorem take_trimmedLen {raw : List Char} {len : ℕ} (hpos : 0 < len) (hlen : len ≤ raw.length) :
    raw.take (trimmedLen raw len) = chomp (raw.take len) := by
  have hlast : (raw.take len).getLast? = some '\n' ↔ raw.getD (len - 1) nul = '\n' := by
    rw [List.getLast?_eq_getElem?, List.length_take, min_eq_left hlen,
      List.getElem?_take_of_lt (by omega), List.getD_eq_getElem?_getD,
      List.getElem?_eq_getElem (by omega), Option.getD_some, Option.some_inj]
  unfold trimmedLen chomp
  by_cases h : raw.getD (len - 1) nul = '\n'
  · rw [if_pos h, if_pos (hlast.2 h), List.dropLast_eq_take, List.length_take, min_eq_left hlen,
      List.take_take, min_eq_left (by omega)]
  · rw [if_neg h, if_neg fun hl => h (hlast.1 hl)]

theorem cmdText_eq {raw : List Char} {len : ℕ} (hpos : 0 < len) (hraw : raw ≠ []) :
    cmdText raw len =
      if (raw.take len).head? = some '\n' then (raw.take len).tail else raw.take len := by
  obtain ⟨c, raw, rfl⟩ := List.exists_cons_of_ne_nil hraw
  obtain ⟨n, rfl⟩ := Nat.exists_eq_add_of_lt hpos
  simp [cmdText]

theorem cmdLen_le (raw : List Char) : cmdLen raw ≤ raw.length := by
  rw [cmdLen, BitVec.toInt_ofNat', Int.bmod]
  split <;> omega

/-- A line is parsed without a fault, whatever `calloc` does, when it is safe and only then. -/
theorem safe_parseCommand_iff (line : List Char) :
    (∀ calloc, Safe (parseCommand calloc line)) ↔ SafeLine line := by
  have hcalloc : (∀ calloc, Safe (parseCommand calloc line)) ↔ Safe (parseCommand true line) :=
    ⟨fun h => h true, fun h calloc => by
      cases calloc with
      | true => exact h
      | false => exact safe_ok _⟩
  rw [hcalloc, parseCommand, if_pos rfl]
  unfold SafeLine
  generalize rawCmd line = raw
  have hle := cmdLen_le raw
  by_cases hpos : 0 < cmdLen raw
  · have hraw : raw ≠ [] := by
      rintro rfl
      exact absurd hpos (by decide)
    have htake : raw.take (trimmedLen raw (cmdLen raw).toNat) =
        chomp (raw.take (cmdLen raw).toNat) := take_trimmedLen (by omega) (by omega)
    simp only [if_neg (not_le.2 hpos), and_iff_right hpos, ← htake]
    rcases Nat.eq_zero_or_pos (trimmedLen raw (cmdLen raw).toNat) with hlen | hlen
    · rw [if_pos hlen, hlen]
      exact iff_of_true (safe_ok _) (.inl rfl)
    · have hne : raw.take (trimmedLen raw (cmdLen raw).toNat) ≠ [] := by
        simpa [hraw] using hlen.ne'
      rw [if_neg hlen.ne', or_iff_right hne, ← cmdText_eq hlen hraw, safe_copy_bind,
        ← safe_parseText_iff]
      exact ⟨fun h => ⟨h.fst, h.snd⟩, fun h => ⟨h.1, h.2⟩⟩
  · simp only [if_pos (not_lt.1 hpos)]
    exact iff_of_false (not_safe_error _) fun h => hpos h.1

/-- The end of the input, a line of spaces, and a name as long as the array. -/
theorem not_safe_parseCommand : ¬Safe (parseCommand true []) ∧
    ¬Safe (parseCommand true "   \n".toList) ∧
      ¬Safe (parseCommand true "join-group aaaaaaaaaaaaaaaaaaaa\n".toList) := by
  refine ⟨not_safe_error .readOutside, ?_, ?_⟩
  · have hparse : parseCommand true "   \n".toList = .error .nullToken := rfl
    rw [hparse]
    exact not_safe_error .nullToken
  · have hparse : parseCommand true "join-group aaaaaaaaaaaaaaaaaaaa\n".toList =
        .error .overflow := rfl
    rw [hparse]
    exact not_safe_error .overflow

end NetProg.GroupChat
