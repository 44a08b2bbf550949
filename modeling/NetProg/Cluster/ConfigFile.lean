import NetProg.Cluster.Handler
import NetProg.Lib.Stop
import NetProg.Lib.Words

/-!
# The config file

`parseConfigFile` reads a name and an IP again and again, each with `fscanf(" %s")`. Only the first
of the two calls is looked at, so a name at the end of the file gets the IP of the name before it.
What stands at the beginning of a line is not looked at either : the machines are numbered as they
come.

A word may be as long as it likes, and `id` and `ip` have 10 and 15 bytes. `parseConfigFile_iff`
says for which files the parser keeps inside them and what it reads. An IP of 15 characters, as
`192.168.100.200`, is one byte too long. An IP ends at its first NUL.
-/

namespace NetProg.Cluster

open Lib

/-! ## The parser -/

/-- The size of `id`. -/
def idSize : ℕ :=
  10

/-- The size of `ip`. -/
def ipSize : ℕ :=
  15

/-- `fscanf` with `" %s"` : the word, and the rest of the file. `none` is `EOF`. -/
def scanWord (file : List Char) : Option (List Char × List Char) :=
  match file.dropWhile isSpace with
  | [] => none
  | c :: cs =>
    some ((c :: cs).takeWhile fun c => !isSpace c, (c :: cs).dropWhile fun c => !isSpace c)

/-- `strdup` : the string up to its first NUL. -/
def strdup (s : List Char) : List Char :=
  s.takeWhile (· ≠ '\x00')

/-- `ip_arr[i] = strdup(ip)`, behind the assertion that there is room. -/
def Config.push (config : Config) (ip : List Char) : Option Config :=
  if h : config.count < maxClientsAllowed then
    some ⟨config.data ++ [strdup ip], by rw [List.length_append]; exact h⟩
  else none

theorem length_lt_of_scanWord {file w rest : List Char} (h : scanWord file = some (w, rest)) :
    rest.length < file.length := by
  have hle := (List.dropWhile_sublist (l := file) isSpace).length_le
  unfold scanWord at h
  split at h
  · cases h
  · rename_i c cs hdrop
    obtain ⟨-, rfl⟩ := Prod.mk.inj (Option.some.inj h)
    have hc := sep_of_dropWhile_eq_cons hdrop
    rw [hdrop, List.length_cons] at hle
    rw [List.dropWhile_cons_of_pos (p := fun c => !isSpace c) (by simpa using hc)]
    have hsub := (List.dropWhile_sublist (l := cs) fun c => !isSpace c).length_le
    omega

/-- What one turn of the loop reads : a name, and an IP if there is one. -/
def scanEntry (file : List Char) : Option ((List Char × Option (List Char)) × List Char) :=
  (scanWord file).map fun r =>
    match scanWord r.2 with
    | none => ((r.1, none), r.2)
    | some (ip, rest) => ((r.1, some ip), rest)

theorem length_lt_of_scanEntry {e : List Char × Option (List Char)} {file rest : List Char}
    (h : scanEntry file = some (e, rest)) : rest.length < file.length := by
  obtain ⟨⟨id, rest'⟩, hid, heq⟩ := Option.map_eq_some_iff.1 h
  have hlt := length_lt_of_scanWord hid
  split at heq
  · obtain ⟨-, rfl⟩ := Prod.mk.inj heq
    exact hlt
  · rename_i ip rest'' hip
    obtain ⟨-, rfl⟩ := Prod.mk.inj heq
    exact (length_lt_of_scanWord hip).trans hlt

/-- The words have room in the arrays. -/
def WordsFit (e : List Char × Option (List Char)) : Prop :=
  e.1.length < idSize ∧ ∀ ip ∈ e.2, ip.length < ipSize

instance (e : List Char × Option (List Char)) : Decidable (WordsFit e) :=
  inferInstanceAs (Decidable (_ ∧ _))

/-- The loop of `parseConfigFile`, with the string that is in `ip`. A word that is too long is a
write outside an array. -/
def parseLines (ip : List Char) (config : Config) (file : List Char) : Except Stop Config :=
  match _ : scanEntry file with
  | none => .ok config
  | some (e, rest) =>
    if WordsFit e then
      (Stop.check (config.push (e.2.getD ip))).bind fun config =>
        parseLines (e.2.getD ip) config rest
    else .error .fault
termination_by file.length
decreasing_by exact length_lt_of_scanEntry ‹_›

/-- `parseConfigFile`, with the string that is in `ip` at the beginning. -/
def parseConfigFile (ip file : List Char) : Except Stop Config :=
  parseLines ip ⟨[], Nat.zero_le _⟩ file

/-! ## The words of a file -/

/-- The words in pairs. The last one may be alone. -/
def entries : List (List Char) → List (List Char × Option (List Char))
  | [] => []
  | [id] => [(id, none)]
  | id :: ip :: ws => (id, some ip) :: entries ws

/-- The IPs of the pairs. A word that is alone has the IP in front of it. -/
def ips (ip : List Char) : List (List Char × Option (List Char)) → List (List Char)
  | [] => []
  | e :: es => strdup (e.2.getD ip) :: ips (e.2.getD ip) es

/-- `fscanf` returns the first word. -/
theorem words_of_scanWord (file : List Char) :
    words isSpace file = ((scanWord file).map fun r => r.1 :: words isSpace r.2).getD [] := by
  unfold scanWord
  cases hdrop : file.dropWhile isSpace with
  | nil =>
    rw [← words_of_dropWhile, hdrop]
    rfl
  | cons c cs => exact words_of_dropWhile_eq_cons hdrop

theorem entries_of_scanEntry (file : List Char) :
    entries (words isSpace file) =
      ((scanEntry file).map fun r => r.1 :: entries (words isSpace r.2)).getD [] := by
  rw [words_of_scanWord, scanEntry]
  cases scanWord file with
  | none => rfl
  | some r =>
    rw [Option.map_some, Option.map_some, Option.map_some, Option.getD_some, Option.getD_some]
    have hrest := words_of_scanWord r.2
    cases hip : scanWord r.2 with
    | none =>
      rw [hip] at hrest
      simp only [hrest]
      rfl
    | some r' =>
      rw [hip] at hrest
      rw [hrest]
      rfl

/-! ## The loop on the pairs -/

/-- The loop of `parseConfigFile`, on the pairs of words. -/
def readEntries (ip : List Char) (config : Config) :
    List (List Char × Option (List Char)) → Except Stop Config
  | [] => .ok config
  | e :: es =>
    if WordsFit e then
      (Stop.check (config.push (e.2.getD ip))).bind fun config =>
        readEntries (e.2.getD ip) config es
    else .error .fault

theorem parseLines_of_none {ip file : List Char} {config : Config} (h : scanEntry file = none) :
    parseLines ip config file = .ok config := by
  unfold parseLines
  split
  · rfl
  · rename_i h'
    cases h.symm.trans h'

theorem parseLines_of_some {ip file rest : List Char} {config : Config}
    {e : List Char × Option (List Char)} (h : scanEntry file = some (e, rest)) :
    parseLines ip config file =
      if WordsFit e then
        (Stop.check (config.push (e.2.getD ip))).bind fun config =>
          parseLines (e.2.getD ip) config rest
      else .error .fault := by
  conv_lhs => unfold parseLines
  split
  · rename_i h'
    cases h.symm.trans h'
  · rename_i h'
    cases h.symm.trans h'
    rfl

theorem parseLines_eq (ip : List Char) (config : Config) (file : List Char) :
    parseLines ip config file = readEntries ip config (entries (words isSpace file)) := by
  induction ip, config, file using parseLines.induct with
  | case1 ip config file h =>
    rw [parseLines_of_none h, entries_of_scanEntry, h]
    rfl
  | case2 ip config file e rest h hfit ih =>
    rw [parseLines_of_some h, entries_of_scanEntry, h, Option.map_some, Option.getD_some,
      readEntries, if_pos hfit, if_pos hfit]
    exact congrArg _ (funext ih)
  | case3 ip config file e rest h hfit =>
    rw [parseLines_of_some h, entries_of_scanEntry, h, Option.map_some, Option.getD_some,
      readEntries, if_neg hfit, if_neg hfit]

theorem push_bind_eq_ok_iff {config config' : Config} {ip : List Char}
    {f : Config → Except Stop Config} :
    (Stop.check (config.push ip)).bind f = .ok config' ↔
      ∃ c : Config, c.data = config.data ++ [strdup ip] ∧ f c = .ok config' := by
  unfold Config.push
  split_ifs with hroom
  · refine ⟨fun h => ⟨_, rfl, h⟩, ?_⟩
    rintro ⟨⟨data, hlen⟩, rfl, h⟩
    exact h
  · refine iff_of_false (fun h => by cases h) ?_
    rintro ⟨c, hdata, -⟩
    have hlen := c.length_le
    rw [hdata, List.length_append] at hlen
    exact hroom hlen

/-- The pairs that are read, and what is read. -/
theorem readEntries_eq_ok_iff {es : List (List Char × Option (List Char))} {ip : List Char}
    {config config' : Config} :
    readEntries ip config es = .ok config' ↔
      (∀ e ∈ es, WordsFit e) ∧ config'.data = config.data ++ ips ip es := by
  induction es generalizing ip config with
  | nil =>
    rw [readEntries, ips, List.append_nil, and_iff_right (List.forall_mem_nil _)]
    refine ⟨fun h => by rw [Except.ok.inj h], fun h => ?_⟩
    obtain ⟨data, hlen⟩ := config'
    obtain rfl := h
    rfl
  | cons e es ih =>
    rw [readEntries, List.forall_mem_cons, ips]
    split_ifs with he
    · rw [push_bind_eq_ok_iff, and_iff_right he]
      constructor
      · rintro ⟨c, hdata, h⟩
        obtain ⟨hfit, h⟩ := ih.1 h
        refine ⟨hfit, ?_⟩
        rw [h, hdata, List.append_assoc, List.singleton_append]
      · rintro ⟨hfit, h⟩
        have hlen := config'.length_le
        rw [h, List.length_append, List.length_cons] at hlen
        have hroom : (config.data ++ [strdup (e.2.getD ip)]).length ≤ maxClientsAllowed := by
          rw [List.length_append, List.length_singleton]
          omega
        refine ⟨⟨_, hroom⟩, rfl, ih.2 ⟨hfit, ?_⟩⟩
        rw [h, List.append_assoc, List.singleton_append]
    · exact iff_of_false (fun h => by cases h) fun h => he h.1.1

/-- Behind the machines there is room for, one more pair is read. -/
theorem readEntries_eq_fault_iff {es : List (List Char × Option (List Char))} {ip : List Char}
    {config : Config} :
    readEntries ip config es = .error .fault ↔
      ∃ e ∈ es.take (maxClientsAllowed - config.count + 1), ¬WordsFit e := by
  induction es generalizing ip config with
  | nil => exact iff_of_false (fun h => by cases h) (by simp)
  | cons e es ih =>
    rw [readEntries, List.take_succ_cons, List.exists_mem_cons_iff]
    split_ifs with he
    · rw [or_iff_right (not_not_intro he), Config.push]
      split_ifs with hroom
      · have hcount : maxClientsAllowed - config.count =
            maxClientsAllowed - (config.count + 1) + 1 := by
          omega
        rw [hcount, Stop.check_some, Except.bind, ih, Config.count, List.length_append]
        rfl
      · rw [Nat.sub_eq_zero_of_le (not_lt.1 hroom), List.take_zero]
        exact iff_of_false (by simp [Except.bind]) (by simp)
    · exact iff_of_true rfl (.inl he)

/-! ## The config file -/

/-- The parser has a result exactly when all words fit, and then the machines are the pairs in
order. It writes outside an array exactly when a word of the first 101 pairs does not fit. -/
theorem parseConfigFile_iff (ip file : List Char) :
    (∀ config, parseConfigFile ip file = .ok config ↔
      (∀ e ∈ entries (words isSpace file), WordsFit e) ∧
        config.data = ips ip (entries (words isSpace file))) ∧
    (parseConfigFile ip file = .error .fault ↔
      ∃ e ∈ (entries (words isSpace file)).take (maxClientsAllowed + 1), ¬WordsFit e) := by
  unfold parseConfigFile
  rw [parseLines_eq]
  refine ⟨fun config => ?_, readEntries_eq_fault_iff⟩
  rw [readEntries_eq_ok_iff, List.nil_append]

/-- An IP of 15 characters. -/
example : ¬WordsFit (['n', '1'], some "192.168.100.200".toList) := by
  decide

end NetProg.Cluster
