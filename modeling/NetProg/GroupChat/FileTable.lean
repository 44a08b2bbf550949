import NetProg.GroupChat.Children
import NetProg.GroupChat.Commands

/-!
# The table of file names

`file_names` has `MAX_FILE_ALLOWED` rows of `FILE_NAME_LEN` bytes. `getFileList` fills it from
the directory of the files before the first command, and `requestFileCmdHandler` adds a name
for each file that is received, on a command of the user or for a received list. Only the
handler looks at `file_count`, and with `==`. Nobody looks at the length of a name.

`fileTable_iff` says in which runs the table keeps to its bounds : the directory fits, and every
name that is added does. A character of a name is a byte.
-/

namespace NetProg.GroupChat

/-! ## The directory -/

/-- `d_type`. -/
inductive DType where
  /-- `DT_REG`. -/
  | reg
  | other
deriving DecidableEq, Repr

/-- `struct dirent`. -/
structure DirEnt where
  dType : DType
  dName : String
deriving DecidableEq, Repr

/-- What `readdir` returns one after the other. A directory has no name twice. -/
structure Directory where
  entries : List DirEnt
  nodup : (entries.map DirEnt.dName).Nodup

/-- The loop of `getFileList`. -/
def readEntries : List DirEnt → List String → List String
  | [], files => files
  | dir :: entries, files =>
    readEntries entries (if dir.dType = .reg then files ++ [dir.dName] else files)

/-- `getFileList` : the result and the table. There is no directory when `mkdir` or `opendir`
fails. -/
def getFileList (dir : Option Directory) (files : List String) : ℤ × List String :=
  match dir with
  | none => (-1, files)
  | some d => (0, readEntries d.entries files)

/-- The client at its first command. -/
def Directory.client (dir : Option Directory) : Client :=
  newClient (getFileList dir []).2

/-- The names of the regular files. -/
def Directory.fileNames (d : Directory) : List String :=
  (d.entries.filter fun dir => dir.dType = .reg).map DirEnt.dName

/-- The regular files are not too many, and their names not too long. -/
def Directory.Fits (d : Directory) : Prop :=
  d.fileNames.length ≤ maxFileAllowed ∧ ∀ name ∈ d.fileNames, name.length < fileNameLen

/-! ## The table -/

/-- The names fit in the table, each with the byte that ends it, and none is there twice. -/
structure TableOk (files : List String) : Prop where
  count : files.length ≤ maxFileAllowed
  nodup : files.Nodup
  fits : ∀ name ∈ files, name.length < fileNameLen

/-- The table is within its bounds, and no call that failed has changed it. -/
def FileTable (s : Client) : Prop :=
  TableOk s.files ∧ ∀ c ∈ s.calls, c.result ≠ 0 → c.after = c.before

/-- The name of a file that is taken for received fits in a row. -/
def NameFits (s : Client) : ClientLabel → Prop
  | .waitReturns k => ∀ w ∈ s.waiting, s.children[k]?.any Child.exitedOk = true →
      w.1.length < fileNameLen
  | _ => True

instance (s : Client) (l : ClientLabel) : Decidable (NameFits s l) :=
  match l with
  | .waitReturns k => inferInstanceAs (Decidable (∀ w ∈ s.waiting,
      s.children[k]?.any Child.exitedOk = true → w.1.length < fileNameLen))
  | .initPoll => .isTrue trivial
  | .requestFile _ _ => .isTrue trivial
  | .ends _ _ => .isTrue trivial

/-! ## The start -/

theorem readEntries_eq (entries : List DirEnt) (files : List String) :
    readEntries entries files =
      files ++ (entries.filter fun dir => dir.dType = .reg).map DirEnt.dName := by
  induction entries generalizing files with
  | nil => simp [readEntries]
  | cons dir entries ih =>
    rw [readEntries, ih, List.filter_cons]
    by_cases hreg : dir.dType = .reg
    · simp [hreg]
    · simp [hreg]

theorem files_client (d : Directory) : (Directory.client (some d)).files = d.fileNames :=
  (readEntries_eq d.entries []).trans (List.nil_append _)

/-- `getFileList` stays within the table if the directory fits. -/
theorem tableOk_fileNames_iff (d : Directory) : TableOk d.fileNames ↔ d.Fits :=
  ⟨fun h => ⟨h.count, h.fits⟩,
    fun h => ⟨h.1, d.nodup.sublist (List.filter_sublist.map _), h.2⟩⟩

theorem tableOk_client_iff (dir : Option Directory) :
    TableOk (Directory.client dir).files ↔ ∀ d ∈ dir, d.Fits := by
  cases dir with
  | none => exact iff_of_true ⟨Nat.zero_le _, List.nodup_nil, List.forall_mem_nil _⟩ (by simp)
  | some d =>
    rw [files_client, tableOk_fileNames_iff]
    simp

/-! ## Steps -/

/-- The table is right, and a request that waits has found its name missing and the table not
full. -/
structure TableInv (s : Client) : Prop where
  table : FileTable s
  waiting : ∀ w ∈ s.waiting, w.1 ∉ s.files ∧ s.files.length ≠ maxFileAllowed

theorem not_mem_of_refused {socket : Bool} {fileName : String} {files : List String}
    (h : refused socket fileName files = none) :
    fileName ∉ files ∧ files.length ≠ maxFileAllowed := by
  unfold refused at h
  split at h
  · cases h
  · rename_i hmem
    split at h
    · cases h
    · rename_i hfull
      exact ⟨hmem, hfull⟩

/-- One name more. -/
theorem tableOk_append_iff {files : List String} {name : String} (h : TableOk files)
    (hnew : name ∉ files) (hroom : files.length ≠ maxFileAllowed) :
    TableOk (files ++ [name]) ↔ name.length < fileNameLen := by
  constructor
  · exact fun h' => h'.fits name (by simp)
  · intro hlen
    have hcount := h.count
    refine ⟨?_, ?_, List.forall_mem_append.2 ⟨h.fits, List.forall_mem_singleton.2 hlen⟩⟩
    · rw [List.length_append, List.length_singleton]
      omega
    · simpa using h.nodup.concat hnew

/-- What `wait` leads to. -/
theorem tableOk_afterWait_iff {files : List String} {name : String} {status : Status}
    (h : TableOk files) (hnew : name ∉ files) (hroom : files.length ≠ maxFileAllowed) :
    TableOk (afterWait status name files).2 ↔
      (status.success = true → name.length < fileNameLen) := by
  unfold afterWait
  split
  · rename_i hok
    rw [tableOk_append_iff h hnew hroom]
    exact ⟨fun hlen _ => hlen, fun hlen => hlen hok⟩
  · rename_i hok
    exact iff_of_true h fun h' => absurd h' hok

theorem afterWait_unchanged {files : List String} {name : String} {status : Status}
    (h : (afterWait status name files).1 ≠ 0) : (afterWait status name files).2 = files := by
  unfold afterWait at h ⊢
  split at h
  · exact absurd rfl h
  · rename_i hok
    rw [if_neg hok]

/-- One finished call more. -/
theorem fileTable_append {s s' : Client} {c : Call} (h : FileTable s)
    (hcalls : s'.calls = s.calls ++ [c]) (hc : c.result ≠ 0 → c.after = c.before) :
    FileTable s' ↔ TableOk s'.files := by
  rw [FileTable, hcalls]
  exact and_iff_left (List.forall_mem_append.2 ⟨h.2, List.forall_mem_singleton.2 hc⟩)

/-- What one step keeps and breaks. -/
theorem TableInv.step {s s' : Client} {l : ClientLabel} (h : TableInv s)
    (hs : clientStep s l = some s') :
    (NameFits s l → TableInv s') ∧ (¬NameFits s l → ¬FileTable s') := by
  cases l with
  | initPoll =>
    obtain ⟨-, rfl⟩ := clientStep_initPoll.1 hs
    exact ⟨fun _ => ⟨h.table, h.waiting⟩, fun hn => absurd trivial hn⟩
  | requestFile fileName socket =>
    refine ⟨fun _ => ?_, fun hn => absurd trivial hn⟩
    obtain ⟨hwait, ⟨result, -, rfl⟩ | ⟨hpass, rfl⟩⟩ := clientStep_requestFile.1 hs
    · exact ⟨(fileTable_append h.table rfl fun _ => rfl).2 h.table.1, h.waiting⟩
    · refine ⟨h.table, fun w hw => ?_⟩
      obtain rfl := Option.some.inj hw
      exact not_mem_of_refused hpass
  | ends k status =>
    obtain ⟨-, rfl⟩ := clientStep_ends.1 hs
    exact ⟨fun _ => ⟨h.table, h.waiting⟩, fun hn => absurd trivial hn⟩
  | waitReturns k =>
    obtain ⟨fileName, own, status, hwait, hk, rfl⟩ := clientStep_waitReturns.1 hs
    obtain ⟨hnew, hroom⟩ := h.waiting _ hwait
    have hfits : NameFits s (.waitReturns k) ↔
        (status.success = true → fileName.length < fileNameLen) := by
      simp [NameFits, hwait, hk, Child.exitedOk]
    rw [hfits, ← tableOk_afterWait_iff h.table.1 hnew hroom]
    refine ⟨fun htable => ⟨?_, fun w hw => by cases hw⟩, fun hbad htable => hbad htable.1⟩
    exact (fileTable_append h.table rfl afterWait_unchanged).2 htable

/-! ## Result -/

/-- A failed `getFileList` leaves the table as it is. Otherwise the table keeps to its bounds from
then on if and only if the directory fits, and so does the name of every file that is taken for
received. -/
theorem fileTable_iff (dir : Option Directory) (ls : List ClientLabel)
    (hr : (run clientStep (Directory.client dir) ls).isSome) :
    ((getFileList dir []).1 ≠ 0 → (getFileList dir []).2 = []) ∧
      (Along clientStep FileTable (Directory.client dir) ls ↔
        (∀ d ∈ dir, d.Fits) ∧ StepsMeet clientStep NameFits (Directory.client dir) ls) := by
  refine ⟨fun hne => ?_, ?_⟩
  · cases dir with
    | none => rfl
    | some d => exact absurd rfl hne
  rw [← tableOk_client_iff]
  by_cases hstart : TableOk (Directory.client dir).files
  · have hinv : TableInv (Directory.client dir) := ⟨⟨hstart, List.forall_mem_nil _⟩, by
      simp [Directory.client, newClient]⟩
    rw [and_iff_right hstart]
    exact along_iff_stepsMeet (I := TableInv) (fun _ h => h.table)
      (fun _ _ _ h hfits hs => (h.step hs).1 hfits)
      (fun _ _ _ h hn hs => (h.step hs).2 hn) hinv hr
  · exact iff_of_false (fun h => hstart h.head.1) fun h => hstart h.1

/-- One file at the start. -/
def oneFile : Directory :=
  ⟨[⟨.other, "."⟩, ⟨.reg, "a"⟩], by decide⟩

/-- A file that is there, and one that is received. -/
theorem fileTable_oneFile : Along clientStep FileTable (Directory.client (some oneFile))
    [.requestFile "a" true, .requestFile "b" true, .ends 0 (.exited 0), .waitReturns 0] := by
  refine (fileTable_iff (some oneFile) _ (by decide)).2.2 ⟨?_, by decide⟩
  rintro d hd
  obtain rfl := Option.some.inj hd
  exact ⟨by decide, by decide⟩

/-- The files `A`, `B` and so on, one more than the table has rows. -/
def manyFiles : Directory where
  entries := (List.range 31).map fun i => ⟨.reg, String.singleton (Char.ofNat (65 + i))⟩
  nodup := by
    have hchars : ((List.range 31).map fun i => Char.ofNat (65 + i)).Nodup := by decide
    simpa [Function.comp_def] using hchars.map fun _ _ => String.singleton_inj.1

theorem length_fileNames_manyFiles : manyFiles.fileNames.length = 31 := by
  simp [Directory.fileNames, manyFiles, List.filter_map, Function.comp_def]

theorem not_fileTable_manyFiles :
    ¬Along clientStep FileTable (Directory.client (some manyFiles)) [] := by
  intro h
  have hcount := ((tableOk_client_iff _).1 h.head.1 manyFiles rfl).1
  rw [length_fileNames_manyFiles] at hcount
  exact absurd hcount (by decide)

end NetProg.GroupChat
