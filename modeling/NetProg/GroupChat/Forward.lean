import NetProg.GroupChat.Groups

/-!
# Forwarding file lists

Once a minute a client multicasts the names of its files to its groups
(`sigAlrmHandler`). A client that receives such a message requests the files it lacks and
passes the message on to those of its groups that are not in the message's list of visited
groups. The list is kept in two structures : `m`, the received message, is only read, and
`out`, the message to send, is only written.

`passOn` is the inner loop over the groups and `handleFile` the body of the outer loop
over the files. Both write the name of the next group at `m.grpCount`, which does not
move, while they raise `out.grpCount`. `ForwardsOnce` is what forwarding is for : one copy
to each group that was not visited, as long as the list has room, and a list in every copy
that names the groups visited so far. `forwardsOnce_iff` says when the code does that.
-/

namespace NetProg.GroupChat

/-- `MAX_GROUPS`. -/
def maxGroups : ℤ :=
  20

/-- `MAX_FILE_ALLOWED`. -/
def maxFileAllowed : ℕ :=
  30

/-- `struct file_list_multicast`. The two arrays are read and written as memory, so that an
index outside them has a value too. -/
structure FileListMulticast where
  fileList : ℕ → String
  groups : ℤ → String
  fileCount : ℤ
  grpCount : ℤ

/-- The entries of the visited list that count. -/
def FileListMulticast.visited (m : FileListMulticast) : List String :=
  (List.range m.grpCount.toNat).map fun i : ℕ => m.groups i

/-- A message given to `sendto`. -/
structure Copy where
  target : Group
  msg : FileListMulticast

/-! ## The handler -/

/-- `requestFileCmdHandler` : its result and the client's files. `received` says that the
child that waits for the file exits with success. -/
def requestFileCmdHandler (received : Bool) (fileName : String) (files : List String) :
    ℤ × List String :=
  if fileName ∈ files then (-1, files)
  else if files.length = maxFileAllowed then (-4, files)
  else if received then (0, files ++ [fileName])
  else (-2, files)

/-- The loop that sets `found_group`. -/
def foundGroup (m : FileListMulticast) (name : String) : Bool :=
  m.visited.any fun visited => visited == name

/-- `out` with the next group : the name goes to the index `grpCount` of `m`. -/
def addGroup (m out : FileListMulticast) (name : String) : FileListMulticast :=
  { out with groups := Function.update out.groups m.grpCount name, grpCount := out.grpCount + 1 }

/-- Pass the message on to the groups, from `mc_list->head`. The results are the message as
it stands after the loop and the copies sent. -/
def passOn (m : FileListMulticast) :
    FileListMulticast → List Group → FileListMulticast × List Copy
  | out, [] => (out, [])
  | out, mcGroup :: groups =>
    if foundGroup m mcGroup.name then passOn m out groups
    else if m.grpCount ≥ maxGroups then (out, [])
    else
      let out := addGroup m out mcGroup.name
      ((passOn m out groups).1, ⟨mcGroup, out⟩ :: (passOn m out groups).2)

/-- What the handler changes : the message to send, the client's files, the copies sent. -/
structure Handling where
  out : FileListMulticast
  files : List String
  sent : List Copy

/-- The body of the loop over the files of the message. -/
def handleFile (received : ℕ → Bool) (m : FileListMulticast) (groups : List Group)
    (h : Handling) (i : ℕ) : Handling where
  out := (passOn m h.out groups).1
  files := (requestFileCmdHandler (received i) (m.fileList i) h.files).2
  sent := h.sent ++ (passOn m h.out groups).2

/-- The `FILE_LIST_MULTICAST` branch of `main`, for a client with the given files and
groups. `received i` says whether the request for the `i`-th file succeeds. -/
def handleFileList (received : ℕ → Bool) (files : List String) (groups : List Group)
    (m : FileListMulticast) : Handling :=
  (List.range m.fileCount.toNat).foldl (handleFile received m groups) ⟨m, files, []⟩

/-- `sigAlrmHandler` : the copies sent. `none` means that the client exits. The message is
built on the stack over what was there. -/
def sigAlrmHandler (stack : FileListMulticast) (files : List String) (groups : List Group) :
    Option (List Copy) :=
  if files.length > 0 then
    if groups.length > maxGroups then none
    else
      let msg : FileListMulticast :=
        { fileList := fun i => files.getD i (stack.fileList i)
          groups := fun i =>
            if 0 ≤ i then (groups.map Group.name).getD i.toNat (stack.groups i) else stack.groups i
          fileCount := files.length
          grpCount := groups.length }
      some (groups.map fun mcGroup => ⟨mcGroup, msg⟩)
  else some []

/-! ## What forwarding is for -/

/-- The joined groups that are not in the visited list. -/
def unvisited (m : FileListMulticast) (groups : List Group) : List Group :=
  groups.filter fun g => !foundGroup m g.name

/-- No copy goes to a visited group, one copy goes to each other group as long as the list
has room, and every copy lists the groups visited so far, its target last. -/
structure ForwardsOnce (m : FileListMulticast) (groups : List Group) (sent : List Copy) : Prop where
  notVisited : ∀ c ∈ sent, c.target.name ∉ m.visited
  once : (sent.map Copy.target).Nodup ∧ sent.map Copy.target ⊆ unvisited m groups ∧
    sent.length = min (unvisited m groups).length (maxGroups - m.grpCount).toNat
  room : ∀ c ∈ sent, c.msg.grpCount ≤ maxGroups
  lists : ∀ k c, sent[k]? = some c →
    c.msg.visited = m.visited ++ (sent.take (k + 1)).map fun d => d.target.name

/-! ## The loops -/

/-- Send to every group given. -/
def sendAll (m : FileListMulticast) :
    FileListMulticast → List Group → FileListMulticast × List Copy
  | out, [] => (out, [])
  | out, g :: gs =>
    let out := addGroup m out g.name
    ((sendAll m out gs).1, ⟨g, out⟩ :: (sendAll m out gs).2)

variable {m : FileListMulticast} {groups : List Group}

theorem foundGroup_iff (name : String) : foundGroup m name = true ↔ name ∈ m.visited := by
  simp [foundGroup]

/-- With room in the received list, the loop sends to every unvisited group. -/
theorem passOn_of_lt (hlt : m.grpCount < maxGroups) (out : FileListMulticast) :
    passOn m out groups = sendAll m out (unvisited m groups) := by
  induction groups generalizing out with
  | nil => rfl
  | cons g groups ih =>
    by_cases hg : foundGroup m g.name = true
    · simp only [passOn, hg, if_true, ih, unvisited, List.filter_cons]
      simp
    · have hge : ¬m.grpCount ≥ maxGroups := not_le.2 hlt
      simp only [passOn, hg, if_false, hge, ih, unvisited, List.filter_cons]
      simp [sendAll]

/-- Without room it stops at the first unvisited group. -/
theorem passOn_of_ge (hge : m.grpCount ≥ maxGroups) (out : FileListMulticast) :
    passOn m out groups = (out, []) := by
  induction groups generalizing out with
  | nil => rfl
  | cons g groups ih =>
    by_cases hg : foundGroup m g.name = true
    · simp only [passOn, hg, if_true, ih]
    · simp [passOn, hg, hge]

theorem sendAll_targets (out : FileListMulticast) (gs : List Group) :
    (sendAll m out gs).2.map Copy.target = gs := by
  induction gs generalizing out with
  | nil => rfl
  | cons g gs ih => simp [sendAll, ih]

theorem passOn_targets (hlt : m.grpCount < maxGroups) (out : FileListMulticast) :
    (passOn m out groups).2.map Copy.target = unvisited m groups := by
  rw [passOn_of_lt hlt, sendAll_targets]

/-- The handler sends as often to every unvisited group as there are files in the message. -/
theorem handle_targets (hlt : m.grpCount < maxGroups) (received : ℕ → Bool) (h : Handling)
    (is : List ℕ) :
    (is.foldl (handleFile received m groups) h).sent.map Copy.target =
      h.sent.map Copy.target ++ (List.replicate is.length (unvisited m groups)).flatten := by
  induction is generalizing h with
  | nil => simp
  | cons i is ih =>
    rw [List.foldl_cons, ih, handleFile, List.map_append, passOn_targets hlt, List.length_cons,
      List.replicate_succ, List.flatten_cons, List.append_assoc]

/-- It sends nothing when the received list is full or every group was visited. -/
theorem handle_sends_nothing (hno : ∀ out, passOn m out groups = (out, [])) (received : ℕ → Bool)
    (h : Handling) (is : List ℕ) :
    (is.foldl (handleFile received m groups) h).sent = h.sent := by
  induction is generalizing h with
  | nil => rfl
  | cons i is ih => simp [List.foldl_cons, ih, handleFile, hno]

/-! ## When the handler forwards once -/

@[simp] theorem visited_length (m : FileListMulticast) : m.visited.length = m.grpCount.toNat := by
  simp [FileListMulticast.visited]

theorem visited_getElem? {i : ℕ} (hi : i < m.grpCount.toNat) : m.visited[i]? = some (m.groups i) := by
  simp [FileListMulticast.visited, hi]

/-- One group more, when `out` is still the received message. -/
theorem visited_addGroup (hpos : 0 ≤ m.grpCount) (name : String) :
    (addGroup m m name).visited = m.visited ++ [name] := by
  have hsucc : (m.grpCount + 1).toNat = m.grpCount.toNat + 1 := by omega
  have hold : ∀ i ∈ List.range m.grpCount.toNat,
      Function.update m.groups m.grpCount name i = m.groups i := fun i hi => by
    rw [Function.update_of_ne]
    have := List.mem_range.1 hi
    omega
  simp only [FileListMulticast.visited, addGroup, hsucc, List.range_succ, List.map_append,
    List.map_cons, List.map_nil, List.map_congr_left hold, Int.toNat_of_nonneg hpos,
    Function.update_self]

/-- The second group overwrites the name of the first. -/
theorem visited_addGroup_twice (hpos : 0 ≤ m.grpCount) (name name' : String) :
    (addGroup m (addGroup m m name) name').visited[m.grpCount.toNat]? = some name' := by
  have hlt : m.grpCount.toNat < (addGroup m (addGroup m m name) name').grpCount.toNat := by
    simp only [addGroup]
    omega
  rw [visited_getElem? hlt]
  simp [addGroup, hpos]

/-- There is nothing to forward, or the received list is full, or there is one group to
forward one file to. -/
def ForwardsWell (m : FileListMulticast) (groups : List Group) : Prop :=
  unvisited m groups = [] ∨ m.grpCount = maxGroups ∨
    0 ≤ m.grpCount ∧ (unvisited m groups).length = 1 ∧ m.fileCount = 1

theorem forwardsOnce_nil (h : unvisited m groups = [] ∨ m.grpCount = maxGroups) :
    ForwardsOnce m groups [] where
  notVisited := by simp
  once := by
    refine ⟨List.nodup_nil, by simp, ?_⟩
    rcases h with h | h <;> simp [h]
  room := by simp
  lists := by simp

/-- The condition is what it takes when there is a group to forward to and room for it. -/
theorem forwardsOnce_sendAll_iff {u : Group} {us : List Group} (hlt : m.grpCount < maxGroups)
    (hu : unvisited m groups = u :: us) (hnd : ((u :: us).map Group.name).Nodup) :
    ForwardsOnce m groups (sendAll m m (u :: us)).2 ↔ 0 ≤ m.grpCount ∧ us = [] := by
  constructor
  · intro h
    have hfirst : (addGroup m m u.name).visited = m.visited ++ [u.name] := h.lists 0 _ rfl
    have hpos : 0 ≤ m.grpCount := by
      have hlen := congrArg List.length hfirst
      simp only [visited_length, List.length_append, List.length_singleton, addGroup] at hlen
      omega
    refine ⟨hpos, ?_⟩
    rcases us with _ | ⟨v, vs⟩
    · rfl
    · have hsecond : (addGroup m (addGroup m m u.name) v.name).visited =
          m.visited ++ [u.name, v.name] := h.lists 1 _ rfl
      have hname := visited_addGroup_twice hpos u.name v.name
      rw [hsecond, List.getElem?_append_right (by simp)] at hname
      have huv : u.name = v.name := by simpa using hname
      simp [huv] at hnd
  · rintro ⟨hpos, rfl⟩
    have hunv : u ∈ unvisited m groups := by simp [hu]
    refine ⟨?_, ⟨by simp [sendAll], by simp [sendAll, hu], ?_⟩, ?_, ?_⟩
    · intro c hc
      obtain rfl : c = ⟨u, addGroup m m u.name⟩ := by simpa [sendAll] using hc
      have := (List.mem_filter.1 hunv).2
      rw [← foundGroup_iff]
      simpa using this
    · simp only [sendAll, hu, List.length_singleton]
      omega
    · intro c hc
      obtain rfl : c = ⟨u, addGroup m m u.name⟩ := by simpa [sendAll] using hc
      simp only [addGroup]
      omega
    · intro k c hc
      rcases k with _ | k
      · obtain rfl : ⟨u, addGroup m m u.name⟩ = c := by simpa [sendAll] using hc
        simpa [sendAll] using visited_addGroup hpos u.name
      · simp [sendAll] at hc

/-- A client forwards a file list as it should if and only if there is nothing to forward,
the received list is full, or one group is left and the message names one file. -/
theorem forwardsOnce_iff (received : ℕ → Bool) (files : List String) (groups : List Group)
    (m : FileListMulticast) (hnd : (groups.map Group.name).Nodup) (hmax : m.grpCount ≤ maxGroups)
    (hfiles : 1 ≤ m.fileCount) :
    ForwardsOnce m groups (handleFileList received files groups m).sent ↔
      ForwardsWell m groups := by
  by_cases hfull : m.grpCount = maxGroups
  · have hno : ∀ out, passOn m out groups = (out, []) := passOn_of_ge (le_of_eq hfull.symm)
    have hnone := handle_sends_nothing hno received ⟨m, files, []⟩ (List.range m.fileCount.toNat)
    rw [handleFileList, hnone]
    exact ⟨fun _ => .inr (.inl hfull), fun _ => forwardsOnce_nil (.inr hfull)⟩
  have hlt : m.grpCount < maxGroups := lt_of_le_of_ne hmax hfull
  rcases hu : unvisited m groups with _ | ⟨u, us⟩
  · have hno : ∀ out, passOn m out groups = (out, []) := fun out => by
      rw [passOn_of_lt hlt, hu]
      rfl
    have hnone := handle_sends_nothing hno received ⟨m, files, []⟩ (List.range m.fileCount.toNat)
    rw [handleFileList, hnone]
    exact ⟨fun _ => .inl hu, fun _ => forwardsOnce_nil (.inl hu)⟩
  have hndu : ((u :: us).map Group.name).Nodup := by
    rw [← hu]
    exact hnd.sublist (List.filter_sublist.map _)
  by_cases hone : m.fileCount = 1
  · have hsent : (handleFileList received files groups m).sent = (sendAll m m (u :: us)).2 := by
      simp [handleFileList, hone, handleFile, passOn_of_lt hlt, hu]
    rw [hsent, forwardsOnce_sendAll_iff hlt hu hndu]
    simp [ForwardsWell, hu, hfull, hone]
  · -- every group is sent to once for each file
    have hmany : ¬ForwardsOnce m groups (handleFileList received files groups m).sent := by
      intro h
      have hdup := h.once.1
      obtain ⟨n, hn⟩ : ∃ n, m.fileCount.toNat = n + 1 + 1 := ⟨m.fileCount.toNat - 2, by omega⟩
      rw [handleFileList, handle_targets hlt, List.length_range, hn, List.replicate_succ,
        List.replicate_succ, hu] at hdup
      simp at hdup
    exact ⟨fun h => absurd h hmany, by simp [ForwardsWell, hu, hfull, hone]⟩

/-- A joined group of the given name. -/
def groupNamed (name : String) (fd : ℤ) : Group :=
  ⟨name, "239.0.0.1", 5000 + fd, fd, ⟨0, 0⟩, fd + 1, ⟨0, 0⟩⟩

/-- One file, announced to the group `a`. -/
def announced : FileListMulticast :=
  ⟨fun i => ["f"].getD i "", fun i => if i = 0 then "a" else "", 1, 1⟩

/-- A client of `a` and `b` passes the message on to `b`. -/
theorem forwardsOnce_announced :
    ForwardsOnce announced [groupNamed "a" 4, groupNamed "b" 6]
      (handleFileList (fun _ => true) [] [groupNamed "a" 4, groupNamed "b" 6] announced).sent :=
  (forwardsOnce_iff (fun _ => true) [] _ announced (by decide) (by decide) (by decide)).2
    (.inr (.inr (by decide)))

/-- A client of `a`, `b` and `c` sends a copy to `c` that has `c` in the place of `b`. -/
theorem not_forwardsOnce_announced :
    ¬ForwardsOnce announced [groupNamed "a" 4, groupNamed "b" 6, groupNamed "c" 8]
      (handleFileList (fun _ => true) [] [groupNamed "a" 4, groupNamed "b" 6, groupNamed "c" 8]
        announced).sent :=
  fun h => absurd (h.lists 1 _ rfl) (by decide)

end NetProg.GroupChat
