import NetProg.Lib.Objects
import NetProg.Shell.Blocks
import NetProg.Shell.ShortcutKeys

/-!
# A session of the shell

`main` allocates a pipeline for every line, and what it does with it depends on the line : a
pipeline that was run is freed, unless it is for the background, and after Ctrl+C it is freed
before the index is looked up. A shortcut is the pointer to a pipeline in the map. `sc -i` puts it
there, `sc -d` frees it, and replacing it does not. Ctrl+C and an index run the pipeline that the
pointer leads to.

Here the pipelines are on a heap, at addresses that an allocator picks. Freed addresses may be
picked again, and using one is a fault. So are an argument that its block does not hold, an answer
that `choice` does not hold, and an index that is negative as an `int`. `createCmdPipe_refines` says
that `createCmdPipe` on the heap is the one on pipelines, and `session_refines` that a session of
lines with small numbers and short words has no fault, and that every session runs what one does in
which the map has the pipelines themselves.

A process that is forked works on its own copy of the heap, so that the pipeline can be freed while
it runs.
-/

namespace NetProg.Shell

open Lib

variable {n : ℕ} [NeZero n]

/-! ## Pipelines on the heap -/

/-- The heap, and the shortcut map with its pointers. -/
structure Store (n : ℕ) [NeZero n] where
  heap : Objects CommandPipe
  scMap : ShortcutMap ℕ n

/-- The loop of `resetCmdPipe` over `count` commands : `head` is read, and freed. -/
def freeCmds (node : ℕ → Option (ParsedCommand × Option ℕ)) :
    ℕ → Option ℕ → Option (ℕ → Option (ParsedCommand × Option ℕ))
  | 0, _ => some node
  | count + 1, head =>
    head.bind fun a => (node a).bind fun cmd => freeCmds (Function.update node a none) count cmd.2

/-- `resetCmdPipe`. -/
def resetCmdPipe (heap : Objects CommandPipe) : Option ℕ → Except Stop (Objects CommandPipe)
  | none => .ok heap
  | some ptr =>
    (Stop.deref (heap ptr)).bind fun pipe =>
      (Stop.deref (freeCmds (fun a => pipe.cmds.nodes[a]?) pipe.cmds.count.toNat
        pipe.cmds.head)).bind fun _ => heap.free ptr

/-- The map that is ready for a new pipeline at the index, as `replaceInMap`. The old pipeline is
not freed. -/
def replacePointer (choice : ℕ → List Char) (map : ShortcutMap ℕ n) (idx : ℕ) :
    Except Stop (Option (ShortcutMap ℕ n)) :=
  if findInMap map idx = none then .ok (some map)
  else
    (Stop.deref (scanChoice (choice idx))).bind fun choice =>
      if choice = ['y', 'e', 's'] then (Stop.check (deleteFromMap map idx)).map fun r => some r.2
      else .ok none

/-- `createCmdPipe`, for the pipeline at `cmdPipe`. An argument gets a block of `usable` bytes. -/
def Store.createCmdPipe (usable : ℕ) (alloc : Allocator CommandPipe) (choice : ℕ → List Char)
    (mem : List Char) (cmdPipe : ℕ) (s : Store n) : Except Stop (Bool × Store n) :=
  if IsShortcut (cstring mem) then
    match _h : scLine mem with
    | .exits => .error .exit
    | .notNumber => .ok (false, s)
    | .negative => .error .fault
    | .line flag idx rest =>
      if flag = 'i' then
        (replacePointer choice s.scMap idx).bind fun
          | none => .ok (false, s)
          | some map =>
            (s.heap.alloc alloc initCmdPipe).bind fun new =>
              (Store.createCmdPipe usable alloc choice rest new.1 ⟨new.2, map⟩).bind fun r =>
                (Stop.check (insertIntoMap r.2.scMap idx new.1)).map fun map =>
                  (false, ⟨r.2.heap, map⟩)
      else
        (resetCmdPipe s.heap (findInMap s.scMap idx)).bind fun heap =>
          (Stop.check (deleteFromMap s.scMap idx)).map fun r => (false, ⟨heap, r.2⟩)
  else
    (Stop.deref (s.heap cmdPipe)).bind fun pipe =>
      (parseFieldsIn usable 1 ((cstring mem).splitOn '|') pipe).bind fun pipe =>
        (s.heap.store cmdPipe pipe).map fun heap => (true, ⟨heap, s.scMap⟩)
termination_by mem.length
decreasing_by exact length_lt_of_scLine _h

/-! ## The prompt -/

/-- `stringToNum`, as a number. -/
def typedIndex (str : List Char) : Option ℕ :=
  str.foldlM (fun num c =>
    if c = '\n' then some num else if c.isDigit then some (num * 10 + (c.toNat - 48)) else none) 0

theorem stringToNum_eq (str : List Char) :
    stringToNum str = (typedIndex str).map (BitVec.ofNat 32) := by
  have hfold : ∀ (str : List Char) (num : ℕ), str.foldlM (fun num c =>
      if c = '\n' then some num else if c.isDigit then some (addDigit num c) else none)
        (BitVec.ofNat 32 num) = (str.foldlM (fun num c => if c = '\n' then some num
          else if c.isDigit then some (num * 10 + (c.toNat - 48)) else none) num).map
            (BitVec.ofNat 32) := by
    intro str
    induction str with
    | nil => exact fun _ => rfl
    | cons c str ih =>
      intro num
      rw [List.foldlM_cons, List.foldlM_cons]
      split
      · exact ih num
      · split
        · rename_i hdigit
          rw [addDigit_ofNat num hdigit]
          exact ih _
        · rfl
  exact hfold str 0

/-- The key that is typed. `none` when it is no number, or negative as an `int`. -/
def typedKey (str : List Char) : Option ℕ :=
  (typedIndex str).bind intIndex

/-- The state of `main` in front of the prompt, with the pipelines that were run. -/
structure Session (n : ℕ) [NeZero n] extends Store n where
  executed : List CommandPipe

/-- A line from the user : the memory that it begins, what is answered when a shortcut is to be
replaced, whether Ctrl+C was pressed in front of it, and the allocator. -/
structure Input where
  mem : List Char
  choice : ℕ → List Char
  receivedSigInt : Bool
  alloc : Allocator CommandPipe

/-- `executeCmdPipe`, as the shell sees it : the pipeline is read. -/
def Store.executeCmdPipe (s : Store n) (executed : List CommandPipe) (cmdPipe : ℕ) :
    Except Stop (Session n) :=
  (Stop.deref (s.heap cmdPipe)).map fun pipe => ⟨s, executed ++ [pipe]⟩

/-- Behind Ctrl+C : the line is an index. -/
def Store.runIndex (s : Store n) (executed : List CommandPipe) (mem : List Char) (cmdPipe : ℕ) :
    Except Stop (Session n) :=
  (Stop.check (typedIndex (cstring mem))).bind fun number =>
    (resetCmdPipe s.heap (some cmdPipe)).bind fun heap =>
      (Stop.deref (intIndex number)).bind fun index =>
        (findInMap s.scMap index).elim (.ok ⟨⟨heap, s.scMap⟩, executed⟩) fun ptr =>
          Store.executeCmdPipe ⟨heap, s.scMap⟩ executed ptr

/-- A line that is parsed. -/
def Store.runLine (usable : ℕ) (s : Store n) (executed : List CommandPipe) (l : Input)
    (cmdPipe : ℕ) : Except Stop (Session n) :=
  (s.createCmdPipe usable l.alloc l.choice l.mem cmdPipe).bind fun r =>
    if r.1 then
      (r.2.executeCmdPipe executed cmdPipe).bind fun t =>
        (Stop.deref (t.heap cmdPipe)).bind fun pipe =>
          if pipe.isBackground then .ok t
          else (resetCmdPipe t.heap (some cmdPipe)).map fun heap => ⟨⟨heap, t.scMap⟩, t.executed⟩
    else .ok ⟨r.2, executed⟩

/-- An iteration of the loop of `main`. -/
def Session.prompt (usable : ℕ) (s : Session n) (l : Input) : Except Stop (Session n) :=
  (s.heap.alloc l.alloc initCmdPipe).bind fun new =>
    let t : Store n := ⟨new.2, s.scMap⟩
    if cstring l.mem = ['\n'] then .ok ⟨t, s.executed⟩
    else if l.receivedSigInt then t.runIndex s.executed l.mem new.1
    else if cstring l.mem = ['e', 'x', 'i', 't', '\n'] then .error .exit
    else t.runLine usable s.executed l new.1

/-- `main`, up to the first prompt. -/
def Session.start : Session n :=
  ⟨⟨fun _ => none, initMap n⟩, []⟩

/-- The step of the shell. There is none when it has ended. -/
def sessionStep (usable : ℕ) :
    Except Stop (Session n) → Input → Option (Except Stop (Session n))
  | .ok s, l => some (s.prompt usable l)
  | .error _, _ => none

/-! ## A session without pointers -/

/-- The map has the pipelines themselves. -/
structure PlainSession (n : ℕ) [NeZero n] where
  map : ShortcutMap CommandPipe n
  executed : List CommandPipe

def PlainSession.start : PlainSession n :=
  ⟨initMap n, []⟩

def PlainSession.runIndex (v : PlainSession n) (mem : List Char) : Option (PlainSession n) :=
  (typedKey (cstring mem)).map fun index =>
    { v with executed := v.executed ++ (findInMap v.map index).toList }

def PlainSession.runLine (v : PlainSession n) (l : Input) : Option (PlainSession n) :=
  (createCmdPipe l.choice l.mem v.map).map fun c =>
    ⟨c.map, v.executed ++ if c.ret then [c.pipe] else []⟩

/-- What a line should do. `none` is the end of the shell. -/
def PlainSession.prompt (v : PlainSession n) (l : Input) : Option (PlainSession n) :=
  if cstring l.mem = ['\n'] then some v
  else if l.receivedSigInt then v.runIndex l.mem
  else if cstring l.mem = ['e', 'x', 'i', 't', '\n'] then none
  else v.runLine l

/-! ## Lines that fit -/

/-- Answers are short, numbers are below 2^31, and words are shorter than a block. -/
structure LineFits (usable : ℕ) (choice : ℕ → List Char) (mem : List Char) : Prop where
  answer : ∀ idx, (choice idx).length < 10
  number : ∀ digits, digits <:+: mem → IsNumber digits → readIndex 0 digits < 2147483648
  word : ¬LongWord usable mem

/-- The line fits, and so does what is typed behind Ctrl+C. -/
structure Input.Fits (usable : ℕ) (l : Input) : Prop extends LineFits usable l.choice l.mem where
  typed : ∀ index, typedIndex (cstring l.mem) = some index → index < 2147483648

/-- How `createCmdPipe` may end where it does not on pipelines : memory is short, or the line does
not fit. -/
def LineEnds (usable : ℕ) (alloc : Allocator CommandPipe) (choice : ℕ → List Char)
    (mem : List Char) : Stop → Prop
  | .exit => alloc.Short
  | .fault => ¬LineFits usable choice mem

/-- How a line may end the shell on its own. -/
def Input.Ends (usable : ℕ) (l : Input) : Stop → Prop
  | .exit => l.alloc.Short
  | .fault => ¬l.Fits usable

section Fits

variable {usable : ℕ} {alloc : Allocator CommandPipe} {choice : ℕ → List Char}
  {mem rest digits : List Char} {flag : Char} {idx : ℕ}

theorem intIndex_eq (h : idx < 2147483648) : intIndex idx = some idx := by
  have hmod : idx % 4294967296 = idx := Nat.mod_eq_of_lt (by omega)
  rw [intIndex, hmod, if_pos h]

theorem LineFits.mono (h : LineFits usable choice mem) (hrest : rest <:+: mem) :
    LineFits usable choice rest where
  answer := h.answer
  number digits hdigits := h.number digits (hdigits.trans hrest)
  word hlong := h.word (hlong.mono hrest)

theorem LineEnds.mono (hrest : rest <:+: mem) (stop : Stop)
    (h : LineEnds usable alloc choice rest stop) : LineEnds usable alloc choice mem stop := by
  cases stop with
  | exit => exact h
  | fault => exact fun hfits => h (LineFits.mono hfits hrest)

theorem LineEnds.of_overruns (stop : Stop) (h : Overruns usable (cstring mem) stop) :
    LineEnds usable alloc choice mem stop := by
  cases stop with
  | exit => exact h.elim
  | fault =>
    have hsub : cstring mem <:+: mem := (List.takeWhile_prefix _).isInfix
    exact fun hfits => hfits.word (LongWord.mono h hsub)

theorem Input.ends_of_lineEnds {l : Input} (stop : Stop)
    (h : LineEnds usable l.alloc l.choice l.mem stop) : l.Ends usable stop := by
  cases stop with
  | exit => exact h
  | fault => exact fun hfits => h hfits.toLineFits

/-- The index and the rest of a line lie in it. -/
theorem ReadAs.infix (h : ReadAs mem flag digits rest) : digits <:+: mem ∧ rest <:+: mem := by
  obtain ⟨-, -, b, sep, c, rfl, -⟩ := h
  refine ⟨⟨b ++ '-' :: flag :: [sep], c :: rest, by simp⟩, List.IsSuffix.isInfix ?_⟩
  exact ⟨b ++ '-' :: flag :: sep :: (digits ++ [c]), by simp⟩

theorem LineFits.not_negative (h : LineFits usable choice mem) : scLine mem ≠ .negative := by
  intro hline
  obtain ⟨flag, digits, rest, hread, hnone⟩ := exists_readAs_of_negative hline
  rw [intIndex_eq (h.number digits hread.infix.1 hread.2.1)] at hnone
  cases hnone

end Fits

/-! ## What a store stands for -/

/-- Every pointer of the map leads to a pipeline of its own, every pipeline is a list of commands,
and the map with the pipelines in place of the pointers is `map`. -/
structure Store.Represents (s : Store n) (map : ShortcutMap CommandPipe n) : Prop where
  finite : s.heap.Finite
  owns : s.heap.Owns (findInMap s.scMap)
  holds : ∀ p pipe, s.heap p = some pipe → ∃ cmds, pipe.cmds.Holds cmds
  view : ∀ k, findInMap map k = s.heap.view (findInMap s.scMap) k

section Represents

variable {s : Store n} {map : ShortcutMap CommandPipe n} {p ptr idx : ℕ} {pipe : CommandPipe}
  {cmds : List ParsedCommand}

theorem Store.Represents.find_eq_none_iff (h : s.Represents map) :
    findInMap map idx = none ↔ findInMap s.scMap idx = none := by
  rw [h.view, Objects.view]
  cases hp : findInMap s.scMap idx with
  | none => simp
  | some p => simpa using h.owns.live hp

/-- A pipeline that is in no shortcut is written, or freed. -/
theorem Store.Represents.update (h : s.Represents map) (hp : ∀ k, findInMap s.scMap k ≠ some p)
    {c : Option CommandPipe} (hc : ∀ pipe, c = some pipe → ∃ cmds, pipe.cmds.Holds cmds) :
    Store.Represents ⟨Function.update s.heap p c, s.scMap⟩ map where
  finite := h.finite.update p c
  owns := h.owns.update hp c
  holds q pipe hq := by
    by_cases hqp : q = p
    · subst hqp
      exact hc pipe ((Function.update_self q c s.heap).symm.trans hq)
    · exact h.holds q pipe ((Function.update_of_ne hqp ..).symm.trans hq)
  view k := by
    rw [Objects.view_update hp]
    exact h.view k

/-- The pipeline at `p` becomes a shortcut. -/
theorem Store.Represents.insert (h : s.Represents map)
    (hl : s.heap.Loose (findInMap s.scMap) p pipe) (hnone : findInMap s.scMap idx = none)
    (hnone' : findInMap map idx = none) :
    Store.Represents ⟨s.heap, s.scMap.insert idx p hnone⟩ (map.insert idx pipe hnone') where
  finite := h.finite
  owns := h.owns.insert hl (findInMap_insert s.scMap p hnone)
  holds := h.holds
  view k := by
    rw [findInMap_insert, Objects.view_insert hl (findInMap_insert s.scMap p hnone), h.view]

/-- A shortcut is no longer one. -/
theorem Store.Represents.erase (h : s.Represents map) (idx : ℕ) :
    Store.Represents ⟨s.heap, s.scMap.erase idx⟩ (map.erase idx) where
  finite := h.finite
  owns := h.owns.erase (findInMap_erase s.scMap idx)
  holds := h.holds
  view k := by
    rw [findInMap_erase, Objects.view_erase (findInMap_erase s.scMap idx), h.view]

/-- The commands of a pipeline are freed one after the other. -/
theorem freeCmds_eq {l : SList ParsedCommand} (h : l.Holds cmds)
    (node : ℕ → Option (ParsedCommand × Option ℕ)) {i : ℕ} (count : ℕ)
    (hnode : ∀ a, i ≤ a → node a = l.nodes[a]?) (hcount : count + i = cmds.length) :
    ∃ node', freeCmds node count (if i < cmds.length then some i else none) = some node' := by
  induction count generalizing node i with
  | zero => exact ⟨node, rfl⟩
  | succ count ih =>
    have hi : i < cmds.length := by omega
    have hcmd := (hnode i le_rfl).trans (h.node_eq i)
    rw [List.getElem?_eq_getElem hi, Option.map_some] at hcmd
    rw [if_pos hi, freeCmds, Option.bind_some, hcmd, Option.bind_some]
    refine ih _ (fun a ha => ?_) (by omega)
    rw [Function.update_of_ne (by omega)]
    exact hnode a (by omega)

theorem resetCmdPipe_eq {heap : Objects CommandPipe} (hp : heap p = some pipe)
    (h : pipe.cmds.Holds cmds) : resetCmdPipe heap (some p) = .ok (Function.update heap p none) := by
  have hhead : pipe.cmds.head = if 0 < cmds.length then some 0 else none := by
    rw [h.head_eq]
    cases cmds with
    | nil => rfl
    | cons cmd cmds => rfl
  obtain ⟨node, hnode⟩ := freeCmds_eq h (fun a => pipe.cmds.nodes[a]?) (i := 0)
    pipe.cmds.count.toNat (fun _ _ => rfl) (by rw [h.count_eq]; rfl)
  rw [resetCmdPipe, hp, Stop.deref_some, Except.bind, hhead, hnode, Objects.free, hp]
  rfl

end Represents

/-! ## `createCmdPipe` on the heap -/

/-- What a call of `createCmdPipe` for the pipeline at `ptr` has done : what it does on pipelines,
and nothing to a pipeline that is in no shortcut. -/
structure CreatedAt (s : Store n) (ptr : ℕ) (r : Bool × Store n) (c : Created n) : Prop where
  ret : r.1 = c.ret
  represents : r.2.Represents c.map
  loose : r.2.heap.Loose (findInMap r.2.scMap) ptr c.pipe
  frame : ∀ q pipe, q ≠ ptr → s.heap.Loose (findInMap s.scMap) q pipe →
    r.2.heap.Loose (findInMap r.2.scMap) q pipe

section CreateCmdPipe

variable {usable : ℕ} {alloc : Allocator CommandPipe} {choice : ℕ → List Char}
  {mem rest : List Char} {s : Store n} {map : ShortcutMap CommandPipe n} {ptr idx : ℕ}

theorem replacePointer_refines (h : s.Represents map) :
    Stop.Refines (LineEnds usable alloc choice mem)
      (Option.Rel fun m m' => Store.Represents ⟨s.heap, m⟩ m' ∧
        ∀ q pipe, s.heap.Loose (findInMap s.scMap) q pipe →
          s.heap.Loose (findInMap m) q pipe)
      (replacePointer choice s.scMap idx) (replaceInMap choice map idx) := by
  unfold replacePointer replaceInMap
  cases hp : findInMap s.scMap idx with
  | none =>
    rw [if_pos rfl, if_pos (h.find_eq_none_iff.2 hp)]
    exact .ok (.some ⟨h, fun _ _ hl => hl⟩)
  | some p =>
    have hne : ¬findInMap map idx = none := by
      rw [h.find_eq_none_iff, hp]
      exact Option.some_ne_none p
    obtain ⟨pipe, hpipe⟩ := Option.ne_none_iff_exists'.1 hne
    rw [if_neg (Option.some_ne_none p), if_neg hne]
    by_cases hlen : (choice idx).length < 10
    · rw [scanChoice, if_pos hlen, Stop.deref_some, Except.bind, Option.bind_some]
      split
      · rw [deleteFromMap_eq hp, deleteFromMap_eq hpipe]
        exact .ok (.some ⟨h.erase idx, fun q pipe hl => hl.erase (findInMap_erase s.scMap idx)⟩)
      · exact .ok .none
    · -- the answer runs past the end of `choice`
      have hends : LineEnds usable alloc choice mem .fault := fun hfits => hlen (hfits.answer idx)
      rw [scanChoice, if_neg hlen]
      exact .ends hends _

/-- What a shortcut line does, from its beginning on. -/
def Store.runScLine (usable : ℕ) (alloc : Allocator CommandPipe) (choice : ℕ → List Char)
    (s : Store n) : ScLine → Except Stop (Bool × Store n)
  | .exits => .error .exit
  | .notNumber => .ok (false, s)
  | .negative => .error .fault
  | .line flag idx rest =>
    if flag = 'i' then
      (replacePointer choice s.scMap idx).bind fun prepared =>
        prepared.elim (.ok (false, s)) fun map =>
          (s.heap.alloc alloc initCmdPipe).bind fun new =>
            (Store.createCmdPipe usable alloc choice rest new.1 ⟨new.2, map⟩).bind fun r =>
              (Stop.check (insertIntoMap r.2.scMap idx new.1)).map fun map =>
                (false, ⟨r.2.heap, map⟩)
    else
      (resetCmdPipe s.heap (findInMap s.scMap idx)).bind fun heap =>
        (Stop.check (deleteFromMap s.scMap idx)).map fun r => (false, ⟨heap, r.2⟩)

theorem Store.createCmdPipe_eq (hsc : IsShortcut (cstring mem)) :
    s.createCmdPipe usable alloc choice mem ptr =
      s.runScLine usable alloc choice (scLine mem) := by
  rw [Store.createCmdPipe, if_pos hsc]
  split
  · rename_i hline
    rw [hline]
    rfl
  · rename_i hline
    rw [hline]
    rfl
  · rename_i hline
    rw [hline]
    rfl
  · rename_i flag idx rest hline
    rw [hline, Store.runScLine]
    split_ifs
    · refine congrArg (Except.bind _) (funext fun prepared => ?_)
      cases prepared with
      | none => rfl
      | some map => rfl
    · rfl

/-- A line that is no shortcut line is parsed into the pipeline. -/
theorem createCmdPipe_refines_of_not (hsc : ¬IsShortcut (cstring mem)) (h : s.Represents map)
    (hptr : s.heap.Loose (findInMap s.scMap) ptr initCmdPipe) :
    Stop.Refines (LineEnds usable alloc choice mem) (CreatedAt s ptr)
      (s.createCmdPipe usable alloc choice mem ptr) (createCmdPipe choice mem map) := by
  rw [Store.createCmdPipe, if_neg hsc, createCmdPipe, if_neg hsc, hptr.at_eq, Stop.deref_some,
    Except.bind, Option.map_eq_bind]
  have hempty : initCmdPipe.cmds.Holds [] := SList.holds_empty
  have hfields : ∀ field ∈ (cstring mem).splitOn '|', field <:+: cstring mem :=
    fun _ hfield => infix_of_mem_splitOn hfield
  refine ((parseFieldsIn_refines usable hempty hfields).weaken LineEnds.of_overruns).bind
    fun pipe _ hpipe => ?_
  obtain ⟨rfl, cmds, hcmds⟩ := hpipe
  have hstore : s.heap.store ptr pipe = .ok (Function.update s.heap ptr (some pipe)) := by
    rw [Objects.store, hptr.at_eq]
    rfl
  rw [hstore]
  refine .ok ⟨rfl, h.update hptr.notMem fun _ heq => ?_, ⟨Function.update_self .., hptr.notMem⟩,
    fun q pipe' hq hl => hl.update hq _⟩
  obtain rfl := Option.some.inj heq
  exact ⟨_, hcmds⟩

/-- A line that deletes a shortcut : its pipeline is freed, and then the pointer is removed. -/
theorem createCmdPipe_refines_of_delete (hsc : IsShortcut (cstring mem))
    (hline : scLine mem = .line 'd' idx rest) (h : s.Represents map)
    (hptr : s.heap.Loose (findInMap s.scMap) ptr initCmdPipe) :
    Stop.Refines (LineEnds usable alloc choice mem) (CreatedAt s ptr)
      (s.createCmdPipe usable alloc choice mem ptr) (createCmdPipe choice mem map) := by
  rw [Store.createCmdPipe_eq hsc, hline, Store.runScLine, if_neg (by decide),
    createCmdPipe_of_delete hsc hline]
  cases hp : findInMap s.scMap idx with
  | none =>
    have habsent : deleteFromMap s.scMap idx = none := if_pos hp
    rw [habsent, deleteFromMap_eq_none (h.find_eq_none_iff.2 hp)]
    exact .exit
  | some p =>
    obtain ⟨pipe, hpipe⟩ := Option.ne_none_iff_exists'.1 (h.owns.live hp)
    obtain ⟨cmds, hcmds⟩ := h.holds p pipe hpipe
    have hpipe' : findInMap map idx = some pipe := by rw [h.view, Objects.view, hp]; exact hpipe
    have hgone := h.owns.notMem_erased hp (findInMap_erase s.scMap idx)
    have herase := (h.erase idx).update (c := none) hgone nofun
    rw [resetCmdPipe_eq hpipe hcmds, deleteFromMap_eq hp, deleteFromMap_eq hpipe']
    have hother : ∀ q pipe', s.heap.Loose (findInMap s.scMap) q pipe' →
        Objects.Loose (Function.update s.heap p none) (findInMap (s.scMap.erase idx)) q pipe' := by
      intro q pipe' hl
      refine (hl.erase (findInMap_erase s.scMap idx)).update ?_ none
      rintro rfl
      exact hl.notMem idx hp
    exact .ok ⟨rfl, herase, hother _ _ hptr, fun q pipe' _ hl => hother q pipe' hl⟩

/-- The rest of a line that inserts a shortcut, which is parsed into a pipeline of its own. -/
theorem insert_refines {m : ShortcutMap ℕ n} {m' : ShortcutMap CommandPipe n}
    (hm : Store.Represents ⟨s.heap, m⟩ m')
    (hloose : ∀ q pipe, s.heap.Loose (findInMap s.scMap) q pipe → s.heap.Loose (findInMap m) q pipe)
    (hptr : s.heap.Loose (findInMap s.scMap) ptr initCmdPipe)
    (ih : ∀ {t : Store n} {map' : ShortcutMap CommandPipe n} {q : ℕ}, t.Represents map' →
      t.heap.Loose (findInMap t.scMap) q initCmdPipe →
        Stop.Refines (LineEnds usable alloc choice rest) (CreatedAt t q)
          (t.createCmdPipe usable alloc choice rest q) (createCmdPipe choice rest map')) :
    Stop.Refines (LineEnds usable alloc choice rest) (CreatedAt s ptr)
      ((s.heap.alloc alloc initCmdPipe).bind fun new =>
        (Store.createCmdPipe usable alloc choice rest new.1 ⟨new.2, m⟩).bind fun r =>
          (Stop.check (insertIntoMap r.2.scMap idx new.1)).map fun map =>
            (false, ⟨r.2.heap, map⟩))
      ((createCmdPipe choice rest m').bind fun r =>
        (insertIntoMap r.map idx r.pipe).map fun map => ⟨false, initCmdPipe, some r.pipe, map⟩) := by
  rw [Objects.alloc]
  cases hfresh : alloc.fresh s.heap with
  | none =>
    have hends : LineEnds usable alloc choice rest .exit := ⟨s.heap, hm.finite, hfresh⟩
    exact .ends hends _
  | some q =>
    have hq := alloc.unused hfresh
    have hnot := hm.owns.notMem_of_none hq
    have hne : ∀ {q' pipe}, s.heap.Loose (findInMap s.scMap) q' pipe → q' ≠ q := by
      rintro q' pipe hl rfl
      exact Option.some_ne_none _ (hl.at_eq.symm.trans hq)
    have hnew := hm.update (c := some initCmdPipe) hnot fun _ heq =>
      ⟨[], by rw [← Option.some.inj heq]; exact SList.holds_empty⟩
    refine (ih hnew ⟨Function.update_self .., hnot⟩).bind fun r c hr => ?_
    cases hp : findInMap r.2.scMap idx with
    | some p =>
      have hp' : findInMap c.map idx ≠ none := by
        rw [ne_eq, hr.represents.find_eq_none_iff, hp]
        exact Option.some_ne_none p
      have hfails : insertIntoMap r.2.scMap idx q = none :=
        dif_neg (by rw [hp]; exact Option.some_ne_none p)
      have hfails' : insertIntoMap c.map idx c.pipe = none := dif_neg hp'
      rw [hfails, hfails']
      exact .exit
    | none =>
      have hp' : findInMap c.map idx = none := hr.represents.find_eq_none_iff.2 hp
      have hinsert : insertIntoMap r.2.scMap idx q = some (r.2.scMap.insert idx q hp) := dif_pos hp
      have hinsert' : insertIntoMap c.map idx c.pipe = some (c.map.insert idx c.pipe hp') :=
        dif_pos hp'
      -- a pipeline that was in no shortcut before the call is in none now
      have hother : ∀ q' pipe, s.heap.Loose (findInMap s.scMap) q' pipe →
          r.2.heap.Loose (findInMap (r.2.scMap.insert idx q hp)) q' pipe := by
        intro q' pipe hl
        have hold := (hloose q' pipe hl).update (hne hl) (some initCmdPipe)
        exact (hr.frame q' pipe (hne hl) hold).insert (hne hl) (findInMap_insert r.2.scMap q hp)
      rw [hinsert, hinsert']
      exact .ok ⟨rfl, hr.represents.insert hr.loose hp hp', hother _ _ hptr,
        fun q' pipe _ hl => hother q' pipe hl⟩

/-- On every allocator, `createCmdPipe` does on the heap what it does on pipelines. -/
theorem createCmdPipe_refines (h : s.Represents map)
    (hptr : s.heap.Loose (findInMap s.scMap) ptr initCmdPipe) :
    Stop.Refines (LineEnds usable alloc choice mem) (CreatedAt s ptr)
      (s.createCmdPipe usable alloc choice mem ptr) (createCmdPipe choice mem map) := by
  induction hlen : mem.length using Nat.strong_induction_on generalizing mem s map ptr with
  | _ len ih =>
    by_cases hsc : IsShortcut (cstring mem)
    case neg => exact createCmdPipe_refines_of_not hsc h hptr
    cases hline : scLine mem with
    | exits =>
      rw [Store.createCmdPipe_eq hsc, hline, createCmdPipe_of_exits hsc hline]
      exact .exit
    | notNumber =>
      rw [Store.createCmdPipe_eq hsc, hline, createCmdPipe_of_notNumber hsc hline]
      exact .ok ⟨rfl, h, hptr, fun _ _ _ hl => hl⟩
    | negative =>
      rw [Store.createCmdPipe_eq hsc, hline, createCmdPipe_of_negative hsc hline]
      have hends : LineEnds usable alloc choice mem .fault := fun hfits => hfits.not_negative hline
      exact .ends hends _
    | line flag idx rest =>
      obtain ⟨_, hread, -⟩ := exists_readAs_of_scLine hline
      rcases hread.1 with rfl | rfl
      · rw [Store.createCmdPipe_eq hsc, hline, Store.runScLine, if_pos rfl,
          createCmdPipe_of_insert hsc hline]
        refine (replacePointer_refines h).bind fun m m' hm => ?_
        cases hm with
        | none => exact .ok ⟨rfl, h, hptr, fun _ _ _ hl => hl⟩
        | some hm =>
          obtain ⟨hm, hloose⟩ := hm
          refine Stop.Refines.weaken ?_ (LineEnds.mono hread.infix.2)
          exact insert_refines hm hloose hptr fun ht hq =>
            ih _ (hlen ▸ length_lt_of_scLine hline) ht hq rfl
      · exact createCmdPipe_refines_of_delete hsc hline h hptr

end CreateCmdPipe

/-! ## Sessions -/

/-- The session does what the one without pointers does. -/
structure Session.Matches (s : Session n) (v : PlainSession n) : Prop where
  represents : s.toStore.Represents v.map
  executed : s.executed = v.executed

theorem represents_start : (Session.start : Session n).toStore.Represents (initMap n) where
  finite := Objects.finite_empty
  owns := Objects.owns_empty _
  holds _ _ h := by cases h
  view _ := rfl

section Session

variable {usable : ℕ} {t : Store n} {v : PlainSession n} {ptr : ℕ} {l : Input}

theorem executeCmdPipe_eq {executed : List CommandPipe} {pipe : CommandPipe}
    (h : t.heap ptr = some pipe) :
    t.executeCmdPipe executed ptr = .ok ⟨t, executed ++ [pipe]⟩ := by
  rw [Store.executeCmdPipe, h]
  rfl

/-- Behind Ctrl+C. -/
theorem runIndex_refines (h : t.Represents v.map)
    (hptr : t.heap.Loose (findInMap t.scMap) ptr initCmdPipe) :
    Stop.Refines (l.Ends usable) Session.Matches (t.runIndex v.executed l.mem ptr)
      (v.runIndex l.mem) := by
  unfold Store.runIndex PlainSession.runIndex typedKey
  cases htyped : typedIndex (cstring l.mem) with
  | none => exact .exit
  | some number =>
    have hfreed := h.update (c := none) hptr.notMem nofun
    rw [Stop.check_some, Except.bind, resetCmdPipe_eq hptr.at_eq SList.holds_empty, Except.bind,
      Option.bind_some]
    cases hidx : intIndex number with
    | none =>
      have hends : l.Ends usable .fault := fun hfits => by
        rw [intIndex_eq (hfits.typed number htyped)] at hidx
        cases hidx
      exact .ends hends _
    | some idx =>
    rw [Stop.deref_some, Except.bind, Option.map_some]
    cases hp : findInMap t.scMap idx with
    | none =>
      have hp' : findInMap v.map idx = none := h.find_eq_none_iff.2 hp
      rw [hp', Option.toList_none, List.append_nil]
      exact .ok ⟨hfreed, rfl⟩
    | some p =>
      obtain ⟨pipe, hpipe⟩ := Option.ne_none_iff_exists'.1 (hfreed.owns.live hp)
      have hp' : findInMap v.map idx = some pipe := by
        rw [hfreed.view, Objects.view, hp]
        exact hpipe
      rw [hp', Option.toList_some, Option.elim_some, executeCmdPipe_eq hpipe]
      exact .ok ⟨hfreed, rfl⟩

/-- A line that is parsed, and run if it is no shortcut line. -/
theorem runLine_refines (h : t.Represents v.map)
    (hptr : t.heap.Loose (findInMap t.scMap) ptr initCmdPipe) :
    Stop.Refines (l.Ends usable) Session.Matches (t.runLine usable v.executed l ptr)
      (v.runLine l) := by
  unfold Store.runLine PlainSession.runLine
  rw [Option.map_eq_bind]
  refine ((createCmdPipe_refines h hptr).weaken Input.ends_of_lineEnds).bind fun r c hr => ?_
  rw [hr.ret, Function.comp_apply]
  cases hret : c.ret with
  | false =>
    rw [if_neg Bool.false_ne_true, if_neg Bool.false_ne_true, List.append_nil]
    exact .ok ⟨hr.represents, rfl⟩
  | true =>
    obtain ⟨cmds, hcmds⟩ := hr.represents.holds ptr c.pipe hr.loose.at_eq
    rw [if_pos rfl, if_pos rfl, executeCmdPipe_eq hr.loose.at_eq, Except.bind, hr.loose.at_eq,
      Stop.deref_some, Except.bind]
    split
    · exact .ok ⟨hr.represents, rfl⟩
    · rw [resetCmdPipe_eq hr.loose.at_eq hcmds]
      exact .ok ⟨hr.represents.update hr.loose.notMem nofun, rfl⟩

/-- One line. -/
theorem prompt_refines {s : Session n} (h : s.Matches v) (l : Input) :
    Stop.Refines (l.Ends usable) Session.Matches (s.prompt usable l) (v.prompt l) := by
  unfold Session.prompt PlainSession.prompt
  rw [Objects.alloc]
  cases hfresh : l.alloc.fresh s.heap with
  | none =>
    have hends : l.Ends usable .exit := ⟨s.heap, h.represents.finite, hfresh⟩
    exact .ends hends _
  | some ptr =>
    have hnot := h.represents.owns.notMem_of_none (l.alloc.unused hfresh)
    have hnew := h.represents.update (c := some initCmdPipe) hnot fun _ heq =>
      ⟨[], by rw [← Option.some.inj heq]; exact SList.holds_empty⟩
    have hptr : Objects.Loose (Function.update s.heap ptr (some initCmdPipe)) (findInMap s.scMap) ptr
        initCmdPipe := ⟨Function.update_self .., hnot⟩
    rw [Stop.check_some, Except.map, Except.bind, h.executed]
    dsimp only
    split_ifs
    · exact .ok ⟨hnew, rfl⟩
    · exact runIndex_refines hnew hptr
    · exact .exit
    · exact runLine_refines hnew hptr

theorem eq_of_run_ended {stop : Stop} {ls : List Input} {o : Except Stop (Session n)}
    (hr : run (sessionStep usable) (.error stop) ls = some o) : o = .error stop := by
  cases ls with
  | nil => exact (Option.some.inj hr).symm
  | cons l ls =>
    obtain ⟨_, hnone, -⟩ := run_cons_eq_some.1 hr
    cases hnone

/-- The lines of a session. -/
theorem run_refines {ls : List Input} {s : Session n} {o : Except Stop (Session n)}
    (h : s.Matches v) (hr : run (sessionStep usable) (.ok s) ls = some o) :
    Stop.Refines (fun stop => ∃ l ∈ ls, l.Ends usable stop) Session.Matches o
      (ls.foldlM PlainSession.prompt v) := by
  induction ls generalizing s v with
  | nil =>
    obtain rfl := Option.some.inj hr
    exact .ok h
  | cons l ls ih =>
    obtain ⟨o', ho', hr⟩ := run_cons_eq_some.1 hr
    obtain rfl := Option.some.inj ho'
    have hprompt : Stop.Refines (l.Ends usable) Session.Matches (s.prompt usable l) (v.prompt l) :=
      prompt_refines h l
    rw [List.foldlM_cons]
    generalize s.prompt usable l = x at hprompt hr
    generalize v.prompt l = y at hprompt
    cases hprompt with
    | ok h' =>
      exact (ih h' hr).mono (fun _ ⟨l', hl', hs⟩ => ⟨l', List.mem_cons_of_mem _ hl', hs⟩)
        fun _ _ hm => hm
    | exit =>
      obtain rfl := eq_of_run_ended hr
      exact .exit
    | ends hs =>
      obtain rfl := eq_of_run_ended hr
      exact .ends ⟨l, List.mem_cons_self, hs⟩ _

/-- With enough memory, the lines of a session without pointers go through when they fit. -/
theorem exists_run_of_plain {ls : List Input} {s : Session n} {v' : PlainSession n}
    (h : s.Matches v) (hls : ∀ l ∈ ls, l.Fits usable ∧ ¬l.alloc.Short)
    (hv : ls.foldlM PlainSession.prompt v = some v') :
    ∃ s', run (sessionStep usable) (.ok s) ls = some (.ok s') ∧ s'.Matches v' := by
  induction ls generalizing s v with
  | nil =>
    obtain rfl := Option.some.inj hv
    exact ⟨s, rfl, h⟩
  | cons l ls ih =>
    obtain ⟨hl, hls⟩ := List.forall_mem_cons.1 hls
    rw [List.foldlM_cons] at hv
    obtain ⟨v₁, hv₁, hv⟩ := Option.bind_eq_some_iff.1 hv
    have hprompt : Stop.Refines (l.Ends usable) Session.Matches (s.prompt usable l) (v.prompt l) :=
      prompt_refines h l
    rw [hv₁] at hprompt
    generalize hx : s.prompt usable l = x at hprompt
    cases hprompt with
    | ok h' =>
      obtain ⟨s', hr, hm⟩ := ih h' hls hv
      exact ⟨s', run_cons_eq_some.2 ⟨_, congrArg some hx, hr⟩, hm⟩
    | @ends stop hs =>
      cases stop with
      | exit => exact absurd hs hl.2
      | fault => exact absurd hl.1 hs

/-- A line of a user who lets shortcuts be replaced. -/
noncomputable def lineOf (text : List Char) (receivedSigInt : Bool) : Input :=
  ⟨text, fun _ => ['y', 'e', 's'], receivedSigInt, .first⟩

theorem readIndex_lt (idx : ℕ) {digits : List Char} (h : ∀ d ∈ digits, d.isDigit = true) :
    readIndex idx digits < (idx + 1) * 10 ^ digits.length := by
  induction digits generalizing idx with
  | nil => simp [readIndex]
  | cons d digits ih =>
    obtain ⟨hd, hdigits⟩ := List.forall_mem_cons.1 h
    have hbounds := Cluster.digit_bounds hd
    have hle : idx * 10 + (d.toNat - 48) + 1 ≤ (idx + 1) * 10 := by omega
    calc readIndex idx (d :: digits)
        = readIndex (idx * 10 + (d.toNat - 48)) digits := rfl
      _ < (idx * 10 + (d.toNat - 48) + 1) * 10 ^ digits.length := ih _ hdigits
      _ ≤ (idx + 1) * 10 * 10 ^ digits.length := Nat.mul_le_mul_right _ hle
      _ = (idx + 1) * 10 ^ (d :: digits).length := by rw [List.length_cons, pow_succ']; ring

/-- A short line with few digits fits. -/
theorem lineFits_of_short {choice : ℕ → List Char} {mem : List Char}
    (hanswer : ∀ idx, (choice idx).length < 10) (hdigits : mem.countP Char.isDigit < 10)
    (hlen : mem.length < usable) : LineFits usable choice mem where
  answer := hanswer
  number digits hsub hnumber := by
    have hcount : digits.length ≤ 9 := by
      rw [← List.countP_eq_length.2 hnumber.2]
      exact (hsub.sublist.countP_le).trans (Nat.le_of_lt_succ hdigits)
    have hlt := readIndex_lt 0 hnumber.2
    have hpow : 10 ^ digits.length ≤ 10 ^ 9 := Nat.pow_le_pow_right (by decide) hcount
    omega
  word := not_longWord hlen

/-- Lines of a user who has memory for everything. -/
theorem fits_lineOf (text : List Char) (receivedSigInt : Bool)
    (hdigits : text.countP Char.isDigit < 10) (hlen : text.length < 24)
    (htyped : ∀ index, typedIndex (cstring text) = some index → index < 2147483648) :
    (lineOf text receivedSigInt).Fits 24 ∧ ¬(lineOf text receivedSigInt).alloc.Short :=
  have hanswer : ['y', 'e', 's'].length < 10 := by decide
  ⟨⟨lineFits_of_short (fun _ => hanswer) hdigits hlen, htyped⟩, Allocator.not_short_first⟩

theorem fits_pwd : (lineOf "pwd\n".toList false).Fits 24 ∧
    ¬(lineOf "pwd\n".toList false).alloc.Short :=
  fits_lineOf _ false (by decide) (by decide) fun _ h => by cases h

/-- A line with one command that is no shortcut line, on any session without pointers. -/
theorem exists_prompt_pwd (v : PlainSession 19) :
    ∃ v', v.prompt (lineOf "pwd\n".toList false) = some v' := by
  have hnot : ¬IsShortcut (cstring "pwd\n".toList) := by decide
  have hparse : (parseFields 1 ((cstring "pwd\n".toList).splitOn '|') initCmdPipe).isSome := rfl
  obtain ⟨pipe, hpipe⟩ := Option.isSome_iff_exists.1 hparse
  rw [PlainSession.prompt, if_neg (by decide), if_neg (by decide), if_neg (by decide),
    PlainSession.runLine, lineOf, createCmdPipe, if_neg hnot, hpipe]
  exact ⟨_, rfl⟩

end Session

/-! ## What a shortcut runs -/

/-- The indices that a line names, for itself and in the line that it stores. -/
def scIndices (mem : List Char) : List ℕ :=
  if IsShortcut (cstring mem) then
    match _h : scLine mem with
    | .exits => []
    | .notNumber => []
    | .negative => []
    | .line flag idx rest => idx :: if flag = 'i' then scIndices rest else []
  else []
termination_by mem.length
decreasing_by exact length_lt_of_scLine _h

section Shortcut

variable {choice : ℕ → List Char} {mem rest : List Char} {map : ShortcutMap CommandPipe n}
  {idx k : ℕ} {flag : Char} {c : Created n}

theorem scIndices_eq (hsc : IsShortcut (cstring mem)) (hline : scLine mem = .line flag idx rest) :
    scIndices mem = idx :: if flag = 'i' then scIndices rest else [] := by
  rw [scIndices, if_pos hsc]
  split
  · rename_i h
    cases hline.symm.trans h
  · rename_i h
    cases hline.symm.trans h
  · rename_i h
    cases hline.symm.trans h
  · rename_i h
    cases hline.symm.trans h
    rfl

theorem find_replaceInMap {map' : ShortcutMap CommandPipe n} (hk : k ≠ idx)
    (h : replaceInMap choice map idx = some (some map')) : findInMap map' k = findInMap map k := by
  obtain ⟨-, hsome⟩ | ⟨-, -, -, ⟨-, hsome⟩ | ⟨-, hsome⟩⟩ := replaceInMap_cases h
  · cases hsome
    rfl
  · cases hsome
    rw [findInMap_erase, if_neg hk]
  · cases hsome

/-- What a line that stores a shortcut does, when it does. -/
theorem exists_of_insert (hsc : IsShortcut (cstring mem)) (hline : scLine mem = .line 'i' idx rest)
    (hc : createCmdPipe choice mem map = some c) :
    c.map = map ∧ scanChoice (choice idx) ≠ some ['y', 'e', 's'] ∨
      ∃ map' r, replaceInMap choice map idx = some (some map') ∧
        createCmdPipe choice rest map' = some r ∧
          ∃ h : findInMap r.map idx = none, c.map = r.map.insert idx r.pipe h := by
  rw [createCmdPipe_of_insert hsc hline] at hc
  obtain ⟨prepared, hprepared, hc⟩ := Option.bind_eq_some_iff.1 hc
  cases prepared with
  | none =>
    obtain rfl := Option.some.inj hc
    refine .inl ⟨rfl, fun hyes => ?_⟩
    obtain ⟨-, hsome⟩ | ⟨-, answer, hanswer, ⟨-, hsome⟩ | ⟨hno, -⟩⟩ :=
      replaceInMap_cases hprepared
    · cases hsome
    · cases hsome
    · exact hno (Option.some.inj (hanswer.symm.trans hyes))
  | some map' =>
    obtain ⟨r, hr, hc⟩ := Option.bind_eq_some_iff.1 hc
    obtain ⟨map'', hinsert, rfl⟩ := Option.map_eq_some_iff.1 hc
    obtain ⟨hnone, hmap⟩ := Option.dite_none_right_eq_some.1 hinsert
    exact .inr ⟨map', r, hprepared, hr, hnone, (Option.some.inj hmap).symm⟩

/-- A line keeps the shortcuts that it does not name. -/
theorem find_createCmdPipe (hk : k ∉ scIndices mem) (hc : createCmdPipe choice mem map = some c) :
    findInMap c.map k = findInMap map k := by
  induction hlen : mem.length using Nat.strong_induction_on generalizing mem map c with
  | _ len ih =>
    by_cases hsc : IsShortcut (cstring mem)
    case neg =>
      rw [createCmdPipe, if_neg hsc] at hc
      obtain ⟨pipe, -, rfl⟩ := Option.map_eq_some_iff.1 hc
      rfl
    cases hline : scLine mem with
    | exits =>
      rw [createCmdPipe_of_exits hsc hline] at hc
      cases hc
    | notNumber =>
      rw [createCmdPipe_of_notNumber hsc hline] at hc
      obtain rfl := Option.some.inj hc
      rfl
    | negative =>
      rw [createCmdPipe_of_negative hsc hline] at hc
      cases hc
    | line flag idx rest =>
      rw [scIndices_eq hsc hline] at hk
      obtain ⟨hne, hrest⟩ := not_or.1 (List.mem_cons.not.1 hk)
      obtain ⟨_, hread, -⟩ := exists_readAs_of_scLine hline
      rcases hread.1 with rfl | rfl
      · rw [if_pos rfl] at hrest
        rcases exists_of_insert hsc hline hc with ⟨hsame, -⟩ | ⟨map', r, hprepared, hr, hnone, hmap⟩
        · rw [hsame]
        · have hr' := ih _ (hlen ▸ length_lt_of_scLine hline) hrest hr rfl
          rw [hmap, findInMap_insert, if_neg hne, hr', find_replaceInMap hne hprepared]
      · rw [createCmdPipe_of_delete hsc hline] at hc
        obtain ⟨r, hdelete, rfl⟩ := Option.map_eq_some_iff.1 hc
        obtain ⟨-, hdelete⟩ := Option.ite_none_left_eq_some.1 hdelete
        obtain ⟨pipe, -, rfl⟩ := Option.map_eq_some_iff.1 hdelete
        exact (findInMap_erase map idx k).trans (if_neg hne)

/-- A line stores the pipeline of its rest, when what is stored may be replaced. -/
theorem find_stored (hsc : IsShortcut (cstring mem)) (hline : scLine mem = .line 'i' idx rest)
    (hyes : scanChoice (choice idx) = some ['y', 'e', 's']) (hplain : ¬IsShortcut (cstring rest))
    (hc : createCmdPipe choice mem map = some c) :
    ∃ pipe, parseFields 1 ((cstring rest).splitOn '|') initCmdPipe = some pipe ∧
      findInMap c.map idx = some pipe := by
  rcases exists_of_insert hsc hline hc with ⟨-, hkept⟩ | ⟨map', r, -, hr, hnone, hmap⟩
  · exact absurd hyes hkept
  · rw [createCmdPipe, if_neg hplain] at hr
    obtain ⟨pipe, hparse, rfl⟩ := Option.map_eq_some_iff.1 hr
    exact ⟨pipe, hparse, by rw [hmap, findInMap_insert, if_pos rfl]⟩

/-- The line stores the pipeline of `rest` as the shortcut `idx`, also in place of another one. -/
structure Input.Stores (l : Input) (idx : ℕ) (rest : List Char) : Prop where
  isShortcut : IsShortcut (cstring l.mem)
  line : scLine l.mem = .line 'i' idx rest
  yes : scanChoice (l.choice idx) = some ['y', 'e', 's']
  plain : ¬IsShortcut (cstring rest)
  typed : l.receivedSigInt = false

/-- Ctrl+C and the index. -/
structure Input.Calls (l : Input) (idx : ℕ) : Prop where
  index : typedKey (cstring l.mem) = some idx
  nonempty : cstring l.mem ≠ ['\n']
  sigInt : l.receivedSigInt = true

/-- A line that leaves the shortcut as it is. -/
def Input.Keeps (l : Input) (idx : ℕ) : Prop :=
  l.receivedSigInt = true ∨ idx ∉ scIndices l.mem

section Plain

variable {v v' : PlainSession n} {l : Input}

theorem find_prompt (hk : l.Keeps idx) (hv : v.prompt l = some v') :
    findInMap v'.map idx = findInMap v.map idx := by
  unfold PlainSession.prompt at hv
  split_ifs at hv with hempty hsig hexit
  · obtain rfl := Option.some.inj hv
    rfl
  · obtain ⟨_, -, rfl⟩ := Option.map_eq_some_iff.1 hv
    rfl
  · obtain ⟨c, hc, rfl⟩ := Option.map_eq_some_iff.1 hv
    exact find_createCmdPipe (hk.resolve_left hsig) hc

theorem find_prompts {ls : List Input} (hk : ∀ l ∈ ls, l.Keeps idx)
    (hv : ls.foldlM PlainSession.prompt v = some v') :
    findInMap v'.map idx = findInMap v.map idx := by
  induction ls generalizing v with
  | nil =>
    obtain rfl := Option.some.inj hv
    rfl
  | cons l ls ih =>
    obtain ⟨hl, hls⟩ := List.forall_mem_cons.1 hk
    rw [List.foldlM_cons] at hv
    obtain ⟨v₁, hv₁, hv⟩ := Option.bind_eq_some_iff.1 hv
    rw [ih hls hv, find_prompt hl hv₁]

theorem find_of_stores (hl : l.Stores idx rest) (hv : v.prompt l = some v') :
    ∃ pipe, parseFields 1 ((cstring rest).splitOn '|') initCmdPipe = some pipe ∧
      findInMap v'.map idx = some pipe := by
  have hlen := hl.isShortcut.1
  have hsig : ¬l.receivedSigInt = true := by simp [hl.typed]
  unfold PlainSession.prompt at hv
  split_ifs at hv with hempty hexit
  · rw [hempty] at hlen
    exact absurd hlen (by decide)
  · obtain ⟨c, hc, rfl⟩ := Option.map_eq_some_iff.1 hv
    exact find_stored hl.isShortcut hl.line hl.yes hl.plain hc

theorem executed_of_calls (hl : l.Calls idx) (hv : v.prompt l = some v') :
    v'.executed = v.executed ++ (findInMap v.map idx).toList := by
  rw [PlainSession.prompt, if_neg hl.nonempty, if_pos hl.sigInt, PlainSession.runIndex, hl.index]
    at hv
  obtain rfl := Option.some.inj hv
  rfl

end Plain

end Shortcut

end NetProg.Shell
