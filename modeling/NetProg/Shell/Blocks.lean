import NetProg.Lib.Stop
import NetProg.Shell.Arguments

/-!
# Lines with blocks for the arguments

`parseFieldsIn` is `parseFields` when `calloc` gives blocks of `usable` bytes for the arguments, as
`parseCmdIn` is `parseCmd`. It does what `parseFields` does, unless there are that many characters
in a row without a blank (`parseFieldsIn_refines`).
-/

namespace NetProg.Shell

open Lib
open Cluster (isSpace)

/-! ## The parser -/

/-- What a call that ends badly does to the process. -/
def Fault.stop : Fault → Stop
  | .exits => .exit
  | .overruns => .fault

/-- The commands of a block, as `insertAlternatives`. -/
def insertAlternativesIn (usable : ℕ) (k : PipeCount) (strs : List (List Char))
    (pipe : CommandPipe) : Except Stop CommandPipe :=
  if strs.length < k.size then .error .exit
  else
    ((((List.range k.size).map k.command).zip strs).mapM fun r =>
      (parseCmdIn usable r.1 r.2).mapError Fault.stop).bind fun cmds =>
        Stop.deref (cmds.foldlM insertCmdInPipe pipe)

/-- A command behind `pipeCount - 1` empty fields, as `insertBlock`. -/
def insertBlockIn (usable pipeCount : ℕ) (temp : List Char) (pipe : CommandPipe) :
    Except Stop CommandPipe :=
  match pipeCount with
  | 1 => insertAlternativesIn usable .single [temp] pipe
  | 2 => insertAlternativesIn usable .double (temp.splitOn ',') pipe
  | 3 => insertAlternativesIn usable .triple (temp.splitOn ',') pipe
  | _ => .error .exit

/-- The loop over the fields, as `parseFields`. -/
def parseFieldsIn (usable : ℕ) : ℕ → List (List Char) → CommandPipe → Except Stop CommandPipe
  | _, [], pipe => .ok pipe
  | pipeCount, field :: fields, pipe =>
    if field = [] then parseFieldsIn usable (pipeCount + 1) fields pipe
    else
      let r := cutAmp field
      let pipe := { pipe with isBackground := pipe.isBackground || r.1 }
      (insertBlockIn usable pipeCount r.2 pipe).bind fun pipe =>
        parseFieldsIn usable 1 fields pipe

/-! ## Long words -/

/-- There are `usable` characters in a row without a blank. -/
def LongWord (usable : ℕ) (text : List Char) : Prop :=
  ∃ w, w <:+: text ∧ (∀ c ∈ w, isSpace c = false) ∧ usable ≤ w.length

/-- How a text may make the parser end on its own. -/
def Overruns (usable : ℕ) (text : List Char) : Stop → Prop
  | .exit => False
  | .fault => LongWord usable text

/-- The parser has made the same pipeline, a list of commands. -/
def SamePipe (pipe pipe' : CommandPipe) : Prop :=
  pipe = pipe' ∧ ∃ cmds, pipe.cmds.Holds cmds

section Refines

variable {usable : ℕ} {text part : List Char}

theorem LongWord.mono (h : LongWord usable part) (hpart : part <:+: text) :
    LongWord usable text := by
  obtain ⟨w, hw, hword, hlen⟩ := h
  exact ⟨w, hw.trans hpart, hword, hlen⟩

theorem not_longWord (h : text.length < usable) : ¬LongWord usable text := by
  rintro ⟨w, hw, -, hlen⟩
  have hle := hw.length_le
  omega

theorem Overruns.mono (hpart : part <:+: text) (stop : Stop) (h : Overruns usable part stop) :
    Overruns usable text stop := by
  cases stop with
  | exit => exact h
  | fault => exact LongWord.mono h hpart

theorem parseCmdIn_refines (usable : ℕ) (shape : Command) (text : List Char) :
    Stop.Refines (Overruns usable text) Eq ((parseCmdIn usable shape text).mapError Fault.stop)
      (parseCmd shape text) := by
  rw [parseCmdIn_eq, parseCmd_eq]
  by_cases hfits : ∀ arg ∈ storedArgs text, arg.length < usable
  · rw [if_pos hfits]
    split_ifs
    · exact .ok rfl
    · exact .exit
  · rw [if_neg hfits]
    obtain ⟨arg, harg⟩ := not_forall.1 hfits
    obtain ⟨harg, hlen⟩ := Classical.not_imp.1 harg
    have hmem := mem_of_mem_inPosition (List.mem_of_mem_take harg)
    obtain ⟨hsub, hword⟩ := infix_of_mem_words ((List.takeWhile_subset _) hmem)
    have hover : Overruns usable text .fault := ⟨arg, hsub, hword, not_lt.1 hlen⟩
    exact .ends hover _

/-- The commands of a block, before they are inserted. -/
theorem mapM_parseCmdIn_refines (usable : ℕ) {rs : List (Command × List Char)}
    (hrs : ∀ r ∈ rs, r.2 <:+: text) :
    Stop.Refines (Overruns usable text) Eq
      (rs.mapM fun r => (parseCmdIn usable r.1 r.2).mapError Fault.stop)
      (rs.mapM fun r => parseCmd r.1 r.2) := by
  induction rs with
  | nil => exact .ok rfl
  | cons r rs ih =>
    obtain ⟨hr, hrs⟩ := List.forall_mem_cons.1 hrs
    rw [List.mapM_cons, List.mapM_cons]
    refine ((parseCmdIn_refines usable r.1 r.2).weaken (Overruns.mono hr)).bind
      fun cmd cmd' hcmd => ?_
    refine (ih hrs).bind fun cmds cmds' hcmds => ?_
    exact .ok (by rw [hcmd, hcmds])

theorem insertAlternativesIn_refines (usable : ℕ) {k : PipeCount} {strs : List (List Char)}
    {pipe : CommandPipe} {xs : List ParsedCommand} (h : pipe.cmds.Holds xs)
    (hstrs : ∀ str ∈ strs, str <:+: text) :
    Stop.Refines (Overruns usable text) SamePipe (insertAlternativesIn usable k strs pipe)
      (insertAlternatives k strs pipe) := by
  unfold insertAlternativesIn insertAlternatives
  split_ifs
  · exact .exit
  · refine (mapM_parseCmdIn_refines usable fun r hr => hstrs _ ?_).bind fun cmds cmds' hcmds => ?_
    · exact (List.of_mem_zip hr).2
    · subst hcmds
      obtain ⟨pipe', hinsert, hholds, -⟩ := exists_insertCmds h cmds
      rw [hinsert]
      exact .ok ⟨rfl, _, hholds⟩

theorem insertBlockIn_refines (usable n : ℕ) {pipe : CommandPipe} {xs : List ParsedCommand}
    (h : pipe.cmds.Holds xs) :
    Stop.Refines (Overruns usable text) SamePipe (insertBlockIn usable n text pipe)
      (insertBlock n text pipe) := by
  have hparts : ∀ str ∈ text.splitOn ',', str <:+: text := fun _ hstr => infix_of_mem_splitOn hstr
  rcases n with _ | _ | _ | _ | n
  · exact .exit
  · exact insertAlternativesIn_refines usable h (List.forall_mem_singleton.2 List.infix_rfl)
  · exact insertAlternativesIn_refines usable h hparts
  · exact insertAlternativesIn_refines usable h hparts
  · exact .exit

theorem infix_cutAmp (field : List Char) : (cutAmp field).2 <:+: field := by
  unfold cutAmp
  simp only
  split_ifs
  · exact (List.take_prefix _ _).isInfix
  · exact List.infix_rfl

/-- Without long words, the arguments fit into their blocks. -/
theorem parseFieldsIn_refines (usable : ℕ) {n : ℕ} {fields : List (List Char)} {pipe : CommandPipe}
    {xs : List ParsedCommand} (h : pipe.cmds.Holds xs)
    (hfields : ∀ field ∈ fields, field <:+: text) :
    Stop.Refines (Overruns usable text) SamePipe (parseFieldsIn usable n fields pipe)
      (parseFields n fields pipe) := by
  induction fields generalizing n pipe xs with
  | nil => exact .ok ⟨rfl, xs, h⟩
  | cons field fields ih =>
    obtain ⟨hfield, hfields⟩ := List.forall_mem_cons.1 hfields
    rw [parseFieldsIn, parseFields]
    split_ifs
    · exact ih h hfields
    · have hsub := (infix_cutAmp field).trans hfield
      refine ((insertBlockIn_refines usable n (by exact h)).weaken (Overruns.mono hsub)).bind
        fun pipe₁ pipe₂ hpipe => ?_
      obtain ⟨rfl, cmds, hcmds⟩ := hpipe
      exact ih hcmds hfields

end Refines

end NetProg.Shell
