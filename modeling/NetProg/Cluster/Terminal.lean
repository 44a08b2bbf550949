import NetProg.Cluster.Framing
import NetProg.Lib.Lockstep

/-!
# The answers of a session

The user types a line, the client writes it and waits for one read of `MAX_OUTPUT_SIZE` bytes. The
handler reads lines of up to `MAX_COMMAND_SIZE` bytes, and writes each answer with the byte that
ends it. Nothing says where a line or an answer ends, and the two directions are streams.

`terminal_iff` says that a session stays in order exactly when every read returns all that is in
flight. An answer of `MAX_OUTPUT_SIZE` characters, which the handler has room for, is one byte too
long for that : its last byte is what the client reads for the next line.

The port is read before the first line here. Reads of the port and of commands together are the
subject of `NetProg.Cluster.Stream`.
-/

namespace NetProg.Cluster

open Lib (CString Dialogue)
open Lib.CString

/-- What happens at the client and at its handler. A read says how many bytes it returns. -/
inductive TerminalEvent where
  | type (line : List Char)
  | readCommand (n : ℕ)
  | answer (text : Output)
  | show (n : ℕ)

/-- A line that the client sends : it is not empty, and not the command to leave. -/
def Sent (line : List Char) : Prop :=
  line ≠ [] ∧ line ≠ ['e', 'x', 'i', 't'] ∧ nul ∉ line

instance (line : List Char) : Decidable (Sent line) :=
  inferInstanceAs (Decidable (_ ∧ _))

namespace TerminalEvent

/-- The strings have no zero byte, and the lines are sent. -/
def Valid : TerminalEvent → Prop
  | .type line => Sent line
  | .answer text => nul ∉ text.chars
  | _ => True

instance : ∀ e, Decidable (Valid e)
  | .type line => inferInstanceAs (Decidable (Sent line))
  | .answer text => inferInstanceAs (Decidable (nul ∉ text.chars))
  | .readCommand _ | .show _ => .isTrue trivial

/-- What is written and read. -/
def label : TerminalEvent → Dialogue.Label Char
  | .type line => .ask line
  | .readCommand n => .take n
  | .answer text => .tell (text.chars ++ [nul])
  | .show n => .hear n

end TerminalEvent

namespace Terminal

/-- The loops of `main` in the client and of `connectionHandler`, as far as they read and write. -/
def step (s : Dialogue Char) (e : TerminalEvent) : Option (Dialogue Char) :=
  if e.Valid then Dialogue.step maxCommandSize maxOutputSize s e.label else none

/-- The lines that the handler has got. -/
def lines (s : Dialogue Char) : List (List Char) :=
  s.got.map fun bytes => cstr bytes 0

/-- The answers of the handler. -/
def answers (s : Dialogue Char) : List (List Char) :=
  s.told.map fun bytes => cstr bytes 0

/-- What the client has printed. -/
def shown (s : Dialogue Char) : List (List Char) :=
  s.heard.map fun bytes => cstr bytes 0

/-- A read returns all that is in flight. -/
def Whole (s : Dialogue Char) (e : TerminalEvent) : Prop :=
  Dialogue.Whole s e.label

/-- What was written are strings, the answers with the byte that ends them. -/
structure Texts (s : Dialogue Char) : Prop where
  asked : ∀ line ∈ s.asked, nul ∉ line
  told : ∀ bytes ∈ s.told, bytes = cstr bytes 0 ++ [nul]

variable {s s' : Dialogue Char}

theorem step_eq_some {e : TerminalEvent} (h : step s e = some s') :
    e.Valid ∧ Dialogue.step maxCommandSize maxOutputSize s e.label = some s' := by
  unfold step at h
  split_ifs at h with hvalid
  exact ⟨hvalid, h⟩

theorem cstr_append_nul {text : List Char} (h : nul ∉ text) : cstr (text ++ [nul]) 0 = text := by
  rw [cstr, List.drop_zero, Lib.takeWhile_of_notMem h]

theorem Texts.step {e : TerminalEvent} (h : Texts s) (hs : step s e = some s') : Texts s' := by
  obtain ⟨hvalid, hs⟩ := step_eq_some hs
  cases e with
  | type line =>
    simp only [TerminalEvent.label, Dialogue.step] at hs
    split_ifs at hs
    obtain rfl := Option.some.inj hs
    exact ⟨List.forall_mem_append.2 ⟨h.asked, List.forall_mem_singleton.2 hvalid.2.2⟩, h.told⟩
  | answer text =>
    simp only [TerminalEvent.label, Dialogue.step] at hs
    split_ifs at hs
    obtain rfl := Option.some.inj hs
    refine ⟨h.asked, List.forall_mem_append.2 ⟨h.told, List.forall_mem_singleton.2 ?_⟩⟩
    rw [cstr_append_nul hvalid]
  | readCommand n | «show» n =>
    simp only [TerminalEvent.label, Dialogue.step] at hs
    split_ifs at hs
    obtain rfl := Option.some.inj hs
    exact ⟨h.asked, h.told⟩

/-- In order, the handler has got lines that were typed, and the client has printed answers, none
of which is as long as the array. -/
theorem texts_of_inStep (htexts : Texts s) (hfit : s.ReadsFit maxCommandSize maxOutputSize)
    (h : s.InStep) :
    lines s <+: s.asked ∧ shown s <+: answers s ∧ ∀ text ∈ shown s, text.length < maxOutputSize := by
  have hlines : s.asked.map (fun bytes => cstr bytes 0) = s.asked := by
    refine (List.map_congr_left fun line hline => ?_).trans (List.map_id _)
    exact List.takeWhile_eq_self_iff.2 fun c hc =>
      bne_iff_ne.2 (ne_of_mem_of_not_mem hc (htexts.asked line hline))
  refine ⟨hlines ▸ h.1.map _, h.2.map _, fun text htext => ?_⟩
  obtain ⟨bytes, hbytes, rfl⟩ := List.mem_map.1 htext
  have hlen := congrArg List.length (htexts.told bytes (h.2.subset hbytes))
  have hle := hfit.2 bytes hbytes
  rw [List.length_append, List.length_singleton] at hlen
  omega

/-- A session is in order in every state exactly when every read returns all that is in flight.
Then the client prints the answers to its lines, and every answer that it has printed was shorter
than the array. -/
theorem terminal_iff {es : List TerminalEvent} (hr : run step Dialogue.init es = some s) :
    (Along step Dialogue.InStep Dialogue.init es ↔ StepsMeet step Whole Dialogue.init es) ∧
      (s.InStep → lines s <+: s.asked ∧ shown s <+: answers s ∧
        ∀ text ∈ shown s, text.length < maxOutputSize) := by
  have hinv : Texts s ∧ s.ReadsFit maxCommandSize maxOutputSize :=
    run_invariant_of_step (I := fun s => Texts s ∧ s.ReadsFit maxCommandSize maxOutputSize)
      (fun _ _ _ h hs => ⟨h.1.step hs, h.2.step (step_eq_some hs).2⟩)
      ⟨⟨List.forall_mem_nil _, List.forall_mem_nil _⟩, List.forall_mem_nil _,
        List.forall_mem_nil _⟩ hr
  refine ⟨?_, texts_of_inStep hinv.1 hinv.2⟩
  exact along_iff_stepsMeet (I := Dialogue.Phase) (fun _ h => h.inStep)
    (fun _ _ _ h hw hs => h.step hw (step_eq_some hs).2)
    (fun _ _ _ h hw hs => h.not_inStep hw (step_eq_some hs).2) (.idle rfl rfl rfl rfl rfl)
    (by rw [hr]; rfl)

/-- Two lines and their answers. -/
def twoAnswers : List TerminalEvent :=
  [.type ['l', 's'], .readCommand 2, .answer ⟨['o', 'k'], by decide⟩, .show 3,
    .type ['w', 'c'], .readCommand 2, .answer CString.empty, .show 1]

theorem terminal_iff_twoAnswers : ∃ s, run step Dialogue.init twoAnswers = some s ∧
    (Along step Dialogue.InStep Dialogue.init twoAnswers ↔
        StepsMeet step Whole Dialogue.init twoAnswers) ∧
      (s.InStep → lines s <+: s.asked ∧ shown s <+: answers s ∧
        ∀ text ∈ shown s, text.length < maxOutputSize) := by
  have hrun : (run step Dialogue.init twoAnswers).isSome = true := by decide
  obtain ⟨s, hs⟩ := Option.isSome_iff_exists.1 hrun
  exact ⟨s, hs, terminal_iff hs⟩

end Terminal

end NetProg.Cluster
