import NetProg.Cluster.History

/-!
# The way to an answer

A handler in the middle of a line waits for nobody but the machine that it has asked. `goes_on_iff`
says when its next step is possible : exactly when the text that it puts in an array fits there,
the names of machines in the line that it parses among them, and when the machine number is not
below -1. The commands and their inputs, the messages and the answers fit in every state that the cluster
can reach.

`answers_within` bounds the steps : after as many steps of its own as `work` says, whatever the
others do in the meantime, a handler has written an answer or the server has ended.
-/

namespace NetProg.Cluster

open Lib (CString own)
open Lib.CString

variable {ω : Type*}

/-! ## What fits -/

/-- The text of an error fits. -/
def ErrorFits (text : List Char) (i : ℕ) (reply : Reply) : Prop :=
  ∀ msg, sendCommand text i reply = .error msg → msg.length ≤ maxOutputSize

/-- There is room for what the machine writes, and for the text of an error. -/
def AskFits (os : Os ω) (net : Net) (w : ω) (addr : Address) (text : List Char) (i : ℕ)
    (input : List Char) : Prop :=
  match net with
  | .refused => True
  | .writeError => ErrorFits text i .writeError
  | .readError ran =>
    (ran = true → (os.act w addr text input).2.length ≤ maxOutputSize) ∧ ErrorFits text i .readError
  | .delivered => (os.act w addr text input).2.length ≤ maxOutputSize

/-- There is room for an output behind the outputs of the broadcast. -/
def Next.Fits (out : List Char) : Next → Prop
  | .pipe _ => True
  | .cast _ res => (res.chars ++ out).length ≤ maxOutputSize

/-- The input is one for the place of the handler, and what it copies fits. -/
def Place.Fits (config : Config) (os : Os ω) (s : Shared ω) : Place → Input → Prop
  | .created _, .turn _ | .casting _ _ _ _ _ _, .turn _ => True
  | .readingPort _, .read bytes => (bytes.getD []).length < portLen
  | .readingCommand _, .read bytes =>
    (bytes.getD []).length ≤ maxCommandSize ∧ NamesFit (cstr (bytes.getD []) 0)
  | .listing _ i res, .turn _ =>
    i < maxClientsAllowed → s.active i = true →
      (res.chars ++ nodeLine config i).length ≤ maxOutputSize
  | .piping _ cmds _, .turn _ => ∀ cmd ∈ cmds.head?, -1 ≤ cmd.1
  | .asking _ text i output next, .turn net =>
    AskFits os net s.world (s.address config i) text i output.chars ∧
      (net = .delivered → next.Fits (os.act s.world (s.address config i) text output.chars).2)
  | _, _ => False

/-! ## What always fits -/

theorem isSome_strcpy_iff {s : List Char} :
    (strcpy s : Option Output).isSome ↔ s.length ≤ maxOutputSize := by
  rw [← Nat.lt_succ_iff]
  by_cases h : s.length < maxOutputSize + 1
  · rw [strcpy_of_lt h]
    exact iff_of_true rfl h
  · rw [strcpy_eq_none (not_lt.1 h)]
    exact iff_of_false (by simp) h

theorem length_decimal_le {n : ℤ} (hpos : 0 ≤ n) (hlt : n < 10 ^ 10) : (decimal n).length ≤ 10 := by
  obtain ⟨m, rfl⟩ := Int.eq_ofNat_of_zero_le hpos
  have hm : m < 10 ^ 10 := by exact_mod_cast hlt
  have hdigits : decimal (m : ℤ) = Nat.toDigits 10 m := Nat.toList_repr
  rw [hdigits]
  exact (Nat.length_toDigits_le_iff (by decide) (by decide)).2 hm

theorem length_invalidMachine (machine : ℤ) :
    (invalidMachine machine).length = (decimal (machine + 1)).length + 88 := by
  have hframe : ∀ d : List Char, ("Invalid machine name found: n".toList ++ d ++
      ". Please verify that it exists in config in correct order.\n".toList).length =
        d.length + 88 := fun d => by
    rw [List.length_append, List.length_append, add_comm _ d.length, add_assoc]
    rfl
  exact hframe _

theorem length_notConnected (machine : ℤ) :
    (notConnected machine).length = (decimal (machine + 1)).length + 27 := by
  have hframe : ∀ d : List Char, ("Machine n".toList ++ d ++ " is not connected.".toList).length =
      d.length + 27 := fun d => by
    rw [List.length_append, List.length_append, add_comm _ d.length, add_assoc]
    rfl
  exact hframe _

/-- A number that is no machine, and one that is not connected, have room. -/
theorem length_messages_le {machine : ℤ} (hpos : 0 ≤ machine) (hlt : machine < 2 ^ 31) :
    (invalidMachine machine).length ≤ maxOutputSize ∧
      (notConnected machine).length ≤ maxOutputSize := by
  have hdec := @length_decimal_le (machine + 1) (by omega) (by omega)
  have hroom : maxOutputSize = 1024 := rfl
  rw [length_invalidMachine, length_notConnected, hroom]
  omega

/-- The message fits in the array of the server, and in that of the machine. -/
theorem Sendable.message_fits {text : List Char} {output : Output}
    (h : Sendable text output.chars) :
    fillInput text output = some (message text output.chars) ∧
      receive (message text output.chars) = some (message text output.chars ++ [nul]) := by
  have hlen := h.length_le
  have houtput := output.length_lt
  have hmessage : (message text output.chars).length = text.length + output.chars.length + 2 := by
    simp [message]
    omega
  refine ⟨fillInput_eq_some (by omega) output, if_pos ?_⟩
  rw [hmessage, messageSize]
  unfold maxOutputSize maxCommandSize at *
  omega

/-- A machine has room for everything but a path that it cannot change to. -/
theorem isSome_serve_iff {os : Os ω} {w : ω} {addr : Address} {text : List Char} {output : Output}
    (h : Sendable text output.chars) :
    (os.serve w addr (message text output.chars)).isSome ↔
      (os.act w addr text output.chars).2.length ≤ maxOutputSize := by
  constructor
  · intro hserve
    obtain ⟨r, hr⟩ := Option.isSome_iff_exists.1 hserve
    rw [← serve_message h.nul_text h.nul_input hr]
    exact length_serve_le hr
  · unfold Os.serve Os.act
    rw [h.message_fits.2, Option.bind_some]
    by_cases hcd : IsCd (text.dropWhile fun c => c == ' ')
    · rw [executeCmd_cd h.nul_text hcd]
      simp only [if_pos hcd]
      cases os.chdir w addr ((text.dropWhile fun c => c == ' ').drop 3) with
      | none =>
        intro hlen
        rw [Option.isSome_map]
        exact isSome_strcpy_iff.2 hlen
      | some w' => exact fun _ => rfl
    · rw [executeCmd_message h.nul_text h.nul_input hcd]
      exact fun _ => rfl

/-! ## The next step of a handler -/

section Step

variable {config : Config} {os : Os ω} {s : Shared ω}

theorem isSome_place_iff {idx i : ℕ} {text : List Char} {output out : Output} {next : Next} :
    (next.place idx text i output out).isSome ↔ next.Fits out.chars := by
  cases next with
  | pipe cmds => exact iff_of_true rfl trivial
  | cast cmds res =>
    rw [Next.place, Option.isSome_map]
    exact isSome_strcpy_iff

theorem errorFits_iff {text msg : List Char} {i : ℕ} {reply : Reply}
    (h : sendCommand text i reply = .error msg) :
    ErrorFits text i reply ↔ msg.length ≤ maxOutputSize := by
  refine ⟨fun hfits => hfits msg h, fun hlen msg' h' => ?_⟩
  obtain rfl := Except.error.inj (h.symm.trans h')
  exact hlen

/-- A message is answered if what comes of it has room. -/
theorem isSome_askMachine_iff {net : Net} {idx i : ℕ} {text : List Char} {output : Output}
    {next : Next} (hsend : Sendable text output.chars) :
    (askMachine config os net s idx text i output next).isSome ↔
      AskFits os net s.world (s.address config i) text i output.chars ∧
        (net = .delivered → next.Fits (os.act s.world (s.address config i) text output.chars).2) := by
  have hserve := @isSome_serve_iff ω os s.world (s.address config i) text output hsend
  rw [askMachine, hsend.message_fits.1, Option.bind_some]
  cases net with
  | refused => exact iff_of_true rfl ⟨trivial, fun h => Net.noConfusion h⟩
  | writeError =>
    simp only [Os.request, Option.bind_some, Outcome.reply, sendCommand, Option.isSome_map,
      isSome_strcpy_iff]
    rw [AskFits, errorFits_iff rfl]
    exact (and_iff_left fun h => Net.noConfusion h).symm
  | readError ran =>
    have herror : ErrorFits text i .readError ↔ _ := errorFits_iff rfl
    have hnot : Net.readError ran ≠ .delivered := fun h => Net.noConfusion h
    rw [and_iff_left fun h => absurd h hnot, AskFits, herror]
    cases ran with
    | false =>
      simp only [Os.request, Option.bind_some, Outcome.reply, sendCommand, Option.isSome_map,
        isSome_strcpy_iff]
      exact (and_iff_right fun h => absurd h Bool.false_ne_true).symm
    | true =>
      rw [imp_iff_right rfl, ← hserve]
      cases hr : os.serve s.world (s.address config i) (message text output.chars) with
      | none => simp [Os.request, hr]
      | some r =>
        simp only [Os.request, hr, Option.map_some, Option.bind_some, Outcome.reply, sendCommand,
          Option.isSome_map, isSome_strcpy_iff]
        exact (and_iff_right rfl).symm
  | delivered =>
    rw [imp_iff_right rfl, AskFits, ← hserve]
    cases hr : os.serve s.world (s.address config i) (message text output.chars) with
    | none => simp [Os.request, hr]
    | some r =>
      have hlen := length_serve_le hr
      obtain rfl := serve_message hsend.nul_text hsend.nul_input hr
      have hnul := nul_notMem_act os s.world (s.address config i) hsend.nul_text output.chars
      simp only [Os.request, hr, Option.map_some, Option.bind_some, Outcome.reply, sendCommand,
        Option.isSome_map, isSome_place_iff, readOutput_of_length_le hlen hnul]
      exact (and_iff_right rfl).symm

/-- A handler goes on exactly when what it copies fits. -/
theorem isSome_step_iff {p : Place} {inp : Input} (hp : p.Sound config) :
    (p.step config os s inp).isSome ↔ p.Fits config os s inp := by
  cases p with
  | created ip =>
    cases inp with
    | read bytes => exact iff_of_false Bool.false_ne_true id
    | turn net =>
      rw [Place.step]
      cases registerClientConnection ip config s.active <;> exact iff_of_true rfl trivial
  | readingPort idx =>
    have hport : 0 < portLen := by decide
    rcases inp with (_ | _ | ⟨c, bytes⟩) | net
    · exact iff_of_true rfl hport
    · exact iff_of_true rfl hport
    · rw [Place.step, Option.isSome_map, readString, Place.Fits]
      split <;> rename_i hlen
      · exact iff_of_true rfl hlen
      · exact iff_of_false Bool.false_ne_true hlen
    · exact iff_of_false Bool.false_ne_true id
  | readingCommand idx =>
    have hnone : NamesFit (cstr [] 0) := by decide
    rcases inp with (_ | _ | ⟨c, bytes⟩) | net
    · exact iff_of_true rfl ⟨Nat.zero_le _, hnone⟩
    · exact iff_of_true rfl ⟨Nat.zero_le _, hnone⟩
    · rw [Place.step, Place.Fits]
      split <;> rename_i hlen
      · exact iff_of_true rfl hlen
      · exact iff_of_false Bool.false_ne_true hlen
    · exact iff_of_false Bool.false_ne_true id
  | listing idx i res =>
    cases inp with
    | read bytes => exact iff_of_false Bool.false_ne_true id
    | turn net =>
      rw [Place.step, Place.Fits]
      split_ifs with hi hactive
      · rw [Option.isSome_map, imp_iff_right hi, imp_iff_right hactive]
        exact isSome_strcpy_iff
      · exact iff_of_true rfl fun _ h => absurd h hactive
      · exact iff_of_true rfl fun h => absurd h hi
  | piping idx cmds output =>
    cases inp with
    | read bytes => cases cmds <;> exact iff_of_false Bool.false_ne_true id
    | turn net =>
      cases cmds with
      | nil => exact iff_of_true rfl fun cmd h => absurd h (Option.not_mem_none cmd)
      | cons cmd cmds =>
        obtain ⟨hidx, hsend, hmachine, hlater⟩ := hp
        have hmax : config.count ≤ 100 := config.length_le
        have hmachineOf : machineOf idx cmd = if cmd.1 = -1 then (idx : ℤ) else cmd.1 - 1 := rfl
        have hfits : (Place.piping idx (cmd :: cmds) output).Fits config os s (.turn net) ↔
            -1 ≤ cmd.1 := by
          simp [Place.Fits]
        rw [Place.step, hfits]
        simp only
        split_ifs with hcast hcount hneg hactive
        · exact iff_of_true rfl (by omega)
        · have hbound : 0 ≤ machineOf idx cmd ∧ machineOf idx cmd < 2 ^ 31 := by
            refine ⟨by omega, ?_⟩
            rw [hmachineOf]
            split <;> omega
          rw [Option.isSome_map]
          refine iff_of_true (isSome_strcpy_iff.2 (length_messages_le hbound.1 hbound.2).1) ?_
          have hpos := hbound.1
          rw [hmachineOf] at hpos
          split at hpos <;> omega
        · rw [hmachineOf] at hneg
          refine iff_of_false Bool.false_ne_true ?_
          split at hneg <;> omega
        · rw [Option.isSome_map]
          refine iff_of_true (isSome_strcpy_iff.2 (length_messages_le (by omega) (by omega)).2) ?_
          rw [hmachineOf] at hneg
          split at hneg <;> omega
        · refine iff_of_true rfl ?_
          rw [hmachineOf] at hneg
          split at hneg <;> omega
  | casting idx text cmds output i res =>
    cases inp with
    | read bytes => exact iff_of_false Bool.false_ne_true id
    | turn net =>
      rw [Place.step]
      split_ifs <;> exact iff_of_true rfl trivial
  | asking idx text i output next =>
    cases inp with
    | read bytes => exact iff_of_false Bool.false_ne_true id
    | turn net => exact isSome_askMachine_iff hp.2.1
  | ended => cases inp <;> exact iff_of_false Bool.false_ne_true id

end Step

/-! ## The end of a line -/

/-- The handler is in the middle of a line. -/
def Place.Working : Place → Prop
  | .listing _ _ _ | .piping _ _ _ | .casting _ _ _ _ _ _ | .asking _ _ _ _ _ => True
  | _ => False

instance decidableWorking : ∀ p : Place, Decidable p.Working
  | .listing _ _ _ | .piping _ _ _ | .casting _ _ _ _ _ _ | .asking _ _ _ _ _ => .isTrue trivial
  | .created _ | .readingPort _ | .readingCommand _ | .ended => .isFalse id

/-- The steps for a list of commands, and for the answer. A broadcast looks at each machine and
asks it. -/
def pipeWork (config : Config) (cmds : List Command) : ℕ :=
  (2 * config.count + 2) * cmds.length + 1

/-- The steps that are left, behind an exchange with machine `i`. -/
def Next.work (config : Config) (i : ℕ) : Next → ℕ
  | .pipe cmds => pipeWork config cmds
  | .cast cmds _ => 2 * (config.count - (i + 1)) + 1 + pipeWork config cmds

/-- The steps that are left. -/
def Place.work (config : Config) : Place → ℕ
  | .listing _ i _ => maxClientsAllowed - i + 1
  | .piping _ cmds _ => pipeWork config cmds
  | .casting _ _ cmds _ i _ => 2 * (config.count - i) + 1 + pipeWork config cmds
  | .asking _ _ i _ next => next.work config i + 1
  | _ => 0

section Work

variable {config : Config} {os : Os ω} {s : Shared ω} {r : Turn ω}

theorem pipeWork_cons (cmd : Command) (cmds : List Command) :
    pipeWork config (cmd :: cmds) = pipeWork config cmds + (2 * config.count + 2) := by
  simp only [pipeWork, List.length_cons]
  ring

theorem pipeWork_pos (cmds : List Command) : 0 < pipeWork config cmds :=
  Nat.succ_pos _

theorem work_pos {p : Place} (hp : p.Working) : 0 < p.work config := by
  cases p with
  | listing idx i res => exact Nat.succ_pos _
  | piping idx cmds output => exact pipeWork_pos cmds
  | casting idx text cmds output i res => exact Nat.add_pos_right _ (pipeWork_pos cmds)
  | asking idx text i output next => exact Nat.succ_pos _
  | created _ | readingPort _ | readingCommand _ | ended => exact hp.elim

theorem work_place {idx i : ℕ} {text : List Char} {output out : Output} {next : Next} {p : Place}
    (h : next.place idx text i output out = some p) :
    p.Working ∧ p.work config = next.work config i := by
  cases next with
  | pipe cmds =>
    obtain rfl := Option.some.inj h
    exact ⟨trivial, rfl⟩
  | cast cmds res =>
    obtain ⟨res', -, rfl⟩ := Option.map_eq_some_iff.1 h
    exact ⟨trivial, rfl⟩

/-- In the middle of a line, a step leaves less to do, writes the answer, or ends the server. -/
theorem working_step {p : Place} {inp : Input} (hp : p.Working) (hsound : p.Sound config)
    (h : p.step config os s inp = some r) :
    (r.place.Working ∧ r.place.work config < p.work config) ∨
      (∃ idx text, r.place = .readingCommand idx ∧ r.actions = [.write text]) ∨
        r.shared.exited = true := by
  cases p with
  | listing idx i res =>
    cases inp with
    | read bytes => cases h
    | turn net =>
      simp only [Place.step] at h
      split_ifs at h with hi hactive
      · obtain ⟨res', -, rfl⟩ := Option.map_eq_some_iff.1 h
        exact .inl ⟨trivial, by simp only [Place.work]; omega⟩
      · obtain rfl := Option.some.inj h
        exact .inl ⟨trivial, by simp only [Place.work]; omega⟩
      · obtain rfl := Option.some.inj h
        exact .inr (.inl ⟨idx, res.chars, rfl, rfl⟩)
  | piping idx cmds output =>
    cases inp with
    | read bytes => cases cmds <;> cases h
    | turn net =>
      cases cmds with
      | nil =>
        obtain rfl := Option.some.inj h
        exact .inr (.inl ⟨idx, output.chars, rfl, rfl⟩)
      | cons cmd cmds =>
        have hwork := @pipeWork_cons config cmd cmds
        have hpos := @pipeWork_pos config cmds
        have hnil : pipeWork config [] = 1 := rfl
        simp only [Place.step] at h
        split_ifs at h with hcast hcount hneg hactive
        · obtain rfl := Option.some.inj h
          exact .inl ⟨trivial, by simp only [Place.work]; omega⟩
        · obtain ⟨msg, -, rfl⟩ := Option.map_eq_some_iff.1 h
          exact .inl ⟨trivial, by simp only [Place.work]; omega⟩
        · obtain ⟨msg, -, rfl⟩ := Option.map_eq_some_iff.1 h
          exact .inl ⟨trivial, by simp only [Place.work]; omega⟩
        · obtain rfl := Option.some.inj h
          exact .inl ⟨trivial, by simp only [Place.work, Next.work]; omega⟩
  | casting idx text cmds output i res =>
    cases inp with
    | read bytes => cases h
    | turn net =>
      simp only [Place.step] at h
      split_ifs at h with hi hactive
      · obtain rfl := Option.some.inj h
        exact .inl ⟨trivial, by simp only [Place.work]; omega⟩
      · obtain rfl := Option.some.inj h
        exact .inl ⟨trivial, by simp only [Place.work, Next.work]; omega⟩
      · obtain rfl := Option.some.inj h
        exact .inl ⟨trivial, by simp only [Place.work]; omega⟩
  | asking idx text i output next =>
    cases inp with
    | read bytes => cases h
    | turn net =>
      obtain ⟨outcome, -, hrespond, ⟨hreply, -⟩ | ⟨reply, msg, -, -, hplace⟩ |
        ⟨out, -, -, hplace⟩⟩ := askMachine_cases hsound.2.1 h
      · cases outcome with
        | refused =>
          obtain hshared := Option.some.inj hrespond
          exact .inr (.inr (by rw [← hshared]))
        | writeError | readError _ | output _ => cases hreply
      · rw [hplace]
        refine .inl ⟨trivial, ?_⟩
        cases next with
        | pipe cmds =>
          have hpos := @pipeWork_pos config cmds
          exact Nat.succ_lt_succ hpos
        | cast cmds res =>
          have hpos := @pipeWork_pos config cmds
          have hnil : pipeWork config [] = 1 := rfl
          simp only [Place.work, Next.work]
          omega
      · obtain ⟨hworking, hwork⟩ := @work_place config _ _ _ _ _ _ _ hplace
        exact .inl ⟨hworking, by rw [hwork]; exact Nat.lt_succ_self _⟩
  | created _ | readingPort _ | readingCommand _ | ended => exact hp.elim

end Work

namespace Threads

variable {ι : Type*} [DecidableEq ι] {config : Config} {os : Os ω} {ips : ι → List Char} {w : ω}

/-- Whatever has happened, the next step of a handler is possible exactly when the server has not
ended and what the handler copies fits. -/
theorem goes_on_iff {ls : List (ι × Input)} {s : Threads ι ω}
    (h : run (step config os) (init ips w) ls = some s) (t : ι) (inp : Input) :
    (step config os s (t, inp)).isSome ↔
      s.shared.exited = false ∧ (s.places t).Fits config os s.shared inp := by
  unfold step
  split_ifs with hs
  · exact iff_of_false nofun fun hfits => by simp [hs] at hfits
  · rw [Option.isSome_map, isSome_step_iff ((explained_run h).sound t)]
    exact (and_iff_right (Bool.eq_false_iff.2 hs)).symm

/-- `goes_on_iff` in front of a message to the first of two machines. -/
theorem goes_on_iff_broadcast : ∃ s,
    run (step twoMachines wordOs) (init (fun _ => ['1']) ())
        (broadcastLine ++ List.replicate 2 ((), .turn .delivered)) = some s ∧
      ((step twoMachines wordOs s ((), .turn .delivered)).isSome ↔
        s.shared.exited = false ∧
          (s.places ()).Fits twoMachines wordOs s.shared (.turn .delivered)) := by
  have hrun : (run (step twoMachines wordOs) (init (fun _ => ['1']) ())
      (broadcastLine ++ List.replicate 2 ((), .turn .delivered))).isSome = true := by decide
  obtain ⟨s, hs⟩ := Option.isSome_iff_exists.1 hrun
  exact ⟨s, hs, goes_on_iff hs () (.turn .delivered)⟩

/-- The handler has answered, or the server has ended. -/
def Answered (t : ι) (s : Threads ι ω) : Prop :=
  (∃ idx text, s.places t = .readingCommand idx ∧ (own t s.log).getLast? = some (.write text)) ∨
    s.shared.exited = true

theorem answered_from {ls : List (ι × Input)} {s s' : Threads ι ω} {t : ι}
    (hs : Explained config os ips w s) (hr : run (step config os) s ls = some s')
    (hworking : (s.places t).Working)
    (hturns : (s.places t).work config ≤ ls.countP fun l => l.1 = t) :
    ∃ ls₁ ls₂ u, ls = ls₁ ++ ls₂ ∧ run (step config os) s ls₁ = some u ∧ u.Answered t := by
  induction ls generalizing s with
  | nil =>
    have hpos := @work_pos config _ hworking
    rw [List.countP_nil] at hturns
    omega
  | cons l ls ih =>
    obtain ⟨u, hu, hr⟩ := run_cons_eq_some.1 hr
    have hexplained := hs.step hu
    have hrest : (u.places t).Working →
        (u.places t).work config ≤ (ls.countP fun l => l.1 = t) →
          ∃ ls₁ ls₂ v, l :: ls = ls₁ ++ ls₂ ∧ run (step config os) s ls₁ = some v ∧
            v.Answered t := by
      intro hw hle
      obtain ⟨ls₁, ls₂, v, rfl, hv, hend⟩ := ih hexplained hr hw hle
      exact ⟨l :: ls₁, ls₂, v, rfl, run_cons_eq_some.2 ⟨u, hu, hv⟩, hend⟩
    obtain ⟨-, r, hstep, rfl⟩ := step_eq_some hu
    obtain ⟨v, inp⟩ := l
    by_cases hv : v = t
    · subst hv
      rw [List.countP_cons_of_pos (by simp)] at hturns
      rcases working_step hworking (hs.sound v) hstep with ⟨hw, hlt⟩ | ⟨idx, text, hplace, hacts⟩ |
        hexited
      · refine hrest (by simpa using hw) ?_
        simp only [Function.update_self]
        omega
      · refine ⟨[(v, inp)], ls, _, rfl, run_cons_eq_some.2 ⟨_, hu, rfl⟩, .inl ⟨idx, text, ?_, ?_⟩⟩
        · simpa using hplace
        · simp [hacts, own]
      · exact ⟨[(v, inp)], ls, _, rfl, run_cons_eq_some.2 ⟨_, hu, rfl⟩, .inr hexited⟩
    · rw [List.countP_cons_of_neg (by simpa using hv)] at hturns
      have hsame : Function.update s.places v r.place t = s.places t :=
        Function.update_of_ne (Ne.symm hv) _ _
      exact hrest (by simpa only [hsame] using hworking) (by simpa only [hsame] using hturns)

/-- A handler in the middle of a line answers after as many steps of its own as are left, whatever
the others do in the meantime, unless the server ends. -/
theorem answers_within {ls ms : List (ι × Input)} {s s' : Threads ι ω}
    (h : run (step config os) (init ips w) ls = some s) (hr : run (step config os) s ms = some s')
    {t : ι} (hworking : (s.places t).Working)
    (hturns : (s.places t).work config ≤ ms.countP fun l => l.1 = t) :
    ∃ ms₁ ms₂ u, ms = ms₁ ++ ms₂ ∧ run (step config os) s ms₁ = some u ∧ u.Answered t :=
  answered_from (explained_run h) hr hworking hturns

/-- `answers_within` on a broadcast : seven steps are left in front of the answer. -/
theorem answers_within_broadcast : ∃ s s' ms₁ ms₂ u,
    run (step twoMachines wordOs) (init (fun _ => ['1']) ()) broadcastLine = some s ∧
      run (step twoMachines wordOs) s broadcastAnswer = some s' ∧
        broadcastAnswer = ms₁ ++ ms₂ ∧ run (step twoMachines wordOs) s ms₁ = some u ∧
          u.Answered () := by
  have hall : ((run (step twoMachines wordOs) (init (fun _ => ['1']) ()) broadcastLine).bind
      fun s => run (step twoMachines wordOs) s broadcastAnswer).isSome = true := by decide
  have hplace : ((run (step twoMachines wordOs) (init (fun _ => ['1']) ()) broadcastLine).map
      fun s => ((s.places ()).work twoMachines, decide ((s.places ()).Working))) =
        some (7, true) := by
    decide
  obtain ⟨s', hs'⟩ := Option.isSome_iff_exists.1 hall
  obtain ⟨s, hs, hs'⟩ := Option.bind_eq_some_iff.1 hs'
  rw [hs] at hplace
  obtain ⟨hwork, hworking⟩ := Prod.mk.inj (Option.some.inj hplace)
  obtain ⟨ms₁, ms₂, u, hms, hu, hend⟩ :=
    answers_within hs hs' (of_decide_eq_true hworking) (hwork.le.trans (by decide))
  exact ⟨s, s', ms₁, ms₂, u, hs, hs', hms, hu, hend⟩

end Threads

end NetProg.Cluster
