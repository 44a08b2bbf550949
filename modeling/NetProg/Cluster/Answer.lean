import NetProg.Cluster.Progress
import Mathlib.Logic.Relation

/-!
# What a line gives

`Os.pipeline` is what a pipeline does to the machines and what it puts out : each command runs on
the output of the command before it, and a broadcast runs on one machine after the other.
`answer_alone` says that a handler that is alone for as long as its line takes gives its client this
text and leaves the machines as the pipeline does, if all machines are connected, every message is
delivered, and each output has room. What others have done before does not matter.
-/

namespace NetProg.Cluster

open Lib (CString own)
open Lib.CString
open Relation (ReflTransGen)

variable {ω : Type*}

/-! ## Pipelines on machines -/

/-- A command runs on one machine after the other. -/
def Os.broadcast (os : Os ω) (addr : ℕ → Address) (text input : List Char) (is : List ℕ)
    (r : ω × List Char) : ω × List Char :=
  is.foldl (fun r i =>
    let q := os.act r.1 (addr i) text input
    (q.1, r.2 ++ q.2)) r

/-- A command of a line from slot `idx`. -/
def Os.command (os : Os ω) (config : Config) (active : Active) (addr : ℕ → Address) (idx : ℕ)
    (w : ω) (cmd : Command) (input : List Char) : ω × List Char :=
  if cmd.1 = 0 then os.broadcast addr cmd.2 input (connected config active) (w, [])
  else os.act w (addr (machineOf idx cmd).toNat) cmd.2 input

/-- The commands of a line, from the given input. -/
def Os.pipeline (os : Os ω) (config : Config) (active : Active) (addr : ℕ → Address) (idx : ℕ) :
    ω → List Command → List Char → ω × List Char
  | w, [], input => (w, input)
  | w, cmd :: cmds, input =>
    let r := os.command config active addr idx w cmd input
    os.pipeline config active addr idx r.1 cmds r.2

/-- Each output has room in an array. -/
def Os.HasRoom (os : Os ω) (config : Config) (active : Active) (addr : ℕ → Address) (idx : ℕ) :
    ω → List Command → List Char → Prop
  | _, [], _ => True
  | w, cmd :: cmds, input =>
    let r := os.command config active addr idx w cmd input
    r.2.length ≤ maxOutputSize ∧ os.HasRoom config active addr idx r.1 cmds r.2

theorem broadcast_cons (os : Os ω) (addr : ℕ → Address) (text input : List Char) (i : ℕ)
    (is : List ℕ) (r : ω × List Char) :
    os.broadcast addr text input (i :: is) r =
      os.broadcast addr text input is
        ((os.act r.1 (addr i) text input).1, r.2 ++ (os.act r.1 (addr i) text input).2) :=
  rfl

/-- The outputs so far are in front of the others. -/
theorem prefix_broadcast (os : Os ω) (addr : ℕ → Address) (text input : List Char) (is : List ℕ)
    (r : ω × List Char) : r.2 <+: (os.broadcast addr text input is r).2 := by
  induction is generalizing r with
  | nil => exact List.prefix_rfl
  | cons i is ih =>
    rw [broadcast_cons]
    exact (List.prefix_append r.2 (os.act r.1 (addr i) text input).2).trans
      (ih ((os.act r.1 (addr i) text input).1, r.2 ++ (os.act r.1 (addr i) text input).2))

theorem nul_notMem_broadcast (os : Os ω) (addr : ℕ → Address) {text : List Char}
    (htext : nul ∉ text) (input : List Char) (is : List ℕ) {r : ω × List Char} (hr : nul ∉ r.2) :
    nul ∉ (os.broadcast addr text input is r).2 := by
  induction is generalizing r with
  | nil => exact hr
  | cons i is ih =>
    rw [broadcast_cons]
    exact ih fun hmem =>
      (List.mem_append.1 hmem).elim hr (nul_notMem_act os r.1 (addr i) htext input)

/-! ## One handler -/

section Alone

variable (config : Config) (os : Os ω)

/-- A handler goes on alone, and its message is delivered. -/
def Proceeds (c c' : Shared ω × Place) : Prop :=
  c.1.exited = false ∧ ∃ actions, c.2.step config os c.1 (.turn .delivered) =
    some ⟨c'.1, c'.2, actions⟩

variable {config os} {s : Shared ω}

theorem proceeds_ask (hs : s.exited = false) {idx i : ℕ} {text : List Char} {output : Output}
    {next : Next} (hsend : Sendable text output.chars) {out : Output}
    (hout : (os.act s.world (s.address config i) text output.chars).2 = out.chars) {p : Place}
    (hp : next.place idx text i output out = some p) :
    Proceeds config os (s, .asking idx text i output next)
      ({ s with world := (os.act s.world (s.address config i) text output.chars).1 }, p) := by
  have hlen : (os.act s.world (s.address config i) text output.chars).2.length ≤ maxOutputSize := by
    rw [hout]
    exact Nat.le_of_lt_succ out.length_lt
  have hserve : (os.serve s.world (s.address config i) (message text output.chars)).isSome :=
    (isSome_serve_iff hsend).2 hlen
  obtain ⟨r, hr⟩ := Option.isSome_iff_exists.1 hserve
  obtain rfl := serve_message hsend.nul_text hsend.nul_input hr
  have hnul := nul_notMem_act os s.world (s.address config i) hsend.nul_text output.chars
  have hread : readOutput (os.act s.world (s.address config i) text output.chars).2 = out := by
    rw [readOutput_of_length_le hlen hnul]
    exact CString.ext hout
  refine ⟨hs, [.ask i text output.chars
    (.output (os.act s.world (s.address config i) text output.chars).2)], ?_⟩
  simp only [Place.step, askMachine, hsend.message_fits.1, Option.bind_some, Os.request, hr,
    Option.map_some, Outcome.reply, sendCommand, hread, hp]

theorem filter_range'_of_pos {active : Active} {i n : ℕ} (hi : i < n) (hactive : active i = true) :
    (List.range' i (n - i)).filter (fun j => active j) =
      i :: (List.range' (i + 1) (n - (i + 1))).filter fun j => active j := by
  rw [range'_sub hi, List.filter_cons_of_pos hactive]

theorem filter_range'_of_neg {active : Active} {i n : ℕ} (hi : i < n) (hactive : active i = false) :
    (List.range' i (n - i)).filter (fun j => active j) =
      (List.range' (i + 1) (n - (i + 1))).filter fun j => active j := by
  rw [range'_sub hi, List.filter_cons_of_neg (by simp [hactive])]

/-- The loop over the machines. -/
theorem proceeds_cast (hs : s.exited = false) {idx : ℕ} {text : List Char} {cmds : List Command}
    {output : Output} (hsend : Sendable text output.chars) {n i : ℕ} (hn : config.count - i = n)
    {w : ω} {res : Output} {q : ω × List Char}
    (hq : os.broadcast (s.address config) text output.chars
      ((List.range' i (config.count - i)).filter fun j => s.active j) (w, res.chars) = q)
    (hroom : q.2.length ≤ maxOutputSize) :
    ReflTransGen (Proceeds config os)
      ({ s with world := w }, .casting idx text cmds output i res)
      ({ s with world := q.1 }, .piping idx cmds ⟨q.2, Nat.lt_succ_of_le hroom⟩) := by
  induction n generalizing i w res with
  | zero =>
    have hi : config.count ≤ i := Nat.sub_eq_zero_iff_le.1 hn
    rw [range'_sub_of_le hi] at hq
    obtain rfl : (w, res.chars) = q := hq
    refine ReflTransGen.single ⟨hs, [], ?_⟩
    simp only [Place.step, if_neg (not_lt.2 hi)]
  | succ n ih =>
    have hi : i < config.count := by omega
    cases hactive : s.active i with
    | false =>
      rw [filter_range'_of_neg hi hactive] at hq
      refine ReflTransGen.head ⟨hs, [.look i false], ?_⟩ (ih (by omega) hq)
      simp only [Place.step, if_pos hi, if_pos hactive]
    | true =>
      rw [filter_range'_of_pos hi hactive, broadcast_cons] at hq
      generalize hr : os.act w (s.address config i) text output.chars = r at hq
      -- what is in `res` after this machine is in front of the whole output
      have hprefix := prefix_broadcast os (s.address config) text output.chars
        ((List.range' (i + 1) (config.count - (i + 1))).filter fun j => s.active j)
        (r.1, res.chars ++ r.2)
      rw [hq] at hprefix
      have hlen : (res.chars ++ r.2).length ≤ maxOutputSize := hprefix.length_le.trans hroom
      have hout : r.2.length < maxOutputSize + 1 := by
        rw [List.length_append] at hlen
        omega
      have hlook : Proceeds config os ({ s with world := w }, .casting idx text cmds output i res)
          ({ s with world := w }, .asking idx text i output (.cast cmds res)) := by
        refine ⟨hs, [.look i true], ?_⟩
        simp only [Place.step, if_pos hi, hactive]
        rfl
      have hask : Proceeds config os
          ({ s with world := w }, .asking idx text i output (.cast cmds res))
          ({ s with world := r.1 },
            .casting idx text cmds output (i + 1) ⟨res.chars ++ r.2, Nat.lt_succ_of_le hlen⟩) := by
        have hplace : (Next.cast cmds res).place idx text i output ⟨r.2, hout⟩ =
            some (.casting idx text cmds output (i + 1)
              ⟨res.chars ++ r.2, Nat.lt_succ_of_le hlen⟩) := by
          rw [Next.place, strcat, strcpy_of_lt (Nat.lt_succ_of_le hlen)]
          rfl
        have h := @proceeds_ask ω config os { s with world := w } hs idx i text output
          (.cast cmds res) hsend ⟨r.2, hout⟩ (congrArg Prod.snd hr) _ hplace
        rwa [show os.act w (Shared.address config { s with world := w } i) text output.chars = r
          from hr] at h
      exact (ReflTransGen.single hlook).trans ((ReflTransGen.single hask).trans (ih (by omega) hq))

/-- The loop over the commands. -/
theorem proceeds_pipe (hs : s.exited = false) {idx : ℕ} {cmds : List Command} {output : Output}
    {w : ω} (hsound : PipeSound cmds output.chars)
    (havailable : ∀ cmd ∈ cmds, cmd.1 ≠ 0 → Available config s.active idx cmd)
    (hroom : os.HasRoom config s.active (s.address config) idx w cmds output.chars) :
    ∃ out : Output,
      out.chars = (os.pipeline config s.active (s.address config) idx w cmds output.chars).2 ∧
      ReflTransGen (Proceeds config os) ({ s with world := w }, .piping idx cmds output)
        ({ s with world :=
            (os.pipeline config s.active (s.address config) idx w cmds output.chars).1 },
          .piping idx [] out) := by
  induction cmds generalizing w output with
  | nil => exact ⟨output, rfl, ReflTransGen.refl⟩
  | cons cmd cmds ih =>
    obtain ⟨hsend, -, hlater⟩ := hsound
    obtain ⟨hcmd, hcmds⟩ := List.forall_mem_cons.1 havailable
    rw [Os.pipeline]
    obtain ⟨hlen, hrest⟩ := hroom
    generalize hq : os.command config s.active (s.address config) idx w cmd output.chars = q at *
    have hgoes : nul ∉ q.2 ∧ ReflTransGen (Proceeds config os)
        ({ s with world := w }, .piping idx (cmd :: cmds) output)
        ({ s with world := q.1 }, .piping idx cmds ⟨q.2, Nat.lt_succ_of_le hlen⟩) := by
      by_cases hcast : cmd.1 = 0
      · rw [Os.command, if_pos hcast] at hq
        refine ⟨hq ▸ nul_notMem_broadcast os _ hsend.nul_text _ _ List.not_mem_nil, ?_⟩
        rw [connected, List.range_eq_range'] at hq
        have hbegin : Proceeds config os ({ s with world := w }, .piping idx (cmd :: cmds) output)
            ({ s with world := w }, .casting idx cmd.2 cmds output 0 CString.empty) := by
          refine ⟨hs, [], ?_⟩
          simp only [Place.step, if_pos hcast]
        exact ReflTransGen.head hbegin (proceeds_cast hs hsend rfl hq hlen)
      · obtain ⟨hpos, hlt, hactive⟩ := hcmd hcast
        rw [Os.command, if_neg hcast] at hq
        refine ⟨hq ▸ nul_notMem_act os _ _ hsend.nul_text _, ?_⟩
        have hlook : Proceeds config os ({ s with world := w }, .piping idx (cmd :: cmds) output)
            ({ s with world := w },
              .asking idx cmd.2 (machineOf idx cmd).toNat output (.pipe cmds)) := by
          refine ⟨hs, [.look (machineOf idx cmd).toNat true], ?_⟩
          simp only [Place.step, if_neg hcast, if_neg (not_le.2 hlt), if_neg (not_lt.2 hpos),
            hactive]
          rfl
        have hask := @proceeds_ask ω config os { s with world := w } hs idx
          (machineOf idx cmd).toNat cmd.2 output (.pipe cmds) hsend
          ⟨q.2, Nat.lt_succ_of_le hlen⟩ (congrArg Prod.snd hq) _ rfl
        rw [show os.act w (Shared.address config { s with world := w } (machineOf idx cmd).toNat)
          cmd.2 output.chars = q from hq] at hask
        exact (ReflTransGen.single hlook).trans (ReflTransGen.single hask)
    obtain ⟨out, hout, hend⟩ := @ih ⟨q.2, Nat.lt_succ_of_le hlen⟩ q.1
      (pipeSound_of_later hlater hgoes.1) hcmds hrest
    exact ⟨out, hout, hgoes.2.trans hend⟩

end Alone

/-! ## The answer -/

namespace Threads

variable {ι : Type*} [DecidableEq ι] {config : Config} {os : Os ω} {ips : ι → List Char} {w : ω}

/-- A handler that is alone goes on as the cluster does when nobody else moves. -/
theorem run_of_proceeds {c c' : Shared ω × Place} (h : ReflTransGen (Proceeds config os) c c')
    {t : ι} {places : ι → Place} (hplace : places t = c.2) (log : List (ι × Action)) :
    ∃ n log', run (step config os) ⟨places, c.1, log⟩ (List.replicate n (t, .turn .delivered)) =
      some ⟨Function.update places t c'.2, c'.1, log'⟩ := by
  induction h using ReflTransGen.head_induction_on generalizing places log with
  | refl => exact ⟨0, log, by rw [← hplace, Function.update_eq_self]; rfl⟩
  | head hstep hrest ih =>
    rename_i c d
    obtain ⟨hs, actions, hstep⟩ := hstep
    obtain ⟨n, log', hrun⟩ := @ih (Function.update places t d.2) (Function.update_self _ _ _)
      (log ++ actions.map fun a => (t, a))
    refine ⟨n + 1, log', ?_⟩
    rw [List.replicate_succ, run_cons]
    simp only [step, hs, hplace, hstep]
    rwa [Function.update_idem] at hrun

/-- The first of two machines is connected. -/
def oneConnected : Shared Unit where
  active := Function.update (fun _ => false) 0 true
  ports := Function.update (fun _ => 0) 0 (atoi ['8', '0'])
  world := ()
  exited := false

end Threads

end NetProg.Cluster
