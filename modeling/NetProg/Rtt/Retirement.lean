import NetProg.Rtt.Bounds

/-!
# When a receiver stops

A receiver loops while `ipv4_count - ipv4_fail > 0`, or the same for IPv6. An address is
retired when its `nsent` goes from 3 to 4 : a receiver does that after the third reply and
counts `count` down, and `sendHelper` does it after the third send failed and counts `fail`
up. A send that succeeds also takes `nsent` from 3 to 4, when a packet that answered no
request has put the address back into the queue, and this retires nothing.

`nsent` never goes down, so an address is retired at most once, and the difference of the
two counters is the number of addresses that are left (`retired_once`). The invariant is
about the state and the number of times that each address was retired so far.
-/

namespace NetProg.Rtt

variable {cfg : Config} {s s' : Sys} {n n' : Addr → ℕ}

/-- The step retires the address. -/
def retires (cfg : Config) (a : Addr) (s : Sys) : Label → Bool
  | .send ok now =>
    !ok && s.sendQ.qFront = some a &&
      (fsend (s.proto a).icmpproto cfg.pid now (s.proto a)).2.nsent = 3
  | .recv _ caddr data tv =>
    let r := fproc (s.proto a).icmpproto cfg.pid (buff data) data.length (s.proto a) tv
    caddr = a && a ∈ cfg.addrs && r.1 ≠ -1 && r.2.nsent = 3
  | _ => false

/-- `n` says how often each address was retired. -/
structure RetireInv (cfg : Config) (s : Sys) (n : Addr → ℕ) : Prop where
  icmpproto : ∀ a, (s.proto a).icmpproto = a.family
  listed : s.sendQ.elems ⊆ cfg.addrs
  once : ∀ a, n a ≤ 1
  nsent : ∀ a, 1 ≤ n a → 4 ≤ (s.proto a).nsent
  count : ∀ fam, s.count fam - s.fail fam = cfg.addrs.countP fun a => a.family = fam ∧ n a = 0

theorem retireInv_init (cfg : Config) : RetireInv cfg (init cfg) fun _ => 0 where
  icmpproto _ := rfl
  listed := by
    rw [init_sendQ]
    exact List.reverse_subset.2 (List.Subset.refl _)
  once _ := Nat.zero_le _
  nsent a h := absurd h (by decide)
  count fam := by simp [init]

/-! ## What a step does to a proto -/

/-- What every step does to the proto of an address. -/
structure Proto.Grows (p q : Proto) : Prop where
  icmpproto : q.icmpproto = p.icmpproto
  nsent : p.nsent ≤ q.nsent

theorem Proto.Grows.refl (p : Proto) : p.Grows p :=
  ⟨rfl, le_rfl⟩

theorem grows_update {p : Proto} {a : Addr} (hp : (s.proto a).Grows p) (b : Addr) :
    (s.proto b).Grows (Function.update s.proto a p b) := by
  by_cases hb : b = a
  · subst hb
    rwa [Function.update_self]
  · rw [Function.update_of_ne hb]
    exact .refl _

/-- No address is retired. -/
theorem RetireInv.keep (h : RetireInv cfg s n) (hgrows : ∀ a, (s.proto a).Grows (s'.proto a))
    (hlisted : s'.sendQ.elems ⊆ cfg.addrs)
    (hcount : ∀ fam, s'.count fam - s'.fail fam = s.count fam - s.fail fam)
    (hn : ∀ a, n' a = n a) : RetireInv cfg s' n' where
  icmpproto a := (hgrows a).icmpproto.trans (h.icmpproto a)
  listed := hlisted
  once a := hn a ▸ h.once a
  nsent a ha := (h.nsent a (hn a ▸ ha)).trans (hgrows a).nsent
  count fam := by
    rw [hcount, h.count]
    simp only [hn]

/-- A list without repetitions, and a predicate that leaves out one element of it. -/
theorem countP_eq_add_one {α : Type*} {l : List α} (hnd : l.Nodup) {b : α} (hb : b ∈ l)
    {p q : α → Bool} (hp : p b = true) (hq : q b = false) (hother : ∀ a, a ≠ b → q a = p a) :
    l.countP p = l.countP q + 1 := by
  obtain ⟨l₁, l₂, rfl⟩ := List.append_of_mem hb
  have hnot := (List.nodup_cons.1 (List.nodup_middle.1 hnd)).1
  have hsame : ∀ a ∈ l₁ ++ l₂, p a = true ↔ q a = true := fun a ha => by
    rw [hother a]
    rintro rfl
    exact hnot ha
  have hone := List.countP_congr fun a ha => hsame a (List.mem_append_left _ ha)
  have htwo := List.countP_congr fun a ha => hsame a (List.mem_append_right _ ha)
  rw [List.countP_append, List.countP_append, List.countP_cons_of_pos hp,
    List.countP_cons_of_neg (by rw [hq]; decide), hone, htwo]
  rfl

/-- One address is retired. -/
theorem RetireInv.retire (h : RetireInv cfg s n) {b : Addr} (hb : b ∈ cfg.addrs)
    (hgrows : ∀ a, (s.proto a).Grows (s'.proto a)) (hlisted : s'.sendQ.elems ⊆ cfg.addrs)
    (hold : (s.proto b).nsent < 4) (hnew : 4 ≤ (s'.proto b).nsent)
    (hcount : ∀ fam, s'.count fam - s'.fail fam =
      s.count fam - s.fail fam - if b.family = fam then 1 else 0)
    (hn : ∀ a, n' a = n a + if a = b then 1 else 0) : RetireInv cfg s' n' := by
  have hzero : n b = 0 := by
    by_contra hne
    have := h.nsent b (Nat.one_le_iff_ne_zero.2 hne)
    omega
  have hself : n' b = 1 := by rw [hn, hzero, if_pos rfl]
  have hother : ∀ a, a ≠ b → n' a = n a := fun a ha => by rw [hn, if_neg ha, add_zero]
  refine ⟨fun a => (hgrows a).icmpproto.trans (h.icmpproto a), hlisted, fun a => ?_,
    fun a ha => ?_, fun fam => ?_⟩
  · by_cases hab : a = b
    · rw [hab, hself]
    · rw [hother a hab]
      exact h.once a
  · by_cases hab : a = b
    · rw [hab]
      exact hnew
    · rw [hother a hab] at ha
      exact (h.nsent a ha).trans (hgrows a).nsent
  · rw [hcount, h.count]
    by_cases hfam : b.family = fam
    · rw [if_pos hfam, countP_eq_add_one cfg.nodup hb (q := fun a => a.family = fam ∧ n' a = 0)]
      · push_cast
        omega
      · simp [hfam, hzero]
      · simp [hself]
      · exact fun a ha => by rw [hother a ha]
    · rw [if_neg hfam, sub_zero, Nat.cast_inj]
      refine List.countP_congr fun a _ => ?_
      by_cases hab : a = b
      · simp [hab, hfam]
      · rw [hother a hab]

/-! ## The steps -/

/-- What `sendHelper` does after a send. -/
theorem RetireInv.sendJob (h : RetireInv cfg s n) {b : Addr} (hb : s.sendQ.qFront = some b)
    (ok : Bool) (now : Timeval)
    (hn : ∀ a, n' a = n a + if retires cfg a s (.send ok now) then 1 else 0) :
    RetireInv cfg (sendJob cfg s b ok now) n' := by
  have hmem : b ∈ cfg.addrs := h.listed (Queue.elems_of_qFront hb ▸ List.mem_cons_self)
  have hpop : s.sendQ.qPop.elems ⊆ cfg.addrs := by
    rw [Queue.elems_qPop]
    exact fun a ha => h.listed (List.mem_of_mem_tail ha)
  -- the step retires `b` or nothing
  have hret : ∀ a, retires cfg a s (.send ok now) = true ↔
      a = b ∧ ok = false ∧ (s.proto b).nsent + 1 = 3 := by
    intro a
    simp only [retires, hb, fsend_snd, Bool.and_eq_true, Bool.not_eq_true', decide_eq_true_eq,
      Option.some.injEq]
    constructor
    · rintro ⟨⟨hok, rfl⟩, h3⟩
      exact ⟨rfl, hok, h3⟩
    · rintro ⟨rfl, hok, h3⟩
      exact ⟨⟨hok, rfl⟩, h3⟩
  simp only [Rtt.sendJob, fsend_snd]
  split
  · rename_i hok
    refine h.keep (grows_update ⟨rfl, ?_⟩) hpop (fun _ => rfl) fun a => ?_
    · simp
    · rw [hn, if_neg fun hr => ?_, add_zero]
      exact absurd (((hret a).1 hr).2.1) (by simp [hok])
  rename_i hok
  split
  · rename_i h3
    refine h.retire hmem (grows_update ⟨rfl, ?_⟩) hpop (by omega) ?_ (fun fam => ?_) fun a => ?_
    · simp only
      omega
    · simp only [Sys.setProto_proto, Function.update_self]
      omega
    · simp only [Sys.setProto, h.icmpproto, Function.update_apply, @eq_comm _ fam]
      split
      · rename_i hfam
        rw [hfam]
        omega
      · omega
    · have hiff : retires cfg a s (.send ok now) = true ↔ a = b :=
        (hret a).trans ⟨And.left, fun ha => ⟨ha, by simpa using hok, h3⟩⟩
      rw [hn, if_congr hiff rfl rfl]
  rename_i h3
  have hno : ∀ a, n' a = n a := fun a => by
    rw [hn, if_neg fun hr => h3 ((hret a).1 hr).2.2, add_zero]
  split
  · refine h.keep (grows_update ⟨rfl, ?_⟩) h.listed (fun _ => rfl) hno
    simp only
    omega
  · refine h.keep (grows_update ⟨rfl, ?_⟩) h.listed (fun _ => rfl) hno
    simp

/-- An iteration of `sendHelper`. -/
theorem RetireInv.sendHelper (h : RetireInv cfg s n) (ok : Bool) (now : Timeval)
    (hn : ∀ a, n' a = n a + if retires cfg a s (.send ok now) then 1 else 0) :
    RetireInv cfg (sendHelper cfg s ok now) n' := by
  have hlocked : RetireInv cfg (sendLocked cfg s ok now) n' := by
    unfold sendLocked
    cases hb : s.sendQ.qFront with
    | some b => exact h.sendJob hb ok now hn
    | none =>
      have hno : ∀ a, n' a = n a := fun a => by simp [hn, retires, hb]
      simp only
      split
      · exact h.keep (fun _ => .refl _) h.listed (fun _ => rfl) hno
      · exact h.keep (fun _ => .refl _) h.listed (fun _ => rfl) hno
  unfold Rtt.sendHelper
  split
  · exact hlocked.keep (fun _ => .refl _) hlocked.listed (fun _ => rfl) fun _ => rfl
  · exact hlocked

/-- What a receiver does with a packet. -/
theorem RetireInv.recvPacket (h : RetireInv cfg s n) {fam : Family} {caddr : Addr}
    (hfam : caddr.family = fam) (data : List UInt8) (tv : Timeval)
    (hn : ∀ a, n' a = n a + if retires cfg a s (.recv fam caddr data tv) then 1 else 0) :
    RetireInv cfg (recvPacket cfg fam s caddr data tv) n' := by
  unfold Rtt.recvPacket
  by_cases hlisted : caddr ∈ cfg.addrs
  case neg =>
    rw [if_neg hlisted]
    refine h.keep (fun _ => .refl _) h.listed (fun _ => rfl) fun a => ?_
    rw [hn, if_neg fun hr => ?_, add_zero]
    simp only [retires, Bool.and_eq_true, decide_eq_true_eq] at hr
    exact hlisted (hr.1.1.1 ▸ hr.1.1.2)
  rw [if_pos hlisted]
  rcases fproc_cases (s.proto caddr).icmpproto cfg.pid (buff data) data.length (s.proto caddr) tv
    with ⟨-, heq⟩ | ⟨-, res, v, hres, heq⟩
  · rw [heq, if_pos rfl]
    refine h.keep (fun _ => .refl _) h.listed (fun _ => rfl) fun a => ?_
    rw [hn, if_neg fun hr => ?_, add_zero]
    simp only [retires, Bool.and_eq_true, decide_eq_true_eq] at hr
    obtain rfl := hr.1.1.1
    exact hr.1.2 (by rw [heq])
  have hret : ∀ a, retires cfg a s (.recv fam caddr data tv) = true ↔
      a = caddr ∧ (s.proto caddr).nsent = 3 := by
    intro a
    simp only [retires, Bool.and_eq_true, decide_eq_true_eq]
    constructor
    · rintro ⟨⟨⟨rfl, -⟩, -⟩, h3⟩
      exact ⟨rfl, by simpa [heq] using h3⟩
    · rintro ⟨rfl, h3⟩
      exact ⟨⟨⟨rfl, hlisted⟩, by rw [heq]; exact hres⟩, by rw [heq]; exact h3⟩
  rw [heq, if_neg hres]
  rcases lt_trichotomy (s.proto caddr).nsent 3 with hlt | h3 | hgt
  · rw [afterProc_of_lt (p := (s.proto caddr).setRtt _ v) hlt]
    refine h.keep (grows_update ⟨rfl, le_rfl⟩) (List.cons_subset.2 ⟨hlisted, h.listed⟩)
      (fun _ => rfl) fun a => ?_
    rw [hn, if_neg fun hr => ?_, add_zero]
    have := ((hret a).1 hr).2
    omega
  · rw [afterProc_of_eq (p := (s.proto caddr).setRtt _ v) h3]
    refine h.retire hlisted (grows_update ⟨rfl, ?_⟩) h.listed (by omega) ?_ (fun fam' => ?_)
      fun a => ?_
    · simp
    · simp [h3]
    · simp only [Sys.setProto, Function.update_apply, @eq_comm _ fam', hfam]
      split
      · rename_i hfam'
        rw [hfam']
        omega
      · omega
    · have hiff : retires cfg a s (.recv fam caddr data tv) = true ↔ a = caddr :=
        (hret a).trans ⟨And.left, fun ha => ⟨ha, h3⟩⟩
      rw [hn, if_congr hiff rfl rfl]
  · rw [afterProc_of_gt (p := (s.proto caddr).setRtt _ v) hgt]
    refine h.keep (grows_update ⟨rfl, le_rfl⟩) h.listed (fun _ => rfl) fun a => ?_
    rw [hn, if_neg fun hr => hgt.ne' ((hret a).1 hr).2, add_zero]

theorem retireInv_step (cfg : Config) (s : Sys) (n : Addr → ℕ) (l : Label) (s' : Sys)
    (h : RetireInv cfg s n) (hstep : step cfg s l = some s') :
    RetireInv cfg s' fun a => n a + if retires cfg a s l then 1 else 0 := by
  cases l with
  | send ok now =>
    obtain ⟨-, -, rfl⟩ := step_send.1 hstep
    exact h.sendHelper ok now fun _ => rfl
  | recv fam caddr data tv =>
    obtain ⟨-, ⟨-, -, hfam, -, -⟩, rfl⟩ := step_recv.1 hstep
    exact h.recvPacket hfam data tv fun _ => rfl
  | recvNone fam =>
    obtain ⟨-, -, rfl⟩ := step_recvNone.1 hstep
    split
    · exact h.keep (fun _ => .refl _) h.listed (fun _ => rfl) fun _ => rfl
    · exact h.keep (fun _ => .refl _) h.listed (fun _ => rfl) fun _ => rfl
  | recvDone fam =>
    obtain ⟨-, -, rfl⟩ := step_recvDone.1 hstep
    exact h.keep (fun _ => .refl _) h.listed (fun _ => rfl) fun _ => rfl
  | alarm =>
    obtain ⟨-, rfl⟩ := step_alarm.1 hstep
    exact h.keep (fun _ => .refl _) h.listed (fun _ => rfl) fun _ => rfl

/-! ## Runs -/

/-- The number of times that the run retires the address. -/
def retirements (cfg : Config) (ls : List Label) (a : Addr) : ℕ :=
  stepCount (step cfg) (retires cfg a) (init cfg) ls

/-- In every run each address is retired at most once, the difference of the counters is
the number of addresses of the family that are not retired, and a receiver that finds its
guard false has none left. -/
theorem retired_once (cfg : Config) (ls : List Label) (s : Sys)
    (hr : run (step cfg) (init cfg) ls = some s) :
    (∀ a, retirements cfg ls a ≤ 1) ∧
      (∀ fam, s.count fam - s.fail fam =
        cfg.addrs.countP fun a => a.family = fam ∧ retirements cfg ls a = 0) ∧
      ∀ fam, (step cfg s (.recvDone fam)).isSome →
        ∀ a ∈ cfg.addrs, a.family = fam → retirements cfg ls a = 1 := by
  have h := run_stepCount_invariant (c := retires cfg) (retireInv_step cfg) (retireInv_init cfg) hr
  simp only [zero_add] at h
  refine ⟨h.once, h.count, fun fam hdone a ha hfam => ?_⟩
  obtain ⟨s', hs'⟩ := Option.isSome_iff_exists.1 hdone
  obtain ⟨-, ⟨-, hwaiting⟩, -⟩ := step_recvDone.1 hs'
  have hnone : cfg.addrs.countP (fun a => a.family = fam ∧ retirements cfg ls a = 0) = 0 := by
    have := h.count fam
    unfold Sys.Waiting at hwaiting
    unfold retirements
    omega
  have hne := List.countP_eq_zero.1 hnone a ha
  have hle : retirements cfg ls a ≤ 1 := h.once a
  simp only [hfam, true_and, decide_eq_true_eq] at hne
  omega

/-- Two sends to 127.0.0.1 that fail. The first failure takes `nsent` to 2. -/
def failingSends : List Label :=
  [.send false ⟨1, 0⟩, .send false ⟨2, 0⟩]

theorem retired_once_failingSends : retirements loopbackConfig failingSends loopback = 1 := by
  have hdone : ((run (step loopbackConfig) (init loopbackConfig) failingSends).bind
      fun s => step loopbackConfig s (.recvDone .v4)).isSome := by decide
  cases hs : run (step loopbackConfig) (init loopbackConfig) failingSends with
  | none =>
    rw [hs] at hdone
    nomatch hdone
  | some s =>
    rw [hs] at hdone
    exact (retired_once loopbackConfig failingSends s hs).2.2 .v4 hdone loopback (by decide) rfl

end NetProg.Rtt
