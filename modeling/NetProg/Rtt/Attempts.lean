import NetProg.Rtt.Retirement
import NetProg.Rtt.Stopping

/-!
# Sends that fail

`sendHelper` means to try a send three times : the comment of its error branch says that
the element stays in the queue while tries remain. `sendV4` and `sendV6` count `nsent` up
before they call `sendto`, and the error branch counts it up again. So a first failure
takes `nsent` from 0 to 2 and writes `rtt[1]`, and a second one finds 3 and gives up. After
one answered request a failure takes `nsent` from 1 to 3, and the next one finds 4, for
which the error branch does nothing : the address stays in the queue for good.

`Watch` adds to the state what happened to one address, and `Touches` says what a step can
do to it.
-/

namespace NetProg.Rtt

variable {cfg : Config} {a : Addr}

/-- The program, and the history of an address : whether a packet from it was handled,
whether it was retired, and what its attempts added to `tot_send_cnt`. -/
structure Watch where
  sys : Sys
  heard : Bool
  retired : Bool
  counted : ℤ

def Watch.start (cfg : Config) : Watch :=
  ⟨init cfg, false, false, 0⟩

/-- The label is a packet from the address. -/
def hears (a : Addr) : Label → Bool
  | .recv _ caddr _ _ => caddr = a
  | _ => false

/-- The label is an attempt to send to the address. -/
def attempts (a : Addr) (s : Sys) : Label → Bool
  | .send _ _ => s.sendQ.qFront = some a
  | _ => false

def watchStep (cfg : Config) (a : Addr) (w : Watch) (l : Label) : Option Watch :=
  (step cfg w.sys l).map fun sys =>
    ⟨sys, w.heard || hears a l, w.retired || retires cfg a w.sys l,
      w.counted + if attempts a w.sys l then sys.totSendCnt - w.sys.totSendCnt else 0⟩

/-- The state of the address. -/
abbrev Watch.proto (w : Watch) (a : Addr) : Proto :=
  w.sys.proto a

/-- The number of its places in the queue. -/
abbrev Watch.queued (w : Watch) (a : Addr) : ℕ :=
  w.sys.sendQ.elems.count a

/-- An address whose sends all failed and that nothing was heard of has its `k`-th failure
recorded in `rtt[k - 1]`, is queued up to the third, is then popped and retired, and has
added 3 to `tot_send_cnt`. Any address is popped or retired after three attempts. -/
structure TriedThrice (a : Addr) (w : Watch) : Prop where
  recorded : w.heard = false → (w.proto a).sent = 0 →
    (w.proto a).indices = ((List.range (w.proto a).tries).map Int.ofNat).reverse ∧
      ∀ i ∈ (w.proto a).indices, (w.proto a).rtt i = -1
  again : w.heard = false → (w.proto a).sent = 0 → (w.proto a).tries < 3 → 0 < w.queued a
  done : w.heard = false → (w.proto a).sent = 0 → 3 ≤ (w.proto a).tries →
    (w.proto a).tries = 3 ∧ w.queued a = 0 ∧ w.retired = true ∧ w.counted = 3
  mixed : 3 ≤ (w.proto a).tries → w.queued a = 0 ∨ w.retired = true

/-- The first attempt, if nothing was heard of the address, does not fail. The third one
succeeds and finds the address queued once, or fails with `nsent` at 2, unless the address
was retired before. -/
def ThirdPops (a : Addr) (w : Watch) : Label → Prop
  | .send ok _ =>
    w.sys.sendQ.qFront = some a →
      ((w.proto a).tries = 0 → w.heard = false → ok = true) ∧
        ((w.proto a).tries = 2 → w.retired = true ∨
          (ok = true ∧ w.queued a = 1) ∨ (ok = false ∧ (w.proto a).nsent = 2))
  | _ => True

instance (a : Addr) (w : Watch) : ∀ l, Decidable (ThirdPops a w l)
  | .send .. => inferInstanceAs (Decidable (_ → _))
  | .recv .. | .recvNone _ | .recvDone _ | .alarm => .isTrue trivial

/-! ## What a step does to an address -/

/-- What `fsend` and the branches of `sendHelper` do to a proto, and whether they pop it. -/
inductive Attempt (p : Proto) : Bool → Proto → Bool → Prop where
  | success : Attempt p true
      { p with nsent := p.nsent + 1, tries := p.tries + 1, sent := p.sent + 1 } true
  | givenUp (h : p.nsent = 2) : Attempt p false
      { p with nsent := p.nsent + 2, tries := p.tries + 1 } true
  | retry (h : p.nsent < 2) : Attempt p false
      { p.setRtt (p.nsent + 1) (-1) with nsent := p.nsent + 2, tries := p.tries + 1 } false
  | stuck (h : 2 < p.nsent) : Attempt p false
      { p with nsent := p.nsent + 1, tries := p.tries + 1 } false

theorem Attempt.spec {p q : Proto} {ok popped : Bool} (h : Attempt p ok q popped) :
    q.tries = p.tries + 1 ∧ q.sent = p.sent + ok.toNat ∧ p.nsent + 1 ≤ q.nsent ∧
      popped = (ok || p.nsent = 2) := by
  cases h with
  | success => exact ⟨rfl, rfl, le_rfl, rfl⟩
  | givenUp h => exact ⟨rfl, rfl, by simp, by simp [h]⟩
  | retry h => exact ⟨rfl, rfl, by simp, by simp [h.ne]⟩
  | stuck h => exact ⟨rfl, rfl, le_rfl, by simp [h.ne']⟩

theorem attempt_sendJob (cfg : Config) (s : Sys) (a : Addr) (ok : Bool) (now : Timeval) :
    ∃ p popped, Attempt (s.proto a) ok p popped ∧
      (sendJob cfg s a ok now).proto = Function.update s.proto a p ∧
        (sendJob cfg s a ok now).sendQ = if popped then s.sendQ.qPop else s.sendQ := by
  simp only [sendJob, fsend_snd]
  split
  · rename_i hok
    subst hok
    exact ⟨_, true, .success, rfl, rfl⟩
  rename_i hok
  obtain rfl : ok = false := by simpa using hok
  split
  · rename_i h3
    refine ⟨_, true, .givenUp (by omega), ?_, rfl⟩
    simp only [Sys.setProto, add_assoc]
    rfl
  split
  · rename_i h3 hlt
    refine ⟨_, false, .retry (by omega), ?_, rfl⟩
    simp only [Sys.setProto, Proto.setRtt, add_assoc]
    rfl
  · exact ⟨_, false, .stuck (by omega), rfl, rfl⟩

/-- What a step does to an address. -/
inductive Touches (a : Addr) (w w' : Watch) : Label → Prop where
  | none (l : Label) (hfront : ∀ ok now, l = .send ok now → w.sys.sendQ.qFront ≠ some a)
      (hproto : w'.proto a = w.proto a) (hqueued : w'.queued a = w.queued a)
      (hheard : w'.heard = w.heard) (hretired : w'.retired = w.retired)
      (hcounted : w'.counted = w.counted) : Touches a w w' l
  | attempt (ok : Bool) (now : Timeval) (p : Proto) (popped : Bool)
      (hfront : w.sys.sendQ.qFront = some a) (hp : Attempt (w.proto a) ok p popped)
      (hproto : w'.proto a = p) (hqueued : w'.queued a + popped.toNat = w.queued a)
      (hheard : w'.heard = w.heard)
      (hretired : w'.retired = (w.retired || (!ok && (w.proto a).nsent = 2)))
      (hcounted : w'.counted = w.counted + 1) :
      Touches a w w' (.send ok now)
  | packet (fam : Family) (data : List UInt8) (tv : Timeval) (hheard : w'.heard = true)
      (htries : (w'.proto a).tries = (w.proto a).tries)
      (hsent : (w'.proto a).sent = (w.proto a).sent)
      (hnsent : (w.proto a).nsent ≤ (w'.proto a).nsent)
      (hqueued : w'.queued a = w.queued a ∨ (w.proto a).nsent < 3)
      (hretired : w.retired = true → w'.retired = true) (hcounted : w'.counted = w.counted) :
      Touches a w w' (.recv fam a data tv)

/-- What the end of an iteration leaves alone. -/
theorem sendHelper_same (cfg : Config) (s : Sys) (ok : Bool) (now : Timeval) :
    (sendHelper cfg s ok now).proto = (sendLocked cfg s ok now).proto ∧
      (sendHelper cfg s ok now).sendQ = (sendLocked cfg s ok now).sendQ := by
  unfold sendHelper
  split
  · exact ⟨rfl, rfl⟩
  · exact ⟨rfl, rfl⟩

/-- An iteration that finds the queue empty. -/
theorem sendHelper_idle (cfg : Config) {s : Sys} (hfront : s.sendQ.qFront = none) (ok : Bool)
    (now : Timeval) :
    (sendHelper cfg s ok now).proto = s.proto ∧ (sendHelper cfg s ok now).sendQ = s.sendQ := by
  rw [(sendHelper_same cfg s ok now).1, (sendHelper_same cfg s ok now).2]
  simp only [sendLocked, hfront]
  split
  · exact ⟨rfl, rfl⟩
  · exact ⟨rfl, rfl⟩

/-- An iteration that takes an address from the queue. -/
theorem sendHelper_attempt (cfg : Config) {s : Sys} {b : Addr}
    (hfront : s.sendQ.qFront = some b) (ok : Bool) (now : Timeval) :
    ∃ p popped, Attempt (s.proto b) ok p popped ∧
      (sendHelper cfg s ok now).proto = Function.update s.proto b p ∧
      (sendHelper cfg s ok now).totSendCnt = s.totSendCnt + 1 ∧
      ∀ c, (sendHelper cfg s ok now).sendQ.elems.count c + (if popped ∧ b = c then 1 else 0) =
        s.sendQ.elems.count c := by
  have hlocked : sendLocked cfg s ok now = sendJob cfg s b ok now := by
    simp only [sendLocked, hfront]
  obtain ⟨hproto, hq⟩ := sendHelper_same cfg s ok now
  rw [hlocked] at hproto hq
  obtain ⟨p, popped, hp, hproto', hq'⟩ := attempt_sendJob cfg s b ok now
  refine ⟨p, popped, hp, hproto.trans hproto', ?_, fun c => ?_⟩
  · rcases sendHelper_cases cfg s ok now with ⟨-, -, hcnt, -⟩ | ⟨hnone, -⟩
    · exact hcnt
    · exact absurd (hfront.symm.trans hnone) (by simp)
  · rw [hq, hq']
    cases popped with
    | true =>
      simp only [if_true, Queue.elems_qPop, true_and]
      conv_rhs => rw [Queue.elems_of_qFront hfront, List.count_cons]
      simp
    | false => simp

/-- The address at the front is in the queue. -/
theorem queued_pos_of_qFront {w : Watch} (hfront : w.sys.sendQ.qFront = some a) :
    0 < w.queued a :=
  List.count_pos_iff.2 (Queue.elems_of_qFront hfront ▸ List.mem_cons_self)

theorem touches_send {w : Watch} (ok : Bool) (now : Timeval) :
    Touches a w ⟨sendHelper cfg w.sys ok now, w.heard || hears a (.send ok now),
      w.retired || retires cfg a w.sys (.send ok now),
      w.counted + if attempts a w.sys (.send ok now) then
        (sendHelper cfg w.sys ok now).totSendCnt - w.sys.totSendCnt else 0⟩ (.send ok now) := by
  cases hfront : w.sys.sendQ.qFront with
  | none =>
    obtain ⟨hproto, hq⟩ := sendHelper_idle cfg hfront ok now
    refine .none _ (fun _ _ _ => by simp [hfront]) ?_ ?_ (Bool.or_false _) ?_ ?_
    · simp only [Watch.proto, hproto]
    · simp only [Watch.queued, hq]
    · simp [retires, hfront]
    · simp [attempts, hfront]
  | some b =>
    obtain ⟨p, popped, hp, hproto, hcnt, hcount⟩ := sendHelper_attempt cfg hfront ok now
    by_cases hb : b = a
    · subst hb
      refine .attempt ok now p popped hfront hp ?_ ?_ (Bool.or_false _) ?_ ?_
      · simp only [Watch.proto, hproto, Function.update_self]
      · have := hcount b
        cases popped <;> simpa using this
      · have hiff : ((w.sys.proto b).nsent + 1 = 3) ↔ (w.sys.proto b).nsent = 2 := by omega
        simp [retires, hfront, Watch.proto, hiff]
      · simp [attempts, hfront, hcnt]
    · refine .none _ (fun _ _ _ => ?_) ?_ ?_ (Bool.or_false _) ?_ ?_
      · rw [hfront]
        simpa using hb
      · simp only [Watch.proto, hproto, Function.update_of_ne (Ne.symm hb)]
      · simpa [hb] using hcount a
      · simp [retires, hfront, hb]
      · simp [attempts, hfront, hb]

/-- A receiver leaves the attempts alone and queues an address with requests to go only. -/
theorem afterProc_cases (fam : Family) (s : Sys) (caddr : Addr) (q : Proto) :
    ∃ p, (afterProc fam s caddr q).proto = Function.update s.proto caddr p ∧
      p.tries = q.tries ∧ p.sent = q.sent ∧ q.nsent ≤ p.nsent ∧
        ((afterProc fam s caddr q).sendQ = s.sendQ ∨
          (afterProc fam s caddr q).sendQ = s.sendQ.qPush caddr ∧ q.nsent < 3) := by
  rcases lt_trichotomy q.nsent 3 with hlt | h3 | hgt
  · rw [afterProc_of_lt hlt]
    exact ⟨q, rfl, rfl, rfl, le_rfl, .inr ⟨rfl, hlt⟩⟩
  · rw [afterProc_of_eq h3]
    exact ⟨{ q with nsent := q.nsent + 1 }, rfl, rfl, rfl, (lt_add_one q.nsent).le, .inl rfl⟩
  · rw [afterProc_of_gt hgt]
    exact ⟨q, rfl, rfl, rfl, le_rfl, .inl rfl⟩

/-- What a packet does to the addresses. -/
theorem recvPacket_cases (cfg : Config) (fam : Family) (s : Sys) (caddr : Addr)
    (data : List UInt8) (tv : Timeval) :
    ∃ p, (recvPacket cfg fam s caddr data tv).proto = Function.update s.proto caddr p ∧
      p.tries = (s.proto caddr).tries ∧ p.sent = (s.proto caddr).sent ∧
        (s.proto caddr).nsent ≤ p.nsent ∧
          ((recvPacket cfg fam s caddr data tv).sendQ = s.sendQ ∨
            (recvPacket cfg fam s caddr data tv).sendQ = s.sendQ.qPush caddr ∧
              (s.proto caddr).nsent < 3) := by
  have hsame := (Function.update_eq_self caddr s.proto).symm
  by_cases hlisted : caddr ∈ cfg.addrs
  case neg =>
    rw [recvPacket, if_neg hlisted]
    exact ⟨_, hsame, rfl, rfl, le_rfl, .inl rfl⟩
  rcases fproc_cases (s.proto caddr).icmpproto cfg.pid (buff data) data.length (s.proto caddr) tv
    with ⟨-, heq⟩ | ⟨-, res, v, hres, heq⟩
  · rw [recvPacket, if_pos hlisted, heq]
    exact ⟨_, hsame, rfl, rfl, le_rfl, .inl rfl⟩
  · rw [recvPacket, if_pos hlisted, heq, if_neg hres]
    exact afterProc_cases fam s caddr _

theorem touches_of_step {w w' : Watch} {l : Label} (hstep : watchStep cfg a w l = some w') :
    Touches a w w' l := by
  obtain ⟨sys, hsys, rfl⟩ := Option.map_eq_some_iff.1 hstep
  cases l with
  | send ok now =>
    obtain ⟨-, -, rfl⟩ := step_send.1 hsys
    exact touches_send ok now
  | recv fam caddr data tv =>
    obtain ⟨-, -, rfl⟩ := step_recv.1 hsys
    obtain ⟨p, hproto, htries, hsent, hnsent, hq⟩ := recvPacket_cases cfg fam w.sys caddr data tv
    by_cases ha : caddr = a
    · subst ha
      refine .packet fam data tv (by simp [hears]) ?_ ?_ ?_ ?_ (fun h => by simp [h])
        (Int.add_zero _)
      · simpa [Watch.proto, hproto] using htries
      · simpa [Watch.proto, hproto] using hsent
      · simpa [Watch.proto, hproto] using hnsent
      · exact hq.imp (fun h => by simp only [Watch.queued, h]) And.right
    · refine .none _ (fun _ _ h => by cases h) ?_ ?_ (by simp [hears, ha]) (by simp [retires, ha])
        (Int.add_zero _)
      · simp only [Watch.proto, hproto, Function.update_of_ne (Ne.symm ha)]
      · rcases hq with h | ⟨h, -⟩
        · simp only [Watch.queued, h]
        · simp only [Watch.queued, h, Queue.elems_qPush, List.count_cons_of_ne ha]
  | recvNone fam =>
    obtain ⟨-, -, rfl⟩ := step_recvNone.1 hsys
    split <;> exact .none _ (fun _ _ h => by cases h) rfl rfl (Bool.or_false _) (Bool.or_false _)
      (Int.add_zero _)
  | recvDone fam =>
    obtain ⟨-, -, rfl⟩ := step_recvDone.1 hsys
    exact .none _ (fun _ _ h => by cases h) rfl rfl (Bool.or_false _) (Bool.or_false _)
      (Int.add_zero _)
  | alarm =>
    obtain ⟨-, rfl⟩ := step_alarm.1 hsys
    exact .none _ (fun _ _ h => by cases h) rfl rfl (Bool.or_false _) (Bool.or_false _)
      (Int.add_zero _)

/-! ## When an address is tried three times -/

/-- The invariant of the runs that meet `ThirdPops`. -/
structure WatchInv (a : Addr) (w : Watch) : Prop where
  sent : (w.proto a).sent ≤ (w.proto a).tries
  nsent : ((w.proto a).tries : ℤ) ≤ (w.proto a).nsent
  untried : w.heard = false → (w.proto a).sent = 0 →
    (w.proto a).tries = 0 ∧ (w.proto a).nsent = 0 ∧ (w.proto a).indices = [] ∧ 0 < w.queued a
  popped : 3 ≤ (w.proto a).tries → w.queued a = 0 ∨ w.retired = true

theorem queued_start (ha : a ∈ cfg.addrs) : (Watch.start cfg).queued a = 1 := by
  simp only [Watch.queued, Watch.start, init_sendQ, List.count_reverse]
  exact List.count_eq_one_of_mem cfg.nodup ha

theorem watchInv_start (ha : a ∈ cfg.addrs) : WatchInv a (.start cfg) where
  sent := le_rfl
  nsent := le_rfl
  untried _ _ := ⟨rfl, rfl, rfl, by rw [queued_start ha]; exact Nat.one_pos⟩
  popped h := absurd h (show ¬3 ≤ 0 by decide)

theorem WatchInv.triedThrice {w : Watch} (h : WatchInv a w) : TriedThrice a w where
  recorded hheard hsent := by
    obtain ⟨htries, -, hindices, -⟩ := h.untried hheard hsent
    rw [hindices, htries]
    exact ⟨rfl, List.forall_mem_nil _⟩
  again hheard hsent _ := (h.untried hheard hsent).2.2.2
  done hheard hsent htries := by
    have := (h.untried hheard hsent).1
    omega
  mixed := h.popped

theorem watchInv_step (w : Watch) (l : Label) (w' : Watch) (h : WatchInv a w)
    (hmeet : ThirdPops a w l) (hstep : watchStep cfg a w l = some w') : WatchInv a w' := by
  obtain ⟨hsent, hnsent, huntried, hpopped⟩ := h
  cases touches_of_step hstep with
  | none l hfront hproto hqueued hheard hretired hcounted =>
    refine ⟨by rw [hproto]; exact hsent, by rw [hproto]; exact hnsent, ?_, ?_⟩
    · rw [hproto, hqueued, hheard]
      exact huntried
    · rw [hproto, hqueued, hretired]
      exact hpopped
  | attempt ok now p popped hfront hp hproto hqueued hheard hretired hcounted =>
    subst hproto
    obtain ⟨hfirst, hthird⟩ := hmeet hfront
    obtain ⟨htries', hsent', hnsent', hpop⟩ := hp.spec
    have hle := ok.toNat_le
    refine ⟨by omega, by omega, fun hnot hzero => ?_, fun h3 => ?_⟩
    · -- the first attempt succeeded
      rw [hheard] at hnot
      have hzero' : (w.proto a).sent = 0 := by omega
      rw [hfirst (huntried hnot hzero').1 hnot] at hsent'
      simp only [Bool.toNat_true] at hsent'
      omega
    · rw [hretired]
      rcases Nat.lt_or_ge (w.proto a).tries 3 with hlt | hge
      · rcases hthird (by omega) with hr | ⟨hok, hone⟩ | ⟨hfail, h2⟩
        · simp [hr]
        · subst hok
          simp only [hpop, Bool.true_or, Bool.toNat_true] at hqueued
          exact .inl (by omega)
        · simp [hfail, h2]
      · have hin := queued_pos_of_qFront hfront
        simp [(hpopped hge).resolve_left (by omega)]
  | packet fam data tv hheard htries hsent' hnsent' hqueued hretired =>
    refine ⟨by rw [htries, hsent']; exact hsent, by rw [htries]; exact hnsent.trans hnsent', ?_, ?_⟩
    · rw [hheard]
      nofun
    · rw [htries]
      intro h3
      rcases hpopped h3 with h0 | hr
      · refine .inl ((hqueued.resolve_right ?_).trans h0)
        omega
      · exact .inr (hretired hr)

theorem not_triedThrice_step (w : Watch) (l : Label) (w' : Watch) (h : WatchInv a w)
    (hmeet : ¬ThirdPops a w l) (hstep : watchStep cfg a w l = some w') : ¬TriedThrice a w' := by
  intro htried
  cases touches_of_step hstep with
  | none l hfront hproto hqueued hheard hretired hcounted =>
    cases l with
    | send ok now => exact hmeet fun hq => absurd hq (hfront ok now rfl)
    | recv | recvNone | recvDone | alarm => exact hmeet trivial
  | packet fam data tv hheard htries hsent hnsent hqueued hretired => exact hmeet trivial
  | attempt ok now p popped hfront hp hproto hqueued hheard hretired hcounted =>
    subst hproto
    obtain ⟨htries', hsent', -, hpop⟩ := hp.spec
    refine hmeet fun _ => ⟨fun hzero hnot => ?_, fun htwo => ?_⟩
    · -- a first failure is recorded in `rtt[1]`
      by_contra hok
      obtain rfl : ok = false := by simpa using hok
      have hsent := h.sent
      obtain ⟨-, hn, hindices, -⟩ := h.untried hnot (by omega)
      have hrecorded := (htried.recorded (hheard.trans hnot) (by simpa [hsent'] using by omega)).1
      rw [htries', hzero] at hrecorded
      generalize w'.proto a = q at hp hrecorded
      cases hp with
      | givenUp h2 => omega
      | retry hlt =>
        simp only [Proto.setRtt_indices, hindices, hn] at hrecorded
        exact absurd hrecorded (by decide)
      | stuck hgt => omega
    · have hin := queued_pos_of_qFront hfront
      have hmixed := htried.mixed (by omega)
      rw [hretired] at hmixed
      cases ok with
      | true =>
        simp only [hpop, Bool.true_or, Bool.toNat_true] at hqueued
        simp only [Bool.not_true, Bool.false_and, Bool.or_false] at hmixed
        rcases hmixed with h0 | hr
        · exact .inr (.inl ⟨rfl, by omega⟩)
        · exact .inl hr
      | false =>
        by_cases h2 : (w.proto a).nsent = 2
        · exact .inr (.inr ⟨rfl, h2⟩)
        · simp only [hpop, h2, decide_false, Bool.or_false, Bool.toNat_false] at hqueued
          simp only [h2, decide_false, Bool.and_false, Bool.or_false] at hmixed
          exact .inl (hmixed.resolve_left (by omega))

/-! ## Sends that all fail -/

/-- An address whose sends all failed and that nothing was heard of was attempted at most
twice, and has left the queue after the second failure. -/
def TriedTwice (a : Addr) (w : Watch) : Prop :=
  w.heard = false → (w.proto a).sent = 0 →
    (w.proto a).tries = 0 ∧ (w.proto a).nsent = 0 ∧ w.queued a = 1 ∨
      (w.proto a).tries = 1 ∧ (w.proto a).nsent = 2 ∧ w.queued a = 1 ∨
      (w.proto a).tries = 2 ∧ (w.proto a).nsent = 4 ∧ w.queued a = 0

theorem triedTwice_step (w : Watch) (l : Label) (w' : Watch) (h : TriedTwice a w)
    (hstep : watchStep cfg a w l = some w') : TriedTwice a w' := by
  cases touches_of_step hstep with
  | none l hfront hproto hqueued hheard hretired hcounted =>
    unfold TriedTwice
    rw [hproto, hqueued, hheard]
    exact h
  | packet fam data tv hheard => exact fun hnot => absurd (hheard.symm.trans hnot) (by decide)
  | attempt ok now p popped hfront hp hproto hqueued hheard hretired hcounted =>
    subst hproto
    intro hnot hzero
    have hin := queued_pos_of_qFront hfront
    obtain ⟨-, hsent, -⟩ := hp.spec
    have hphase := h (hheard.symm.trans hnot) (by omega)
    generalize w'.proto a = q at hp hzero
    cases hp with
    | success => simp at hzero
    | givenUp h2 =>
      simp only [Bool.toNat_true] at hqueued
      simp only
      omega
    | retry hlt =>
      simp only [Bool.toNat_false] at hqueued
      simp only
      omega
    | stuck hgt => omega

/-- Every attempt at the address adds one to `tot_send_cnt`. -/
theorem counted_step (w : Watch) (l : Label) (w' : Watch) (h : w.counted = (w.proto a).tries)
    (hstep : watchStep cfg a w l = some w') : w'.counted = (w'.proto a).tries := by
  cases touches_of_step hstep with
  | none l hfront hproto hqueued hheard hretired hcounted =>
    rw [hcounted, hproto]
    exact h
  | packet fam data tv hheard htries hsent hnsent hqueued hretired hcounted =>
    rw [hcounted, htries]
    exact h
  | attempt ok now p popped hfront hp hproto hqueued hheard hretired hcounted =>
    rw [hcounted, hproto, hp.spec.1, h, Nat.cast_succ]

/-! ## Runs -/

/-- For every address and every run, the address is tried three times in every state if and
only if every step meets `ThirdPops`. It adds as much to `tot_send_cnt` as it is attempted,
and an address whose sends all failed, with nothing heard of it, is never attempted three
times.

As in `Proto.setRtt`, a write outside of `rtt` is taken to change no other field : a packet
that is handled while `nsent` is 0 leaves `nsent`, which `Rtt.Layout` says otherwise. -/
theorem triedThrice_iff (cfg : Config) (a : Addr) (ha : a ∈ cfg.addrs) (ls : List Label)
    (hr : (run (watchStep cfg a) (.start cfg) ls).isSome) :
    (Along (watchStep cfg a) (TriedThrice a) (.start cfg) ls ↔
      StepsMeet (watchStep cfg a) (ThirdPops a) (.start cfg) ls) ∧
    ∀ w, run (watchStep cfg a) (.start cfg) ls = some w →
      w.counted = (w.proto a).tries ∧
        (w.heard = false → (w.proto a).sent = 0 →
          (w.proto a).tries ≤ 2 ∧ (w.queued a = 0 → (w.proto a).tries = 2)) := by
  refine ⟨along_iff_stepsMeet (fun w => WatchInv.triedThrice) watchInv_step not_triedThrice_step
    (watchInv_start ha) hr, fun w hw => ⟨run_invariant_of_step counted_step rfl hw, ?_⟩⟩
  intro hnot hzero
  have hstart : TriedTwice a (.start cfg) := fun _ _ => .inl ⟨rfl, rfl, queued_start ha⟩
  have hphase := run_invariant_of_step triedTwice_step hstart hw hnot hzero
  omega

/-- Two requests to 127.0.0.1 are answered, and the third send fails. -/
def answeredRun : List Label :=
  [.send true ⟨1, 0⟩, .recv .v4 loopback (loopbackPacket 0) ⟨2, 0⟩, .send true ⟨3, 0⟩,
    .recv .v4 loopback (loopbackPacket 0) ⟨4, 0⟩, .send false ⟨5, 0⟩]

theorem triedThrice_answeredRun :
    Along (watchStep loopbackConfig loopback) (TriedThrice loopback) (.start loopbackConfig)
      answeredRun :=
  ((triedThrice_iff loopbackConfig loopback (by decide) answeredRun (by decide)).1).2 (by decide)

/-- Every send to 127.0.0.1 fails. -/
theorem not_triedThrice_failingSends :
    (run (watchStep loopbackConfig loopback) (.start loopbackConfig) failingSends).isSome ∧
      ¬Along (watchStep loopbackConfig loopback) (TriedThrice loopback) (.start loopbackConfig)
        failingSends := by
  have hsome : (run (watchStep loopbackConfig loopback) (.start loopbackConfig)
    failingSends).isSome := by decide
  obtain ⟨w, hw⟩ := Option.isSome_iff_exists.1 hsome
  refine ⟨hsome, fun h => ?_⟩
  have hend : (run (watchStep loopbackConfig loopback) (.start loopbackConfig) failingSends).map
      (fun w => (w.heard, (w.proto loopback).sent, (w.proto loopback).tries, w.queued loopback)) =
        some (false, 0, 2, 0) := by decide
  rw [hw, Option.map_some, Option.some.injEq] at hend
  simp only [Prod.mk.injEq] at hend
  obtain ⟨hheard, hsent, htries, hqueued⟩ := hend
  have := (h.last hw).again hheard hsent (by omega)
  omega

end NetProg.Rtt
