import NetProg.MsgQueue.Calls

/-!
# Answers reach the call that asked

`Inv` ties the number that a process waits for to what is in the queues : the requests are
those of the calls, and the responses are the answers to them. What is in the queues is in
order (`Exchange.Fifo`), so that the process that has waited longest finds its own answer in
front. Of two processes that wait for answers of one kind, the other one takes an answer that
is not its own (`not_ownAnswers_of_overtaking`).
-/

namespace NetProg.MsgQueue

open Lib (Exchange)
open Registry

/-! ## What the server answers -/

theorem controlled_created {s s' : Registry} {cmsg : ControlMessage} {queue : ℤ}
    {garbage : Garbage} {cres : ControlResponse} (hc : Controlled s cmsg queue garbage s' cres)
    (hact : cmsg.action = .createGroup) :
    ∃ g, s'.groups[s.groups.length]? = some g ∧ g.name = cmsg.name ∧ cres.status = statusOk ∧
      cres.gid = some g.gid := by
  cases hc with
  | known h | failed h | registered h => exact absurd (hact.symm.trans h) nofun
  | joined h => exact absurd (hact.symm.trans h) nofun
  | refused h => rcases h with h | ⟨n, h⟩ <;> exact absurd (hact.symm.trans h) nofun
  | @created h clt hclt hroom s' hjoins =>
    exact ⟨(newGroup s.groups.length cmsg.name garbage).add clt, hjoins.group_added, rfl, rfl, rfl⟩

/-- A query for one name has one answer, with a status. -/
theorem queryResponses_of_ne_all (s : Registry) (u : User) {call : QueryCall}
    (hname : call.name ≠ System.allName) :
    ∃ qres st, s.queryResponses (u.queryRequest call) = [qres] ∧ qres.status = some st := by
  have hstatus : ∀ id : Option ℤ, ∃ st, (nameResponse id).status = some st := fun id => by
    cases id <;> exact ⟨_, rfl⟩
  cases call with
  | getGid name | joinGroup name =>
    obtain ⟨st, hst⟩ := hstatus ((s.findGroupByName name).bind fun i => s.groups[i]?.map Group.gid)
    exact ⟨_, st, if_neg hname, hst⟩
  | getCid name =>
    obtain ⟨st, hst⟩ :=
      hstatus ((s.findClientByName name).bind fun i => s.clients[i]?.map Client.cid)
    exact ⟨_, st, if_neg hname, hst⟩

namespace System

section

variable {ι : Type*} {u : User} {s s' : System ι}

/-- The answers to the control message of a call. -/
def AnswersControl (created : List (ℕ × List Char × ℤ)) (call : ControlCall) (n : ℕ)
    (cres : ControlResponse) : Prop :=
  ∀ name, call = .createGroup name →
    cres.status = statusOk ∧ ∃ gid, cres.gid = some gid ∧ (n, name, gid) ∈ created

/-- The answers to the query of a call. -/
def AnswersQuery (u : User) (answered : List (ℕ × QueryRequest × QueryResponse))
    (call : QueryCall) (n : ℕ) (qres : QueryResponse) : Prop :=
  (n, u.queryRequest call, qres) ∈ answered ∧ ∃ st, qres.status = some st

/-- What holds of the queues between steps. -/
structure Inv (u : User) (s : System ι) : Prop where
  wellFormed : s.reg.WellFormed
  control : Exchange.Fifo (fun call cmsg => cmsg = u.controlMessage call)
    (AnswersControl s.created) s.control (Pc.controlWait ∘ s.pc) s.nextNumber
  query : Exchange.Fifo (fun call query => call.name ≠ allName ∧ query = u.queryRequest call)
    (AnswersQuery u s.answered) s.query (Pc.queryWait ∘ s.pc) s.nextNumber
  own : s.OwnAnswers u

theorem inv_start {reg : Registry} (h : reg.WellFormed) : Inv u (start reg : System ι) where
  wellFormed := h
  control := Exchange.Fifo.empty
  query := Exchange.Fifo.empty
  own := ⟨nofun, nofun⟩

theorem Inv.serveControl (h : Inv u s) {queue : ℤ} {garbage : Garbage}
    (hs : s.serveControl queue garbage = some s') : Inv u s' := by
  unfold System.serveControl at hs
  cases hx : s.control.requests with
  | nil => simp [hx] at hs
  | cons r rest =>
    obtain ⟨n, cmsg⟩ := r
    rw [hx] at hs
    obtain ⟨⟨reg, q, cres⟩, hreg, rfl⟩ := Option.map_eq_some_iff.1 hs
    have hc := h.wellFormed.controlled (handleControlMsgs_eq_some_iff.1 hreg).1
    have hmono : ∀ entry ∈ s.created, entry ∈ s.created ++
        (reg.groups[s.reg.groups.length]?.map fun g => (n, g.name, g.gid)).toList :=
      fun entry hentry => List.mem_append_left _ hentry
    constructor
    · exact hc.wellFormed h.wellFormed
    · refine (h.control.mono (fun call m cres' hres name hcall => ?_) le_rfl).serve hx
        fun call hreq name hcall => ?_
      · obtain ⟨hst, gid, hgid, hmem⟩ := hres name hcall
        exact ⟨hst, gid, hgid, hmono _ hmem⟩
      · subst hreq hcall
        obtain ⟨g, hg, hname, hst, hgid⟩ := controlled_created hc rfl
        refine ⟨hst, g.gid, hgid, List.mem_append_right _ ?_⟩
        simp only [hg, Option.map_some, Option.toList_some, List.mem_singleton, hname]
        rfl
    · exact h.query
    · exact ⟨fun r hr => ⟨(h.own.control r hr).1, fun name hcall =>
        hmono _ ((h.own.control r hr).2 name hcall)⟩, h.own.query⟩

theorem Inv.serveQuery (h : Inv u s) (hs : s.serveQuery = some s') : Inv u s' := by
  unfold System.serveQuery at hs
  cases hx : s.query.requests with
  | nil => simp [hx] at hs
  | cons r rest =>
    obtain ⟨n, query⟩ := r
    rw [hx] at hs
    obtain ⟨⟨q, qs⟩, hquery, rfl⟩ := Option.map_eq_some_iff.1 hs
    obtain ⟨i, -, hquery⟩ := Option.bind_eq_some_iff.1 hquery
    obtain ⟨c, -, hquery⟩ := Option.bind_eq_some_iff.1 hquery
    obtain rfl : s.reg.queryResponses query = qs := congrArg Prod.snd (Option.some.inj hquery)
    have hfront : (n, query) ∈ s.query.requests := hx ▸ List.mem_cons_self
    obtain ⟨p, call, hp⟩ := (h.query.mem_iff n).1 (Exchange.Fifo.mem_of_request hfront)
    obtain ⟨hname, heq⟩ := h.query.request p call n query hp hfront
    obtain ⟨qres, st, hres, hst⟩ := queryResponses_of_ne_all s.reg u hname
    rw [← heq] at hres
    simp only [hres]
    have hmono : ∀ entry ∈ s.answered, entry ∈ s.answered ++ [qres].map fun r => (n, query, r) :=
      fun entry hentry => List.mem_append_left _ hentry
    constructor
    · exact h.wellFormed
    · exact h.control
    · refine (h.query.mono (fun call' m qres' hres' => ⟨hmono _ hres'.1, hres'.2⟩) le_rfl).serve hx
        fun call' hreq => ⟨List.mem_append_right _ ?_, st, hst⟩
      rw [hreq.2]
      exact List.mem_cons_self
    · refine ⟨h.own.control, fun r hr => ?_⟩
      obtain ⟨hown, qres', hmem, hvalue⟩ := h.own.query r hr
      exact ⟨hown, qres', hmono _ hmem, hvalue⟩

theorem controlWait_eq {p : ι} {call : ControlCall} {n : ℕ} (hpc : s.pc p = .awaitControl call n) :
    (Pc.controlWait ∘ s.pc) p = some (call, n) := by
  rw [Function.comp_apply, hpc, Pc.controlWait]

theorem queryWait_eq {p : ι} {call : QueryCall} {n : ℕ} (hpc : s.pc p = .awaitQuery call n) :
    (Pc.queryWait ∘ s.pc) p = some (call, n) := by
  rw [Function.comp_apply, hpc, Pc.queryWait]

end

variable {ι : Type*} [DecidableEq ι] {u : User} {s s' : System ι}

/-- A change of `pc` that the waiting for one kind of answer does not see. -/
theorem comp_update_of_eq {β : Type*} (f : Pc → β) (pc : ι → Pc) {p : ι} {l : Pc}
    (h : f l = f (pc p)) : f ∘ Function.update pc p l = f ∘ pc := by
  rw [Function.comp_update, Function.update_eq_self_iff]
  exact h

theorem Inv.sendControl (h : Inv u s) {p : ι} (hcontrol : (s.pc p).controlWait = none)
    (hquery : (s.pc p).queryWait = none) (call : ControlCall) :
    Inv u (s.sendControl u p call) where
  wellFormed := h.wellFormed
  control := by
    simp only [System.sendControl, Function.comp_update]
    exact h.control.send hcontrol rfl
  query := by
    simp only [System.sendControl]
    rw [comp_update_of_eq _ _ (by rw [hquery]; rfl)]
    exact h.query.mono (fun _ _ _ => id) (Nat.le_succ _)
  own := ⟨h.own.control, h.own.query⟩

theorem Inv.sendQuery (h : Inv u s) {p : ι} (hcontrol : (s.pc p).controlWait = none)
    (hquery : (s.pc p).queryWait = none) {call : QueryCall} (hname : call.name ≠ allName) :
    Inv u (s.sendQuery u p call) where
  wellFormed := h.wellFormed
  control := by
    simp only [System.sendQuery]
    rw [comp_update_of_eq _ _ (by rw [hcontrol]; rfl)]
    exact h.control.mono (fun _ _ _ => id) (Nat.le_succ _)
  query := by
    simp only [System.sendQuery, Function.comp_update]
    exact h.query.send hquery ⟨hname, rfl⟩
  own := ⟨h.own.control, h.own.query⟩

theorem exists_of_receiveControl {p : ι} {call : ControlCall} {n : ℕ} {junk : ℤ}
    (hs : s.receiveControl p call n junk = some s') :
    ∃ m cres rest, s.control.responses = (m, cres) :: rest ∧ s' =
      { s with
        pc := Function.update s.pc p .idle
        control := s.control.receive rest
        controlReceipts := s.controlReceipts ++ [⟨call, n, m, controlValue junk cres call⟩] } := by
  unfold System.receiveControl at hs
  cases hx : s.control.responses with
  | nil => simp [hx] at hs
  | cons r rest =>
    obtain ⟨m, cres⟩ := r
    rw [hx] at hs
    exact ⟨m, cres, rest, rfl, (Option.some.inj hs).symm⟩

theorem exists_of_receiveQuery {p : ι} {call : QueryCall} {n : ℕ} {junk : ℤ}
    (hs : s.receiveQuery p call n junk = some s') :
    ∃ m qres rest, s.query.responses = (m, qres) :: rest ∧ s' =
      { s with
        pc := Function.update s.pc p (afterQuery (queryValue junk qres) call)
        query := s.query.receive rest
        queryReceipts := s.queryReceipts ++ [⟨call, n, m, queryValue junk qres⟩] } := by
  unfold System.receiveQuery at hs
  cases hx : s.query.responses with
  | nil => simp [hx] at hs
  | cons r rest =>
    obtain ⟨m, qres⟩ := r
    rw [hx] at hs
    exact ⟨m, qres, rest, rfl, (Option.some.inj hs).symm⟩

/-- After a query a process does not wait. -/
theorem afterQuery_wait (id : ℤ) (call : QueryCall) :
    (afterQuery id call).controlWait = none ∧ (afterQuery id call).queryWait = none := by
  cases call with
  | joinGroup name =>
    rw [afterQuery]
    split_ifs <;> exact ⟨rfl, rfl⟩
  | getGid name | getCid name => exact ⟨rfl, rfl⟩

theorem Inv.receiveControl (h : Inv u s) {p : ι} {call : ControlCall} {n : ℕ} {junk : ℤ}
    (hpc : s.pc p = .awaitControl call n)
    (hlongest : s.WaitsLongest Pc.controlWait p)
    (hs : s.receiveControl p call n junk = some s') : Inv u s' := by
  have hp := controlWait_eq hpc
  obtain ⟨m, cres, rest, hx, rfl⟩ := exists_of_receiveControl hs
  obtain rfl : m = n := (h.control.front_eq_iff hx hp).2 (hlongest (call, n) hp)
  have hres := h.control.response p call m cres hp (hx ▸ List.mem_cons_self)
  constructor
  · exact h.wellFormed
  · simp only [Function.comp_update]
    exact h.control.receive hx hp
  · simp only
    rw [comp_update_of_eq _ _ (by rw [hpc]; rfl)]
    exact h.query
  · refine ⟨fun r hr => ?_, h.own.query⟩
    rcases List.mem_append.1 hr with hr | hr
    · exact h.own.control r hr
    · obtain rfl := List.mem_singleton.1 hr
      refine ⟨rfl, fun name hcall => ?_⟩
      obtain ⟨hst, gid, hgid, hmem⟩ := hres name hcall
      simp only at hcall ⊢
      rw [hcall, controlValue, if_neg (not_not.2 hst), hgid]
      exact hmem

theorem Inv.receiveQuery (h : Inv u s) {p : ι} {call : QueryCall} {n : ℕ} {junk : ℤ}
    (hpc : s.pc p = .awaitQuery call n)
    (hlongest : s.WaitsLongest Pc.queryWait p)
    (hs : s.receiveQuery p call n junk = some s') : Inv u s' := by
  have hp := queryWait_eq hpc
  obtain ⟨m, qres, rest, hx, rfl⟩ := exists_of_receiveQuery hs
  obtain rfl : m = n := (h.query.front_eq_iff hx hp).2 (hlongest (call, n) hp)
  obtain ⟨hmem, st, hst⟩ := h.query.response p call m qres hp (hx ▸ List.mem_cons_self)
  obtain ⟨hcontrol, hquery⟩ := afterQuery_wait (queryValue junk qres) call
  constructor
  · exact h.wellFormed
  · simp only
    rw [comp_update_of_eq _ _ (by rw [hpc, hcontrol]; rfl)]
    exact h.control
  · simp only [Function.comp_update, hquery]
    exact h.query.receive hx hp
  · refine ⟨h.own.control, fun r hr => ?_⟩
    rcases List.mem_append.1 hr with hr | hr
    · exact h.own.query r hr
    · obtain rfl := List.mem_singleton.1 hr
      exact ⟨rfl, qres, hmem, fun junk' => by simp only [queryValue, hst, Option.getD_some]⟩

theorem inv_step {e : Move ι} (h : Inv u s) (horder : s.Orderly e)
    (hs : s.step u e = some s') : Inv u s' := by
  cases e with
  | call p call =>
    simp only [System.step] at hs
    split_ifs at hs with hidle
    obtain rfl := Option.some.inj hs
    have hcontrol : (s.pc p).controlWait = none := by
      rw [hidle]
      rfl
    have hquery : (s.pc p).queryWait = none := by
      rw [hidle]
      rfl
    cases call with
    | register | createGroup name => exact h.sendControl hcontrol hquery _
    | joinGroup name | getGid name | getCid name => exact h.sendQuery hcontrol hquery horder
  | sendJoin p =>
    cases hpc : s.pc p with
    | sendJoin gid =>
      simp only [System.step, hpc] at hs
      obtain rfl := Option.some.inj hs
      exact h.sendControl (by rw [hpc]; rfl) (by rw [hpc]; rfl) _
    | idle | awaitQuery call n | awaitControl call n => simp [System.step, hpc] at hs
  | serveControl queue garbage => exact h.serveControl hs
  | serveQuery => exact h.serveQuery hs
  | receive p junk =>
    cases hpc : s.pc p with
    | awaitControl call n =>
      simp only [System.step, hpc] at hs
      exact h.receiveControl hpc horder.1 hs
    | awaitQuery call n =>
      simp only [System.step, hpc] at hs
      exact h.receiveQuery hpc horder.2 hs
    | idle | sendJoin gid => simp [System.step, hpc] at hs

/-- A process that receives an answer while another has waited longer gets that of another
call. -/
theorem not_ownAnswers_of_overtaking (h : Inv u s) {p : ι} {junk : ℤ}
    (hlate : ¬s.Orderly (.receive p junk)) (hs : s.step u (.receive p junk) = some s') :
    ¬s'.OwnAnswers u := by
  refine fun hown => hlate ?_
  cases hpc : s.pc p with
  | awaitControl call n =>
    have hp := controlWait_eq hpc
    simp only [System.step, hpc] at hs
    obtain ⟨m, cres, rest, hx, rfl⟩ := exists_of_receiveControl hs
    have heq := (hown.control _ (List.mem_append_right _ List.mem_cons_self)).1
    refine ⟨fun w hw => ?_, fun w hw => by rw [hpc] at hw; cases hw⟩
    obtain rfl := Option.some.inj (hp.symm.trans hw)
    exact (h.control.front_eq_iff hx hp).1 heq
  | awaitQuery call n =>
    have hp := queryWait_eq hpc
    simp only [System.step, hpc] at hs
    obtain ⟨m, qres, rest, hx, rfl⟩ := exists_of_receiveQuery hs
    have heq := (hown.query _ (List.mem_append_right _ List.mem_cons_self)).1
    refine ⟨fun w hw => (by rw [hpc] at hw; cases hw), fun w hw => ?_⟩
    obtain rfl := Option.some.inj (hp.symm.trans hw)
    exact (h.query.front_eq_iff hx hp).1 heq
  | idle | sendJoin gid => simp [System.step, hpc] at hs

/-- In a run whose steps are orderly, every call gets its own answer. -/
theorem ownAnswers_of_orderly (u : User) {reg : Registry} (hreg : reg.WellFormed)
    (es : List (Move ι)) (horder : StepsMeet (step u) Orderly (start reg : System ι) es) :
    Along (step u) (OwnAnswers u) (start reg : System ι) es :=
  along_of_stepsMeet (fun _ h => h.own) (fun _ _ _ h horder hs => inv_step h horder hs)
    (inv_start hreg) horder

end System

/-- The user of two processes. -/
def someUser : User :=
  ⟨1000, ['u'], ['/', 'u']⟩

/-- Two processes of a user create a group each, one after the other. -/
def inTurn : List (Move Bool) :=
  [.call false .register, .serveControl 5 ⟨0, fun _ => none⟩, .receive false 0,
    .call false (.createGroup ['a']), .serveControl 5 ⟨0, fun _ => none⟩, .receive false 0,
    .call true (.createGroup ['b']), .serveControl 5 ⟨0, fun _ => none⟩, .receive true 0]

theorem ownAnswers_inTurn :
    Along (System.step someUser) (System.OwnAnswers someUser) (System.start init) inTurn :=
  System.ownAnswers_of_orderly someUser wellFormed_init inTurn (by decide)

/-- Both call `create_group` before one of them receives. -/
def crossed : List (Move Bool) :=
  [.call false .register, .serveControl 5 ⟨0, fun _ => none⟩, .receive false 0,
    .call false (.createGroup ['a']), .call true (.createGroup ['b']),
    .serveControl 5 ⟨0, fun _ => none⟩, .serveControl 5 ⟨0, fun _ => none⟩, .receive true 0]

/-- The second process returns the id of the group of the first. -/
theorem not_ownAnswers_crossed :
    ¬Along (System.step someUser) (System.OwnAnswers someUser) (System.start init) crossed := by
  intro h
  obtain ⟨s, hs, hend⟩ := Option.map_eq_some_iff.1
    (show (run (System.step someUser) (System.start init) crossed).map
      (fun s => (s.controlReceipts.getLast?, s.created)) =
        some (some ⟨.createGroup ['b'], 2, 1, 0⟩, [(1, ['a'], 0), (2, ['b'], 1)]) by decide)
  rw [Prod.mk.injEq] at hend
  have hown := ((h.last hs).control _ (List.mem_of_getLast? hend.1)).2 ['b'] rfl
  rw [hend.2] at hown
  revert hown
  decide

end NetProg.MsgQueue
