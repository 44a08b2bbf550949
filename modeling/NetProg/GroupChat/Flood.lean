import NetProg.Lib.Descent
import NetProg.GroupChat.Forward

/-!
# Flooding stops

A history is an infinite sequence of events over any number of clients : a client
announces its files, or a client handles a copy that was sent before. A copy is named by
the event that sent it and its place among the copies of that event. An event carries the
files and the groups its client has at that moment, which are arbitrary and may change.
Which clients a copy reaches, how often and when is not restricted.

Every copy has `grp_count` at least 1, a forward has a larger `grp_count` than the copy
that caused it, and a copy with `grp_count` from `MAX_GROUPS` on is not forwarded
(`handle_grpCount`). The entries of the visited list play no part. So chains of forwards
are short, and an announcement causes finitely many of them as soon as each copy is
handled finitely often.
-/

namespace NetProg.GroupChat

/-! ## Histories -/

/-- The place of a copy : the event that sent it, and its index there. -/
abbrev CopyId :=
  ℕ × ℕ

/-- An event. -/
inductive Event where
  /-- `sigAlrmHandler` of a client. -/
  | announce (stack : FileListMulticast) (files : List String) (groups : List Group)
  /-- A client receives and handles a copy. -/
  | handle (src : CopyId) (received : ℕ → Bool) (files : List String) (groups : List Group)
  /-- Anything else. -/
  | other

/-- The copies an event sends, given those of the events before it. -/
def emit (past : List (List Copy)) : Event → List Copy
  | .announce stack files groups => (sigAlrmHandler stack files groups).getD []
  | .handle src received files groups =>
    match past[src.1]?.bind fun copies => copies[src.2]? with
    | none => []
    | some c => (handleFileList received files groups c.msg).sent
  | .other => []

/-- The copies of the first `t` events. -/
def sentBefore (H : ℕ → Event) : ℕ → List (List Copy)
  | 0 => []
  | t + 1 => sentBefore H t ++ [emit (sentBefore H t) (H t)]

/-- The copies event `t` sends. -/
def sentAt (H : ℕ → Event) (t : ℕ) : List Copy :=
  emit (sentBefore H t) (H t)

/-- The copy with a given place. -/
def copyAt (H : ℕ → Event) (id : CopyId) : Option Copy :=
  (sentAt H id.1)[id.2]?

/-- Event `t` handles the copy `id`. -/
def HandledAt (H : ℕ → Event) (id : CopyId) (t : ℕ) : Prop :=
  ∃ received files groups, H t = .handle id received files groups

/-- `b` was sent while `a` was handled. -/
def Forwards (H : ℕ → Event) (a b : CopyId) : Prop :=
  HandledAt H a b.1 ∧ (copyAt H b).isSome

/-! ## The counter of a copy -/

theorem passOn_grpCount {m : FileListMulticast} (groups : List Group) (out : FileListMulticast) :
    out.grpCount ≤ (passOn m out groups).1.grpCount ∧
      ∀ c ∈ (passOn m out groups).2, m.grpCount < maxGroups ∧ out.grpCount < c.msg.grpCount := by
  induction groups generalizing out with
  | nil => simp [passOn]
  | cons g groups ih =>
    unfold passOn
    split
    · exact ih out
    split
    · simp
    · rename_i hge
      obtain ⟨hout, hsent⟩ := ih (addGroup m out g.name)
      simp only [addGroup] at hout hsent ⊢
      refine ⟨by omega, fun c hc => ⟨by omega, ?_⟩⟩
      rcases List.mem_cons.1 hc with rfl | hc
      · simp
      · have := (hsent c hc).2
        omega

/-- Every forward of a message raises `grp_count`, and only a message with room in its list
is forwarded. -/
theorem handle_grpCount {m : FileListMulticast} {received : ℕ → Bool} {files : List String}
    {groups : List Group} {c : Copy} (hc : c ∈ (handleFileList received files groups m).sent) :
    m.grpCount < maxGroups ∧ m.grpCount < c.msg.grpCount := by
  have hloop : ∀ (is : List ℕ) (h : Handling), m.grpCount ≤ h.out.grpCount →
      (∀ c ∈ h.sent, m.grpCount < maxGroups ∧ m.grpCount < c.msg.grpCount) →
      ∀ c ∈ (is.foldl (handleFile received m groups) h).sent,
        m.grpCount < maxGroups ∧ m.grpCount < c.msg.grpCount := by
    intro is
    induction is with
    | nil => exact fun h _ hs => hs
    | cons i is ih =>
      intro h hout hs
      obtain ⟨hout', hsent⟩ := passOn_grpCount (m := m) groups h.out
      refine ih _ (by simp only [handleFile]; omega) fun c hc => ?_
      rcases List.mem_append.1 hc with hc | hc
      · exact hs c hc
      · exact ⟨(hsent c hc).1, by have := (hsent c hc).2; omega⟩
  exact hloop _ ⟨m, files, []⟩ le_rfl (by simp) c hc

/-- An announcement lists the group it goes to. -/
theorem sigAlrmHandler_grpCount {stack : FileListMulticast} {files : List String}
    {groups : List Group} {sent : List Copy} (hs : sigAlrmHandler stack files groups = some sent)
    {c : Copy} (hc : c ∈ sent) : 1 ≤ c.msg.grpCount := by
  unfold sigAlrmHandler at hs
  split at hs
  · split at hs
    · cases hs
    · obtain rfl := Option.some.inj hs
      obtain ⟨g, hg, rfl⟩ := List.mem_map.1 hc
      have := List.length_pos_of_mem hg
      simp only
      omega
  · obtain rfl := Option.some.inj hs
    cases hc

/-! ## The past of an event -/

theorem sentBefore_length (H : ℕ → Event) (t : ℕ) : (sentBefore H t).length = t := by
  induction t with
  | zero => rfl
  | succ t ih => simp [sentBefore, ih]

theorem sentBefore_getElem? (H : ℕ → Event) {s t : ℕ} (hst : s < t) :
    (sentBefore H t)[s]? = some (sentAt H s) := by
  induction t with
  | zero => omega
  | succ t ih =>
    rcases Nat.lt_succ_iff_lt_or_eq.1 hst with hlt | rfl
    · rw [sentBefore, List.getElem?_append_left (by rw [sentBefore_length]; exact hlt), ih hlt]
    · simp [sentBefore, sentBefore_length, sentAt]

/-- A copy sent while handling comes from the handler, on a copy sent before. -/
theorem exists_of_handledAt {H : ℕ → Event} {a b : CopyId} {d : Copy} (hh : HandledAt H a b.1)
    (hd : copyAt H b = some d) : a.1 < b.1 ∧ ∃ c, copyAt H a = some c ∧
      ∃ received files groups, d ∈ (handleFileList received files groups c.msg).sent := by
  obtain ⟨received, files, groups, hev⟩ := hh
  have hmem := List.mem_of_getElem? hd
  simp only [sentAt, hev, emit] at hmem
  split at hmem
  · cases hmem
  · rename_i c hc
    obtain ⟨copies, hcopies, hget⟩ := Option.bind_eq_some_iff.1 hc
    have hlt : a.1 < b.1 := by
      obtain ⟨hlt, -⟩ := List.getElem?_eq_some_iff.1 hcopies
      rwa [sentBefore_length] at hlt
    rw [sentBefore_getElem? H hlt] at hcopies
    obtain rfl := Option.some.inj hcopies
    exact ⟨hlt, c, hget, received, files, groups, hmem⟩

/-- Every copy lists a group. -/
theorem one_le_grpCount {H : ℕ → Event} {id : CopyId} {c : Copy} (hc : copyAt H id = some c) :
    1 ≤ c.msg.grpCount := by
  induction ht : id.1 using Nat.strong_induction_on generalizing id c with
  | _ t ih =>
    cases hev : H id.1 with
    | announce stack files groups =>
      have hmem := List.mem_of_getElem? hc
      simp only [sentAt, hev, emit] at hmem
      cases hs : sigAlrmHandler stack files groups with
      | none => simp [hs] at hmem
      | some sent =>
        rw [hs] at hmem
        exact sigAlrmHandler_grpCount hs hmem
    | handle src received files groups =>
      obtain ⟨hlt, c', hc', _, _, _, hmem⟩ := exists_of_handledAt ⟨received, files, groups, hev⟩ hc
      have hone := ih src.1 (ht ▸ hlt) hc' rfl
      have hgt := (handle_grpCount hmem).2
      omega
    | other =>
      have hmem := List.mem_of_getElem? hc
      simp [sentAt, hev, emit] at hmem

/-! ## Chains and descendants -/

/-- The groups that still fit into the visited list of a copy. -/
def roomLeft (H : ℕ → Event) (id : CopyId) : ℕ :=
  match copyAt H id with
  | none => 0
  | some c => (maxGroups - c.msg.grpCount).toNat

theorem roomLeft_lt {H : ℕ → Event} {a b : CopyId} (hab : Forwards H a b) :
    roomLeft H b < roomLeft H a := by
  obtain ⟨hh, hb⟩ := hab
  obtain ⟨d, hd⟩ := Option.isSome_iff_exists.1 hb
  obtain ⟨-, c, hc, _, _, _, hmem⟩ := exists_of_handledAt hh hd
  obtain ⟨hroom, hgt⟩ := handle_grpCount hmem
  simp only [roomLeft, hc, hd]
  omega

theorem roomLeft_lt_maxGroups (H : ℕ → Event) (id : CopyId) : (roomLeft H id : ℤ) < maxGroups := by
  unfold roomLeft
  split
  · decide
  · rename_i c hc
    have hone := one_le_grpCount hc
    unfold maxGroups at *
    omega

theorem finite_forwards {H : ℕ → Event} {a : CopyId} (hfin : {t | HandledAt H a t}.Finite) :
    {b | Forwards H a b}.Finite := by
  refine (hfin.biUnion fun t _ =>
    (Set.finite_Iio (sentAt H t).length).image fun k => (t, k)).subset ?_
  rintro ⟨t, k⟩ ⟨hh, hs⟩
  obtain ⟨d, hd⟩ := Option.isSome_iff_exists.1 hs
  obtain ⟨hk, -⟩ := List.getElem?_eq_some_iff.1 hd
  exact Set.mem_biUnion hh ⟨k, hk, rfl⟩

/-- In every history, a chain of copies each of which was sent while the one before was
handled has at most `MAX_GROUPS` copies, and if every copy is handled finitely often, each
announcement causes finitely many forwards. -/
theorem flood_stops (H : ℕ → Event) :
    (∀ l : List CopyId, l.IsChain (Forwards H) → (l.length : ℤ) ≤ maxGroups) ∧
      ((∀ id, {t | HandledAt H id t}.Finite) → ∀ t stack files groups,
        H t = .announce stack files groups →
          {b | ∃ k, Relation.TransGen (Forwards H) (t, k) b}.Finite) := by
  have hrank : ∀ a b, Forwards H a b → roomLeft H b < roomLeft H a := fun _ _ => roomLeft_lt
  constructor
  · intro l hl
    rcases l with _ | ⟨a, l⟩
    · decide
    · have hlen := chain_length_le hrank hl
      have hroom := roomLeft_lt_maxGroups H a
      omega
  · intro hfin t stack files groups _
    have hdesc := finite_descendants hrank fun a => finite_forwards (hfin a)
    refine ((Set.finite_Iio (sentAt H t).length).biUnion fun k _ => hdesc (t, k)).subset ?_
    rintro b ⟨k, hb⟩
    refine Set.mem_biUnion (x := k) ?_ hb
    obtain ⟨c, hac, -⟩ := Relation.TransGen.head'_iff.1 hb
    obtain ⟨d, hd⟩ := Option.isSome_iff_exists.1 hac.2
    obtain ⟨-, c', hc', -⟩ := exists_of_handledAt hac.1 hd
    obtain ⟨hk, -⟩ := List.getElem?_eq_some_iff.1 hc'
    exact hk

/-- A client of `a` announces one file, and a client of `a` and `b` handles the copy. -/
def pairHistory : ℕ → Event
  | 0 => .announce announced ["f"] [groupNamed "a" 4]
  | 1 => .handle (0, 0) (fun _ => true) [] [groupNamed "a" 4, groupNamed "b" 6]
  | _ => .other

theorem handledAt_pairHistory (id : CopyId) : {t | HandledAt pairHistory id t} ⊆ {1} := by
  rintro t ⟨received, files, groups, ht⟩
  match t with
  | 0 => cases ht
  | 1 => rfl
  | _ + 2 => cases ht

/-- The copy is forwarded, and no more than finitely often. -/
theorem flood_stops_pairHistory :
    Forwards pairHistory (0, 0) (1, 0) ∧
      {b | ∃ k, Relation.TransGen (Forwards pairHistory) (0, k) b}.Finite :=
  ⟨⟨⟨_, _, _, rfl⟩, rfl⟩,
    (flood_stops pairHistory).2 (fun id => (Set.finite_singleton 1).subset (handledAt_pairHistory id))
      0 announced ["f"] [groupNamed "a" 4] rfl⟩

end NetProg.GroupChat
