import NetProg.Lib.Run

/-!
# Histories of parties that share an object

Several parties act on one object. An action carries the response of the object, so a party is a
step function on its own state and the object is one on its, both with actions as labels. In a
step of the system a party acts, and the object allows it.

A history lists who did what. `run_parties_iff` takes it apart : it is a run of the system exactly
when the actions of each party are a run of that party and all actions, in their order, are a run
of the object.
-/

namespace NetProg.Lib

variable {ι α β σ : Type*} [DecidableEq ι]

/-! ## The actions of one party -/

/-- The actions of party `t`, in order. -/
def own (t : ι) (h : List (ι × α)) : List α :=
  (h.filter fun p => p.1 = t).map Prod.snd

@[simp] theorem own_nil (t : ι) : own t ([] : List (ι × α)) = [] :=
  rfl

theorem own_cons_self (t : ι) (a : α) (h : List (ι × α)) : own t ((t, a) :: h) = a :: own t h := by
  simp [own]

theorem own_cons_of_ne {t u : ι} (hne : u ≠ t) (a : α) (h : List (ι × α)) :
    own t ((u, a) :: h) = own t h := by
  simp [own, hne]

/-! ## The system -/

/-- The parties and the object. -/
def parties (step : β → α → Option β) (apply : σ → α → Option σ) (s : (ι → β) × σ) (l : ι × α) :
    Option ((ι → β) × σ) :=
  (step (s.1 l.1) l.2).bind fun b => (apply s.2 l.2).map fun o => (Function.update s.1 l.1 b, o)

variable {step : β → α → Option β} {apply : σ → α → Option σ}

theorem parties_eq_some {s s' : (ι → β) × σ} {l : ι × α} :
    parties step apply s l = some s' ↔ ∃ b, step (s.1 l.1) l.2 = some b ∧
      apply s.2 l.2 = some s'.2 ∧ s'.1 = Function.update s.1 l.1 b := by
  unfold parties
  simp only [Option.bind_eq_some_iff, Option.map_eq_some_iff]
  constructor
  · rintro ⟨b, hb, o, ho, rfl⟩
    exact ⟨b, hb, ho, rfl⟩
  · rintro ⟨b, hb, ho, heq⟩
    exact ⟨b, hb, s'.2, ho, Prod.ext heq.symm rfl⟩

/-- A history of the system is one of each party and one of the object. -/
theorem run_parties_iff {bs bs' : ι → β} {o o' : σ} {h : List (ι × α)} :
    run (parties step apply) (bs, o) h = some (bs', o') ↔
      (∀ t, run step (bs t) (own t h) = some (bs' t)) ∧
        run apply o (h.map Prod.snd) = some o' := by
  induction h generalizing bs o with
  | nil => simp [funext_iff]
  | cons l h ih =>
    obtain ⟨t, a⟩ := l
    rw [run_cons_eq_some, List.map_cons, run_cons_eq_some]
    constructor
    · rintro ⟨⟨cs, p⟩, hstep, hrun⟩
      obtain ⟨b, hb, hp, rfl⟩ := parties_eq_some.1 hstep
      obtain ⟨hparties, hobject⟩ := ih.1 hrun
      refine ⟨fun u => ?_, p, hp, hobject⟩
      have hu := hparties u
      rcases eq_or_ne t u with rfl | hne
      · rw [Function.update_self] at hu
        rw [own_cons_self]
        exact run_cons_eq_some.2 ⟨b, hb, hu⟩
      · rwa [Function.update_of_ne hne.symm, ← own_cons_of_ne hne a] at hu
    · rintro ⟨hparties, p, hp, hobject⟩
      have ht := hparties t
      rw [own_cons_self] at ht
      obtain ⟨b, hb, ht⟩ := run_cons_eq_some.1 ht
      refine ⟨(Function.update bs t b, p), parties_eq_some.2 ⟨b, hb, hp, rfl⟩,
        ih.2 ⟨fun u => ?_, hobject⟩⟩
      rcases eq_or_ne t u with rfl | hne
      · rwa [Function.update_self]
      · rw [Function.update_of_ne hne.symm, ← own_cons_of_ne hne a]
        exact hparties u

/-- One party acts several times. -/
theorem run_parties_map {bs : ι → β} {o o' : σ} {t : ι} {b : β} {as : List α}
    (hparty : run step (bs t) as = some b) (hobject : run apply o as = some o') :
    run (parties step apply) (bs, o) (as.map fun a => (t, a)) =
      some (Function.update bs t b, o') := by
  induction as generalizing bs o with
  | nil =>
    obtain rfl := Option.some.inj hparty
    obtain rfl := Option.some.inj hobject
    simp
  | cons a as ih =>
    obtain ⟨c, hc, hparty⟩ := run_cons_eq_some.1 hparty
    obtain ⟨p, hp, hobject⟩ := run_cons_eq_some.1 hobject
    rw [List.map_cons]
    refine run_cons_eq_some.2 ⟨(Function.update bs t c, p), parties_eq_some.2 ⟨c, hc, hp, rfl⟩, ?_⟩
    rw [ih (by rwa [Function.update_self]) hobject, Function.update_idem]

end NetProg.Lib
