import Mathlib.Tactic

/-!
# Runs of a labelled step function

A system is a step function `step : σ → ℓ → Option σ`. The label carries every choice
that the program does not make itself: which party moves, what the network delivers,
what a system call returns. `none` says that the label is not possible in the state.

`run` plays a list of labels. `StepsMeet c` says that every step of a run starts in a
state and with a label that meet `c`, and `Along P` that every state of a run satisfies
`P`. `stepCount` counts the steps of a run that meet a condition.
`run_invariant` is the induction behind every safety result, and
`along_iff_stepsMeet` the exact form : when `c` keeps an invariant and leaving `c` breaks
`P` at once, the runs that satisfy `P` throughout are the runs whose steps meet `c`.
-/

namespace NetProg

variable {σ ℓ : Type*} {step : σ → ℓ → Option σ}

/-- Play the labels in order. -/
def run (step : σ → ℓ → Option σ) : σ → List ℓ → Option σ
  | s, [] => some s
  | s, l :: ls => (step s l).bind fun s' => run step s' ls

@[simp] theorem run_nil (s : σ) : run step s [] = some s :=
  rfl

theorem run_cons (s : σ) (l : ℓ) (ls : List ℓ) :
    run step s (l :: ls) = (step s l).bind fun s' => run step s' ls :=
  rfl

theorem run_append (s : σ) (ls ms : List ℓ) :
    run step s (ls ++ ms) = (run step s ls).bind fun s' => run step s' ms := by
  induction ls generalizing s with
  | nil => rfl
  | cons l ls ih =>
    simp only [List.cons_append, run_cons]
    cases step s l with
    | none => rfl
    | some s' => exact ih s'

theorem run_cons_eq_some {s s'' : σ} {l : ℓ} {ls : List ℓ} :
    run step s (l :: ls) = some s'' ↔ ∃ s', step s l = some s' ∧ run step s' ls = some s'' := by
  simp [run_cons, Option.bind_eq_some_iff]

/-- Every step of the run meets `c`. -/
def StepsMeet (step : σ → ℓ → Option σ) (c : σ → ℓ → Prop) : σ → List ℓ → Prop
  | _, [] => True
  | s, l :: ls => c s l ∧ ∀ s', step s l = some s' → StepsMeet step c s' ls

/-- `StepsMeet` is checked by playing the run. -/
instance decidableStepsMeet {c : σ → ℓ → Prop} [∀ s l, Decidable (c s l)] :
    ∀ (s : σ) (ls : List ℓ), Decidable (StepsMeet step c s ls)
  | _, [] => .isTrue trivial
  | s, l :: ls =>
    match h : step s l with
    | none => decidable_of_iff (c s l) (by simp [StepsMeet, h])
    | some s' =>
      have := decidableStepsMeet (c := c) s' ls
      decidable_of_iff (c s l ∧ StepsMeet step c s' ls) (by simp [StepsMeet, h])

/-- What follows the first steps of such a run meets it too. -/
theorem StepsMeet.after {c : σ → ℓ → Prop} {ls ms : List ℓ} {s s' : σ}
    (hr : run step s ls = some s') (h : StepsMeet step c s (ls ++ ms)) :
    StepsMeet step c s' ms := by
  induction ls generalizing s with
  | nil =>
    cases hr
    exact h
  | cons l ls ih =>
    obtain ⟨t, ht, hr⟩ := run_cons_eq_some.1 hr
    exact ih hr (h.2 t ht)

/-- Every state of the run satisfies `P`. -/
def Along (step : σ → ℓ → Option σ) (P : σ → Prop) : σ → List ℓ → Prop
  | s, [] => P s
  | s, l :: ls => P s ∧ ∀ s', step s l = some s' → Along step P s' ls

theorem Along.head {P : σ → Prop} {s : σ} {ls : List ℓ} (h : Along step P s ls) : P s := by
  cases ls with
  | nil => exact h
  | cons l ls => exact h.1

theorem Along.last {P : σ → Prop} {s s' : σ} {ls : List ℓ} (h : Along step P s ls)
    (hr : run step s ls = some s') : P s' := by
  induction ls generalizing s with
  | nil =>
    cases hr
    exact h
  | cons l ls ih =>
    obtain ⟨t, ht, hr⟩ := run_cons_eq_some.1 hr
    exact ih (h.2 t ht) hr

/-- A condition on labels alone. -/
theorem stepsMeet_of_forall {c : σ → ℓ → Prop} {ls : List ℓ} (h : ∀ l ∈ ls, ∀ s, c s l) (s : σ) :
    StepsMeet step c s ls := by
  induction ls generalizing s with
  | nil => trivial
  | cons l ls ih =>
    exact ⟨h l (by simp) s, fun s' _ => ih (fun m hm => h m (by simp [hm])) s'⟩

theorem stepsMeet_iff_forall {c : ℓ → Prop} {ls : List ℓ} {s : σ}
    (hr : (run step s ls).isSome) : StepsMeet step (fun _ l => c l) s ls ↔ ∀ l ∈ ls, c l := by
  refine ⟨fun h => ?_, fun h => stepsMeet_of_forall (fun l hl _ => h l hl) s⟩
  induction ls generalizing s with
  | nil => nofun
  | cons l ls ih =>
    obtain ⟨s'', hr⟩ := Option.isSome_iff_exists.1 hr
    obtain ⟨s', hs', hr⟩ := run_cons_eq_some.1 hr
    exact List.forall_mem_cons.2 ⟨h.1, ih (by rw [hr]; rfl) (h.2 s' hs')⟩

/-- A condition that implies another one under an invariant that it keeps. -/
theorem StepsMeet.imp {I : σ → Prop} {c d : σ → ℓ → Prop}
    (hstep : ∀ s l s', I s → c s l → step s l = some s' → I s')
    (himp : ∀ s l, I s → c s l → d s l) {ls : List ℓ} {s : σ} (hs : I s)
    (h : StepsMeet step c s ls) : StepsMeet step d s ls := by
  induction ls generalizing s with
  | nil => trivial
  | cons l ls ih =>
    exact ⟨himp s l hs h.1, fun s' hs' => ih (hstep s l s' hs h.1 hs') (h.2 s' hs')⟩

/-- Two conditions that agree on the steps that are possible. -/
theorem stepsMeet_congr {I : σ → Prop} {c d : σ → ℓ → Prop}
    (hstep : ∀ s l s', I s → step s l = some s' → I s')
    (hcd : ∀ s l s', I s → step s l = some s' → (c s l ↔ d s l)) {ls : List ℓ} {s : σ}
    (hs : I s) (hr : (run step s ls).isSome) : StepsMeet step c s ls ↔ StepsMeet step d s ls := by
  induction ls generalizing s with
  | nil => exact Iff.rfl
  | cons l ls ih =>
    obtain ⟨s'', hr⟩ := Option.isSome_iff_exists.1 hr
    obtain ⟨t, ht, hr⟩ := run_cons_eq_some.1 hr
    refine and_congr (hcd s l t hs ht) (forall_congr' fun s' => forall_congr' fun hs' => ?_)
    obtain rfl : t = s' := Option.some.inj (ht.symm.trans hs')
    exact ih (hstep s l t hs ht) (by rw [hr]; rfl)

/-- What one step keeps, a run keeps. -/
theorem run_invariant {I : σ → Prop} {c : σ → ℓ → Prop}
    (hstep : ∀ s l s', I s → c s l → step s l = some s' → I s') {ls : List ℓ} {s s' : σ}
    (hs : I s) (hc : StepsMeet step c s ls) (hr : run step s ls = some s') : I s' := by
  induction ls generalizing s with
  | nil =>
    cases hr
    exact hs
  | cons l ls ih =>
    obtain ⟨t, ht, hr⟩ := run_cons_eq_some.1 hr
    exact ih (hstep s l t hs hc.1 ht) (hc.2 t ht) hr

/-- What every step keeps, every run keeps. -/
theorem run_invariant_of_step {I : σ → Prop}
    (hstep : ∀ s l s', I s → step s l = some s' → I s') {ls : List ℓ} {s s' : σ}
    (hs : I s) (hr : run step s ls = some s') : I s' :=
  run_invariant (c := fun _ _ => True) (fun s l s' h _ => hstep s l s' h) hs
    (stepsMeet_of_forall (fun _ _ _ => trivial) s) hr

/-- The same for every state on the way. -/
theorem along_of_stepsMeet {I P : σ → Prop} {c : σ → ℓ → Prop} (hP : ∀ s, I s → P s)
    (hstep : ∀ s l s', I s → c s l → step s l = some s' → I s') {ls : List ℓ} {s : σ}
    (hs : I s) (hc : StepsMeet step c s ls) : Along step P s ls := by
  induction ls generalizing s with
  | nil => exact hP s hs
  | cons l ls ih =>
    exact ⟨hP s hs, fun s' hs' => ih (hstep s l s' hs hc.1 hs') (hc.2 s' hs')⟩

/-- The number of steps of the run that meet `c`. -/
def stepCount (step : σ → ℓ → Option σ) (c : σ → ℓ → Bool) : σ → List ℓ → ℕ
  | _, [] => 0
  | s, l :: ls =>
    (if c s l then 1 else 0) + ((step s l).map fun s' => stepCount step c s' ls).getD 0

/-- A quantity that grows by one in every step that meets `c`, and in no other, counts
these steps. -/
theorem stepCount_eq {c : σ → ℓ → Bool} {m : σ → ℤ}
    (hm : ∀ s l s', step s l = some s' → m s' = m s + if c s l then 1 else 0) {ls : List ℓ}
    {s s' : σ} (hr : run step s ls = some s') : (stepCount step c s ls : ℤ) = m s' - m s := by
  induction ls generalizing s with
  | nil =>
    cases hr
    simp [stepCount]
  | cons l ls ih =>
    obtain ⟨t, ht, hr⟩ := run_cons_eq_some.1 hr
    have htail := ih hr
    have hstep := hm s l t ht
    simp only [stepCount, ht, Option.map_some, Option.getD_some]
    push_cast
    omega

/-- A quantity that never grows and drops by one in every step that meets `c` bounds the
number of these steps. -/
theorem stepCount_add_le {I : σ → Prop} {c : σ → ℓ → Bool} {m : σ → ℤ}
    (hstep : ∀ s l s', I s → step s l = some s' → I s')
    (hm : ∀ s l s', I s → step s l = some s' → m s' + (if c s l then 1 else 0) ≤ m s)
    {ls : List ℓ} {s s' : σ} (hs : I s) (hr : run step s ls = some s') :
    (stepCount step c s ls : ℤ) + m s' ≤ m s := by
  induction ls generalizing s with
  | nil =>
    cases hr
    simp [stepCount]
  | cons l ls ih =>
    obtain ⟨t, ht, hr⟩ := run_cons_eq_some.1 hr
    have htail := ih (hstep s l t hs ht) hr
    have hdrop := hm s l t hs ht
    simp only [stepCount, ht, Option.map_some, Option.getD_some]
    push_cast
    omega

/-- Two step functions that agree on the steps that meet `c`, under an invariant that these keep,
have the same runs. -/
theorem run_congr {step' : σ → ℓ → Option σ} {I : σ → Prop} {c : σ → ℓ → Prop}
    (heq : ∀ s l, I s → c s l → step' s l = step s l)
    (hstep : ∀ s l s', I s → c s l → step s l = some s' → I s') {ls : List ℓ} {s : σ} (hs : I s)
    (hc : StepsMeet step' c s ls) : run step' s ls = run step s ls ∧ StepsMeet step c s ls ∧
      ∀ d, stepCount step' d s ls = stepCount step d s ls := by
  induction ls generalizing s with
  | nil => exact ⟨rfl, trivial, fun _ => rfl⟩
  | cons l ls ih =>
    have hl := heq s l hs hc.1
    simp only [run_cons, StepsMeet, stepCount, hl]
    cases hnext : step s l with
    | none => exact ⟨rfl, ⟨hc.1, fun s' h => by cases h⟩, fun _ => rfl⟩
    | some s' =>
      obtain ⟨hrun, hmeet, hcount⟩ := ih (hstep s l s' hs hc.1 hnext) (hc.2 s' (hl.trans hnext))
      refine ⟨hrun, ⟨hc.1, fun t ht => ?_⟩, fun d => ?_⟩
      · cases ht
        exact hmeet
      · simp only [Option.map_some, Option.getD_some, hcount]

/-- An invariant over the state and the number of steps so far that met `c i`, for every
`i`. -/
theorem run_stepCount_invariant {ι : Type*} {c : ι → σ → ℓ → Bool} {J : σ → (ι → ℕ) → Prop}
    (hstep : ∀ s n l s', J s n → step s l = some s' →
      J s' fun i => n i + if c i s l then 1 else 0) {ls : List ℓ} {s s' : σ} {n : ι → ℕ}
    (hs : J s n) (hr : run step s ls = some s') :
    J s' fun i => n i + stepCount step (c i) s ls := by
  induction ls generalizing s n with
  | nil =>
    cases hr
    exact hs
  | cons l ls ih =>
    obtain ⟨t, ht, hr⟩ := run_cons_eq_some.1 hr
    have htail := ih (hstep s n l t hs ht) hr
    simpa only [stepCount, ht, Option.map_some, Option.getD_some, add_assoc] using htail

/-- If, among the labels in `d`, `c` keeps `I`, `I` gives `P`, and a step outside `c` ends
outside `P`, then a run within `d` satisfies `P` in every state exactly when every step of it
meets `c`. -/
theorem along_iff_stepsMeet_within {I P : σ → Prop} {c d : σ → ℓ → Prop} (hP : ∀ s, I s → P s)
    (hgood : ∀ s l s', I s → d s l → c s l → step s l = some s' → I s')
    (hbad : ∀ s l s', I s → d s l → ¬c s l → step s l = some s' → ¬P s') {ls : List ℓ} {s : σ}
    (hs : I s) (hd : StepsMeet step d s ls) (hr : (run step s ls).isSome) :
    Along step P s ls ↔ StepsMeet step c s ls := by
  induction ls generalizing s with
  | nil => exact ⟨fun _ => trivial, fun _ => hP s hs⟩
  | cons l ls ih =>
    obtain ⟨s'', hr⟩ := Option.isSome_iff_exists.1 hr
    obtain ⟨t, ht, hr⟩ := run_cons_eq_some.1 hr
    have hrt : (run step t ls).isSome := by simp [hr]
    constructor
    · rintro ⟨-, hal⟩
      have hc : c s l := by
        by_contra hnc
        exact hbad s l t hs hd.1 hnc ht (hal t ht).head
      refine ⟨hc, fun t' ht' => ?_⟩
      obtain rfl : t = t' := Option.some.inj (ht.symm.trans ht')
      exact (ih (hgood s l t hs hd.1 hc ht) (hd.2 t ht) hrt).1 (hal t ht)
    · rintro ⟨hc, hm⟩
      refine ⟨hP s hs, fun t' ht' => ?_⟩
      obtain rfl : t = t' := Option.some.inj (ht.symm.trans ht')
      exact (ih (hgood s l t hs hd.1 hc ht) (hd.2 t ht) hrt).2 (hm t ht)

/-- If `c` keeps `I`, `I` gives `P`, and a step outside `c` ends outside `P`, then a run
satisfies `P` in every state exactly when every step of it meets `c`. -/
theorem along_iff_stepsMeet {I P : σ → Prop} {c : σ → ℓ → Prop} (hP : ∀ s, I s → P s)
    (hgood : ∀ s l s', I s → c s l → step s l = some s' → I s')
    (hbad : ∀ s l s', I s → ¬c s l → step s l = some s' → ¬P s') {ls : List ℓ} {s : σ}
    (hs : I s) (hr : (run step s ls).isSome) : Along step P s ls ↔ StepsMeet step c s ls :=
  along_iff_stepsMeet_within (d := fun _ _ => True) hP (fun s l s' h _ => hgood s l s' h)
    (fun s l s' h _ => hbad s l s' h) hs (stepsMeet_of_forall (fun _ _ _ => trivial) s) hr

/-- If, under an invariant, a label is possible exactly when `c` holds, a run is possible
exactly when its steps meet `c`. -/
theorem isSome_run_iff_stepsMeet {I : σ → Prop} {c : σ → ℓ → Prop}
    (hstep : ∀ s l s', I s → step s l = some s' → I s')
    (hc : ∀ s l, I s → ((step s l).isSome ↔ c s l)) {ls : List ℓ} {s : σ} (hs : I s) :
    (run step s ls).isSome ↔ StepsMeet step c s ls := by
  induction ls generalizing s with
  | nil => exact iff_of_true rfl trivial
  | cons l ls ih =>
    rw [run_cons, StepsMeet, ← hc s l hs]
    cases hl : step s l with
    | none => simp
    | some s' => simpa using ih (hstep s l s' hs hl)

/-- If, among the labels in `d`, those in `c` are possible and keep `I`, and the others are
impossible or end outside `P`, then a run within `d` goes through and satisfies `P` in every
state exactly when every step of it meets `c`. -/
theorem isSome_run_and_along_iff {I P : σ → Prop} {c d : σ → ℓ → Prop} (hP : ∀ s, I s → P s)
    (hgood : ∀ s l, I s → d s l → c s l → ∃ s', step s l = some s' ∧ I s')
    (hbad : ∀ s l s', I s → d s l → ¬c s l → step s l = some s' → ¬P s') {ls : List ℓ} {s : σ}
    (hs : I s) (hd : StepsMeet step d s ls) :
    ((run step s ls).isSome ∧ Along step P s ls) ↔ StepsMeet step c s ls := by
  induction ls generalizing s with
  | nil => exact ⟨fun _ => trivial, fun _ => ⟨rfl, hP s hs⟩⟩
  | cons l ls ih =>
    constructor
    · rintro ⟨hr, -, hal⟩
      obtain ⟨s'', hr⟩ := Option.isSome_iff_exists.1 hr
      obtain ⟨t, ht, hr⟩ := run_cons_eq_some.1 hr
      have hc : c s l := by
        by_contra hnc
        exact hbad s l t hs hd.1 hnc ht (hal t ht).head
      obtain ⟨t', ht', hI⟩ := hgood s l hs hd.1 hc
      obtain rfl : t = t' := Option.some.inj (ht.symm.trans ht')
      refine ⟨hc, fun t' ht' => ?_⟩
      obtain rfl : t = t' := Option.some.inj (ht.symm.trans ht')
      exact (ih hI (hd.2 t ht)).1 ⟨by rw [hr]; rfl, hal t ht⟩
    · rintro ⟨hc, hm⟩
      obtain ⟨t, ht, hI⟩ := hgood s l hs hd.1 hc
      obtain ⟨hr, hal⟩ := (ih hI (hd.2 t ht)).2 (hm t ht)
      refine ⟨by rwa [run_cons, ht], hP s hs, fun t' ht' => ?_⟩
      obtain rfl : t = t' := Option.some.inj (ht.symm.trans ht')
      exact hal

end NetProg
