import NetProg.Lib.Run

/-!
# Potentials

A potential is a number for each state. If every step lowers it by one, except for steps that
are paid for, which raise it by at most `b`, then a run has no more steps than the potential
at its start and the payments allow (`length_add_le`). Without paid steps every run comes to
an end (`exists_run_stuck`).
-/

namespace NetProg.Lib

variable {σ ℓ : Type*} {step : σ → ℓ → Option σ} {I : σ → Prop} {c : σ → ℓ → Prop} {m : σ → ℕ}

/-- The steps of a run are bounded by the potential and the paid steps. -/
theorem length_add_le {paid : σ → ℓ → Bool} {b : ℕ}
    (hI : ∀ s l s', I s → c s l → step s l = some s' → I s')
    (hm : ∀ s l s', I s → c s l → step s l = some s' →
      m s' + 1 ≤ m s + b * if paid s l then 1 else 0) {ls : List ℓ} {s s' : σ} (hs : I s)
    (hc : StepsMeet step c s ls) (hr : run step s ls = some s') :
    ls.length + m s' ≤ m s + b * stepCount step paid s ls := by
  induction ls generalizing s with
  | nil =>
    cases hr
    simp [stepCount]
  | cons l ls ih =>
    obtain ⟨t, ht, hr⟩ := run_cons_eq_some.1 hr
    have hrest := ih (hI s l t hs hc.1 ht) (hc.2 t ht) hr
    have hfirst := hm s l t hs hc.1 ht
    simp only [stepCount, ht, Option.map_some, Option.getD_some, List.length_cons, mul_add]
    omega

/-- The same if no step is paid for. -/
theorem length_add_le_of_free (hI : ∀ s l s', I s → c s l → step s l = some s' → I s')
    (hm : ∀ s l s', I s → c s l → step s l = some s' → m s' < m s) {ls : List ℓ} {s s' : σ}
    (hs : I s) (hc : StepsMeet step c s ls) (hr : run step s ls = some s') :
    ls.length + m s' ≤ m s := by
  simpa using @length_add_le _ _ step I c m (fun _ _ => false) 0 hI
    (fun s l s' hs hc ht => by simpa using hm s l s' hs hc ht) ls s s' hs hc hr

/-- If no step is paid, the system can run until none is possible. -/
theorem exists_run_stuck (hI : ∀ s l s', I s → c s l → step s l = some s' → I s')
    (hm : ∀ s l s', I s → c s l → step s l = some s' → m s' < m s) {s : σ} (hs : I s) :
    ∃ ls s', StepsMeet step c s ls ∧ run step s ls = some s' ∧
      ∀ l, c s' l → step s' l = none := by
  induction hn : m s using Nat.strong_induction_on generalizing s with
  | _ n ih =>
    by_cases hstuck : ∀ l, c s l → step s l = none
    · exact ⟨[], s, trivial, rfl, hstuck⟩
    · push Not at hstuck
      obtain ⟨l, hc, hne⟩ := hstuck
      obtain ⟨t, ht⟩ := Option.ne_none_iff_exists'.1 hne
      obtain ⟨ls, s', hls, hr, hend⟩ := ih (m t) (hn ▸ hm s l t hs hc ht) (hI s l t hs hc ht) rfl
      refine ⟨l :: ls, s', ⟨hc, fun t' ht' => ?_⟩, run_cons_eq_some.2 ⟨t, ht, hr⟩, hend⟩
      obtain rfl : t = t' := Option.some.inj (ht.symm.trans ht')
      exact hls

end NetProg.Lib
