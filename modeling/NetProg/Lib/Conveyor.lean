import NetProg.Lib.Run

/-!
# What enters a stage leaves it

A stage of a system holds items, and in each step some items enter it and some leave it. When
every step conserves the items, so does a run : what was in the stage and what entered is what
left and what is still there. If no step changes the order, the items leave as they entered.

`Keeps p` compares two lists, with their order if `p` holds, so that one law has the facts for
all runs and for those that keep the order. `keeps_run` is the law of a run, and a row of
stages is put together by `Keeps.append_trans`.
-/

namespace NetProg.Lib

variable {σ ℓ α β : Type*} {step : σ → ℓ → Option σ}

/-! ## Lists with and without their order -/

/-- The lists have the same items, and are the same if `p` holds. -/
def Keeps (p : Prop) (xs ys : List α) : Prop :=
  xs.Perm ys ∧ (p → xs = ys)

namespace Keeps

variable {p : Prop} {xs ys zs ws : List α}

theorem of_eq (h : xs = ys) : Keeps p xs ys :=
  ⟨h ▸ .refl xs, fun _ => h⟩

@[simp] theorem refl (xs : List α) : Keeps p xs xs :=
  of_eq rfl

theorem trans (h : Keeps p xs ys) (h' : Keeps p ys zs) : Keeps p xs zs :=
  ⟨h.1.trans h'.1, fun hp => (h.2 hp).trans (h'.2 hp)⟩

theorem append_left (h : Keeps p xs ys) (zs : List α) : Keeps p (zs ++ xs) (zs ++ ys) :=
  ⟨h.1.append_left zs, fun hp => by rw [h.2 hp]⟩

theorem append_right (h : Keeps p xs ys) (zs : List α) : Keeps p (xs ++ zs) (ys ++ zs) :=
  ⟨h.1.append_right zs, fun hp => by rw [h.2 hp]⟩

theorem filterMap (h : Keeps p xs ys) (f : α → Option β) :
    Keeps p (xs.filterMap f) (ys.filterMap f) :=
  ⟨h.1.filterMap f, fun hp => by rw [h.2 hp]⟩

/-- Two stages in a row are one. -/
theorem append_trans (h : Keeps p xs (ys ++ zs)) (h' : Keeps p ys ws) : Keeps p xs (ws ++ zs) :=
  h.trans (h'.append_right zs)

end Keeps

/-! ## Runs -/

/-- What the steps of a run put out, in order. -/
def outputs (step : σ → ℓ → Option σ) (out : σ → ℓ → List α) : σ → List ℓ → List α
  | _, [] => []
  | s, l :: ls => out s l ++ ((step s l).map fun s' => outputs step out s' ls).getD []

theorem outputs_cons {out : σ → ℓ → List α} {s s' : σ} {l : ℓ} {ls : List ℓ}
    (h : step s l = some s') : outputs step out s (l :: ls) = out s l ++ outputs step out s' ls := by
  simp [outputs, h]

/-- What is done with each output can be done at the end. -/
theorem outputs_comp {g : List α → List β} (hnil : g [] = [])
    (happend : ∀ xs ys, g (xs ++ ys) = g xs ++ g ys) (out : σ → ℓ → List α) (s : σ) (ls : List ℓ) :
    outputs step (fun s l => g (out s l)) s ls = g (outputs step out s ls) := by
  induction ls generalizing s with
  | nil => exact hnil.symm
  | cons l ls ih =>
    simp only [outputs, happend]
    cases step s l with
    | none => exact congrArg _ hnil.symm
    | some s' => exact congrArg _ (ih s')

theorem outputs_map (out : σ → ℓ → List α) (f : α → β) (s : σ) (ls : List ℓ) :
    outputs step (fun s l => (out s l).map f) s ls = (outputs step out s ls).map f :=
  outputs_comp rfl (fun _ _ => List.map_append) out s ls

theorem outputs_filterMap (out : σ → ℓ → List α) (f : α → Option β) (s : σ) (ls : List ℓ) :
    outputs step (fun s l => (out s l).filterMap f) s ls =
      (outputs step out s ls).filterMap f :=
  outputs_comp rfl (fun _ _ => List.filterMap_append) out s ls

/-- The items of a stage are conserved in a run if they are in each step. -/
theorem keeps_run {I : σ → Prop} {c : σ → ℓ → Prop} {p : Prop} {stage : σ → List α}
    {input output : σ → ℓ → List α}
    (hI : ∀ s l s', I s → c s l → step s l = some s' → I s')
    (hstep : ∀ s l s', I s → c s l → step s l = some s' →
      Keeps p (stage s ++ input s l) (output s l ++ stage s')) {ls : List ℓ} {s s' : σ} (hs : I s)
    (hc : StepsMeet step c s ls) (hr : run step s ls = some s') :
    Keeps p (stage s ++ outputs step input s ls) (outputs step output s ls ++ stage s') := by
  induction ls generalizing s with
  | nil =>
    cases hr
    simp [outputs]
  | cons l ls ih =>
    obtain ⟨t, ht, hr⟩ := run_cons_eq_some.1 hr
    have hfirst := hstep s l t hs hc.1 ht
    have hrest := ih (hI s l t hs hc.1 ht) (hc.2 t ht) hr
    rw [outputs_cons ht, outputs_cons ht, ← List.append_assoc, List.append_assoc (output s l)]
    refine (hfirst.append_right _).trans ?_
    rw [List.append_assoc]
    exact hrest.append_left _

theorem stepsMeet_and {c d : σ → ℓ → Prop} {s : σ} {ls : List ℓ} (hc : StepsMeet step c s ls)
    (hd : StepsMeet step d s ls) : StepsMeet step (fun s l => c s l ∧ d s l) s ls := by
  induction ls generalizing s with
  | nil => trivial
  | cons l ls ih => exact ⟨⟨hc.1, hd.1⟩, fun s' h => ih (hc.2 s' h) (hd.2 s' h)⟩

/-- A run to a state with `N` stays in `N`, if no step enters it. -/
theorem stepsMeet_of_last {N : σ → Prop} (hN : ∀ s l s', step s l = some s' → N s' → N s)
    {ls : List ℓ} {s s' : σ} (hr : run step s ls = some s') (hlast : N s') :
    N s ∧ StepsMeet step (fun s l => ∀ s', step s l = some s' → N s') s ls := by
  induction ls generalizing s with
  | nil =>
    cases hr
    exact ⟨hlast, trivial⟩
  | cons l ls ih =>
    obtain ⟨t, ht, hr⟩ := run_cons_eq_some.1 hr
    obtain ⟨hNt, hrest⟩ := ih hr
    refine ⟨hN s l t ht hNt, fun t' ht' => ?_, fun t' ht' => ?_⟩ <;>
    obtain rfl : t = t' := Option.some.inj (ht.symm.trans ht')
    · exact hNt
    · exact hrest

end NetProg.Lib
