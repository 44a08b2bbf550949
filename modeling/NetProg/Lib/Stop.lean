import Mathlib.Tactic

/-!
# Computations that end early

A computation can end the process in an orderly way, as by an assertion, or by a fault, as by
reading memory that was freed. `Refines slack R` compares one with a computation in which there
are no faults and `none` is the end of the process : where the one has a result, so has the other,
related by `R`. `slack` says in which ways the first one may end where the other goes on, as by a
lack of memory. It has no fault but these.
-/

namespace NetProg.Lib

variable {α β γ δ : Type*}

/-- How a computation ends early. -/
inductive Stop where
  | exit
  | fault
deriving DecidableEq, Repr

namespace Stop

/-- Go on with the value, or end the process. -/
def check (r : Option α) : Except Stop α :=
  r.elim (.error exit) .ok

/-- Go on with the value, or fault. -/
def deref (r : Option α) : Except Stop α :=
  r.elim (.error fault) .ok

@[simp] theorem check_some (a : α) : check (some a) = .ok a :=
  rfl

@[simp] theorem check_none : check (none : Option α) = .error exit :=
  rfl

@[simp] theorem deref_some (a : α) : deref (some a) = .ok a :=
  rfl

/-- The first computation does what the second one does, unless it ends in a way of its own. -/
inductive Refines (slack : Stop → Prop) (R : α → β → Prop) : Except Stop α → Option β → Prop
  | ok {a : α} {b : β} (h : R a b) : Refines slack R (.ok a) (some b)
  | exit : Refines slack R (.error .exit) none
  | ends {stop : Stop} (h : slack stop) (r : Option β) : Refines slack R (.error stop) r

namespace Refines

variable {slack slack' : Stop → Prop} {R : α → β → Prop} {S : γ → δ → Prop} {x : Except Stop α}
  {y : Option β}

/-- A fault of the first computation is one of its own. -/
theorem slack_of_fault (h : Refines slack R (.error .fault) y) : slack .fault := by
  cases h with
  | ends h _ => exact h

theorem exists_of_ok {a : α} (h : Refines slack R (.ok a) y) : ∃ b, y = some b ∧ R a b := by
  cases h with
  | ok h => exact ⟨_, rfl, h⟩

theorem mono (h : Refines slack R x y) (hslack : ∀ stop, slack stop → slack' stop)
    {R' : α → β → Prop} (hR : ∀ a b, R a b → R' a b) : Refines slack' R' x y := by
  cases h with
  | ok h => exact .ok (hR _ _ h)
  | exit => exact .exit
  | ends h _ => exact .ends (hslack _ h) _

theorem weaken (h : Refines slack R x y) (hslack : ∀ stop, slack stop → slack' stop) :
    Refines slack' R x y :=
  h.mono hslack fun _ _ hr => hr

/-- Two computations after two others. -/
theorem bind (h : Refines slack R x y) {f : α → Except Stop γ} {g : β → Option δ}
    (hfg : ∀ a b, R a b → Refines slack S (f a) (g b)) :
    Refines slack S (x.bind f) (y.bind g) := by
  cases h with
  | ok h => exact hfg _ _ h
  | exit => exact .exit
  | ends h _ => exact .ends h _

theorem map (h : Refines slack R x y) {f : α → γ} {g : β → δ}
    (hfg : ∀ a b, R a b → S (f a) (g b)) : Refines slack S (x.map f) (y.map g) := by
  cases h with
  | ok h => exact .ok (hfg _ _ h)
  | exit => exact .exit
  | ends h _ => exact .ends h _

end Refines

end Stop

end NetProg.Lib
