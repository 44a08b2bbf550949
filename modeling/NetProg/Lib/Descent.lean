import Mathlib.Tactic
import Mathlib.Data.Set.Finite.Lattice

/-!
# Relations that descend

A relation `R` along which a natural number falls has only short chains, and if every
element has finitely many successors it has finitely many descendants. This is how a
counter in a message bounds what the message can cause.
-/

namespace NetProg

variable {α : Type*} {R : α → α → Prop} {rank : α → ℕ}

/-- A chain is no longer than the rank of its first element allows. -/
theorem chain_length_le (hrank : ∀ a b, R a b → rank b < rank a) {a : α} {l : List α}
    (hl : (a :: l).IsChain R) : (a :: l).length ≤ rank a + 1 := by
  induction l generalizing a with
  | nil => simp
  | cons b l ih =>
    obtain ⟨hab, hl⟩ := List.isChain_cons_cons.1 hl
    have hlen := ih hl
    have hlt := hrank a b hab
    simp only [List.length_cons] at hlen ⊢
    omega

/-- Finitely many successors each, finitely many descendants in all. -/
theorem finite_descendants (hrank : ∀ a b, R a b → rank b < rank a)
    (hfin : ∀ a, {b | R a b}.Finite) (a : α) : {b | Relation.TransGen R a b}.Finite := by
  induction hn : rank a using Nat.strong_induction_on generalizing a with
  | _ n ih =>
    have hsub : {b | Relation.TransGen R a b} ⊆
        {b | R a b} ∪ ⋃ c ∈ {b | R a b}, {b | Relation.TransGen R c b} := by
      intro b hb
      rcases Relation.TransGen.head'_iff.1 hb with ⟨c, hac, hcb⟩
      rcases Relation.reflTransGen_iff_eq_or_transGen.1 hcb with rfl | hcb
      · exact .inl hac
      · exact .inr (Set.mem_biUnion hac hcb)
    refine ((hfin a).union ((hfin a).biUnion fun c hac => ?_)).subset hsub
    exact ih (rank c) (hn ▸ hrank a c hac) c rfl

end NetProg
