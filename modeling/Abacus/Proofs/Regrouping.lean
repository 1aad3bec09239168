import Abacus.Tree.Simplify

set_option autoImplicit false

/-!
# Regrouping chains

The laws of wrapping arithmetic behind the rules that regroup a chain of sums or a chain
of products.  Each law says that whenever the operations of the old grouping have values,
those of the new grouping have values too and end with the same one.
-/

namespace Abacus.Operator

/-- `x op (y inner z)` is `(x op y) _ z`. -/
theorem compute?_regroup {op inner : Operator} {x y z u v : Int64}
    (hchain : op.sameChain inner = true) (hinner : inner.compute? y z = some u)
    (hop : op.compute? x u = some v) :
    ∃ w, op.compute? x y = some w ∧ (op.compose inner).compute? w z = some v := by
  cases op <;> cases inner <;>
    simp_all [sameChain, chain?, compute?, compose, flipped] <;> grind

/-- `x op (y inner z)` is `(x _ z) op y`. -/
theorem compute?_regroup_swap {op inner : Operator} {x y z u v : Int64}
    (hchain : op.sameChain inner = true) (hinner : inner.compute? y z = some u)
    (hop : op.compute? x u = some v) :
    ∃ w, (op.compose inner).compute? x z = some w ∧ op.compute? w y = some v := by
  cases op <;> cases inner <;>
    simp_all [sameChain, chain?, compute?, compose, flipped] <;> grind

/-- `(x inner y) op z` is `(x op z) inner y`. -/
theorem compute?_swap {op inner : Operator} {x y z u v : Int64}
    (hchain : op.sameChain inner = true) (hinner : inner.compute? x y = some u)
    (hop : op.compute? u z = some v) :
    ∃ w, op.compute? x z = some w ∧ inner.compute? w y = some v := by
  cases op <;> cases inner <;> simp_all [sameChain, chain?, compute?] <;> grind

/-- `(x inner y) op z` is `x _ (±y op z)` with the operator of the chain. -/
theorem compute?_gather {op inner chain : Operator} {x y z u v : Int64}
    (hchain : op.chain? = some chain) (hsame : op.sameChain inner = true)
    (hinner : inner.compute? x y = some u) (hop : op.compute? u z = some v) :
    ∃ w, op.compute? (inner.signed y) z = some w ∧ chain.compute? x w = some v := by
  cases op <;> cases inner <;> simp_all [sameChain, chain?, compute?, signed] <;>
    subst hchain <;> simp only [Option.some.injEq] <;> grind

end Abacus.Operator
