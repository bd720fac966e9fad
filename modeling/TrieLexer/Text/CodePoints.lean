/-!
# Sets of code points

A property of characters is given as the ranges of code points that have it.

## Main definitions

* `CodePointSet` — inclusive ranges in ascending order.
* `CodePointSet.contains` — membership of a character.
-/

namespace TrieLexer.Text

/-- A set of code points, as inclusive ranges. -/
abbrev CodePointSet := List (Nat × Nat)

namespace CodePointSet

/-- Whether a character lies in one of the ranges. -/
def contains (s : CodePointSet) (c : Char) : Bool :=
  s.any fun (low, high) => decide (low ≤ c.toNat) && decide (c.toNat ≤ high)

/-- A character in some range of the set is in the set. -/
theorem contains_of_mem {s : CodePointSet} {c : Char} {low high : Nat} (h : (low, high) ∈ s)
    (hlow : low ≤ c.toNat) (hhigh : c.toNat ≤ high) : s.contains c = true := by
  simp only [contains, List.any_eq_true]
  exact ⟨_, h, by simp [hlow, hhigh]⟩

end CodePointSet

end TrieLexer.Text
