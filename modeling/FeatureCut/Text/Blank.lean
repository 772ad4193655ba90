/-
  FeatureCut/Text/Blank.lean
  ==========================
  **Blank characters.**

  The characters with the Unicode property `White_Space`, and the removal of
  blanks around a text.  Tokens, keys and comment bodies count as empty when
  nothing but blanks is left in them.
-/

namespace FeatureCut

/-- The inclusive ranges of code points with the property `White_Space`. -/
def blankRanges : List (Nat × Nat) :=
  [(0x09, 0x0D), (0x20, 0x20), (0x85, 0x85), (0xA0, 0xA0), (0x1680, 0x1680),
   (0x2000, 0x200A), (0x2028, 0x2029), (0x202F, 0x202F), (0x205F, 0x205F),
   (0x3000, 0x3000)]

def isBlank (c : Char) : Bool :=
  blankRanges.any fun r => decide (r.1 ≤ c.toNat) && decide (c.toNat ≤ r.2)

def trimBlank (cs : List Char) : List Char :=
  ((cs.dropWhile isBlank).reverse.dropWhile isBlank).reverse

/-- Nothing but blanks is removed, and only at the ends. -/
theorem exists_trimBlank (cs : List Char) :
    ∃ a b, cs = a ++ (trimBlank cs ++ b) ∧ (∀ c ∈ a, isBlank c = true) ∧
      ∀ c ∈ b, isBlank c = true := by
  have htake : ∀ ds : List Char, ∀ c ∈ ds.takeWhile isBlank, isBlank c = true := by
    intro ds c hc
    exact List.all_eq_true.1 List.all_takeWhile c hc
  refine ⟨cs.takeWhile isBlank, ((cs.dropWhile isBlank).reverse.takeWhile isBlank).reverse,
    ?_, htake cs, ?_⟩
  · rw [trimBlank, ← List.reverse_append, List.takeWhile_append_dropWhile, List.reverse_reverse,
      List.takeWhile_append_dropWhile]
  · intro c hc
    exact htake _ c (List.mem_reverse.1 hc)

end FeatureCut
