/-
  FeatureCut/Proofs/Levels.lean
  =============================
  **Levels are only a cut-off.**

  Each region, inline body and html region is evaluated one level deeper, and
  without a level left the evaluation fails.  One level more changes nothing else:
  an evaluation that has not run out of levels gives the same trail with it.
-/
import FeatureCut.Evaluate

namespace FeatureCut

/-! ### Trails -/

/-- The first trail has run out of levels, or the two are the same. -/
def Trail.Deepens {σ : Type} (limit : Nat) (a b : Trail σ) : Prop :=
  a.stop = some (.failed (.nestingTooDeep limit)) ∨ a = b

theorem Trail.Deepens.andThen {σ : Type} {limit : Nat} {a a' b b' : Trail σ}
    (ha : a.Deepens limit a') (hb : b.Deepens limit b') :
    (a.andThen b).Deepens limit (a'.andThen b') := by
  rcases ha with ha | rfl
  · rw [Trail.andThen_of_stop ha]
    exact Or.inl ha
  · cases hstop : a.stop with
    | some s =>
      rw [Trail.andThen_of_stop hstop, Trail.andThen_of_stop hstop]
      exact Or.inr rfl
    | none =>
      rcases hb with hb | rfl
      · exact Or.inl ((Trail.stop_andThen hstop b).trans hb)
      · exact Or.inr rfl

theorem Trail.Deepens.mapSteps {σ τ : Type} {limit : Nat} {a b : Trail σ}
    (h : a.Deepens limit b) (f : List σ → Bool → List τ) :
    (a.mapSteps f).Deepens limit (b.mapSteps f) := by
  rcases h with h | rfl
  · exact Or.inl h
  · exact Or.inr rfl

theorem Trail.Deepens.refl {σ : Type} (limit : Nat) (a : Trail σ) : a.Deepens limit a :=
  Or.inr rfl

/-! ### Items -/

structure Item.Deepens {σ : Type} (limit : Nat) (i j : Item σ) : Prop where
  trail : i.trail.Deepens limit j.trail
  taken : i.taken = j.taken

theorem Item.Deepens.refl {σ : Type} (limit : Nat) (i : Item σ) : i.Deepens limit i :=
  ⟨.refl limit i.trail, rfl⟩

theorem walk_deepens {σ : Type} {limit : Nat} {item item' : Nat → Token → List Token → Item σ}
    (h : ∀ n t r, (item n t r).Deepens limit (item' n t r)) (n : Nat) (ts : List Token) :
    (walk item n ts).Deepens limit (walk item' n ts) := by
  induction n using Nat.strongRecOn generalizing ts with
  | ind n ih =>
    cases n with
    | zero =>
      rw [walk, walk]
      exact .refl limit _
    | succ n =>
      cases ts with
      | nil =>
        rw [walk_nil, walk_nil]
        exact .refl limit _
      | cons t r =>
        rw [walk, walk, (h n t r).taken]
        exact (h n t r).trail.andThen (ih _ (by omega) _)

/-- Each evaluator of the first level runs out of levels, or does what the
    second one does. -/
structure Level.Deepens (limit : Nat) (a b : Level) : Prop where
  branch : ∀ n ts, (a.branch n ts).Deepens limit (b.branch n ts)
  htmlBranch : ∀ n ts, (a.htmlBranch n ts).Deepens limit (b.htmlBranch n ts)
  document : ∀ source, (a.document source).Deepens limit (b.document source)

section

variable {limit : Nat} {a b : Level} (h : a.Deepens limit b) (o : Options)
include h

theorem docItem_deepens (n : Nat) (t : Token) (r : List Token) :
    (docItem o a n t r).Deepens limit (docItem o b n t r) := by
  unfold docItem
  split
  · exact .refl limit _
  · split
    · exact .refl limit _
    · split
      · exact .refl limit _
      · unfold htmlRegionItem
        split
        · exact .refl limit _
        · exact .refl limit _
        · refine ⟨Trail.Deepens.andThen (.refl limit _) ?_, rfl⟩
          split
          · exact h.htmlBranch _ _
          · exact .refl limit _
      · exact .refl limit _
  · exact .refl limit _

theorem docCommentItem_deepens (t : Token) (r : List Token) :
    (docCommentItem o a t r).Deepens limit (docCommentItem o b t r) := by
  unfold docCommentItem
  split
  · exact .refl limit _
  · have hwalk := walk_deepens (docItem_deepens h o)
    exact ⟨.andThen (.refl limit _) (.andThen ((hwalk _ _).mapSteps _) (.refl limit _)), rfl⟩

theorem regionItem_deepens (t : Token) (size : Nat) (p : Polarity) (key : KeyExpr)
    (rest : List Token) :
    (regionItem o a t size p key rest).Deepens limit (regionItem o b t size p key rest) := by
  unfold regionItem
  split
  · exact .refl limit _
  · exact .refl limit _
  · refine ⟨.andThen (.refl limit _) (.andThen (.refl limit _) (.andThen ?_ (.refl limit _))), rfl⟩
    split
    · exact h.branch _ _
    · exact .refl limit _

omit h in
theorem Item.Deepens.settled {i j : Item Step} (hij : i.Deepens limit j) (top : Bool) (n : Nat)
    (r : List Token) : (i.settled top n r).Deepens limit (j.settled top n r) := by
  unfold Item.settled
  rw [hij.taken]
  split
  · exact ⟨hij.trail.andThen (.refl limit _), rfl⟩
  · exact hij

theorem inlineTrail_deepens (body : List Char) :
    (inlineTrail a body).Deepens limit (inlineTrail b body) :=
  .andThen (.refl limit _) ((h.document body).mapSteps _)

theorem blockItem_deepens (top : Bool) (n : Nat) (t : Token) (r : List Token) :
    (blockItem o a top n t r).Deepens limit (blockItem o b top n t r) := by
  unfold blockItem
  split
  · exact .refl limit _
  · rename_i cut _
    dsimp only
    cases classify cut.inner with
    | error e => exact .refl limit _
    | ok d =>
      cases d with
      | opening p key => exact (regionItem_deepens h o t _ p key cut.rest).settled top n r
      | inline p key lead body =>
        refine ⟨.andThen (.refl limit _) (.andThen ?_ (.refl limit _)), rfl⟩
        split
        · exact inlineTrail_deepens h _
        · exact .refl limit _
      | _ => exact .refl limit _

theorem codeItem_deepens (top : Bool) (n : Nat) (t : Token) (r : List Token) :
    (codeItem o a top n t r).Deepens limit (codeItem o b top n t r) := by
  unfold codeItem
  split
  · exact .refl limit _
  · exact .refl limit _
  · exact docCommentItem_deepens h o t r
  · exact blockItem_deepens h o top n t r
  · exact .refl limit _

theorem evaluateTokens_deepens (ts : List Token) :
    (evaluateTokens o a ts).Deepens limit (evaluateTokens o b ts) :=
  walk_deepens (codeItem_deepens h o true) _ _

end

/-- With one level more an evaluation gives the same, unless it had run out of
    levels. -/
theorem Level.ofDepth_deepens (o : Options) (limit n : Nat) :
    (Level.ofDepth o limit n).Deepens limit (Level.ofDepth o limit (n + 1)) := by
  induction n with
  | zero => exact ⟨fun _ _ => Or.inl rfl, fun _ _ => Or.inl rfl, fun _ => Or.inl rfl⟩
  | succ n ih =>
    rw [Level.ofDepth_succ o limit n, Level.ofDepth_succ o limit (n + 1)]
    constructor
    · exact fun n ts => walk_deepens (codeItem_deepens ih o false) n ts
    · exact fun n ts => walk_deepens (docItem_deepens ih o) n ts
    · exact fun source => evaluateTokens_deepens ih o _

end FeatureCut
