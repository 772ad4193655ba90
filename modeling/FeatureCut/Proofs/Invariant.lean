/-
  FeatureCut/Proofs/Invariant.lean
  ================================
  **What holds of every evaluation.**

  A trail is put together from few things: what is written and reported, what a file
  exclusion or a license directive does, and the errors that the comments of a
  document can lead to (`Error.Raised`).  A property which holds of these and is kept
  by putting trails together is an `Invariant`, and it holds of all trails that an
  evaluation leaves behind, at any depth (`Trail.Invariant.evaluateTokens`).
-/
import FeatureCut.Evaluate

namespace FeatureCut

/-! ### Errors -/

/-- The errors that the comments of a document can lead to, with `limit` levels. -/
inductive Error.Raised (limit : Nat) : Error → Prop
  | unterminated (t : Token) (kind : CommentKind) : Raised limit (t.unterminated kind)
  | unsound {inner : List Token} {e : Error} (h : classify inner = .error e) : Raised limit e
  | unsoundHtml {inner : List Token} {e : Error} (h : classifyHtml inner = .error e) :
      Raised limit e
  | unclosed (t : Token) (p : Polarity) (key : KeyExpr) : Raised limit (t.unclosed p key)
  | nestingTooDeep : Raised limit (.nestingTooDeep limit)

theorem Error.raised_of_searchBlocks {s : Search} {pos : Nat} {ts : List Token} {e : Error}
    (h : searchBlocks s pos ts = .error e) (limit : Nat) : e.Raised limit := by
  fun_induction searchBlocks s pos ts with
  | case1 s pos => cases h
  | case2 s pos t r hk hc =>
    cases h
    exact .unterminated t .block
  | case3 s pos t r hk cut hc e' he =>
    cases h
    exact .unsound he
  | case4 s pos t r hk cut hc d hd region hf => cases h
  | case5 s pos t r hk cut hc d hd s' hf ih => exact ih h
  | case6 s pos t r hk hc =>
    cases h
    exact .unterminated t .doc
  | case7 s pos t r hk cut hc ih => exact ih h
  | case8 s pos t r hb hd ih => exact ih h

theorem Error.raised_of_searchHtml {s : Search} {pos : Nat} {ts : List Token} {e : Error}
    (h : searchHtml s pos ts = .error e) (limit : Nat) : e.Raised limit := by
  fun_induction searchHtml s pos ts with
  | case1 s pos => cases h
  | case2 s pos t r hk hc =>
    cases h
    exact .unterminated t .html
  | case3 s pos t r hk cut hc e' he =>
    cases h
    exact .unsoundHtml he
  | case4 s pos t r hk cut hc d hd region hf => cases h
  | case5 s pos t r hk cut hc d hd s' hf ih => exact ih h
  | case6 s pos t r hk ih => exact ih h

/-! ### Invariants -/

/-- A property that holds of all that trails are put together from, and is kept by
    putting them together.  The matching of a file exclusion is reported by `exclusion`
    alone. -/
structure Trail.Invariant (o : Options) (limit : Nat) (P : (σ : Type) → Trail σ → Prop) :
    Prop where
  andThen : ∀ {σ : Type} {a b : Trail σ}, P σ a → P σ b → P σ (a.andThen b)
  mapSteps : ∀ {σ τ : Type} {a : Trail σ} (f : List σ → Bool → List τ), P σ a → P τ (a.mapSteps f)
  write : ∀ {σ : Type} (steps : List σ), P σ (.write steps)
  report : ∀ {σ : Type} {event : Event}, (∀ key line, event ≠ .fileExclusionMatched key line) →
    P σ (.report event)
  exclusion : ∀ t key, P Step (exclusionTrail o t key)
  license : ∀ key, P Step (licenseTrail o key)
  fail : ∀ {σ : Type} {e : Error}, e.Raised limit → P σ (.fail e)

/-- The property holds of all that is nested. -/
structure Level.Satisfies (P : (σ : Type) → Trail σ → Prop) (inner : Level) : Prop where
  branch : ∀ n ts, P Step (inner.branch n ts)
  htmlBranch : ∀ n ts, P Segment (inner.htmlBranch n ts)
  document : ∀ source, P Step (inner.document source)

namespace Trail.Invariant

variable {o : Options} {limit : Nat} {P : (σ : Type) → Trail σ → Prop}
  (h : Trail.Invariant o limit P)
include h

theorem nothing (σ : Type) : P σ .nothing := h.write []

theorem walk {σ : Type} {item : Nat → Token → List Token → Item σ}
    (hitem : ∀ n t r, P σ (item n t r).trail) (n : Nat) (ts : List Token) :
    P σ (walk item n ts) := by
  induction n using Nat.strongRecOn generalizing ts with
  | ind n ih =>
    cases n with
    | zero =>
      rw [FeatureCut.walk]
      exact h.nothing σ
    | succ n =>
      cases ts with
      | nil =>
        rw [walk_nil]
        exact h.nothing σ
      | cons t r =>
        rw [FeatureCut.walk]
        exact h.andThen (hitem n t r) (ih _ (by omega) _)

theorem settled {i : Item Step} (hi : P Step i.trail) (top : Bool) (n : Nat) (r : List Token) :
    P Step (i.settled top n r).trail := by
  unfold Item.settled
  split
  · exact h.andThen hi (h.write _)
  · exact hi

variable {inner : Level} (hinner : inner.Satisfies P)
include hinner

theorem htmlRegionItem (t : Token) (size : Nat) (p : Polarity) (key : KeyExpr)
    (rest : List Token) : P Segment (htmlRegionItem o inner t size p key rest).trail := by
  unfold FeatureCut.htmlRegionItem
  split
  · rename_i e he
    exact h.fail (Error.raised_of_searchHtml he limit)
  · exact h.fail (.unclosed t p key)
  · apply h.andThen (h.report fun _ _ => Event.noConfusion)
    split
    · exact hinner.htmlBranch _ _
    · exact h.nothing _

theorem docItem (n : Nat) (t : Token) (r : List Token) :
    P Segment (docItem o inner n t r).trail := by
  unfold FeatureCut.docItem
  split
  · exact h.write _
  · split
    · exact h.fail (.unterminated t .html)
    · split
      · rename_i e he
        exact h.fail (.unsoundHtml he)
      · exact h.htmlRegionItem hinner t _ _ _ _
      · exact h.write _
  · exact h.write _

theorem docCommentItem (t : Token) (r : List Token) :
    P Step (docCommentItem o inner t r).trail := by
  unfold FeatureCut.docCommentItem
  split
  · exact h.fail (.unterminated t .doc)
  · have hbody := h.walk (h.docItem hinner)
    exact h.andThen (h.write _) (h.andThen (h.mapSteps _ (hbody _ _)) (h.write _))

theorem regionItem (t : Token) (size : Nat) (p : Polarity) (key : KeyExpr) (rest : List Token) :
    P Step (regionItem o inner t size p key rest).trail := by
  unfold FeatureCut.regionItem
  split
  · rename_i e he
    exact h.andThen (h.write _) (h.fail (Error.raised_of_searchBlocks he limit))
  · exact h.andThen (h.write _) (h.fail (.unclosed t p key))
  · apply h.andThen (h.write _)
    apply h.andThen (h.report fun _ _ => Event.noConfusion)
    refine h.andThen ?_ (h.write _)
    split
    · exact hinner.branch _ _
    · exact h.nothing _

theorem inlineTrail (body : List Char) : P Step (inlineTrail inner body) :=
  h.andThen (h.report fun _ _ => Event.noConfusion) (h.mapSteps _ (hinner.document body))

theorem blockItem (top : Bool) (n : Nat) (t : Token) (r : List Token) :
    P Step (blockItem o inner top n t r).trail := by
  unfold FeatureCut.blockItem
  split
  · exact h.fail (.unterminated t .block)
  · rename_i cut _
    dsimp only
    cases hd : classify cut.inner with
    | error e => exact h.fail (.unsound hd)
    | ok d =>
      cases d with
      | opening p key => exact h.settled (h.regionItem hinner t _ p key cut.rest) top n r
      | inline p key lead body =>
        apply h.andThen (h.write _)
        refine h.andThen ?_ (h.write _)
        split
        · exact h.inlineTrail hinner _
        · exact h.nothing _
      | fileExclusion key => exact h.settled (h.exclusion t key) top n r
      | license key =>
        dsimp only
        split
        · exact h.andThen (h.license key) (h.write _)
        · exact h.license key
      | _ => exact h.write _

theorem codeItem (top : Bool) (n : Nat) (t : Token) (r : List Token) :
    P Step (codeItem o inner top n t r).trail := by
  unfold FeatureCut.codeItem
  split
  · exact h.write _
  · exact h.nothing _
  · exact h.docCommentItem hinner t r
  · exact h.blockItem hinner top n t r
  · exact h.write _

omit hinner in
theorem level (n : Nat) : (Level.ofDepth o limit n).Satisfies P := by
  induction n with
  | zero =>
    constructor
    · exact fun _ _ => h.fail .nestingTooDeep
    · exact fun _ _ => h.fail .nestingTooDeep
    · exact fun _ => h.fail .nestingTooDeep
  | succ n ih =>
    rw [Level.ofDepth_succ]
    constructor
    · exact fun k ts => h.walk (h.codeItem ih false) k ts
    · exact fun k ts => h.walk (h.docItem ih) k ts
    · exact fun source => h.walk (h.codeItem ih true) _ _

omit hinner in
/-- An invariant holds of every evaluation. -/
theorem evaluateTokens (n : Nat) (ts : List Token) :
    P Step (evaluateTokens o (Level.ofDepth o limit n) ts) :=
  h.walk (h.codeItem (h.level n) true) _ _

end Trail.Invariant

end FeatureCut
