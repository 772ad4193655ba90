/-
  FeatureCut/Proofs/Unlimited.lean
  ================================
  **Evaluating without a limit.**

  The levels of an evaluation are a guard against deep nesting, and not what makes it
  end.  `Level.unlimited` has no levels: a scope is evaluated with the evaluators of all
  shorter scopes at hand, and it enters no other ones (`Enters.inside`).  So on every
  scope that an evaluation can be in it does what an evaluator does that calls itself for
  what is nested (`Level.unlimited_cutsAt`).

  With `n` levels left an evaluation is cut off if and only if the unlimited one enters a
  scope `n` levels down before it stops, and else both are the same
  (`Level.ofDepth_cuts`).  `transform_cut` says so of a whole run.
-/
import FeatureCut.Proofs.CutOff

namespace FeatureCut

/-! ### Evaluators without a limit -/

def Scope.size : Scope → Nat
  | .document source => source.length
  | .branch n ts | .htmlBranch n ts => (textOf (ts.take n)).length

/-- The evaluators of scopes with fewer than `m` characters. -/
def Level.shorterThan (o : Options) (m : Nat) : Level :=
  { branch := fun n ts =>
      if (Scope.branch n ts).size < m then
        ((Level.shorterThan o (Scope.branch n ts).size).around o).branch n ts
      else .nothing
    htmlBranch := fun n ts =>
      if (Scope.htmlBranch n ts).size < m then
        ((Level.shorterThan o (Scope.htmlBranch n ts).size).around o).htmlBranch n ts
      else .nothing
    document := fun source =>
      if (Scope.document source).size < m then
        ((Level.shorterThan o (Scope.document source).size).around o).document source
      else .nothing }
termination_by m

/-- The evaluators of all scopes: each one has those of shorter scopes for what is nested
    in it. -/
def Level.unlimited (o : Options) : Level where
  branch n ts := ((Level.shorterThan o (Scope.branch n ts).size).around o).branch n ts
  htmlBranch n ts :=
    ((Level.shorterThan o (Scope.htmlBranch n ts).size).around o).htmlBranch n ts
  document source :=
    ((Level.shorterThan o (Scope.document source).size).around o).document source

/-- Two levels give the same on a scope. -/
def Level.AgreeAt (a b : Level) : Scope → Prop
  | .document source => a.document source = b.document source
  | .branch n ts => a.branch n ts = b.branch n ts
  | .htmlBranch n ts => a.htmlBranch n ts = b.htmlBranch n ts

theorem Level.unlimited_agreeAt (o : Options) (x : Scope) :
    (Level.unlimited o).AgreeAt ((Level.shorterThan o x.size).around o) x := by
  cases x <;> rfl

theorem Level.shorterThan_agreeAt {o : Options} {m : Nat} {x : Scope} (h : x.size < m) :
    (Level.shorterThan o m).AgreeAt (Level.unlimited o) x := by
  rw [Level.shorterThan]
  cases x <;> exact if_pos h

/-! ### Cutting off -/

section

variable {limit : Nat} {D E : Prop} {a a' b b' : Level} {x : Scope}

theorem Level.CutsAt.congr (h : a.CutsAt limit D b x) (ha : a'.AgreeAt a x) (hb : b'.AgreeAt b x)
    (hD : D ↔ E) : a'.CutsAt limit E b' x := by
  rw [← propext hD]
  cases x <;>
  · rw [Level.AgreeAt] at ha hb
    rw [Level.CutsAt, ha, hb]
    exact h

theorem Level.CutsAt.agreeAt (h : a.CutsAt limit False b x) : a.AgreeAt b x := by
  cases x <;> exact (h.resolve_left And.left).2.1

theorem Level.AgreeAt.refl (a : Level) (x : Scope) : a.AgreeAt a x := by
  cases x <;> rfl

end

theorem Scope.size_eq (o : Options) (x : Scope) : x.size = (textOf (x.tokens o)).length := by
  cases x with
  | document source => rw [Scope.tokens, textOf_tokenize, String.toList_ofList, Scope.size]
  | branch n ts => rfl
  | htmlBranch n ts => rfl

theorem Scope.Inside.size_lt {w : List Token} {x : Scope} (h : x.Inside w) :
    x.size < (textOf w).length := by
  have hbranch : ∀ part, (∃ a b, textOf a ≠ [] ∧ b ≠ [] ∧ w = a ++ (part ++ b)) →
      (textOf part).length < (textOf w).length := by
    rintro part ⟨a, b, ha, -, rfl⟩
    have hpos := List.length_pos_of_ne_nil ha
    simp only [textOf_append, List.length_append]
    omega
  cases x with
  | document source => exact h
  | branch n ts => exact hbranch (ts.take n) h
  | htmlBranch n ts => exact hbranch (ts.take n) h

section

variable {o : Options}

theorem Enters.size_lt {inner : Level} {x y : Scope} (hx : x.Stands o)
    (h : Enters o inner x y) : y.size < x.size := by
  rw [x.size_eq o]
  exact (h.inside hx).2.size_lt

/-- **Without a limit an evaluation does what it says**: it evaluates what is nested by
    itself.  It never complains about levels. -/
theorem Level.unlimited_cutsAt (limit : Nat) {x : Scope} (hx : x.Stands o) :
    (Level.unlimited o).CutsAt limit False ((Level.unlimited o).around o) x := by
  induction hn : x.size using Nat.strongRecOn generalizing x with
  | ind n ih =>
    subst hn
    have hnested : ∀ y, Enters o (Level.unlimited o) x y →
        (Level.shorterThan o x.size).CutsAt limit False (Level.unlimited o) y := by
      intro y henters
      have hlt := henters.size_lt hx
      have hself := ih y.size hlt (henters.inside hx).1 rfl
      exact hself.congr (Level.shorterThan_agreeAt hlt) hself.agreeAt Iff.rfl
    exact (Level.around_cuts x hnested).congr (Level.unlimited_agreeAt o x)
      (Level.AgreeAt.refl _ x) ⟨fun ⟨_, _, h⟩ => h, False.elim⟩

/-- No other evaluators do so. -/
theorem Level.unlimited_unique {u : Level} (hu : ∀ x, x.Stands o → u.AgreeAt (u.around o) x)
    {x : Scope} (hx : x.Stands o) : u.AgreeAt (Level.unlimited o) x := by
  -- the number in place of the limit does not matter, since no level runs out
  suffices h : u.CutsAt maxDepth False (Level.unlimited o) x from h.agreeAt
  induction hn : x.size using Nat.strongRecOn generalizing x with
  | ind n ih =>
    subst hn
    have hnested := Level.around_cuts (o := o) x fun y henters =>
      ih y.size (henters.size_lt hx) (henters.inside hx).1 rfl
    exact hnested.congr (hu x hx) (Level.unlimited_cutsAt maxDepth hx).agreeAt
      ⟨fun ⟨_, _, h⟩ => h, False.elim⟩

theorem Level.ofDepth_succ_eq_around (o : Options) (limit n : Nat) :
    Level.ofDepth o limit (n + 1) = (Level.ofDepth o limit n).around o :=
  Level.ofDepth_succ o limit n

/-- With `n` levels left an evaluation is cut off if and only if the one without a limit
    enters a scope `n` levels down. -/
theorem Level.ofDepth_cuts (limit n : Nat) {x : Scope} (hx : x.Stands o) :
    (Level.ofDepth o limit n).CutsAt limit (∃ z, Enclosed o (Level.unlimited o) x n z)
      (Level.unlimited o) x := by
  induction n generalizing x with
  | zero =>
    have hnone : ∃ z, Enclosed o (Level.unlimited o) x 0 z := ⟨x, .here x⟩
    cases x <;> exact Or.inl ⟨hnone, rfl⟩
  | succ n ih =>
    have hnested := Level.around_cuts (o := o) x fun y henters => ih (henters.inside hx).1
    have hself := (Level.unlimited_cutsAt limit hx).agreeAt
    rw [Level.ofDepth_succ_eq_around]
    refine hnested.congr (Level.AgreeAt.refl _ x) hself ⟨?_, ?_⟩
    · rintro ⟨y, henters, z, h⟩
      exact ⟨z, .step henters h⟩
    · rintro ⟨z, h⟩
      cases h with
      | step henters h => exact ⟨_, henters, z, h⟩

end

/-! ### The main statement -/

def evaluateUnlimited (o : Options) (source : String) : Trail Step :=
  o.header.andThen ((Level.unlimited o).document source.toList)

/-- What `transform` would be without a limit. -/
def transformUnlimited (o : Options) (source : String) : Except Error String :=
  match o.validate with
  | .error e => .error e
  | .ok () => (evaluateUnlimited o source).result

/-- The evaluation without a limit enters a scope more than `maxDepth` levels down. -/
def TooDeep (o : Options) (source : String) : Prop :=
  o.header.stop = none ∧
    ∃ k x, maxDepth < k ∧ Enclosed o (Level.unlimited o) (.document source.toList) k x

theorem Enclosed.exists_left {o : Options} {inner : Level} {x z : Scope} {k : Nat}
    (h : Enclosed o inner x k z) {m : Nat} (hm : m ≤ k) : ∃ y, Enclosed o inner x m y := by
  induction m generalizing x k with
  | zero => exact ⟨x, .here x⟩
  | succ m ih =>
    cases h with
    | here => cases hm
    | step henters h =>
      obtain ⟨y, hy⟩ := ih h (Nat.le_of_succ_le_succ hm)
      exact ⟨y, .step henters hy⟩

theorem Enclosed.size_le {o : Options} {inner : Level} {x z : Scope} {k : Nat}
    (h : Enclosed o inner x k z) (hx : x.Stands o) : k + z.size ≤ x.size := by
  induction h with
  | here x => rw [Nat.zero_add]
  | step henters _ ih =>
    have hlt := henters.size_lt hx
    have hle := ih (henters.inside hx).1
    omega

theorem isOrdinary_of_validate {o : Options} {e : Error} (h : o.validate = .error e) :
    e.IsOrdinary := by
  rcases validate_eq_error_iff.1 h with ⟨-, rfl⟩ | ⟨-, -, -, rfl⟩ <;>
    exact fun _ => Error.noConfusion

theorem evaluate_cuts (o : Options) (source : String) :
    (evaluate o source).Cuts maxDepth (TooDeep o source) (evaluateUnlimited o source) := by
  have hheader : o.header.FailsOnly Error.IsOrdinary :=
    Options.header_failsOnly fun _ => isOrdinary_of_resolveLicense
  have hdocument : evaluate o source =
      o.header.andThen ((Level.ofDepth o maxDepth (maxDepth + 1)).document source.toList) := by
    rw [Level.ofDepth_succ]
    dsimp only
    rw [String.ofList_toList]
    rfl
  have hcuts : ((Level.ofDepth o maxDepth (maxDepth + 1)).document source.toList).Cuts maxDepth
      (∃ z, Enclosed o (Level.unlimited o) (.document source.toList) (maxDepth + 1) z)
      ((Level.unlimited o).document source.toList) :=
    Level.ofDepth_cuts maxDepth (maxDepth + 1) (.document source.toList)
  rw [hdocument]
  refine ((Trail.Cuts.same not_false hheader).andThen fun _ => hcuts).congr ⟨?_, ?_⟩
  · rintro (h | ⟨hstop, z, h⟩)
    · exact h.elim
    · exact ⟨hstop, maxDepth + 1, z, Nat.lt_succ_self _, h⟩
  · rintro ⟨hstop, k, z, hk, h⟩
    exact Or.inr ⟨hstop, h.exists_left hk⟩

/-- **The limit is only a cut-off.**  Without it the evaluation of a document comes to its
    end: it gives for each scope what it makes of the scopes that it enters from there, all
    of these lie inside of it, and with each level at least one character is lost.
    `transform` fails for the limit if this evaluation enters a scope more than `maxDepth`
    levels down before it stops, and only then, and else it gives the same result. -/
theorem transform_cut (o : Options) (source : String) :
    (∀ cs k x, Enclosed o (Level.unlimited o) (.document cs) k x →
      k + x.size ≤ cs.length ∧
        (Level.unlimited o).AgreeAt ((Level.unlimited o).around o) x ∧
        ∀ y, Enters o (Level.unlimited o) x y → y.Inside (x.tokens o)) ∧
      (transform o source = .error (.nestingTooDeep maxDepth) ↔
        o.validate = .ok () ∧ TooDeep o source) ∧
      (transform o source = .error (.nestingTooDeep maxDepth) ∨
        transform o source = transformUnlimited o source) := by
  refine ⟨?_, ?_⟩
  · intro cs k x h
    have hx := h.stands (.document cs)
    exact ⟨h.size_le (.document cs), (Level.unlimited_cutsAt maxDepth hx).agreeAt,
      fun y henters => (henters.inside hx).2⟩
  · unfold transform transformUnlimited
    cases hvalid : o.validate with
    | error e =>
      refine ⟨⟨?_, ?_⟩, Or.inr rfl⟩
      · intro h
        exact absurd (Except.error.inj h) (isOrdinary_of_validate hvalid maxDepth)
      · rintro ⟨h, -⟩
        cases h
    | ok =>
      dsimp only
      rcases evaluate_cuts o source with ⟨hdeep, hstop⟩ | ⟨hdeep, heq, hfails⟩
      · have hresult : (evaluate o source).result = .error (.nestingTooDeep maxDepth) := by
          rw [Trail.result, hstop]
        exact ⟨⟨fun _ => ⟨rfl, hdeep⟩, fun _ => hresult⟩, Or.inl hresult⟩
      · refine ⟨⟨?_, fun h => absurd h.2 hdeep⟩, Or.inr (by rw [heq])⟩
        intro h
        exact absurd rfl (hfails _ (Trail.stop_of_result h) maxDepth)

def inlineTokens : List Token :=
  let token kind lexeme context (first last : Nat) : Token :=
    ⟨⟨kind, String.toList lexeme, context⟩, ⟨⟨1, first + 1, first⟩, ⟨1, last + 1, last⟩⟩⟩
  [token .blockOpen "/*" .code 0 2, token .text " " .comment 2 3,
    token (.atom .includeIf) "@include-if" .comment 3 14, token .text " " .comment 14 15,
    token .key "A" .comment 15 16, token .text " x " .comment 16 19,
    token (.atom .ending) "@end" .comment 19 23, token .text " " .comment 23 24,
    token .blockClose "*/" .comment 24 26, token .eof "" .code 26 26]

/-- An inline body one level down. -/
theorem transform_cut_body :
    let o : Options := { keys := Std.TreeSet.ofList ["A"] }
    let source := "/* @include-if A x @end */"
    Enclosed o (Level.unlimited o) (.document source.toList) 1 (.document ['x']) ∧
      1 + ['x'].length ≤ source.toList.length ∧ ¬TooDeep o source ∧
      transform o source = .ok "x" ∧ transformUnlimited o source = .ok "x" := by
  intro o source
  have htokens : inlineTokens = tokenize o.language.profile (String.ofList source.toList) := by
    decide +kernel
  have henclosed : Enclosed o (Level.unlimited o) (.document source.toList) 1 (.document ['x']) :=
    .step (.document htokens .here (.inline rfl rfl rfl (by decide +kernel))) (.here _)
  have htransform : transform o source = .ok "x" := by decide +kernel
  obtain ⟨hscopes, hdeep, hsame⟩ := transform_cut o source
  obtain ⟨hsize, -⟩ := hscopes _ _ _ henclosed
  have hvalid : o.validate = .ok () := by decide +kernel
  refine ⟨henclosed, hsize, ?_, htransform, ?_⟩
  · intro h
    cases htransform.symm.trans (hdeep.2 ⟨hvalid, h⟩)
  · rcases hsame with herror | hsame
    · cases htransform.symm.trans herror
    · exact hsame ▸ htransform

end FeatureCut
