/-
  FeatureCut/Proofs/Places.lean
  =============================
  **Places are only reported.**

  A token has its place in the source, and the evaluator looks at it for nothing
  but errors and events.  So a document may be moved: tokens with the same kinds
  and lexemes, wherever they stand, are evaluated to the same steps and stop for
  the same reason, up to the line and column that an error names.

  A bare token stands at no particular place.  Every function between the tokens
  and the trail has a lemma here that it commutes with laying tokens bare, and
  `evaluateTokens_bare` is the last one of them.
-/
import FeatureCut.Evaluate

namespace FeatureCut

/-! ### Bare tokens -/

/-- A piece as a token at no particular place. -/
def Piece.bare (q : Piece) : Token := ⟨q, ⟨.start, .start⟩⟩

def Token.bare (t : Token) : Token := t.toPiece.bare

def bareTokens (p : Profile) (cs : List Char) : List Token :=
  (coalesce (scan p (.code true) cs)).map Piece.bare

@[simp] theorem Token.bare_kind (t : Token) : t.bare.kind = t.kind := rfl

@[simp] theorem Token.bare_lexeme (t : Token) : t.bare.lexeme = t.lexeme := rfl

theorem bare_locate (p : Point) (qs : List Piece) :
    (locate p qs).map Token.bare = qs.map Piece.bare := by
  induction qs generalizing p with
  | nil => rfl
  | cons q qs ih =>
    rw [locate, List.map_cons, List.map_cons, ih]
    rfl

theorem bare_tokenize (p : Profile) (source : String) :
    (tokenize p source).map Token.bare = bareTokens p source.toList :=
  bare_locate _ _

def Error.bare : Error → Error
  | .unterminatedComment kind _ _ => .unterminatedComment kind 1 1
  | .unclosedDirective atom key _ _ => .unclosedDirective atom key 1 1
  | .missingKey atom _ _ => .missingKey atom 1 1
  | .missingEnd atom key _ _ => .missingEnd atom key 1 1
  | e => e

@[simp] theorem Error.bare_bare (e : Error) : e.bare.bare = e.bare := by
  cases e <;> rfl

def Directive.bare : Directive → Directive
  | .inline p key lead body => .inline p key lead (body.map Token.bare)
  | d => d

@[simp] theorem Directive.bare_role (d : Directive) : d.bare.role = d.role := by
  cases d <;> rfl

def Cut.bare (cut : Cut) : Cut :=
  ⟨cut.inner.map Token.bare, cut.mark.bare, cut.rest.map Token.bare⟩

/-- A result without places; `f` takes them out of what was found. -/
def blur {α β : Type} (f : α → β) : Except Error α → Except Error β
  | .ok a => .ok (f a)
  | .error e => .error e.bare

/-! ### Directives -/

theorem textOf_bare (ts : List Token) : textOf (ts.map Token.bare) = textOf ts := by
  simp [textOf, List.flatMap_map]

theorem textOf_map_bare (ps : List Piece) : textOf (ps.map Piece.bare) = lexemes ps := by
  induction ps with
  | nil => rfl
  | cons q ps ih =>
    rw [List.map_cons, textOf_cons, ih]
    rfl

theorem cutAt_bare (kind : Kind) (ts : List Token) :
    cutAt kind (ts.map Token.bare) = (cutAt kind ts).map Cut.bare := by
  induction ts with
  | nil => rfl
  | cons t r ih =>
    simp only [List.map_cons, cutAt, Token.bare_kind, ih]
    split
    · rfl
    · cases cutAt kind r <;> rfl

theorem skipGaps_bare (ts : List Token) :
    skipGaps (ts.map Token.bare) = (skipGaps ts).map Token.bare := by
  simp only [skipGaps, List.dropWhile_map]
  rfl

theorem all_isGap_bare (ts : List Token) :
    (ts.map Token.bare).all Token.isGap = ts.all Token.isGap := by
  simp only [List.all_map]
  rfl

theorem readKey_bare (a : Atom) (t : Token) (r : List Token) :
    readKey a t.bare (r.map Token.bare) =
      blur (fun found => (found.1, found.2.map Token.bare)) (readKey a t r) := by
  unfold readKey
  rw [skipGaps_bare]
  cases skipGaps r with
  | nil => rfl
  | cons k tail =>
    by_cases hk : k.kind = .key
    · have hbare : k.bare.kind = .key := hk
      simp only [List.map_cons, if_pos hk, if_pos hbare]
      rfl
    · have hbare : ¬k.bare.kind = .key := hk
      simp only [List.map_cons, if_neg hk, if_neg hbare]
      rfl

theorem classifyConditional_bare (size : Nat) (p : Polarity) (t : Token) (r : List Token) :
    classifyConditional size p t.bare (r.map Token.bare) =
      blur Directive.bare (classifyConditional size p t r) := by
  unfold classifyConditional
  rw [readKey_bare]
  cases readKey p.atom t r with
  | error e => rfl
  | ok found =>
    obtain ⟨key, tail⟩ := found
    simp only [blur, bind, Except.bind, cutAt_bare, all_isGap_bare, List.length_map]
    cases cutAt (.atom .ending) tail with
    | some cut => rfl
    | none =>
      dsimp only [Option.map_none]
      split <;> rfl

theorem classify_bare (ts : List Token) :
    classify (ts.map Token.bare) = blur Directive.bare (classify ts) := by
  unfold classify
  rw [skipGaps_bare, List.length_map]
  cases skipGaps ts with
  | nil => rfl
  | cons t r =>
    simp only [List.map_cons, Token.bare_kind]
    cases t.kind with
    | atom a =>
      cases a with
      | includeIf => exact classifyConditional_bare ts.length .positive t r
      | excludeIf => exact classifyConditional_bare ts.length .negative t r
      | fileExcludeIf =>
        dsimp only
        rw [readKey_bare]
        cases readKey .fileExcludeIf t r with
        | error e => rfl
        | ok found =>
          simp only [blur, bind, Except.bind, all_isGap_bare]
          split <;> rfl
      | alternative =>
        simp only [all_isGap_bare]
        split <;> rfl
      | ending =>
        simp only [all_isGap_bare]
        split <;> rfl
      | license =>
        dsimp only
        rw [skipGaps_bare]
        cases skipGaps r <;> rfl
    | _ => rfl

theorem classifyHtml_bare (ts : List Token) :
    classifyHtml (ts.map Token.bare) = blur id (classifyHtml ts) := by
  unfold classifyHtml
  rw [skipGaps_bare]
  cases skipGaps ts with
  | nil => rfl
  | cons t r =>
    simp only [List.map_cons, Token.bare_kind]
    cases t.kind with
    | atom a =>
      cases a with
      | includeIf =>
        dsimp only
        rw [readKey_bare]
        cases readKey .includeIf t r <;> rfl
      | excludeIf =>
        dsimp only
        rw [readKey_bare]
        cases readKey .excludeIf t r <;> rfl
      | _ => rfl
    | _ => rfl

/-! ### Regions -/

theorem blockRemarks_bare (pos : Nat) (ts : List Token) :
    blockRemarks pos (ts.map Token.bare) = (blockRemarks pos ts).map (blur id) := by
  fun_induction blockRemarks pos ts with
  | case1 pos => rw [List.map_nil, blockRemarks, List.map_nil]
  | case2 pos t r hk hc =>
    rw [List.map_cons, blockRemarks, Token.bare_kind, hk]
    dsimp only
    rw [cutAt_bare, hc]
    rfl
  | case3 pos t r hk cut hc ih =>
    have hbare : cutAt .blockClose (r.map Token.bare) = some cut.bare := by
      rw [cutAt_bare, hc]
      rfl
    rw [List.map_cons, blockRemarks_of_block (t := t.bare) hk hbare]
    simp only [Cut.bare, List.length_map, classify_bare, ih, List.map_cons]
    cases classify cut.inner with
    | error e => rfl
    | ok d => simp [blur, Except.map]
  | case4 pos t r hk hc =>
    rw [List.map_cons, blockRemarks, Token.bare_kind, hk]
    dsimp only
    rw [cutAt_bare, hc]
    rfl
  | case5 pos t r hk cut hc ih =>
    have hbare : cutAt .blockClose (r.map Token.bare) = some cut.bare := by
      rw [cutAt_bare, hc]
      rfl
    rw [List.map_cons, blockRemarks_of_doc (t := t.bare) hk hbare]
    simp only [Cut.bare, List.length_map, ih]
  | case6 pos t r hb hd ih => rw [List.map_cons, blockRemarks_token pos (t := t.bare) ⟨hb, hd⟩, ih]

theorem htmlRemarks_bare (pos : Nat) (ts : List Token) :
    htmlRemarks pos (ts.map Token.bare) = (htmlRemarks pos ts).map (blur id) := by
  fun_induction htmlRemarks pos ts with
  | case1 pos => rw [List.map_nil, htmlRemarks, List.map_nil]
  | case2 pos t r hk hc =>
    have hbare : t.bare.kind = .htmlOpen := hk
    rw [List.map_cons, htmlRemarks, if_pos hbare, cutAt_bare, hc]
    rfl
  | case3 pos t r hk cut hc ih =>
    have hbare : t.bare.kind = .htmlOpen := hk
    rw [List.map_cons, htmlRemarks, if_pos hbare, cutAt_bare, hc]
    simp only [Option.map_some, Cut.bare, List.length_map, classifyHtml_bare, ih, List.map_cons]
    cases classifyHtml cut.inner with
    | error e => rfl
    | ok d => rfl
  | case4 pos t r hk ih =>
    have hbare : ¬t.bare.kind = .htmlOpen := hk
    rw [List.map_cons, htmlRemarks, if_neg hbare, ih]

theorem Search.run_blur (s : Search) (ms : List (Except Error Remark)) :
    s.run (ms.map (blur id)) = blur id (s.run ms) := by
  induction ms generalizing s with
  | nil => rfl
  | cons m ms ih =>
    cases m with
    | error e => rfl
    | ok m =>
      simp only [List.map_cons, blur, id, Search.run]
      cases s.feed m with
      | inl region => rfl
      | inr s => exact ih s

theorem findRegion_bare (pos : Nat) (ts : List Token) :
    findRegion pos (ts.map Token.bare) = blur id (findRegion pos ts) := by
  rw [findRegion, findRegion, searchBlocks_eq_run, searchBlocks_eq_run, blockRemarks_bare,
    Search.run_blur]

theorem findHtmlRegion_bare (pos : Nat) (ts : List Token) :
    findHtmlRegion pos (ts.map Token.bare) = blur id (findHtmlRegion pos ts) := by
  rw [findHtmlRegion, findHtmlRegion, searchHtml_eq_run, searchHtml_eq_run, htmlRemarks_bare,
    Search.run_blur]

/-! ### Trails -/

def Stop.bare : Stop → Stop
  | .excluded => .excluded
  | .failed e => .failed e.bare

/-- What a trail writes and why it stops, without the events. -/
def Trail.bare {σ : Type} (a : Trail σ) : Trail σ := ⟨a.steps, [], a.stop.map Stop.bare⟩

theorem Trail.bare_andThen {σ : Type} (a b : Trail σ) :
    (a.andThen b).bare = a.bare.andThen b.bare := by
  obtain ⟨steps, events, stop⟩ := a
  cases stop <;> rfl

theorem Trail.bare_mapSteps {σ τ : Type} (f : List σ → Bool → List τ) (a : Trail σ) :
    (a.mapSteps f).bare = a.bare.mapSteps f := by
  simp [Trail.bare, Trail.mapSteps]

@[simp] theorem Trail.bare_fail {σ : Type} (e : Error) :
    (Trail.fail e : Trail σ).bare = .fail e.bare := rfl

@[simp] theorem Trail.bare_report {σ : Type} (e : Event) :
    (Trail.report e : Trail σ).bare = .nothing := rfl

def Item.bare {σ : Type} (i : Item σ) : Item σ := ⟨i.trail.bare, i.taken⟩

/-! ### Items -/

theorem trimWindow_bare (n : Nat) (ts : List Token) :
    trimWindow n (ts.map Token.bare) = trimWindow n ts := by
  have h : Token.isBlankText ∘ Token.bare = Token.isBlankText := rfl
  simp only [trimWindow, ← List.map_take, List.takeWhile_map, ← List.map_drop, ← List.map_reverse,
    List.length_map, h]

theorem breakAfter?_bare (top : Bool) (n taken : Nat) (r : List Token) :
    breakAfter? top n taken (r.map Token.bare) = (breakAfter? top n taken r).map Token.bare := by
  unfold breakAfter?
  split
  · rw [← List.map_drop, List.head?_map]
    cases (r.drop taken).head? with
    | none => rfl
    | some t => by_cases hk : t.kind = .eol <;> simp [Option.filter, hk]
  · rfl

theorem walk_bare {σ : Type} {item : Nat → Token → List Token → Item σ}
    (h : ∀ n t r, (item n t.bare (r.map Token.bare)).bare = (item n t r).bare) (n : Nat)
    (ts : List Token) : (walk item n (ts.map Token.bare)).bare = (walk item n ts).bare := by
  induction n using Nat.strongRecOn generalizing ts with
  | ind n ih =>
    cases n with
    | zero => simp [walk]
    | succ n =>
      cases ts with
      | nil => rfl
      | cons t r =>
        have hitem := h n t r
        simp only [Item.bare, Item.mk.injEq] at hitem
        rw [List.map_cons, walk, walk, Trail.bare_andThen, Trail.bare_andThen, hitem.1, hitem.2,
          ← List.map_drop, ih _ (by omega)]

/-- The evaluators of a level do not look at places. -/
structure Level.Blind (inner : Level) : Prop where
  branch : ∀ n ts, (inner.branch n (ts.map Token.bare)).bare = (inner.branch n ts).bare
  htmlBranch :
    ∀ n ts, (inner.htmlBranch n (ts.map Token.bare)).bare = (inner.htmlBranch n ts).bare

theorem Item.settled_bare (top : Bool) (n : Nat) (r : List Token) {i j : Item Step}
    (h : i.bare = j.bare) :
    (i.settled top n (r.map Token.bare)).bare = (j.settled top n r).bare := by
  obtain ⟨a, k⟩ := i
  obtain ⟨b, l⟩ := j
  simp only [Item.bare, Item.mk.injEq] at h
  obtain ⟨hab, rfl⟩ := h
  simp only [Item.settled, breakAfter?_bare]
  cases breakAfter? top n k r with
  | none => simp [Item.bare, hab]
  | some t => simp [Item.bare, Trail.bare_andThen, hab]

theorem exclusionTrail_bare (o : Options) (t : Token) (key : KeyExpr) :
    (exclusionTrail o t.bare key).bare = (exclusionTrail o t key).bare := by
  unfold exclusionTrail
  split <;> rfl

section

variable {inner : Level} (hinner : inner.Blind)
include hinner

theorem htmlRegionItem_bare (o : Options) (t : Token) (size : Nat) (p : Polarity) (key : KeyExpr)
    (rest : List Token) :
    (htmlRegionItem o inner t.bare size p key (rest.map Token.bare)).bare =
      (htmlRegionItem o inner t size p key rest).bare := by
  unfold htmlRegionItem
  rw [findHtmlRegion_bare]
  rcases findHtmlRegion 0 rest with e | (_ | region)
  · simp [blur, Item.bare]
  · rfl
  · simp only [blur, id, Item.bare, Trail.bare_andThen, Trail.bare_report]
    cases region.branch? (p.selects key o.keys) with
    | none => rfl
    | some range =>
      simp only [← List.map_drop, hinner.htmlBranch]

theorem docItem_bare (o : Options) (n : Nat) (t : Token) (r : List Token) :
    (docItem o inner n t.bare (r.map Token.bare)).bare = (docItem o inner n t r).bare := by
  unfold docItem
  simp only [Token.bare_kind]
  cases t.kind with
  | htmlOpen =>
    dsimp only
    rw [cutAt_bare]
    cases cutAt .htmlClose r with
    | none => rfl
    | some cut =>
      simp only [Option.map_some, Cut.bare, classifyHtml_bare, List.length_map, textOf_bare]
      cases classifyHtml cut.inner with
      | error e => simp [blur, Item.bare]
      | ok d =>
        cases d with
        | opening p key => exact htmlRegionItem_bare hinner o t _ p key cut.rest
        | _ => rfl
  | _ => rfl

theorem docCommentItem_bare (o : Options) (t : Token) (r : List Token) :
    (docCommentItem o inner t.bare (r.map Token.bare)).bare =
      (docCommentItem o inner t r).bare := by
  unfold docCommentItem
  rw [cutAt_bare]
  cases cutAt .blockClose r with
  | none => rfl
  | some cut =>
    simp only [Option.map_some, Cut.bare, Item.bare, Trail.bare_andThen, Trail.bare_mapSteps,
      List.length_map, walk_bare (docItem_bare hinner o)]
    rfl

theorem regionItem_bare (o : Options) (t : Token) (size : Nat) (p : Polarity) (key : KeyExpr)
    (rest : List Token) :
    (regionItem o inner t.bare size p key (rest.map Token.bare)).bare =
      (regionItem o inner t size p key rest).bare := by
  unfold regionItem
  rw [findRegion_bare]
  rcases findRegion 0 rest with e | (_ | region)
  · simp [blur, Item.bare, Trail.bare_andThen]
  · rfl
  · simp only [blur, id, Item.bare, Trail.bare_andThen, Trail.bare_report]
    cases region.branch? (p.selects key o.keys) with
    | none => rfl
    | some range =>
      simp only [← List.map_drop, trimWindow_bare, hinner.branch]

theorem blockItem_bare (o : Options) (top : Bool) (n : Nat) (t : Token) (r : List Token) :
    (blockItem o inner top n t.bare (r.map Token.bare)).bare =
      (blockItem o inner top n t r).bare := by
  unfold blockItem
  rw [cutAt_bare]
  cases cutAt .blockClose r with
  | none => rfl
  | some cut =>
    simp only [Option.map_some, Cut.bare, classify_bare, List.length_map, textOf_bare]
    cases classify cut.inner with
    | error e => simp [blur, Item.bare]
    | ok d =>
      cases d with
      | plain => rfl
      | alternative => rfl
      | closing => rfl
      | opening p key =>
        exact Item.settled_bare top n r (regionItem_bare hinner o t _ p key cut.rest)
      | inline p key lead body =>
        simp only [blur, Directive.bare, textOf_bare]
      | fileExclusion key =>
        apply Item.settled_bare
        simp only [Item.bare, exclusionTrail_bare]
      | license key =>
        simp only [blur, Directive.bare, breakAfter?_bare]
        cases breakAfter? top n (cut.inner.length + 1) r <;> rfl

theorem codeItem_bare (o : Options) (top : Bool) (n : Nat) (t : Token) (r : List Token) :
    (codeItem o inner top n t.bare (r.map Token.bare)).bare =
      (codeItem o inner top n t r).bare := by
  unfold codeItem
  simp only [Token.bare_kind]
  cases t.kind with
  | docOpen => exact docCommentItem_bare hinner o t r
  | blockOpen => exact blockItem_bare hinner o top n t r
  | _ => rfl

end

theorem Level.blind_ofDepth (o : Options) (limit n : Nat) : (Level.ofDepth o limit n).Blind := by
  induction n with
  | zero => exact ⟨fun _ _ => rfl, fun _ _ => rfl⟩
  | succ n ih =>
    constructor
    · exact fun n ts => walk_bare (codeItem_bare ih o false) n ts
    · exact fun n ts => walk_bare (docItem_bare ih o) n ts

theorem evaluateTokens_bare (o : Options) (limit n : Nat) (ts : List Token) :
    (evaluateTokens o (Level.ofDepth o limit n) (ts.map Token.bare)).bare =
      (evaluateTokens o (Level.ofDepth o limit n) ts).bare := by
  rw [evaluateTokens, evaluateTokens, List.length_map]
  exact walk_bare (codeItem_bare (Level.blind_ofDepth o limit n) o true) _ ts

/-! ### Documents -/

theorem evaluateTokens_bareTokens (o : Options) (limit n : Nat) (source : String) :
    (evaluateTokens o (Level.ofDepth o limit n)
        (bareTokens o.language.profile source.toList)).bare =
      (evaluateTokens o (Level.ofDepth o limit n) (tokenize o.language.profile source)).bare := by
  rw [← bare_tokenize]
  exact evaluateTokens_bare o limit n _

theorem evaluate_of_no_header {o : Options} (hheader : o.autoHeader = false) (source : String) :
    evaluate o source =
      evaluateTokens o (Level.ofDepth o maxDepth maxDepth)
        (tokenize o.language.profile source) := by
  rw [evaluate, evaluateDocument, Options.header_of_no_header hheader, Trail.nothing_andThen]

theorem Trail.stop_of_bare {σ : Type} {a b : Trail σ} (hab : a.bare = b.bare) :
    a.stop = none ↔ b.stop = none := by
  have hstop : a.stop.map Stop.bare = b.stop.map Stop.bare := congrArg Trail.stop hab
  rw [← Option.map_eq_none_iff (f := Stop.bare), hstop, Option.map_eq_none_iff]

theorem Trail.result_of_bare {a b : Trail Step} (hab : a.bare = b.bare) {out : String} :
    a.result = .ok out ↔ b.result = .ok out := by
  obtain ⟨steps, events, stop⟩ := a
  obtain ⟨steps', events', stop'⟩ := b
  simp only [Trail.bare, Trail.mk.injEq, true_and] at hab
  obtain ⟨rfl, hstop⟩ := hab
  rcases stop with _ | (_ | e) <;> rcases stop' with _ | (_ | e') <;>
    simp [Stop.bare, Trail.result] at hstop ⊢

end FeatureCut
