/-
  FeatureCut/Proofs/Diagnostics.lean
  ==================================
  **What an error points to.**

  Some errors name a line and a column.  At this place stands the delimiter of the
  comment that is reported, or the atom that is misused (`Error.PointsInto`).

  The place belongs to the document that is being processed.  An inline body is
  processed as a document of its own, where lines and columns start anew, so an error
  in such a body points into the body and not into the source around it.  From the
  source one comes to the document in question by going from a document to one of its
  inline bodies, as often as it takes (`HasInlineBody`).

  A window of an evaluation is always the end of its document, or the end of a comment
  in it (`Layer.Within`).  So each token that an error is made from is a token of the
  document, and its place is known (`textAt_tokenize`).
-/
import Mathlib.Logic.Relation
import FeatureCut.Proofs.Nesting
import FeatureCut.Proofs.Positions
import FeatureCut.Proofs.Verbatim

namespace FeatureCut

/-! ### What is reported -/

/-- The line and the column that an error names. -/
def Error.place? : Error → Option (Nat × Nat)
  | .unterminatedComment _ line column | .unclosedDirective _ _ line column
  | .missingKey _ line column | .missingEnd _ _ line column => some (line, column)
  | _ => none

def CommentKind.opener : CommentKind → Kind
  | .block => .blockOpen
  | .doc => .docOpen
  | .html => .htmlOpen

/-- How a comment of each sort may start. -/
def CommentKind.delimiters : CommentKind → List (List Char)
  | .block => [['/', '*'], ['#'], ['-', '-']]
  | .doc => [['/', '*', '*']]
  | .html => [['<', '!', '-', '-']]

/-- At a line and a column of a document stands the token `t`, with `after` behind it. -/
structure StandsAt (p : Profile) (cs : List Char) (line column : Nat) (t : Token)
    (after : List Token) : Prop where
  token : t :: after <:+ tokenize p (String.ofList cs)
  text : textAt line column cs = some (textOf (t :: after))

/-- A comment opens a region that is never closed.  An html comment has the rest of its
    doc comment for that. -/
inductive OpensUnclosed (p : Polarity) (key : KeyExpr) : CommentKind → Token → List Token → Prop
  | block {t : Token} {after : List Token} {cut : Cut} (hk : t.kind = .blockOpen)
      (hc : cutAt .blockClose after = some cut) (hd : classify cut.inner = .ok (.opening p key))
      (hregion : findRegion 0 cut.rest = .ok none) : OpensUnclosed p key .block t after
  | html {t : Token} {after : List Token} {cut body : Cut} (hk : t.kind = .htmlOpen)
      (hc : cutAt .htmlClose after = some cut)
      (hd : classifyHtml cut.inner = .ok (.opening p key))
      (hbody : cutAt .blockClose cut.rest = some body)
      (hregion : findHtmlRegion 0 body.inner = .ok none) : OpensUnclosed p key .html t after

/-- Where an error names a place, there stands what it is about. -/
def Error.PointsInto (p : Profile) (cs : List Char) : Error → Prop
  | .unterminatedComment kind line column =>
    ∃ t after, StandsAt p cs line column t after ∧ t.lexeme ∈ kind.delimiters ∧
      t.kind = kind.opener ∧ cutAt kind.close after = none
  | .unclosedDirective atom key line column =>
    ∃ t after kind polarity k, StandsAt p cs line column t after ∧ t.lexeme ∈ kind.delimiters ∧
      OpensUnclosed polarity k kind t after ∧ atom = polarity.atom ∧ key = k.text
  | .missingKey atom line column | .missingEnd atom _ line column =>
    ∃ t after, StandsAt p cs line column t after ∧ t.kind = .atom atom ∧
      t.lexeme = atom.name.toList
  | _ => True

/-- The bodies of the active inline directives of a document, as they are processed. -/
inductive HasInlineBody (o : Options) (cs : List Char) : List Char → Prop
  | mk {t : Token} {r : List Token} {cut : Cut} {p : Polarity} {key : KeyExpr} {lead : Nat}
      {body : List Token} (ht : t :: r <:+ tokenize o.language.profile (String.ofList cs))
      (hk : t.kind = .blockOpen) (hc : cutAt .blockClose r = some cut)
      (hd : classify cut.inner = .ok (.inline p key lead body))
      (hactive : p.selects key o.keys = true) : HasInlineBody o cs (stripSpace (textOf body))

/-- A document is processed with `n` levels left, and the error is what stops it. -/
def FailsAt (o : Options) (n : Nat) (cs : List Char) (e : Error) : Prop :=
  (evaluateTokens o (Level.ofDepth o maxDepth n)
    (tokenize o.language.profile (String.ofList cs))).stop = some (.failed e)

theorem Error.pointsInto_of_place? {e : Error} (h : e.place? = none) (p : Profile)
    (cs : List Char) : e.PointsInto p cs := by
  cases e <;> trivial

/-! ### Tokens and their lexemes -/

theorem Reads.delimiter {a b : Place} {q : Piece} (h : Reads a q b) {kind : CommentKind}
    (hq : q.kind = kind.opener) : q.lexeme ∈ kind.delimiters := by
  cases h with
  | blockOpen h => cases h <;> cases kind <;> cases hq <;> simp [CommentKind.delimiters]
  | lineOpen h => cases h <;> cases kind <;> cases hq <;> simp [CommentKind.delimiters]
  | htmlOpen =>
    cases kind <;> cases hq
    simp [CommentKind.delimiters, htmlOpener]
  | _ => cases kind <;> cases hq

theorem Reads.atom_lexeme {a b : Place} {q : Piece} (h : Reads a q b) {x : Atom}
    (hq : q.kind = .atom x) : q.lexeme = x.name.toList := by
  cases h with
  | atom y =>
    cases hq
    rfl
  | blockOpen h => cases h <;> cases hq
  | lineOpen h => cases h <;> cases hq
  | _ => cases hq

section

variable {p : Profile} {cs : List Char} {t : Token} {after : List Token}
  (ht : t :: after <:+ tokenize p (String.ofList cs))
include ht

theorem standsAt_of_suffix :
    StandsAt p cs t.extent.start.line t.extent.start.column t after := by
  have htext := textAt_tokenize ht
  rw [String.toList_ofList] at htext
  exact ⟨ht, htext⟩

theorem exists_reads_of_suffix (hkind : t.kind ≠ .eof) : ∃ a b, Reads a t.toPiece b := by
  obtain ⟨l, hl⟩ := ht
  have haccepts := tokenize_accepts p (String.ofList cs)
  rw [← hl, List.map_append, List.map_cons] at haccepts
  obtain ⟨a, -, hrest⟩ := haccepts.exists_readsAll (by simp)
  obtain ⟨b, hread, -⟩ := hrest.exists_reads hkind
  exact ⟨a, b, hread⟩

theorem lexeme_mem_delimiters {kind : CommentKind} (hk : t.kind = kind.opener) :
    t.lexeme ∈ kind.delimiters := by
  have hkind : t.kind ≠ .eof := by
    rw [hk]
    cases kind <;> exact Kind.noConfusion
  obtain ⟨a, b, hread⟩ := exists_reads_of_suffix ht hkind
  exact hread.delimiter hk

theorem pointsInto_unterminated (kind : CommentKind) (hk : t.kind = kind.opener)
    (hc : cutAt kind.close after = none) : (t.unterminated kind).PointsInto p cs :=
  ⟨t, after, standsAt_of_suffix ht, lexeme_mem_delimiters ht hk, hk, hc⟩

theorem pointsInto_unclosed (kind : CommentKind) {polarity : Polarity} {key : KeyExpr}
    (hk : t.kind = kind.opener) (h : OpensUnclosed polarity key kind t after) :
    (t.unclosed polarity key).PointsInto p cs :=
  ⟨t, after, kind, polarity, key, standsAt_of_suffix ht, lexeme_mem_delimiters ht hk, h, rfl, rfl⟩

end

/-! ### Misused atoms -/

/-- An error that names the place of an atom. -/
def Error.IsAbout (e : Error) (t : Token) : Prop :=
  ∃ a : Atom, t.kind = .atom a ∧ (e = .missingKey a t.extent.start.line t.extent.start.column ∨
    ∃ key, e = .missingEnd a key t.extent.start.line t.extent.start.column)

theorem Error.IsAbout.pointsInto {p : Profile} {cs : List Char} {e : Error} {t : Token}
    {after : List Token} (h : e.IsAbout t)
    (ht : t :: after <:+ tokenize p (String.ofList cs)) : e.PointsInto p cs := by
  obtain ⟨a, hk, he⟩ := h
  obtain ⟨b, c, hread⟩ := exists_reads_of_suffix ht (by simp [hk])
  have hlexeme := hread.atom_lexeme hk
  rcases he with rfl | ⟨key, rfl⟩
  · exact ⟨t, after, standsAt_of_suffix ht, hk, hlexeme⟩
  · exact ⟨t, after, standsAt_of_suffix ht, hk, hlexeme⟩

theorem readKey_error {a : Atom} {t : Token} {r : List Token} {e : Error} (hk : t.kind = .atom a)
    (h : readKey a t r = .error e) : e.IsAbout t := by
  refine ⟨a, hk, Or.inl ?_⟩
  unfold readKey at h
  split at h
  · split at h
    · cases h
    · exact (Except.error.inj h).symm
  · exact (Except.error.inj h).symm

theorem classifyConditional_error {size : Nat} {p : Polarity} {t : Token} {r : List Token}
    {e : Error} (hk : t.kind = .atom p.atom) (h : classifyConditional size p t r = .error e) :
    e.IsAbout t := by
  unfold classifyConditional at h
  cases hread : readKey p.atom t r with
  | error e' =>
    rw [hread] at h
    exact Except.error.inj h ▸ readKey_error hk hread
  | ok found =>
    obtain ⟨key, tail⟩ := found
    rw [hread] at h
    dsimp only [bind, Except.bind] at h
    split at h
    · cases h
    · split at h
      · cases h
      · exact ⟨p.atom, hk, Or.inr ⟨_, (Except.error.inj h).symm⟩⟩

theorem exists_of_classify {inner : List Token} {e : Error} (h : classify inner = .error e) :
    ∃ t r, t :: r <:+ inner ∧ e.IsAbout t := by
  have hskip : skipGaps inner <:+ inner := inner.dropWhile_suffix _
  unfold classify at h
  split at h
  · cases h
  · rename_i t r hr
    rw [hr] at hskip
    refine ⟨t, r, hskip, ?_⟩
    split at h
    · rename_i hk
      exact classifyConditional_error (p := .positive) hk h
    · rename_i hk
      exact classifyConditional_error (p := .negative) hk h
    · rename_i hk
      cases hread : readKey .fileExcludeIf t r with
      | error e' =>
        rw [hread] at h
        exact Except.error.inj h ▸ readKey_error hk hread
      | ok found =>
        rw [hread] at h
        cases h
    · cases h
    · cases h
    · split at h <;> cases h
    · cases h

theorem exists_of_classifyHtml {inner : List Token} {e : Error}
    (h : classifyHtml inner = .error e) : ∃ t r, t :: r <:+ inner ∧ e.IsAbout t := by
  have hskip : skipGaps inner <:+ inner := inner.dropWhile_suffix _
  have hmap : ∀ {a : Atom} {t : Token} {r : List Token} {f : KeyExpr × List Token → HtmlDirective},
      t.kind = .atom a → (readKey a t r).map f = .error e → e.IsAbout t := by
    intro a t r f hk hread
    cases hkey : readKey a t r with
    | error e' =>
      rw [hkey] at hread
      exact Except.error.inj hread ▸ readKey_error hk hkey
    | ok found =>
      rw [hkey] at hread
      cases hread
  unfold classifyHtml at h
  split at h
  · cases h
  · rename_i t r hr
    rw [hr] at hskip
    refine ⟨t, r, hskip, ?_⟩
    split at h
    · rename_i hk
      exact hmap hk h
    · rename_i hk
      exact hmap hk h
    · cases h
    · cases h
    · cases h

/-! ### Windows of a document -/

/-- The end of a document, or the end of one of its comments. -/
def Layer.Within (tokens : List Token) : Layer → List Token → Prop
  | .block, ts => ts <:+ tokens
  | .html, ts =>
    ∃ k rest, k.kind = .blockClose ∧ (∀ t ∈ ts, t.kind ≠ .blockClose) ∧ ts ++ k :: rest <:+ tokens

namespace Layer.Within

variable {tokens : List Token} {y : Layer}

theorem suffix {ts us : List Token} (h : y.Within tokens ts) (hus : us <:+ ts) :
    y.Within tokens us := by
  cases y with
  | block => exact hus.trans h
  | html =>
    obtain ⟨k, rest, hk, hts, hsuffix⟩ := h
    refine ⟨k, rest, hk, fun t ht => hts t (hus.subset ht), ?_⟩
    obtain ⟨l, rfl⟩ := hus
    rw [List.append_assoc] at hsuffix
    exact (List.suffix_append l _).trans hsuffix

theorem exists_append {ts : List Token} (h : y.Within tokens ts) :
    ∃ rest, ts ++ rest <:+ tokens := by
  cases y with
  | block => exact ⟨[], by rwa [List.append_nil]⟩
  | html =>
    obtain ⟨k, rest, -, -, hsuffix⟩ := h
    exact ⟨k :: rest, hsuffix⟩

/-- The body of a comment is followed by its closing delimiter. -/
theorem body {t : Token} {r : List Token} {cut : Cut} (h : Layer.block.Within tokens (t :: r))
    (hc : cutAt .blockClose r = some cut) : Layer.html.Within tokens cut.inner := by
  refine ⟨cut.mark, cut.rest, cutAt_kind hc, cutAt_inner hc, ?_⟩
  rw [← cutAt_append hc]
  exact (List.suffix_cons t r).trans h

end Layer.Within

theorem cutAt_rest_suffix {kind : Kind} {r : List Token} {cut : Cut} (h : cutAt kind r = some cut) :
    cut.rest <:+ r := by
  have hsplit : r = (cut.inner ++ [cut.mark]) ++ cut.rest := by
    simp [← cutAt_append h]
  exact ⟨_, hsplit.symm⟩

theorem cutAt_append_right {kind : Kind} {r : List Token} {cut : Cut} (h : cutAt kind r = some cut)
    (rest : List Token) :
    cutAt kind (r ++ rest) = some ⟨cut.inner, cut.mark, cut.rest ++ rest⟩ := by
  rw [cutAt_append h, List.append_assoc, List.cons_append]
  exact cutAt_append_cons (cutAt_inner h) (cutAt_kind h) _

theorem Layer.opener_of_comment? {y : Layer} {kind : Kind} {c : CommentKind}
    (h : y.comment? kind = some c) : kind = c.opener := by
  cases y <;> cases kind <;> cases h <;> rfl

section

variable {p : Profile} {cs : List Char}

theorem exists_htmlClose {t : Token} {r : List Token}
    (h : Layer.html.Within (tokenize p (String.ofList cs)) (t :: r)) (hk : t.kind = .htmlOpen) :
    ∃ cut, cutAt .htmlClose r = some cut := by
  obtain ⟨k, rest, hclose, -, l, hl⟩ := h
  have haccepts := tokenize_accepts p (String.ofList cs)
  rw [← hl, List.cons_append] at haccepts
  exact haccepts.exists_htmlCut hk hclose

theorem pointsInto_of_unclosedHtml {t : Token} {r : List Token} {cut : Cut} {polarity : Polarity}
    {key : KeyExpr} (h : Layer.html.Within (tokenize p (String.ofList cs)) (t :: r))
    (hk : t.kind = .htmlOpen) (hc : cutAt .htmlClose r = some cut)
    (hd : classifyHtml cut.inner = .ok (.opening polarity key))
    (hregion : findHtmlRegion 0 cut.rest = .ok none) :
    (t.unclosed polarity key).PointsInto p cs := by
  have hrest := (cutAt_rest_suffix hc).trans (List.suffix_cons t r)
  obtain ⟨k, rest, hclose, hbody, hsuffix⟩ := h
  have hend : cutAt .blockClose (cut.rest ++ k :: rest) = some ⟨cut.rest, k, rest⟩ :=
    cutAt_append_cons (fun u hu => hbody u (hrest.subset hu)) hclose rest
  exact pointsInto_unclosed hsuffix .html hk
    (.html hk (cutAt_append_right hc _) hd hend hregion)

variable {y : Layer} {t : Token} {r : List Token} {c : CommentKind}
  (h : y.Within (tokenize p (String.ofList cs)) (t :: r)) (ht : y.comment? t.kind = some c)
include h ht

theorem pointsInto_of_unterminated (hc : cutAt c.close r = none) :
    (t.unterminated c).PointsInto p cs := by
  cases y with
  | block => exact pointsInto_unterminated h c (Layer.opener_of_comment? ht) hc
  | html =>
    have hk := Layer.opener_of_comment? ht
    cases c with
    | html =>
      obtain ⟨cut, hcut⟩ := exists_htmlClose h hk
      rw [show CommentKind.html.close = .htmlClose from rfl, hcut] at hc
      cases hc
    | block => rw [hk] at ht; cases ht
    | doc => rw [hk] at ht; cases ht

omit ht in
theorem pointsInto_of_isAbout {cut : Cut} {kind : Kind} (hc : cutAt kind r = some cut) {u : Token}
    {v : List Token} (hu : u :: v <:+ cut.inner) {e : Error} (he : e.IsAbout u) :
    e.PointsInto p cs := by
  obtain ⟨rest, hrest⟩ := h.exists_append
  obtain ⟨l, hl⟩ := hu
  rw [cutAt_append hc, ← hl] at hrest
  have hsuffix : u :: (v ++ (cut.mark :: cut.rest) ++ rest) <:+
      t :: (l ++ u :: v ++ cut.mark :: cut.rest) ++ rest := ⟨t :: l, by simp⟩
  exact he.pointsInto (hsuffix.trans hrest)

omit ht in
theorem pointsInto_of_role {cut : Cut} {kind : Kind} (hc : cutAt kind r = some cut) {e : Error}
    (he : Layer.role c cut.inner = .error e) : e.PointsInto p cs := by
  cases c with
  | block =>
    cases hd : classify cut.inner with
    | ok d => rw [Layer.role, hd] at he; cases he
    | error e' =>
      rw [Layer.role, hd] at he
      obtain ⟨u, v, hu, habout⟩ := exists_of_classify hd
      exact Except.error.inj he ▸ pointsInto_of_isAbout h hc hu habout
  | doc => cases he
  | html =>
    cases hd : classifyHtml cut.inner with
    | ok d => rw [Layer.role, hd] at he; cases he
    | error e' =>
      rw [Layer.role, hd] at he
      obtain ⟨u, v, hu, habout⟩ := exists_of_classifyHtml hd
      exact Except.error.inj he ▸ pointsInto_of_isAbout h hc hu habout

omit h ht in
theorem pointsInto_of_search {s : Search} {pos : Nat} {ts : List Token} {e : Error}
    (hts : y.Within (tokenize p (String.ofList cs)) ts) (he : y.search s pos ts = .error e) :
    e.PointsInto p cs := by
  fun_induction Layer.search y s pos ts with
  | case1 => cases he
  | case2 s pos t r hk ih => exact ih (hts.suffix (List.suffix_cons t r)) he
  | case3 s pos t r c hk hc =>
    exact Except.error.inj he ▸ pointsInto_of_unterminated hts hk hc
  | case4 s pos t r c hk cut hc e' hrole =>
    exact Except.error.inj he ▸ pointsInto_of_role hts hc hrole
  | case5 s pos t r c hk cut hc role hrole region hf => cases he
  | case6 s pos t r c hk cut hc role hrole s' hf ih =>
    exact ih (hts.suffix ((cutAt_rest_suffix hc).trans (List.suffix_cons t r))) he

end

/-! ### Evaluations -/

/-- If an evaluation fails, then for an error with this property. -/
def Trail.FailsOnly {σ : Type} (P : Error → Prop) (a : Trail σ) : Prop :=
  ∀ e, a.stop = some (.failed e) → P e

namespace Trail.FailsOnly

variable {σ τ : Type} {P : Error → Prop} {a b : Trail σ}

theorem write (steps : List σ) : (Trail.write steps).FailsOnly P := fun _ h => by cases h

theorem nothing : (Trail.nothing : Trail σ).FailsOnly P := fun _ h => by cases h

theorem report (event : Event) : (Trail.report event : Trail σ).FailsOnly P :=
  fun _ h => by cases h

theorem fail {e : Error} (he : P e) : (Trail.fail e : Trail σ).FailsOnly P := by
  intro e' h
  cases h
  exact he

theorem andThen (ha : a.FailsOnly P) (hb : b.FailsOnly P) : (a.andThen b).FailsOnly P := by
  intro e h
  cases hstop : a.stop with
  | none =>
    rw [Trail.stop_andThen hstop] at h
    exact hb e h
  | some s =>
    rw [Trail.andThen_of_stop hstop] at h
    exact ha e h

theorem mapSteps (f : List σ → Bool → List τ) (ha : a.FailsOnly P) :
    (a.mapSteps f).FailsOnly P :=
  ha

theorem mono {Q : Error → Prop} (ha : a.FailsOnly P) (h : ∀ e, P e → Q e) : a.FailsOnly Q :=
  fun e he => h e (ha e he)

/-- A walk stays in windows of the same kind. -/
theorem walk {item : Nat → Token → List Token → Item σ} {tokens : List Token} {y : Layer}
    (hitem : ∀ n t r, y.Within tokens (t :: r) → (item n t r).trail.FailsOnly P) (n : Nat)
    {ts : List Token} (hts : y.Within tokens ts) : (walk item n ts).FailsOnly P := by
  induction n using Nat.strongRecOn generalizing ts with
  | ind n ih =>
    cases n with
    | zero =>
      rw [FeatureCut.walk]
      exact .nothing
    | succ n =>
      cases ts with
      | nil =>
        rw [walk_nil]
        exact .nothing
      | cons t r =>
        rw [FeatureCut.walk]
        apply (hitem n t r hts).andThen
        apply ih _ (by omega)
        exact hts.suffix ((List.drop_suffix _ r).trans (List.suffix_cons t r))

end Trail.FailsOnly

/-- What is nested in a document fails for such errors only. -/
structure Level.FailsOnly (o : Options) (cs : List Char) (P : Error → Prop) (inner : Level) :
    Prop where
  branch : ∀ n ts, Layer.block.Within (tokenize o.language.profile (String.ofList cs)) ts →
    (inner.branch n ts).FailsOnly P
  htmlBranch : ∀ n ts, Layer.html.Within (tokenize o.language.profile (String.ofList cs)) ts →
    (inner.htmlBranch n ts).FailsOnly P
  document : ∀ body, HasInlineBody o cs body → (inner.document body).FailsOnly P

/-- What may be wrong with the licenses. -/
theorem resolveLicense_cases {licenses : LicenseMap} {keys : ActiveKeys} {e : Error}
    (h : resolveLicense licenses keys = .error e) :
    licenses.isEmpty = true ∧ e = .missingLicenseMap ∨
      (licenses.isEmpty = false ∧ 1 < keys.size ∧ e = .ambiguousLicenseKeys keys.size) ∨
        licenses.isEmpty = false ∧ ¬1 < keys.size ∧ licenses.contains (licenseKey keys) = false ∧
          e = .licenseNotFound (licenseKey keys) := by
  unfold resolveLicense at h
  split at h
  · rename_i hempty
    exact Or.inl ⟨hempty, (Except.error.inj h).symm⟩
  rename_i hlicenses
  have hlicenses : licenses.isEmpty = false := Bool.eq_false_iff.2 hlicenses
  split at h
  · rename_i hsize
    exact Or.inr (Or.inl ⟨hlicenses, hsize, (Except.error.inj h).symm⟩)
  rename_i hsize
  split at h
  · cases h
  · rename_i hnone
    refine Or.inr (Or.inr ⟨hlicenses, hsize, ?_, (Except.error.inj h).symm⟩)
    rw [Std.TreeMap.contains_eq_isSome_getElem?, hnone]
    rfl

theorem resolveLicense_error {licenses : LicenseMap} {keys : ActiveKeys} {e : Error}
    (h : resolveLicense licenses keys = .error e) : e.place? = none := by
  rcases resolveLicense_cases h with ⟨-, rfl⟩ | ⟨-, -, rfl⟩ | ⟨-, -, -, rfl⟩ <;> rfl

section

variable {o : Options} {P : Error → Prop}

theorem licenseTrail_failsOnly (hP : ∀ e, resolveLicense o.licenses o.keys = .error e → P e)
    (key : Option String) : (licenseTrail o key).FailsOnly P := by
  refine (Trail.FailsOnly.write _).andThen ((Trail.FailsOnly.report _).andThen ?_)
  split
  · exact .write _
  · rename_i e he
    exact .fail (hP e he)

theorem exclusionTrail_failsOnly (t : Token) (key : KeyExpr) :
    (exclusionTrail o t key).FailsOnly P := by
  refine (Trail.FailsOnly.write _).andThen ?_
  split
  · exact (Trail.FailsOnly.report _).andThen fun _ h => by cases h
  · exact .nothing

theorem Item.settled_failsOnly {i : Item Step} (hi : i.trail.FailsOnly P) (top : Bool) (n : Nat)
    (r : List Token) : (i.settled top n r).trail.FailsOnly P := by
  unfold Item.settled
  split
  · exact hi.andThen (.write _)
  · exact hi

theorem Options.header_failsOnly
    (hlicense : ∀ e, resolveLicense o.licenses o.keys = .error e → P e) :
    o.header.FailsOnly P := by
  unfold Options.header
  split
  · split
    · exact .write _
    · rename_i e he
      exact .fail (hlicense e he)
  · exact .nothing

/-- A run fails where the license at the head is looked up, or in the document. -/
theorem evaluate_failsOnly {source : String}
    (hlicense : ∀ e, resolveLicense o.licenses o.keys = .error e → P e)
    (hdocument : (evaluateTokens o (Level.ofDepth o maxDepth maxDepth)
      (tokenize o.language.profile source)).FailsOnly P) : (evaluate o source).FailsOnly P :=
  (Options.header_failsOnly hlicense).andThen hdocument

end

section

variable {o : Options} {cs : List Char} {P : Error → Prop} {inner : Level}
  (hP : ∀ e : Error, e.PointsInto o.language.profile cs → P e)
include hP

variable (hinner : inner.FailsOnly o cs P)
include hinner

theorem htmlRegionItem_failsOnly {t : Token} {r : List Token} {cut : Cut} {p : Polarity}
    {key : KeyExpr}
    (h : Layer.html.Within (tokenize o.language.profile (String.ofList cs)) (t :: r))
    (hk : t.kind = .htmlOpen) (hc : cutAt .htmlClose r = some cut)
    (hd : classifyHtml cut.inner = .ok (.opening p key)) (size : Nat) :
    (htmlRegionItem o inner t size p key cut.rest).trail.FailsOnly P := by
  have hrest := h.suffix ((cutAt_rest_suffix hc).trans (List.suffix_cons t r))
  unfold htmlRegionItem
  split
  · rename_i e he
    rw [findHtmlRegion, ← Layer.search_html] at he
    exact .fail (hP e (pointsInto_of_search hrest he))
  · rename_i hregion
    exact .fail (hP _ (pointsInto_of_unclosedHtml h hk hc hd hregion))
  · dsimp only
    refine Trail.FailsOnly.andThen (.report _) ?_
    split
    · exact hinner.htmlBranch _ _ (hrest.suffix (List.drop_suffix _ _))
    · exact .nothing

theorem docItem_failsOnly (n : Nat) (t : Token) (r : List Token)
    (h : Layer.html.Within (tokenize o.language.profile (String.ofList cs)) (t :: r)) :
    (docItem o inner n t r).trail.FailsOnly P := by
  unfold docItem
  split
  · exact .write _
  · rename_i hk
    have hcomment : Layer.html.comment? t.kind = some .html := by rw [hk, Layer.comment?]
    split
    · rename_i hc
      exact .fail (hP _ (pointsInto_of_unterminated h hcomment hc))
    · rename_i cut hc
      split
      · rename_i e he
        have hrole : Layer.role .html cut.inner = .error e := by rw [Layer.role, he]; rfl
        exact .fail (hP e (pointsInto_of_role h hc hrole))
      · rename_i hd
        exact htmlRegionItem_failsOnly hP hinner h hk hc hd _
      · exact .write _
  · exact .write _

variable {t : Token} {r : List Token}
  (h : t :: r <:+ tokenize o.language.profile (String.ofList cs))
include h

theorem docCommentItem_failsOnly (hk : t.kind = .docOpen) :
    (docCommentItem o inner t r).trail.FailsOnly P := by
  unfold docCommentItem
  split
  · rename_i hc
    exact .fail (hP _ (pointsInto_unterminated h .doc hk hc))
  · rename_i cut hc
    have hbody := Trail.FailsOnly.walk (docItem_failsOnly hP hinner) cut.inner.length
      (Layer.Within.body h hc)
    exact (Trail.FailsOnly.write _).andThen ((hbody.mapSteps _).andThen (.write _))

theorem regionItem_failsOnly {cut : Cut} {p : Polarity} {key : KeyExpr} (hk : t.kind = .blockOpen)
    (hc : cutAt .blockClose r = some cut) (hd : classify cut.inner = .ok (.opening p key))
    (size : Nat) : (regionItem o inner t size p key cut.rest).trail.FailsOnly P := by
  have hrest := ((cutAt_rest_suffix hc).trans (List.suffix_cons t r)).trans h
  unfold regionItem
  split
  · rename_i e he
    rw [findRegion, ← Layer.search_block] at he
    exact (Trail.FailsOnly.write _).andThen
      (.fail (hP e (pointsInto_of_search (y := .block) hrest he)))
  · rename_i hregion
    exact (Trail.FailsOnly.write _).andThen (.fail (hP _ (pointsInto_unclosed h .block hk
      (.block hk hc hd hregion))))
  · dsimp only
    refine Trail.FailsOnly.andThen (.write _) (Trail.FailsOnly.andThen (.report _) ?_)
    refine Trail.FailsOnly.andThen ?_ (.write _)
    split
    · exact hinner.branch _ _ ((List.drop_suffix _ _).trans hrest)
    · exact .nothing

theorem blockItem_failsOnly (hk : t.kind = .blockOpen) (top : Bool) (n : Nat) :
    (blockItem o inner top n t r).trail.FailsOnly P := by
  unfold blockItem
  split
  · rename_i hc
    exact .fail (hP _ (pointsInto_unterminated h .block hk hc))
  · rename_i cut hc
    dsimp only
    cases hd : classify cut.inner with
    | error e =>
      have hrole : Layer.role .block cut.inner = .error e := by rw [Layer.role, hd]; rfl
      exact .fail (hP e (pointsInto_of_role (y := .block) h hc hrole))
    | ok d =>
      cases d with
      | opening p key =>
        exact Item.settled_failsOnly (regionItem_failsOnly hP hinner h hk hc hd _) top n r
      | inline p key lead body =>
        refine Trail.FailsOnly.andThen (.write _) (Trail.FailsOnly.andThen ?_ (.write _))
        by_cases hactive : p.selects key o.keys = true
        · rw [if_pos hactive]
          have hbody := hinner.document _ (.mk h hk hc hd hactive)
          exact (Trail.FailsOnly.report _).andThen (hbody.mapSteps _)
        · rw [if_neg hactive]
          exact .nothing
      | fileExclusion key =>
        exact Item.settled_failsOnly (exclusionTrail_failsOnly t key) top n r
      | license key =>
        have hlicense : (licenseTrail o key).FailsOnly P := licenseTrail_failsOnly
          (fun e he => hP e (Error.pointsInto_of_place? (resolveLicense_error he) _ _)) key
        dsimp only
        split
        · exact hlicense.andThen (.write _)
        · exact hlicense
      | _ => exact .write _

theorem codeItem_failsOnly (top : Bool) (n : Nat) :
    (codeItem o inner top n t r).trail.FailsOnly P := by
  unfold codeItem
  split
  · exact .write _
  · exact .nothing
  · rename_i hk
    exact docCommentItem_failsOnly hP hinner h hk
  · rename_i hk
    exact blockItem_failsOnly hP hinner h hk top n
  · exact .write _

end

/-! ### Documents in documents -/

/-- An error points into a document, or it comes from an inline body of it that is
    processed with fewer than `n` levels left. -/
def Error.AccountedFor (o : Options) (cs : List Char) (n : Nat) (e : Error) : Prop :=
  e.PointsInto o.language.profile cs ∨
    ∃ m body, m < n ∧ HasInlineBody o cs body ∧ FailsAt o m body e

theorem Error.AccountedFor.succ {o : Options} {cs : List Char} {n : Nat} {e : Error}
    (h : e.AccountedFor o cs n) : e.AccountedFor o cs (n + 1) := by
  rcases h with h | ⟨m, body, hm, hbody, hfails⟩
  · exact Or.inl h
  · exact Or.inr ⟨m, body, Nat.lt_succ_of_lt hm, hbody, hfails⟩

theorem Level.failsOnly_ofDepth (o : Options) (cs : List Char) (n : Nat) :
    (Level.ofDepth o maxDepth n).FailsOnly o cs (Error.AccountedFor o cs n) := by
  induction n with
  | zero =>
    have hfail : ∀ {σ : Type}, (Trail.fail (.nestingTooDeep maxDepth) : Trail σ).FailsOnly
        (Error.AccountedFor o cs 0) := .fail (Or.inl trivial)
    exact ⟨fun _ _ _ => hfail, fun _ _ _ => hfail, fun _ _ => hfail⟩
  | succ n ih =>
    rw [Level.ofDepth_succ]
    constructor
    · intro k ts hts
      have hwalk := Trail.FailsOnly.walk (y := .block)
        (fun k t r h => codeItem_failsOnly (fun e he => Or.inl he) ih h false k) k hts
      exact hwalk.mono fun e => Error.AccountedFor.succ
    · intro k ts hts
      have hwalk := Trail.FailsOnly.walk (docItem_failsOnly (fun e he => Or.inl he) ih) k hts
      exact hwalk.mono fun e => Error.AccountedFor.succ
    · intro body hbody e he
      exact Or.inr ⟨n, body, Nat.lt_succ_self n, hbody, he⟩

theorem FailsAt.accountedFor {o : Options} {n : Nat} {cs : List Char} {e : Error}
    (h : FailsAt o n cs e) : e.AccountedFor o cs n := by
  have hinner := Level.failsOnly_ofDepth o cs n
  exact Trail.FailsOnly.walk (y := .block)
    (fun k t r ht => codeItem_failsOnly (fun e he => Or.inl he) hinner ht true k) _
    (List.suffix_refl _) e h

/-- Behind each error stands a document that it points into. -/
theorem FailsAt.exists_document {o : Options} {n : Nat} {cs : List Char} {e : Error}
    (h : FailsAt o n cs e) :
    ∃ ds m, Relation.ReflTransGen (HasInlineBody o) cs ds ∧ FailsAt o m ds e ∧
      e.PointsInto o.language.profile ds := by
  induction n using Nat.strongRecOn generalizing cs with
  | ind n ih =>
    rcases h.accountedFor with hpoints | ⟨m, body, hm, hbody, hfails⟩
    · exact ⟨cs, n, .refl, h, hpoints⟩
    · obtain ⟨ds, k, hreach, hds, hpoints⟩ := ih m hm hfails
      exact ⟨ds, k, .head hbody hreach, hds, hpoints⟩

/-- Options are refused for the reserved key first, and then for several keys. -/
theorem validate_eq_error_iff {o : Options} {e : Error} :
    o.validate = .error e ↔
      (o.keys.contains reservedKey = true ∧ e = .reservedKey reservedKey) ∨
      (o.keys.contains reservedKey = false ∧ o.licenseMode = true ∧ 1 < o.keys.size ∧
        e = .ambiguousLicenseKeys o.keys.size) := by
  unfold Options.validate
  constructor
  · intro h
    split at h
    · rename_i hreserved
      exact Or.inl ⟨hreserved, (Except.error.inj h).symm⟩
    rename_i hreserved
    split at h
    · rename_i hseveral
      simp only [Bool.and_eq_true, decide_eq_true_eq] at hseveral
      exact Or.inr ⟨Bool.eq_false_iff.2 hreserved, hseveral.1, hseveral.2,
        (Except.error.inj h).symm⟩
    · cases h
  · rintro (⟨hreserved, rfl⟩ | ⟨hreserved, hmode, hsize, rfl⟩)
    · rw [if_pos hreserved]
    · rw [hreserved, if_neg Bool.false_ne_true, hmode, if_pos (by simpa using hsize)]

theorem validate_error {o : Options} {e : Error} (h : o.validate = .error e) :
    e.place? = none := by
  rcases validate_eq_error_iff.1 h with ⟨-, rfl⟩ | ⟨-, -, -, rfl⟩ <;> rfl

theorem Trail.stop_of_result {a : Trail Step} {e : Error} (h : a.result = .error e) :
    a.stop = some (.failed e) := by
  unfold Trail.result at h
  split at h
  · cases h
  · cases h
  · rename_i e' hstop
    rw [hstop, Except.error.inj h]

/-- A run is refused, or its evaluation fails. -/
theorem validate_or_stop_of_transform {o : Options} {source : String} {e : Error}
    (h : transform o source = .error e) :
    o.validate = .error e ∨ (evaluate o source).stop = some (.failed e) := by
  unfold transform at h
  split at h
  · rename_i e' hvalid
    exact Or.inl (Except.error.inj h ▸ hvalid)
  · exact Or.inr (Trail.stop_of_result h)

/-- Neither the check of the options nor the license at the head names a place. -/
theorem failsAt_of_transform {o : Options} {source : String} {e : Error}
    (h : transform o source = .error e) (hplace : e.place? ≠ none) :
    FailsAt o maxDepth source.toList e := by
  rcases validate_or_stop_of_transform h with hvalid | hstop
  · exact absurd (validate_error hvalid) hplace
  have hlicense : ∀ e, resolveLicense o.licenses o.keys = .error e →
      e.place? ≠ none → FailsAt o maxDepth source.toList e :=
    fun e he hplace => absurd (resolveLicense_error he) hplace
  refine evaluate_failsOnly hlicense ?_ e hstop hplace
  intro e he _
  rwa [FailsAt, String.ofList_toList]

/-- **An error that names a place points into the document that is being processed**:
    the source, or the body of an active inline directive in such a document. -/
theorem transform_error_place {o : Options} {source : String} {e : Error}
    (h : transform o source = .error e) (hplace : e.place? ≠ none) :
    ∃ cs n, Relation.ReflTransGen (HasInlineBody o) source.toList cs ∧ FailsAt o n cs e ∧
      e.PointsInto o.language.profile cs :=
  (failsAt_of_transform h hplace).exists_document

/-- A body of two lines, with an atom that is misused on the second one. -/
theorem transform_error_place_body :
    transform { keys := Std.TreeSet.ofList ["A"], language := .sql }
        "q\n/* @include-if A x\n -- @exclude-if B y\n @end */" =
      .error (.missingEnd .excludeIf "B" 2 5) ∧
    (Error.missingEnd .excludeIf "B" 2 5).place? ≠ none ∧
    ∃ cs n, Relation.ReflTransGen
        (HasInlineBody { keys := Std.TreeSet.ofList ["A"], language := .sql })
        "q\n/* @include-if A x\n -- @exclude-if B y\n @end */".toList cs ∧
      FailsAt { keys := Std.TreeSet.ofList ["A"], language := .sql } n cs
        (.missingEnd .excludeIf "B" 2 5) ∧
      (Error.missingEnd .excludeIf "B" 2 5).PointsInto Language.sql.profile cs := by
  have herror : transform { keys := Std.TreeSet.ofList ["A"], language := .sql }
      "q\n/* @include-if A x\n -- @exclude-if B y\n @end */" =
        .error (.missingEnd .excludeIf "B" 2 5) := by decide +kernel
  have hplace : (Error.missingEnd .excludeIf "B" 2 5).place? ≠ none := by decide
  exact ⟨herror, hplace, transform_error_place herror hplace⟩

/-- The place need not be one of the source: here the comment starts at its column 19. -/
def nestedCommentSource : String := "x/* @include-if A /* b @end */"

theorem place_not_in_source :
    transform { keys := Std.TreeSet.ofList ["A"] } nestedCommentSource =
      .error (.unterminatedComment .block 1 1) ∧
    textAt 1 1 nestedCommentSource.toList = some nestedCommentSource.toList ∧
    ∀ d ∈ CommentKind.block.delimiters, ¬d <+: nestedCommentSource.toList := by
  refine ⟨by decide +kernel, ?_, by decide⟩
  rw [textAt, fromLine]
  rfl

end FeatureCut
