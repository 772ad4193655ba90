/-
  FeatureCut/Proofs/Selection.lean
  ================================
  **Choosing between two fragments.**

  A document that opens a region on its first line, divides it on a line of its
  own and closes it on the last line gives what the chosen part gives as a
  document: the three lines leave no trace, and the other part has no influence.

  A part has to be closed, which is a property of its text alone.  It ends with a
  complete line, so the scanner reads the next directive as such and the page has
  nothing pending; and the nesting of its comments is matched, so the search for
  the division and the end passes over it (`searchBlocks_of_matched`).  Inside the
  region the part has one level less than it has as a document.
-/
import FeatureCut.Proofs.Concatenation
import FeatureCut.Proofs.DirectiveLine
import FeatureCut.Proofs.Levels

namespace FeatureCut

/-! ### Closed fragments -/

/-- The comments that have to stand inside a region. -/
def Role.needsRegion : Role → Bool
  | .neutral | .opening => false
  | .alternative | .closing => true

/-- Whether all comments are sound, what divides or closes a region stands inside
    of one, and no region stays open, where `depth` are open before. -/
def matched : Nat → List (Except Error Remark) → Bool
  | depth, [] => depth == 0
  | _, .error _ :: _ => false
  | depth, .ok m :: ms =>
    (!m.role.needsRegion || depth != 0) && matched (m.role.depthAfter depth) ms

/-- A fragment of complete lines whose comments have their regions inside it. -/
structure IsClosed (p : Profile) (s : String) : Prop where
  ends : s = "" ∨ endsLine p (.code true) s.toList = true
  start : s.toList.head? ≠ some '\r'
  nesting : matched 0 (blockRemarks 0 (tokenize p s)) = true

theorem matched_blur (depth : Nat) (ms : List (Except Error Remark)) :
    matched depth (ms.map (blur id)) = matched depth ms := by
  fun_induction matched depth ms <;> simp_all [matched, blur]

theorem Inert.blockRemarks {y : List Token} (hy : Inert y) (pos : Nat) :
    blockRemarks pos y = [] := by
  induction y generalizing pos with
  | nil => rw [FeatureCut.blockRemarks]
  | cons t y ih =>
    obtain ⟨hblock, hdoc, -⟩ := hy t (by simp)
    rw [blockRemarks_token pos ⟨hblock, hdoc⟩]
    exact ih hy.tail _

theorem Search.feed_of_matched {m : Remark} {depth : Nat}
    (h : (!m.role.needsRegion || depth != 0) = true) {s : Search} {outer : Nat}
    (hs : s.nested = outer + depth) (bounds : Boundary) :
    ∃ s', s.feed ⟨m.role, bounds⟩ = .inr s' ∧ s'.nested = outer + m.role.depthAfter depth ∧
      s'.alternative = s.alternative := by
  obtain ⟨role, place⟩ := m
  obtain ⟨nested, alternative⟩ := s
  obtain rfl : nested = outer + depth := hs
  cases role with
  | neutral => exact ⟨_, rfl, rfl, rfl⟩
  | opening => exact ⟨_, rfl, rfl, rfl⟩
  | alternative =>
    have hdepth : depth ≠ 0 := by simpa [Role.needsRegion] using h
    refine ⟨_, rfl, ?_, ?_⟩
    · simp [hdepth, Role.depthAfter]
    · simp [hdepth]
  | closing =>
    cases depth with
    | zero => cases h
    | succ depth => exact ⟨_, rfl, rfl, rfl⟩

theorem searchBlocks_of_nested_zero {s : Search} {outer depth : Nat} (hs : s.nested = outer + depth)
    (hdepth : depth = 0) (pos : Nat) (x : List Token) :
    searchBlocks s pos x = searchBlocks ⟨outer, s.alternative⟩ pos x := by
  obtain ⟨nested, alternative⟩ := s
  obtain rfl : nested = outer := by simpa [hdepth] using hs
  rfl

theorem Inert.depth_eq_zero {y : List Token} (hy : Inert y) {depth pos : Nat}
    (h : matched depth (FeatureCut.blockRemarks pos y) = true) : depth = 0 := by
  rw [hy.blockRemarks] at h
  simpa [matched] using h

/-- A search passes over tokens in which all nesting is matched. -/
theorem searchBlocks_of_matched {y : List Token} (hy : Inert y) {pos : Nat} {l : List Token}
    {depth : Nat} (h : matched depth (blockRemarks pos (l ++ y)) = true) {s : Search} {outer : Nat}
    (hs : s.nested = outer + depth) (pos' : Nat) (x : List Token) :
    searchBlocks s pos' (l ++ x) =
      searchBlocks ⟨outer, s.alternative⟩ (pos' + l.length) x := by
  generalize hts : l ++ y = ts at h
  fun_induction blockRemarks pos ts generalizing l depth s pos' with
  | case1 pos =>
    obtain ⟨rfl, rfl⟩ := List.append_eq_nil_iff.1 hts
    exact searchBlocks_of_nested_zero hs (by simpa [matched] using h) pos' x
  | case2 pos t r hk hc => cases h
  | case3 pos t r hk cut hc ih =>
    cases l with
    | nil => exact absurd hk (hy t (by rw [← List.nil_append y, hts]; simp)).1
    | cons t' l =>
      obtain ⟨rfl, rfl⟩ := List.cons.inj hts
      obtain ⟨rest, hrest, hlen, hcut⟩ := hy.cutAt hc
      cases hd : classify cut.inner with
      | error e =>
        rw [hd] at h
        cases h
      | ok d =>
        rw [hd] at h
        obtain ⟨hrole, hmatched⟩ := Bool.and_eq_true_iff.1 h
        obtain ⟨s', hfeed, hnested, halternative⟩ :=
          Search.feed_of_matched hrole hs ⟨pos', pos' + cut.inner.length + 2⟩
        rw [List.cons_append, searchBlocks_of_block hk (hcut x) hd, hfeed]
        dsimp only
        rw [ih hnested _ hrest.symm hmatched, halternative, List.length_cons, ← hlen]
        congr 1
        omega
  | case4 pos t r hk hc => cases h
  | case5 pos t r hk cut hc ih =>
    cases l with
    | nil => exact absurd hk (hy t (by rw [← List.nil_append y, hts]; simp)).2.1
    | cons t' l =>
      obtain ⟨rfl, rfl⟩ := List.cons.inj hts
      obtain ⟨rest, hrest, hlen, hcut⟩ := hy.cutAt hc
      rw [List.cons_append, searchBlocks_of_doc hk (hcut x)]
      dsimp only
      rw [ih hs _ hrest.symm h, List.length_cons, ← hlen]
      congr 1
      omega
  | case6 pos t r hb hd ih =>
    cases l with
    | nil =>
      rw [List.nil_append] at hts
      subst hts
      exact searchBlocks_of_nested_zero hs (hy.tail.depth_eq_zero h) pos' x
    | cons t' l =>
      obtain ⟨rfl, rfl⟩ := List.cons.inj hts
      rw [List.cons_append, searchBlocks_token s pos' ⟨hb, hd⟩, ih hs _ rfl h, List.length_cons]
      congr 1
      omega

/-! ### Parts of their own -/

theorem inert_eof : Inert [eofToken] := by
  intro t ht
  rw [List.mem_singleton.1 ht]
  exact ⟨Kind.noConfusion, Kind.noConfusion, Kind.noConfusion⟩

/-- Tokens of complete lines in which all nesting is matched. -/
structure IsPart (l : List Token) : Prop where
  ends : l = [] ∨ ∃ ts b, b.kind = .eol ∧ l = ts ++ [b]
  nesting : matched 0 (blockRemarks 0 (l ++ [eofToken])) = true

/-- The fragment is cut into these tokens, whatever comes after it. -/
def CutsInto (p : Profile) (s : String) (l : List Token) : Prop :=
  ∀ x : List Char, (∀ d ∈ x.head?, isBreak d = false) →
    bareTokens p (s.toList ++ x) = l ++ bareTokens p x

theorem CutsInto.bareTokens {p : Profile} {s : String} {l : List Token} (h : CutsInto p s l) :
    bareTokens p s.toList = l ++ [eofToken] := by
  have hnil := h [] (by simp)
  rwa [List.append_nil, bareTokens_nil] at hnil

theorem IsClosed.exists_part {p : Profile} {s : String} (h : IsClosed p s) :
    ∃ l, IsPart l ∧ CutsInto p s l := by
  have hnesting : matched 0 (blockRemarks 0 (bareTokens p s.toList)) = true := by
    rw [← bare_tokenize, blockRemarks_bare, matched_blur]
    exact h.nesting
  rcases h.ends with rfl | hends
  · rw [String.toList_empty, bareTokens_nil] at hnesting
    exact ⟨[], ⟨Or.inl rfl, hnesting⟩, fun x _ => rfl⟩
  · obtain ⟨ts, b, hb, htokens⟩ := bareTokens_seam hends
    have hall := htokens [] (by simp)
    rw [List.append_nil, bareTokens_nil] at hall
    rw [hall] at hnesting
    refine ⟨ts ++ [b], ⟨Or.inr ⟨ts, b, hb, rfl⟩, ?_⟩, ?_⟩
    · rw [List.append_assoc]
      exact hnesting
    · intro x hx
      rw [htokens x hx, List.append_assoc]
      rfl

theorem IsPart.searchBlocks {l : List Token} (hl : IsPart l) (s : Search) (pos : Nat)
    (x : List Token) :
    searchBlocks s pos (newlineToken :: l ++ x) =
      searchBlocks s (pos + (newlineToken :: l).length) x := by
  have hnewline : newlineToken.kind ≠ .blockOpen ∧ newlineToken.kind ≠ .docOpen :=
    ⟨Kind.noConfusion, Kind.noConfusion⟩
  rw [List.cons_append, searchBlocks_token s pos hnewline,
    searchBlocks_of_matched inert_eof hl.nesting (Nat.add_zero s.nested).symm, List.length_cons]
  congr 1
  omega

/-- Complete lines are entered as they are: there is no blank text at their ends. -/
theorem IsPart.trimWindow {l : List Token} (hl : IsPart l) (x : List Token) :
    trimWindow (newlineToken :: l).length (newlineToken :: l ++ x) =
      (0, (newlineToken :: l).length) := by
  have hblank : newlineToken.isBlankText = false := rfl
  have htrim : trimEnds Token.isBlankText (newlineToken :: l) = newlineToken :: l := by
    rw [trimEnds, List.dropWhile_cons_of_neg (by simp [hblank])]
    rcases hl.ends with rfl | ⟨ts, b, hb, rfl⟩
    · rfl
    · have hb' : b.isBlankText = false := by simp [Token.isBlankText, hb]
      rw [← List.cons_append]
      exact List.rdropWhile_concat_neg _ _ _ (by simp [hb'])
  rw [trimWindow_append, htrim, List.takeWhile_cons_of_neg (by simp [hblank])]
  rfl

section

variable {o : Options} {n limit : Nat} {l : List Token}
  (hfails : ¬(evaluatePart o (Level.ofDepth o limit n) (l ++ [eofToken])).Fails)
include hfails

theorem walk_part (k : Nat) (x : List Token) :
    walk (codeItem o (Level.ofDepth o limit n) false) (l.length + k) (l ++ x) =
      (evaluatePart o (Level.ofDepth o limit n) l).andThen
        (walk (codeItem o (Level.ofDepth o limit n) false) k x) := by
  have hlen : (l ++ [eofToken]).length = l.length + [eofToken].length := List.length_append
  rw [evaluatePart, hlen] at hfails
  exact walk_seam (Level.local_ofDepth o limit n) inert_eof hfails k x

theorem evaluatePart_eofToken :
    evaluatePart o (Level.ofDepth o limit n) (l ++ [eofToken]) =
      evaluatePart o (Level.ofDepth o limit n) l := by
  have hend := evaluatePart_eof (e := eofToken) rfl o (Level.ofDepth o limit n)
  rw [evaluatePart, List.length_singleton] at hend
  rw [evaluatePart, List.length_append, List.length_singleton, walk_part hfails, hend,
    Trail.andThen_nothing]

theorem IsPart.enter (hl : IsPart l) (x : List Token) :
    (Level.ofDepth o limit (n + 1)).enter (newlineToken :: l) x =
      (Trail.write [.eol ['\n']]).andThen (evaluatePart o (Level.ofDepth o limit n) l) := by
  have hwalk := walk_part hfails 0 x
  rw [Nat.add_zero, walk, Trail.andThen_nothing] at hwalk
  rw [Level.enter, hl.trimWindow, List.drop_zero]
  change walk (codeItem o (Level.ofDepth o limit n) false) (l.length + 1)
    (newlineToken :: (l ++ x)) = _
  rw [walk_eol rfl, hwalk]
  rfl

theorem IsPart.isClean (hl : IsPart l)
    (hstop : (evaluatePart o (Level.ofDepth o limit n) l).stop = none) :
    (Page.empty.steps (evaluatePart o (Level.ofDepth o limit n) l).steps).IsClean := by
  rcases hl.ends with rfl | ⟨ts, b, hb, rfl⟩
  · rw [evaluatePart, walk_nil]
    exact ⟨rfl, rfl⟩
  · rw [List.append_assoc] at hfails
    have hpart := evaluatePart_seam (Level.local_ofDepth o limit n) hb rfl hfails []
    rw [evaluatePart.eq_1 _ _ [], walk_nil, Trail.andThen_nothing] at hpart
    rw [hpart] at hstop ⊢
    rw [Trail.steps_andThen (Trail.stop_of_andThen hstop).1]
    exact Page.isClean_of_concat _ _ _

end

/-! ### The document that selects -/

/-- The lines of a directive around its parts leave nothing on the page. -/
theorem Trail.result_region (p : Polarity) (key : KeyExpr) (active divided : Bool) (t : Token)
    {a : Trail Step} (ha : a.stop = none → (Page.empty.steps a.steps).IsClean)
    (cs cs' : List Char) :
    ((regionTrail p key active divided t ((Trail.write [.eol cs]).andThen a)).andThen
      (.write [.eol cs'])).result = a.result := by
  obtain ⟨steps, events, stop⟩ := a
  cases stop with
  | some s => cases s <;> rfl
  | none =>
    have hclean : (Page.empty.steps steps).IsClean := ha rfl
    have hfirst : (Page.empty.step .mark).step (.eol cs) = Page.empty := rfl
    have hlast : ((Page.empty.steps steps).step .mark).step (.eol cs') = Page.empty.steps steps :=
      hclean.eol_mark cs'
    simp only [regionTrail, Trail.andThen, Trail.write, Trail.report, Trail.result, render,
      Page.steps_append, Page.steps_cons, Page.steps_nil, hfirst, hlast]

/-- The document that chooses between two fragments. -/
def conditional (p : Polarity) (key : KeyExpr) (s₁ s₂ : String) : String :=
  directiveLine (p.atom.name ++ " " ++ key.text) ++ s₁ ++ directiveLine Atom.alternative.name ++
    s₂ ++ directiveLine Atom.ending.name

example : conditional .positive ⟨"A|B"⟩ "x\n" "y\n" =
    "/* @include-if A|B */\nx\n/* @else */\ny\n/* @end */\n" := by decide

theorem IsClosed.head_ne {p : Profile} {s : String} (h : IsClosed p s) {x : List Char}
    (hx : x.head? ≠ some '\r') : (s.toList ++ x).head? ≠ some '\r' := by
  have hs := h.start
  cases hlist : s.toList with
  | nil => exact hx
  | cons c t =>
    rw [hlist] at hs
    exact hs

theorem head?_directiveLine (words : String) (x : List Char) :
    ((directiveLine words).toList ++ x).head? = some '/' := by
  rw [toList_directiveLine]
  rfl

theorem bareTokens_conditional {p : Profile} (hp : p.blockComments = true) (q : Polarity)
    {key : KeyExpr} (hkey : key.text ≠ "") (hchars : ∀ c ∈ key.text.toList, isBoundary c = false)
    {s₁ s₂ : String} (h₁ : IsClosed p s₁) (h₂ : IsClosed p s₂) {l₁ l₂ : List Token}
    (htokens₁ : CutsInto p s₁ l₁) (htokens₂ : CutsInto p s₂ l₂) :
    bareTokens p (conditional q key s₁ s₂).toList =
      (openingSaying q key).tokens ++ (newlineToken :: l₁ ++ (alternativeSaying.tokens ++
        (newlineToken :: l₂ ++ (closingSaying.tokens ++ [newlineToken, eofToken])))) := by
  have hline : ∀ words (x : List Char), ∀ d ∈ ((directiveLine words).toList ++ x).head?,
      isBreak d = false := by
    intro words x d hd
    rw [head?_directiveLine] at hd
    cases hd
    rfl
  have hhead : ∀ words (x : List Char), ((directiveLine words).toList ++ x).head? ≠ some '\r' := by
    intro words x
    rw [head?_directiveLine]
    decide
  have hnil : ([] : List Char).head? ≠ some '\r' := by simp
  simp only [conditional, String.toList_append, List.append_assoc]
  rw [← List.append_nil (directiveLine Atom.ending.name).toList,
    bareTokens_openingLine hp q hkey hchars (h₁.head_ne (hhead _ _)), htokens₁ _ (hline _ _),
    bareTokens_atomLine hp .alternative (h₂.head_ne (hhead _ _)), htokens₂ _ (hline _ _),
    bareTokens_atomLine hp .ending hnil, bareTokens_nil]
  simp only [List.cons_append]
  rfl

theorem evaluatePart_conditional {o : Options} {n limit : Nat} (q : Polarity) (key : KeyExpr)
    {l₁ l₂ : List Token} (hl₁ : IsPart l₁) (hl₂ : IsPart l₂)
    (hfails : ¬(evaluatePart o (Level.ofDepth o limit n)
      ((if q.selects key o.keys then l₁ else l₂) ++ [eofToken])).Fails) :
    evaluatePart o (Level.ofDepth o limit (n + 1))
        ((openingSaying q key).tokens ++ (newlineToken :: l₁ ++ (alternativeSaying.tokens ++
          (newlineToken :: l₂ ++ (closingSaying.tokens ++ [newlineToken, eofToken]))))) =
      (regionTrail q key (q.selects key o.keys) true (openingSaying q key).opener
        ((Trail.write [.eol ['\n']]).andThen
          (evaluatePart o (Level.ofDepth o limit n)
            (if q.selects key o.keys then l₁ else l₂)))).andThen
        (.write [.eol ['\n']]) := by
  have hbranch : (if q.selects key o.keys then
        (Level.ofDepth o limit (n + 1)).enter (newlineToken :: l₁) (alternativeSaying.tokens ++
          (newlineToken :: l₂ ++ (closingSaying.tokens ++ [newlineToken, eofToken])))
      else (Level.ofDepth o limit (n + 1)).enter (newlineToken :: l₂)
        (closingSaying.tokens ++ [newlineToken, eofToken])) =
      (Trail.write [.eol ['\n']]).andThen (evaluatePart o (Level.ofDepth o limit n)
        (if q.selects key o.keys then l₁ else l₂)) := by
    cases hselects : q.selects key o.keys with
    | true =>
      rw [hselects] at hfails
      exact hl₁.enter hfails _
    | false =>
      rw [hselects] at hfails
      exact hl₂.enter hfails _
  have hend : walk (codeItem o (Level.ofDepth o limit (n + 1)) false) 2 [newlineToken, eofToken] =
      .write [.eol ['\n']] := by
    have heof := evaluatePart_eof (e := eofToken) rfl o (Level.ofDepth o limit (n + 1))
    rw [evaluatePart, List.length_singleton] at heof
    rw [walk_eol rfl, heof, Trail.andThen_nothing]
    rfl
  rw [evaluatePart, Comment.tokens, List.cons_append, List.length_cons, walk, codeItem_comment,
    Comment.item, Item.settled_false,
    regionItem_of_passes o _ _ _ q key (hl₁.searchBlocks .start)
      (fun b => hl₂.searchBlocks ⟨0, some b⟩), hbranch]
  dsimp only
  -- the region takes all but the last two tokens
  have hsplit : (openingSaying q key).tail ++ (newlineToken :: l₁ ++ (alternativeSaying.tokens ++
        (newlineToken :: l₂ ++ (closingSaying.tokens ++ [newlineToken, eofToken])))) =
      ((openingSaying q key).tail ++ (newlineToken :: l₁ ++ (alternativeSaying.tokens ++
        (newlineToken :: l₂ ++ closingSaying.tokens)))) ++ [newlineToken, eofToken] := by
    simp only [List.append_assoc, List.cons_append]
  have hlength : (openingSaying q key).tail.length + ((newlineToken :: l₁).length +
        alternativeSaying.tokens.length + (newlineToken :: l₂).length +
        closingSaying.tokens.length) =
      ((openingSaying q key).tail ++ (newlineToken :: l₁ ++ (alternativeSaying.tokens ++
        (newlineToken :: l₂ ++ closingSaying.tokens)))).length := by
    simp only [List.length_append, List.length_cons]
    omega
  rw [hsplit, hlength, List.drop_left, List.length_append, Nat.add_sub_cancel_left]
  exact congrArg _ hend

theorem Trail.not_fails_of_result {a : Trail Step} {out : String} (h : a.result = .ok out) :
    ¬a.Fails := by
  rintro ⟨e, he⟩
  rw [Trail.result, he] at h
  cases h

/-- The evaluation of a source needs no more than `n` levels. -/
def NestsWithin (o : Options) (n : Nat) (source : String) : Prop :=
  (evaluateTokens o (Level.ofDepth o maxDepth n) (tokenize o.language.profile source)).stop ≠
    some (.failed (.nestingTooDeep maxDepth))

/-- **A document that chooses gives what the chosen fragment gives.**  The other
    fragment has no influence, as long as it is closed.  The key has at least one
    character, since without one there is no directive. -/
theorem transform_conditional {o : Options} (hblock : o.language.profile.blockComments = true)
    (hlicenses : o.licenses.isEmpty = true) (hheader : o.autoHeader = false) (q : Polarity)
    {key : KeyExpr} (hkey : key.text ≠ "") (hchars : ∀ c ∈ key.text.toList, isBoundary c = false)
    {s₁ s₂ : String} (h₁ : IsClosed o.language.profile s₁) (h₂ : IsClosed o.language.profile s₂)
    {out : String} (hout : transform o (if q.selects key o.keys then s₁ else s₂) = .ok out)
    (hdepth : NestsWithin o (maxDepth - 1) (if q.selects key o.keys then s₁ else s₂)) :
    transform o (conditional q key s₁ s₂) = .ok out := by
  obtain ⟨l₁, hl₁, htokens₁⟩ := h₁.exists_part
  obtain ⟨l₂, hl₂, htokens₂⟩ := h₂.exists_part
  have hpart : IsPart (if q.selects key o.keys then l₁ else l₂) := by
    split
    · exact hl₁
    · exact hl₂
  have htokens : CutsInto o.language.profile (if q.selects key o.keys then s₁ else s₂)
      (if q.selects key o.keys then l₁ else l₂) := by
    split
    · exact htokens₁
    · exact htokens₂
  obtain ⟨hvalid, hresult⟩ := (transform_eq_ok_iff hheader).1 hout
  -- with one level less the chosen fragment gives the same
  rcases evaluateTokens_deepens (Level.ofDepth_deepens o maxDepth (maxDepth - 1)) o
    (tokenize o.language.profile (if q.selects key o.keys then s₁ else s₂)) with hdeep | hsame
  · exact absurd hdeep hdepth
  change _ = evaluateTokens o (Level.ofDepth o maxDepth maxDepth) _ at hsame
  rw [← hsame, evaluateTokens_result_iff hlicenses, htokens.bareTokens] at hresult
  have hfails := Trail.not_fails_of_result hresult
  rw [evaluatePart_eofToken hfails] at hresult
  refine (transform_eq_ok_iff hheader).2 ⟨hvalid, ?_⟩
  rw [evaluateTokens_result_iff hlicenses,
    bareTokens_conditional hblock q hkey hchars h₁ h₂ htokens₁ htokens₂]
  change (evaluatePart o (Level.ofDepth o maxDepth (maxDepth - 1 + 1)) _).result = _
  rw [evaluatePart_conditional q key hl₁ hl₂ hfails,
    Trail.result_region _ _ _ _ _ (hpart.isClean hfails)]
  exact hresult

/-- Both fragments hold regions, the first one a literal that looks like a
    comment, and the second one starts with a blank line. -/
theorem transform_conditional_regions :
    transform (Options.withKey {} "B")
        (conditional .positive ⟨"A|B"⟩
          "x = '/*';\n/* @exclude-if C */\ny\n/* @else */\nz\n/* @end */\n"
          "\n/* @include-if A */w/* @end */\n") =
      .ok "x = '/*';\ny\n" := by
  apply transform_conditional
  · rfl
  · rfl
  · rfl
  · decide
  · simp [isBoundary, isIndent, isBreak]
  · exact ⟨Or.inr (by decide +kernel), by decide +kernel, by decide +kernel⟩
  · exact ⟨Or.inr (by decide +kernel), by decide +kernel, by decide +kernel⟩
  · decide +kernel
  · unfold NestsWithin
    decide +kernel

end FeatureCut
