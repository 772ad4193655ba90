/-
  FeatureCut/Proofs/Idempotence.lean
  ==================================
  **A second run changes nothing.**

  In a language with line comments only, the result of a run holds no directive any
  more but stray ones, so that a second run with the same options leaves it as it
  is.  The tokens of the result are known from the thinning of the first run; what
  is not clear is that the result is cut into these tokens again, since whole lines
  are missing from it.

  The proof goes through the source line by line (`calm_render`).  A line that is
  written is read in the same way in front of any text, and it ends where the
  scanner starts anew.  A gap starts on one directive line and ends on another one,
  and of both nothing but an indent is written, which is dropped with its break.  So
  the result is made of lines that stay as they are: it is `Calm`.
-/
import FeatureCut.Proofs.Lines
import FeatureCut.Proofs.Thinning

namespace FeatureCut

/-! ### Calm texts -/

/-- A text in which every comment stays as it is. -/
def Calm (p : Profile) (cs : List Char) : Prop :=
  ∀ u ∈ codeSuffixes (bareTokens p cs), startsFixed u = true

theorem startsFixed_token {t : Token} (ht : t.kind ≠ .blockOpen ∧ t.kind ≠ .docOpen)
    (r : List Token) : startsFixed (t :: r) = true := by
  rw [startsFixed]
  split
  · rename_i hk
    exact absurd hk ht.1
  · rename_i hk
    exact absurd hk ht.2
  · rfl

theorem not_opener {t : Token} (h : t.kind = .text ∨ t.kind = .eol ∨ t.kind = .eof) :
    t.kind ≠ .blockOpen ∧ t.kind ≠ .docOpen := by
  rcases h with h | h | h <;> simp [h]

theorem fixed_cons {t : Token} (h : t.kind = .text ∨ t.kind = .eol ∨ t.kind = .eof)
    (ts : List Token) :
    (∀ u ∈ codeSuffixes (t :: ts), startsFixed u = true) ↔
      ∀ u ∈ codeSuffixes ts, startsFixed u = true := by
  rw [codeSuffixes_token (not_opener h), List.forall_mem_cons]
  exact and_iff_right (startsFixed_token (not_opener h) ts)

theorem fixed_plain {ts : List Token} (h : IsPlainLine ts) (rest : List Token) :
    (∀ u ∈ codeSuffixes (ts ++ rest), startsFixed u = true) ↔
      ∀ u ∈ codeSuffixes rest, startsFixed u = true := by
  induction ts with
  | nil => rfl
  | cons t ts ih =>
    have ht : t.kind = .text ∨ t.kind = .eol ∨ t.kind = .eof :=
      (h t (List.mem_cons_self ..)).elim Or.inl fun h => Or.inr (Or.inl h)
    rw [List.cons_append, fixed_cons ht]
    exact ih fun u hu => h u (List.mem_cons_of_mem _ hu)

theorem fixed_remark {c : Comment .blockOpen} {rest : List Token}
    (hc : startsFixed (c.tokens ++ rest) = true)
    (hrest : ∀ u ∈ codeSuffixes rest, startsFixed u = true) :
    ∀ u ∈ codeSuffixes (c.tokens ++ rest), startsFixed u = true := by
  have hcut := c.cutAt_tail rest
  rw [Comment.tokens, List.cons_append] at hc ⊢
  rw [codeSuffixes_comment (Or.inl c.opener_kind) hcut]
  exact List.forall_mem_cons.2 ⟨hc, hrest⟩

theorem calm_nil (p : Profile) : Calm p [] := by
  rw [Calm, bareTokens_nil]
  have hkind : eofToken.kind = .text ∨ eofToken.kind = .eol ∨ eofToken.kind = .eof :=
    Or.inr (Or.inr rfl)
  rw [fixed_cons hkind]
  simp [codeSuffixes]

/-- A break character at the start of a text does not count. -/
theorem calm_cons {p : Profile} {c : Char} (hc : isBreak c = true) (cs : List Char) :
    Calm p (c :: cs) ↔ Calm p cs := by
  have hbreak : ∀ {c : Char}, isBreak c = true → ∀ cs,
      (Calm p (c :: cs) ↔ Calm p (breakFrom c cs).2) := by
    intro c hc cs
    have hscan : scan p (.code true) (c :: cs) =
        [] ++ ⟨.eol, (breakFrom c cs).1, .code⟩ :: scan p (.code true) (breakFrom c cs).2 := by
      rw [scan]
      simp [Mode.move, codeMove, hc]
    rw [Calm, bareTokens_line rfl hscan]
    exact fixed_cons (Or.inr (Or.inl rfl)) _
  induction cs generalizing c with
  | nil => exact hbreak hc []
  | cons d cs ih =>
    have h := hbreak hc (d :: cs)
    by_cases hpair : isBreakPair c d = true
    · have hd : isBreak d = true := by
        simp only [isBreakPair, Bool.and_eq_true] at hpair
        exact hpair.1.2
      rw [breakFrom, if_pos hpair] at h
      exact h.trans (ih hd).symm
    · rwa [breakFrom, if_neg hpair] at h

theorem Calm.of_leaves {p : Profile} {y y' : List Char} (h : Leaves y y') (hy : Calm p y) :
    Calm p y' := by
  rcases h with rfl | ⟨c, hc, rfl⟩
  · exact hy
  · exact (calm_cons hc y').1 hy

/-- A line that stays as it is, and a calm text after it. -/
theorem IsTokenLine.calm {p : Profile} {l y : List Char} {ts : List Token}
    (hline : IsTokenLine p l ts) (hy : Calm p y)
    (hfixed : ∀ rest, (∀ u ∈ codeSuffixes rest, startsFixed u = true) →
      ∀ u ∈ codeSuffixes (ts ++ rest), startsFixed u = true) : Calm p (l ++ y) := by
  obtain ⟨e, y', he, hleaves, htokens⟩ := hline.reads y
  rw [Calm, htokens]
  exact hfixed _ ((fixed_cons (Or.inr (Or.inl he)) _).2 (hy.of_leaves hleaves))

theorem evaluatePart_of_calm {o : Options} {inner : Level} {cs : List Char}
    (h : Calm o.language.profile cs) :
    (evaluatePart o inner (bareTokens o.language.profile cs)).result =
      .ok (String.ofList cs) := by
  have hpieces : (bareTokens o.language.profile cs).map Token.toPiece =
      coalesce (scan o.language.profile (.code true) cs) := by
    rw [bareTokens, List.map_map]
    exact List.map_id _
  have hreached : Layer.block.Reached (bareTokens o.language.profile cs) := by
    refine Or.inr ?_
    rw [hpieces]
    exact (scan_accepts o.language.profile (.code true) cs).coalesce
  have hcopies := walk_codeItem_copies o inner hreached h false (Nat.le_refl _)
  rw [evaluatePart, Trail.result_of_none hcopies.stop, render_of_copies hcopies.steps,
    textOf_bareTokens]

/-! ### What is written of a line -/

def tokenSteps (ts : List Token) : List Step := ts.flatMap fun t => (tokenTrail t).steps

theorem tokenTrail_copies {t : Token} (h : t.kind = .text ∨ t.kind = .eol) :
    Copies (tokenTrail t).steps t.lexeme := by
  unfold tokenTrail
  rcases h with h | h
  · rw [h]
    exact .text _
  · rw [h]
    exact .eol _

theorem tokenSteps_copies {ts : List Token} (h : IsPlainLine ts) :
    Copies (tokenSteps ts) (textOf ts) := by
  induction ts with
  | nil => exact .nil
  | cons t ts ih =>
    have ht := tokenTrail_copies (h t (List.mem_cons_self ..))
    exact ht.append (ih fun u hu => h u (List.mem_cons_of_mem _ hu))

theorem IsIndented.isPlainLine {ts : List Token} (h : IsIndented ts) : IsPlainLine ts :=
  fun t ht => Or.inl (h t ht).1

/-- What is written before a break is written above all that follows. -/
theorem render_line {ss : List Step} {cs : List Char} (hss : Copies ss cs) (lexeme : List Char)
    (rest : List Step) :
    render (ss ++ .eol lexeme :: rest) = cs ++ lexeme ++ render rest := by
  have hline : Copies (ss ++ [.eol lexeme]) (cs ++ lexeme) := hss.append (.eol lexeme)
  have hsplit : ss ++ .eol lexeme :: rest = (ss ++ [.eol lexeme]) ++ rest := by simp
  rw [hsplit, render_append (Page.isClean_of_concat _ _ _), render_of_copies hline]

/-- An indent and marks leave a line that is dropped. -/
theorem exists_dropped {a : List Token} (ha : IsIndented a) (k : Nat) :
    ∃ w : List Char, (∀ c ∈ w, isIndent c = true) ∧
      Page.empty.steps (tokenSteps a ++ List.replicate (k + 1) .mark) = ⟨[], w, true⟩ := by
  have hmarks : ∀ (k : Nat) (w : List Char) (marked : Bool),
      (⟨[], w, marked⟩ : Page).steps (List.replicate (k + 1) .mark) = ⟨[], w, true⟩ := by
    intro k
    induction k with
    | zero => exact fun _ _ => rfl
    | succ k ih => exact fun w _ => ih w true
  have htexts : ∀ w : List Char, (∀ c ∈ w, isIndent c = true) → ∃ w' : List Char,
      (∀ c ∈ w', isIndent c = true) ∧
        (⟨[], w, false⟩ : Page).steps (tokenSteps a) = ⟨[], w', false⟩ := by
    induction a with
    | nil => exact fun w hw => ⟨w, hw, rfl⟩
    | cons t a ih =>
      intro w hw
      obtain ⟨hkind, hindent⟩ := ha t (List.mem_cons_self ..)
      have htrail : (tokenTrail t).steps = [.text t.lexeme] := by
        rw [tokenTrail, hkind]
        rfl
      have hsteps : (⟨[], w, false⟩ : Page).steps (tokenSteps (t :: a)) =
          (⟨[], w ++ t.lexeme, false⟩ : Page).steps (tokenSteps a) := by
        rw [tokenSteps, List.flatMap_cons, htrail]
        rfl
      rw [hsteps]
      apply ih (fun u hu => ha u (List.mem_cons_of_mem _ hu))
      intro c hc
      rcases List.mem_append.1 hc with hc | hc
      · exact hw c hc
      · exact hindent c hc
  obtain ⟨w, hw, hsteps⟩ := htexts [] (by simp)
  refine ⟨w, hw, ?_⟩
  rw [Page.steps_append]
  exact (congrArg (Page.steps · _) hsteps).trans (hmarks k w false)

theorem Page.keepsLine_of_indent {w : List Char} (hw : ∀ c ∈ w, isIndent c = true) :
    (⟨[], w, true⟩ : Page).keepsLine = false := by
  simpa [Page.keepsLine, Page.hasContent] using hw

theorem render_dropped_eol {a : List Token} (ha : IsIndented a) (k : Nat) (lexeme : List Char)
    (rest : List Step) :
    render (tokenSteps a ++ (List.replicate (k + 1) .mark ++ .eol lexeme :: rest)) =
      render rest := by
  obtain ⟨w, hw, hsteps⟩ := exists_dropped ha k
  unfold render
  rw [← List.append_assoc, Page.steps_append, hsteps, Page.steps_cons]
  have hdropped : (⟨[], w, true⟩ : Page).eol lexeme = Page.empty := by
    rw [Page.eol, Page.keepsLine_of_indent hw]
    rfl
  exact congrArg (fun q : Page => (q.steps rest).contents) hdropped

theorem render_dropped {a : List Token} (ha : IsIndented a) (k : Nat) :
    render (tokenSteps a ++ List.replicate (k + 1) .mark) = [] := by
  obtain ⟨w, hw, hsteps⟩ := exists_dropped ha k
  rw [render, hsteps, Page.contents, Page.keepsLine_of_indent hw]
  rfl

/-! ### Lines that are thinned -/

/-- The tokens of a line stay as they are in front of what does. -/
def KeepsFixed (ts : List Token) : Prop :=
  ∀ rest, (∀ u ∈ codeSuffixes rest, startsFixed u = true) →
    ∀ u ∈ codeSuffixes (ts ++ rest), startsFixed u = true

def EndsLine (e : Token) : Prop := e.kind = .eol ∨ e.kind = .eof

/-- No gap starts on a line without a comment. -/
theorem not_startsGap {pl rest : List Token} {e : Token} (hpl : IsPlainLine pl)
    (he : EndsLine e) (ss : List Step) : ¬StartsGap (pl ++ e :: rest) ss := by
  rintro ⟨a, d, b, us, -, -, hsplit, -, ha, ⟨o, i, k, rfl, ho, -⟩, -, -⟩
  induction pl generalizing a with
  | nil =>
    cases a with
    | nil =>
      obtain ⟨rfl, -⟩ := List.cons.inj hsplit
      simp [EndsLine, ho] at he
    | cons t a =>
      obtain ⟨rfl, -⟩ := List.cons.inj hsplit
      simp [EndsLine, ha] at he
  | cons t pl ih =>
    cases a with
    | nil =>
      obtain ⟨rfl, -⟩ := List.cons.inj hsplit
      simpa [ho] using hpl t
    | cons u a =>
      exact ih (fun v hv => hpl v (List.mem_cons_of_mem _ hv)) a
        (fun v hv => ha v (List.mem_cons_of_mem _ hv)) (List.cons.inj hsplit).2

theorem Thins.of_plain {pl rest : List Token} {e : Token} {ss : List Step}
    (hpl : IsPlainLine pl) (he : EndsLine e) (h : Thins (pl ++ e :: rest) ss) :
    ∃ ss', ss = tokenSteps pl ++ ss' ∧ Thins (e :: rest) ss' := by
  induction pl generalizing ss with
  | nil => exact ⟨ss, rfl, h⟩
  | cons t pl ih =>
    have hkind : t.kind ≠ .blockOpen := by
      rcases hpl t (List.mem_cons_self ..) with ht | ht <;> simp [ht]
    rcases Thins.of_token h hkind with ⟨ss', rfl, h'⟩ | hgap
    · obtain ⟨ss'', rfl, h''⟩ := ih (fun u hu => hpl u (List.mem_cons_of_mem _ hu)) h'
      exact ⟨ss'', by simp [tokenSteps], h''⟩
    · exact absurd hgap (not_startsGap hpl he ss)

theorem Thins.of_end {rest : List Token} {e : Token} {ss : List Step} (he : EndsLine e)
    (h : Thins (e :: rest) ss) :
    ∃ ss', ss = (tokenTrail e).steps ++ ss' ∧ Thins rest ss' := by
  have hkind : e.kind ≠ .blockOpen := by
    rcases he with he | he <;> simp [he]
  have hplain : IsPlainLine [] := by simp [IsPlainLine]
  rcases h.of_token hkind with h | hgap
  · exact h
  · exact absurd hgap (not_startsGap hplain he ss)

/-- What is written of an indent and a comment on it. -/
theorem Thins.of_indented {a ts : List Token} {ss : List Step} (ha : IsIndented a)
    {c : Comment .blockOpen} (h : Thins (a ++ (c.tokens ++ ts)) ss) :
    ∃ a₁ a₂ ss', a = a₁ ++ a₂ ∧ ss = tokenSteps a₁ ++ ss' ∧
      (a₂ = [] ∧ Thins (c.tokens ++ ts) ss' ∨ StartsGap (a₂ ++ (c.tokens ++ ts)) ss') := by
  induction a generalizing ss with
  | nil => exact ⟨[], [], ss, rfl, rfl, Or.inl ⟨rfl, h⟩⟩
  | cons t a ih =>
    have hkind : t.kind ≠ .blockOpen := by
      simp [(ha t (List.mem_cons_self ..)).1]
    rcases Thins.of_token h hkind with ⟨ss', rfl, h'⟩ | hgap
    · obtain ⟨a₁, a₂, ss'', rfl, rfl, hrest⟩ := ih (fun u hu => ha u (List.mem_cons_of_mem _ hu)) h'
      exact ⟨t :: a₁, a₂, ss'', rfl, by simp [tokenSteps], hrest⟩
    · exact ⟨[], t :: a, ss, rfl, rfl, Or.inr hgap⟩

/-- What is written of a line.  Either all of it, or a gap starts on it behind an
    indent. -/
theorem Thins.of_line {ts rest : List Token} {e : Token} {ss : List Step}
    (hts : IsPlainLine ts ∨ IsRemarkLine ts) (he : EndsLine e) (h : Thins (ts ++ e :: rest) ss) :
    (∃ written ss', ss = written ++ ((tokenTrail e).steps ++ ss') ∧ Copies written (textOf ts) ∧
      KeepsFixed ts ∧ Thins rest ss') ∨
    ∃ a ts' ss', ts = a ++ ts' ∧ IsIndented a ∧ ss = tokenSteps a ++ ss' ∧
      StartsGap (ts' ++ e :: rest) ss' := by
  rcases hts with hpl | ⟨a, c, rfl, ha, hcontent⟩
  · obtain ⟨ss', rfl, hend⟩ := h.of_plain hpl he
    obtain ⟨ss'', rfl, hrest⟩ := hend.of_end he
    exact Or.inl ⟨_, ss'', rfl, tokenSteps_copies hpl, fun rest => (fixed_plain hpl rest).2, hrest⟩
  · rw [List.append_assoc] at h
    obtain ⟨a₁, a₂, ss', rfl, rfl, ⟨rfl, hcomment⟩ | hgap⟩ := h.of_indented ha
    · rw [List.append_nil] at ha ⊢
      rcases hcomment.of_comment with ⟨written, ss'', rfl, hfixed, hwritten, hend⟩ | hgap
      · obtain ⟨ss₃, rfl, hrest⟩ := hend.of_end he
        refine Or.inl ⟨tokenSteps a₁ ++ written, ss₃, by simp, ?_, ?_, hrest⟩
        · rw [textOf_append]
          apply (tokenSteps_copies ha.isPlainLine).append
          have htext : textOf c.tokens = c.verbatim := by
            simp [Comment.tokens, Comment.tail, Comment.verbatim]
          rw [htext]
          rcases hwritten with rfl | rfl
          · exact .text _
          · obtain ⟨d, hd, hindent⟩ := hcontent
            exact .remark ⟨d, by simp [Comment.verbatim, hd], hindent⟩
        · intro rest' hrest
          rw [List.append_assoc, fixed_plain ha.isPlainLine]
          exact fixed_remark (hfixed rest') hrest
      · exact Or.inr ⟨a₁, c.tokens, ss', rfl, ha, rfl, hgap⟩
    · refine Or.inr ⟨a₁, a₂ ++ c.tokens, ss', by simp, ?_, rfl, by simpa using hgap⟩
      exact fun t ht => ha t (List.mem_append_left _ ht)

/-! ### The line behind a gap -/

/-- A line has a closing delimiter only at its end. -/
theorem closer_last {ts a b : List Token} {k : Token} (hts : IsPlainLine ts ∨ IsRemarkLine ts)
    (h : ts = a ++ k :: b) (hk : k.kind = .blockClose) : b = [] := by
  rcases hts with hpl | ⟨w, c, rfl, hw, -⟩
  · have hkind := hpl k (by simp [h])
    simp [hk] at hkind
  · have hnone : ∀ t ∈ w ++ c.opener :: c.inner, t.kind ≠ .blockClose := by
      intro t ht
      rcases List.mem_append.1 ht with ht | ht
      · simp [(hw t ht).1]
      rcases List.mem_cons.1 ht with rfl | ht
      · simp [c.opener_kind]
      · exact c.inner_kind t ht
    rcases List.eq_nil_or_concat b with rfl | ⟨b, z, rfl⟩
    · rfl
    · have hsplit : (w ++ c.opener :: c.inner) ++ [c.closer] = (a ++ k :: b) ++ [z] := by
        simpa [Comment.tokens, Comment.tail] using h
      exact absurd hk (hnone k (by simp [(List.append_inj' hsplit rfl).1]))

/-- A closing delimiter stands at the end of the first line, or further down. -/
theorem closer_place {ts rest a r : List Token} {e k : Token}
    (hts : IsPlainLine ts ∨ IsRemarkLine ts) (he : EndsLine e) (hk : k.kind = .blockClose)
    (h : ts ++ e :: rest = a ++ k :: r) : r = e :: rest ∨ ∃ a', rest = a' ++ k :: r := by
  have hne : e ≠ k := by
    rintro rfl
    simp [EndsLine, hk] at he
  rcases List.append_eq_append_iff.1 h with ⟨w, rfl, hw⟩ | ⟨w, hsplit, hw⟩
  · cases w with
    | nil => exact absurd (List.cons.inj hw).1 hne
    | cons d w => exact Or.inr ⟨w, (List.cons.inj hw).2⟩
  · cases w with
    | nil => exact absurd (List.cons.inj hw).1.symm hne
    | cons d w =>
      obtain ⟨rfl, rfl⟩ := List.cons.inj hw
      obtain rfl := closer_last hts hsplit hk
      exact Or.inl rfl

/-- Behind a closing delimiter a line ends, or the source. -/
theorem exists_rest {p : Profile} (hp : p.blockComments = false) {cs : List Char}
    {a r : List Token} {k : Token} (h : bareTokens p cs = a ++ k :: r) (hk : k.kind = .blockClose) :
    r = [eofToken] ∨
      ∃ e x, e.kind = .eol ∧ r = e :: bareTokens p x ∧ x.length < cs.length := by
  induction hn : cs.length using Nat.strongRecOn generalizing cs a with
  | ind n ih =>
    subst hn
    rcases exists_tokenLine hp cs with ⟨l, x, ts, e, rfl, hl, hline, he, htokens, -⟩ |
      ⟨ts, hts, htokens⟩
    · have hlen : x.length < (l ++ x).length := by
        simpa using List.length_pos_iff.2 hl
      rw [htokens] at h
      rcases closer_place hline.kinds (Or.inl he) hk h with rfl | ⟨a', ha'⟩
      · exact Or.inr ⟨e, x, he, rfl, hlen⟩
      · rcases ih _ hlen ha' rfl with hr | ⟨e', x', he', hr, hlen'⟩
        · exact Or.inl hr
        · exact Or.inr ⟨e', x', he', hr, hlen'.trans hlen⟩
    · rw [htokens] at h
      rcases closer_place hts (Or.inr rfl) hk h with rfl | ⟨a', ha'⟩
      · exact Or.inl rfl
      · simp at ha'

/-! ### The result of a run -/

theorem tokenTrail_eofToken : (tokenTrail eofToken).steps = [] := rfl

theorem textOf_eofToken : textOf [eofToken] = [] := rfl

theorem tokenTrail_eol {e : Token} (he : e.kind = .eol) :
    (tokenTrail e).steps = [.eol e.lexeme] := by
  rw [tokenTrail, he]
  rfl

section

variable {p : Profile} (hp : p.blockComments = false)
include hp

/-- A gap takes all from an indent on one line to the end of another one. -/
theorem calm_gap {cs : List Char} {a ts : List Token} {ss : List Step}
    (hcs : bareTokens p cs = a ++ ts) (ha : IsIndented a) (h : StartsGap ts ss)
    (hshorter : ∀ x : List Char, x.length < cs.length →
      ∀ ss, Thins (bareTokens p x) ss → Calm p (render ss)) :
    Calm p (render (tokenSteps a ++ ss)) := by
  obtain ⟨a', d, b, us, k, ss', rfl, rfl, -, ⟨o, i, q, rfl, -, hq⟩, hb, hus⟩ := h
  have hsplit : bareTokens p cs = (a ++ (a' ++ o :: i)) ++ q :: (b ++ us) := by
    rw [hcs]
    simp
  have hus_eq : ∀ e r, EndsLine e → b ++ us = e :: r → us = e :: r := by
    intro e r he hr
    cases b with
    | nil => exact hr
    | cons t b =>
      obtain ⟨rfl, -⟩ := List.cons.inj hr
      simp [EndsLine, hb] at he
  rcases exists_rest hp hsplit hq with hr | ⟨e, x, he, hr, hlen⟩
  · obtain rfl := hus_eq _ _ (Or.inr rfl) hr
    obtain ⟨ss'', rfl, hend⟩ := hus.of_end (Or.inr rfl)
    rw [hend.of_nil, List.append_nil, render_dropped ha]
    exact calm_nil p
  · obtain rfl := hus_eq _ _ (Or.inl he) hr
    obtain ⟨ss'', rfl, hx⟩ := hus.of_end (Or.inl he)
    rw [tokenTrail_eol he, List.singleton_append, render_dropped_eol ha]
    exact hshorter x hlen _ hx

/-- If only gaps are left out of a document, what is written of it is calm. -/
theorem calm_render {cs : List Char} {ss : List Step} (h : Thins (bareTokens p cs) ss) :
    Calm p (render ss) := by
  induction hn : cs.length using Nat.strongRecOn generalizing cs ss with
  | ind n ih =>
    subst hn
    have hshorter : ∀ x : List Char, x.length < cs.length →
        ∀ ss, Thins (bareTokens p x) ss → Calm p (render ss) :=
      fun x hx ss hss => ih _ hx hss rfl
    rcases exists_tokenLine hp cs with ⟨l, x, ts, e, hcs, hl, hline, he, htokens, htext⟩ |
      ⟨ts, hts, htokens⟩
    · have hlen : x.length < cs.length := by
        simpa [hcs] using List.length_pos_iff.2 hl
      rw [htokens] at h
      rcases h.of_line hline.kinds (Or.inl he) with ⟨written, ss', rfl, hwritten, hkeeps, hx⟩ |
        ⟨a, ts', ss', rfl, ha, rfl, hgap⟩
      · rw [tokenTrail_eol he, List.singleton_append, render_line hwritten, htext]
        exact hline.calm (hshorter x hlen _ hx) hkeeps
      · rw [List.append_assoc] at htokens
        exact calm_gap hp htokens ha hgap hshorter
    · rw [htokens] at h
      rcases h.of_line hts (Or.inr rfl) with ⟨written, ss', rfl, hwritten, hkeeps, hnil⟩ |
        ⟨a, ts', ss', rfl, ha, rfl, hgap⟩
      · have htext : textOf ts = cs := by
          have hall := textOf_bareTokens p cs
          rwa [htokens, textOf_append, textOf_eofToken, List.append_nil] at hall
        rw [hnil.of_nil, tokenTrail_eofToken, List.append_nil, List.append_nil,
          render_of_copies hwritten, htext, Calm, htokens]
        apply hkeeps
        rw [← bareTokens_nil p]
        exact calm_nil p
      · rw [List.append_assoc] at htokens
        exact calm_gap hp htokens ha hgap hshorter

end

/-! ### A second run -/

theorem startsInline_bare (ts : List Token) :
    startsInline (ts.map Token.bare) = startsInline ts := by
  cases ts with
  | nil => rfl
  | cons t r =>
    rw [List.map_cons, startsInline, startsInline, Token.bare_kind, cutAt_bare]
    split
    · cases cutAt .blockClose r with
      | none => rfl
      | some cut =>
        dsimp only [Option.map_some, Cut.bare]
        rw [classify_bare]
        cases classify cut.inner with
        | error e => rfl
        | ok d => cases d <;> rfl
    · rfl

/-- **In a language with line comments only, a second run changes nothing**, unless a
    comment of the source holds a whole region. -/
theorem transform_idempotent {o : Options} (hlanguage : o.language = .python)
    (hlicenses : o.licenses.isEmpty = true) (hheader : o.autoHeader = false)
    {source out : String}
    (hinline : ∀ u, u <:+ tokenize o.language.profile source → startsInline u = false)
    (h : transform o source = .ok out) : transform o out = .ok out := by
  have hp : o.language.profile.blockComments = false := by rw [hlanguage]; rfl
  obtain ⟨hvalid, hresult⟩ := (transform_eq_ok_iff hheader).1 h
  rw [evaluateTokens_result_iff hlicenses] at hresult
  have hcalm : Calm o.language.profile out.toList := by
    by_cases hexcluded : (evaluatePart o (Level.ofDepth o maxDepth maxDepth)
        (bareTokens o.language.profile source.toList)).stop = some .excluded
    · -- an excluded document is empty
      rw [Trail.result, hexcluded] at hresult
      rw [← Except.ok.inj hresult]
      exact calm_nil _
    · have hstop := Trail.stop_eq_none_of_result hresult hexcluded
      rw [Trail.result_of_none hstop] at hresult
      rw [← Except.ok.inj hresult, String.toList_ofList]
      apply calm_render hp
      apply evaluatePart_thins hlicenses _ (bareTokens_docOpen hp _) hstop
      intro u hu
      rw [← bare_tokenize] at hu
      obtain ⟨v, hv, rfl⟩ := List.suffix_map_iff.1 hu
      rw [startsInline_bare]
      exact hinline v hv
  rw [transform_eq_ok_iff hheader, evaluateTokens_result_iff hlicenses,
    evaluatePart_of_calm hcalm, String.ofList_toList]
  exact ⟨hvalid, rfl⟩

/-- A region in a region, literals over several lines that hold remarks, stray
    directives, and breaks that come together when the lines between them go. -/
def pythonSource : String :=
  "# @include-if A\r\nx = 'a\\\n\r# @end'\n\r# @exclude-if B\ny = \"\"\"\n# @end\"\"\"\n" ++
    "# @end\n\t# @else\nz\n \t# @end\r\n\r# @end\nw # @include-if C\n" ++
    "  # @include-if B\n# @else\nv\n#@end"

def pythonOptions : Options := Options.withKeys { language := .python } ["A", "B"]

def pythonResult : String := "x = 'a\\\n\r# @end'\n\r\r# @end\nw # @include-if C\n"

theorem transform_idempotent_regions :
    (∀ u, u <:+ tokenize Language.python.profile pythonSource → startsInline u = false) ∧
      transform pythonOptions pythonSource = .ok pythonResult ∧
      transform pythonOptions pythonResult = .ok pythonResult := by
  have htails : ∀ u ∈ (tokenize Language.python.profile pythonSource).tails,
      startsInline u = false := by decide +kernel
  have hinline : ∀ u, u <:+ tokenize Language.python.profile pythonSource →
      startsInline u = false := fun u hu => htails u ((List.mem_tails u _).2 hu)
  have hfirst : transform pythonOptions pythonSource = .ok pythonResult := by decide +kernel
  exact ⟨hinline, hfirst, transform_idempotent rfl (by decide +kernel) rfl hinline hfirst⟩

-- an inline body may bring in quotes, and then other lines are literals
example :
    (transform (Options.withKeys { language := .python } ["A"])
        "# @include-if A \"\"\" @end\n\"\"\"\n# @include-if B\n\"\"\"").bind
      (transform (Options.withKeys { language := .python } ["A"])) =
    .error (.unclosedDirective .includeIf "B" 3 1) := by decide +kernel

end FeatureCut
