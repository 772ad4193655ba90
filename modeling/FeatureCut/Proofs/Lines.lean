/-
  FeatureCut/Proofs/Lines.lean
  ============================
  **Documents line by line.**

  Where there are no block comments a document is a list of lines.  A line ends with
  a line break at the level of code; a literal may take it over several lines of the
  text.  Either it has nothing but text and line breaks on it, or it is a line
  comment, with nothing but an indent in front (`LineShape`).

  `exists_line` cuts the first line off a document, and says that the line is read in
  the same way whatever follows it.  One character of what follows may be lost on
  the way: a break character that makes a pair with the break of the line.  In terms of
  tokens this is `exists_tokenLine`.
-/
import FeatureCut.Proofs.Concatenation
import FeatureCut.Proofs.Forest
import FeatureCut.Proofs.Grammar
import FeatureCut.Proofs.Lossless

namespace FeatureCut

/-! ### Readers that reach the end -/

theorem quotedBody_length (q : Char) (cs : List Char) :
    (quotedBody q cs).2.length ≤ cs.length := by
  have h := congrArg List.length (quotedBody_append q cs)
  rw [List.length_append] at h
  omega

theorem tripleBody_length (q : Char) (cs : List Char) :
    (tripleBody q cs).2.length ≤ cs.length := by
  have h := congrArg List.length (tripleBody_append q cs)
  rw [List.length_append] at h
  omega

theorem quotedBody_escape {q : Char} (x : List Char) :
    (quotedBody q ('\\' :: x)).2.length ≤ x.length := by
  match x with
  | [] => simp [quotedBody]
  | [d] => simp [quotedBody]
  | d :: e :: t =>
    have ht := quotedBody_length q t
    have ht' := quotedBody_length q (e :: t)
    by_cases hpair : isBreakPair d e = true
    · simp only [quotedBody, hpair]
      simp
      omega
    · simp only [quotedBody, hpair]
      simp at ht' ⊢
      omega

/-- A literal that does not end in a text takes all of it. -/
theorem quotedBody_reach {q : Char} {cs : List Char} (h : (quotedBody q cs).2 = [])
    (x : List Char) : (quotedBody q (cs ++ x)).2.length ≤ x.length := by
  fun_induction quotedBody q cs with
  | case1 => exact quotedBody_length q x
  | case2 d e t hpair ih =>
    simpa [quotedBody, hpair] using ih h
  | case3 d e t hpair ih =>
    simpa [quotedBody, hpair] using ih h
  | case4 r hshort =>
    rcases r with _ | ⟨d, _ | ⟨e, t⟩⟩
    · exact quotedBody_escape x
    · have hx := quotedBody_length q x
      cases x with
      | nil => simp [quotedBody]
      | cons e t =>
        have ht := quotedBody_length q t
        by_cases hpair : isBreakPair d e = true
        · simp only [List.cons_append, List.nil_append, quotedBody, hpair]
          simp
          omega
        · simpa [quotedBody, hpair] using hx
    · exact absurd rfl (hshort d e t)
  | case5 c r hc hbreak => cases h
  | case6 r hc hbreak =>
    have hr : r = [] := h
    rw [hr, List.cons_append, quotedBody.eq_def]
    simp [hc, hbreak]
  | case7 c r hc hbreak hq ih =>
    rw [List.cons_append, quotedBody.eq_def]
    simpa [hc, hbreak, hq] using ih h

theorem dropWhile_reach {p : Char → Bool} {cs : List Char} (h : cs.dropWhile p = [])
    (x : List Char) : ((cs ++ x).dropWhile p).length ≤ x.length := by
  rw [List.dropWhile_append, if_pos (by simp [h])]
  exact (x.dropWhile_suffix p).length_le

theorem tripleBody_reach {q : Char} {cs : List Char} (h : (tripleBody q cs).2 = [])
    (x : List Char) : (tripleBody q (cs ++ x)).2.length ≤ x.length := by
  fun_induction tripleBody q cs with
  | case1 => exact tripleBody_length q x
  | case2 d t ih => simpa [tripleBody] using ih h
  | case3 =>
    cases x with
    | nil => simp [tripleBody]
    | cons d t =>
      have ht := tripleBody_length q t
      simp [tripleBody]
      omega
  | case4 c r hc hq =>
    have hlong : (c = q && ((r ++ x).takeWhile (· == q)).length ≥ 2) = true := by
      have hlen : (r.takeWhile (· == q)).length ≤ ((r ++ x).takeWhile (· == q)).length := by
        rw [List.takeWhile_append]
        split
        · rw [List.length_append]
          omega
        · exact Nat.le_refl _
      simp only [Bool.and_eq_true, decide_eq_true_eq] at hq ⊢
      exact ⟨hq.1, by omega⟩
    rw [List.cons_append, tripleBody.eq_def]
    dsimp only
    rw [if_neg hc, if_pos hlong]
    exact dropWhile_reach h x
  | case5 c r hc hq ih =>
    rw [List.cons_append, tripleBody.eq_def]
    dsimp only
    rw [if_neg hc]
    split
    · rename_i hlong
      -- the run of quotes goes on behind the text
      by_cases hrest : r.dropWhile (· == q) = []
      · exact dropWhile_reach hrest x
      · rw [takeWhile_extend hrest] at hlong
        exact absurd hlong hq
    · exact ih h

theorem literalBody_reach {p : Profile} {q : Char} (hq : isBreak q = false) {r : List Char}
    (hr : HasBreak r) (h : (literalBody p q r).2 = []) (x : List Char) :
    (literalBody p q (r ++ x)).2.length ≤ x.length := by
  match r, hr, h with
  | [b], hr, h =>
    -- the break ends the literal
    obtain ⟨c, hc, hbreak⟩ := hr
    obtain rfl := List.mem_singleton.1 hc
    have hslash : c ≠ '\\' := by
      rintro rfl
      cases hbreak
    have hne : c ≠ q := by
      rintro rfl
      rw [hbreak] at hq
      cases hq
    simp [literalBody, quotedBody, hslash, hbreak] at h
  | c :: d :: t, hr, h =>
    unfold literalBody at h ⊢
    have htake : (c :: d :: t ++ x).take 2 = (c :: d :: t).take 2 := rfl
    rw [htake]
    split
    · rename_i hopen
      rw [if_pos hopen, extendFirst_snd] at h
      exact tripleBody_reach h x
    · rename_i hopen
      rw [if_neg hopen] at h
      exact quotedBody_reach h x

/-! ### Moves that reach the end -/

theorem lineMove_rest (marker : List Char) {r : List Char} (hr : HasBreak r) :
    (lineMove marker r).rest ≠ [] := by
  unfold lineMove
  split
  · exact hr.ne_nil
  · exact hr.fromBreak.ne_nil

theorem breakFrom_reach {c : Char} {r x : List Char} (hr : HasBreak r)
    (h : (breakFrom c r).2 = []) : (breakFrom c (r ++ x)).2.length ≤ x.length := by
  match r, hr, h with
  | [d], _, h =>
    by_cases hpair : isBreakPair c d = true
    · simp [breakFrom, hpair]
    · simp [breakFrom, hpair] at h
  | d :: e :: t, _, h =>
    by_cases hpair : isBreakPair c d = true
    · simp [breakFrom, hpair] at h
    · simp [breakFrom, hpair] at h

theorem slashMove_rest {r : List Char} (hr : HasBreak r) : (slashMove r).rest ≠ [] := by
  fun_cases slashMove r with
  | case1 t => exact (((hr.of_cons rfl).of_cons rfl).of_cons rfl).ne_nil
  | case2 t => exact ((hr.of_cons rfl).of_cons rfl).ne_nil
  | case3 t => exact (hr.of_cons rfl).ne_nil
  | case4 => exact hr.ne_nil

theorem codeMove_reach {p : Profile} {fresh : Bool} {c : Char} {r : List Char} (hr : HasBreak r)
    (h : (codeMove p fresh c r).rest = []) (x : List Char) :
    (codeMove p fresh c (r ++ x)).rest.length ≤ x.length := by
  obtain ⟨d, t, rfl⟩ := List.exists_cons_of_ne_nil hr.ne_nil
  unfold codeMove at h ⊢
  by_cases hbreak : isBreak c = true
  · simp only [if_pos hbreak] at h ⊢
    exact breakFrom_reach hr h
  simp only [if_neg hbreak] at h ⊢
  by_cases hslash : (p.blockComments && c == '/') = true
  · simp only [if_pos hslash] at h
    exact absurd h (slashMove_rest hr)
  simp only [if_neg hslash] at h ⊢
  by_cases hquote : (c == '"' || c == '\'') = true
  · simp only [if_pos hquote] at h ⊢
    exact literalBody_reach (by simpa using hbreak) hr h x
  simp only [if_neg hquote] at h ⊢
  by_cases hhash : (p.hashComments && fresh && c == '#') = true
  · simp only [if_pos hhash] at h
    exact absurd h (lineMove_rest _ hr)
  simp only [if_neg hhash] at h
  by_cases hyphen :
      (p.doubleHyphenComments && fresh && c == '-' && (d :: t).head? == some '-') = true
  · simp only [if_pos hyphen] at h
    have hd : d = '-' := by simp_all
    exact absurd h (lineMove_rest _ (hr.of_cons (by rw [hd]; rfl)))
  · simp only [if_neg hyphen] at h
    exact absurd h hr.ne_nil

theorem delimiterMove_rest (p : Profile) (e : Enclosure) (c : Char) {r : List Char}
    (hr : HasBreak r) : (delimiterMove p e c r).rest ≠ [] := by
  fun_cases delimiterMove p e c r with
  | case1 t he => exact (hr.of_cons rfl).ne_nil
  | case2 t he => exact (hr.of_cons rfl).ne_nil
  | case3 t he => exact (((hr.of_cons rfl).of_cons rfl).of_cons rfl).ne_nil
  | case4 t he => exact (((hr.of_cons rfl).of_cons rfl).of_cons rfl).ne_nil
  | case5 t he => exact ((hr.of_cons rfl).of_cons rfl).ne_nil
  | case6 t he => exact ((hr.of_cons rfl).of_cons rfl).ne_nil
  | case7 => exact hr.ne_nil

theorem atomMove_rest (e : Enclosure) {r : List Char} (hr : HasBreak r) :
    (atomMove e r).rest ≠ [] := by
  unfold atomMove
  dsimp only
  split
  · exact hr.atomTail.ne_nil
  · exact hr.atomTail.ne_nil

theorem commentMove_reach {p : Profile} {e : Enclosure} {due : Bool} {c : Char} {r : List Char}
    (hr : HasBreak r) (h : (commentMove p e due c r).rest = []) (x : List Char) :
    (commentMove p e due c (r ++ x)).rest.length ≤ x.length := by
  unfold commentMove at h ⊢
  by_cases hbreak : isBreak c = true
  · simp only [if_pos hbreak] at h ⊢
    cases e <;> exact breakFrom_reach hr h
  -- all other moves stop before the break
  have hkey : HasBreak (r.dropWhile fun d => !isBoundary d) :=
    hr.dropWhile fun d hd => by simp [isBoundary_of_isBreak hd]
  rw [if_neg hbreak] at h
  split at h
  · exact absurd h (atomMove_rest _ hr)
  split at h
  · exact absurd h hr.ne_nil
  split at h
  · exact absurd h (delimiterMove_rest p _ c hr)
  split at h
  · exact absurd h hkey.ne_nil
  · exact absurd h hr.ne_nil

/-- A move that has a break before it is the same without what it leaves behind. -/
theorem Mode.move_truncate {p : Profile} {m : Mode} {c : Char} {w x l : List Char}
    (hw : HasBreak w) (hl : l ≠ []) (h : (m.move p c (w ++ x)).rest = l ++ x) :
    (m.move p c w).rest = l ∧ ∀ y, m.move p c (w ++ y) = (m.move p c w).extend y := by
  have hne : (m.move p c w).rest ≠ [] := by
    intro hnil
    have hreach : (m.move p c (w ++ x)).rest.length ≤ x.length := by
      cases m with
      | code fresh => exact codeMove_reach hw hnil x
      | comment e due => exact commentMove_reach hw hnil x
    have hpos := List.length_pos_iff.2 hl
    rw [h, List.length_append] at hreach
    omega
  have hextend := fun y => Mode.move_extend hw hne y
  refine ⟨?_, hextend⟩
  rw [hextend x] at h
  exact List.append_cancel_right h

/-! ### Lines -/

def IsPlain (ps : List Piece) : Prop := ∀ q ∈ ps, q.kind = .text ∨ q.kind = .eol

/-- The rest of a line comment, up to its empty close. -/
def IsCommentRest (ps : List Piece) : Prop :=
  ∃ inner, ps = inner ++ [lineCloser] ∧ ∀ q ∈ inner, q.kind ≠ .blockClose

/-- An indent and a line comment. -/
def IsCommentLine (ps : List Piece) : Prop :=
  ∃ a o rest, ps = a ++ o :: rest ∧ (∀ q ∈ a, q.IsIndent) ∧ Delimits o lineCloser ∧
    IsCommentRest rest

/-- What a line without its break is made of, from where the scanner stands on it. -/
def LineShape : Mode → List Piece → Prop
  | .code fresh, ps => IsPlain ps ∨ fresh = true ∧ IsCommentLine ps
  | .comment .line _, ps => IsCommentRest ps
  | .comment _ _, _ => False

/-- What may be left of a text once a line break before it has been read: a break
    character at its start may belong to that break. -/
def Leaves (y y' : List Char) : Prop := y' = y ∨ ∃ c, isBreak c = true ∧ y = c :: y'

/-- A line with its break, which is read as the same pieces whatever follows it. -/
structure IsLine (p : Profile) (m : Mode) (l : List Char) (ps : List Piece) : Prop where
  hasBreak : HasBreak l
  shape : LineShape m ps
  reads : ∀ y, ∃ e y', e.kind = .eol ∧ Leaves y y' ∧
    scan p m (l ++ y) = ps ++ e :: scan p (.code true) y'

theorem breakFrom_leaves {c : Char} {r t x : List Char} (h : breakFrom c r = (c :: t, x))
    (y : List Char) : Leaves y (breakFrom c (t ++ y)).2 := by
  have hsingle : ∀ y : List Char, Leaves y (breakFrom c y).2 := by
    intro y
    cases y with
    | nil => exact Or.inl rfl
    | cons d y =>
      by_cases hpair : isBreakPair c d = true
      · have hd : isBreak d = true := by
          simp only [isBreakPair, Bool.and_eq_true] at hpair
          exact hpair.1.2
        exact Or.inr ⟨d, hd, by simp [breakFrom, hpair]⟩
      · exact Or.inl (by simp [breakFrom, hpair])
  cases r with
  | nil =>
    cases h
    exact hsingle y
  | cons d r =>
    by_cases hpair : isBreakPair c d = true
    · rw [breakFrom, if_pos hpair] at h
      cases h
      exact Or.inl (by simp [breakFrom, hpair])
    · rw [breakFrom, if_neg hpair] at h
      cases h
      exact hsingle y

theorem isCommentRest_closer : IsCommentRest [lineCloser] := ⟨[], rfl, by simp⟩

section

variable {p : Profile} {m : Mode} (hm : m.endsLines = true)
include hm

/-- A line break ends the line, and a comment on it. -/
theorem Mode.move_break {c : Char} (hc : isBreak c = true) :
    ∃ pre, LineShape m pre ∧ ∀ r, m.move p c r =
      ⟨pre ++ [⟨.eol, (breakFrom c r).1, .code⟩], (breakFrom c r).2, .code true⟩ := by
  cases m with
  | code fresh =>
    refine ⟨[], Or.inl (by simp [IsPlain]), ?_⟩
    intro r
    simp [Mode.move, codeMove, hc]
  | comment e due =>
    cases e with
    | line =>
      refine ⟨[lineCloser], isCommentRest_closer, ?_⟩
      intro r
      simp [Mode.move, commentMove, commentBreakMove, hc, lineCloser]
    | block => cases hm
    | html => cases hm

theorem Mode.finish_shape : ∃ ps, LineShape m ps ∧ m.finish = ps ++ [⟨.eof, [], .code⟩] := by
  cases m with
  | code fresh => exact ⟨[], Or.inl (by simp [IsPlain]), rfl⟩
  | comment e due =>
    cases e with
    | line => exact ⟨[lineCloser], isCommentRest_closer, rfl⟩
    | block => cases hm
    | html => cases hm

end

theorem isPlain_literalPieces (body : List Char) : IsPlain (literalPieces body) := by
  intro q hq
  obtain ⟨s, -, rfl⟩ := List.mem_map.1 hq
  cases s with
  | text cs => exact Or.inl rfl
  | eol cs => exact Or.inr rfl

theorem IsPlain.append {a b : List Piece} (ha : IsPlain a) (hb : IsPlain b) : IsPlain (a ++ b) := by
  intro q hq
  rcases List.mem_append.1 hq with hq | hq
  · exact ha q hq
  · exact hb q hq

theorem isPlain_text (cs : List Char) (context : Context) : IsPlain [⟨.text, cs, context⟩] := by
  intro q hq
  rw [List.mem_singleton.1 hq]
  exact Or.inl rfl

/-- Where the line is not fresh any more it is plain to its end. -/
theorem LineShape.plain {ps : List Piece} (h : LineShape (.code false) ps) : IsPlain ps := by
  rcases h with h | ⟨hfresh, -⟩
  · exact h
  · cases hfresh

theorem IsCommentRest.cons {q : Piece} {ps : List Piece} (hq : q.kind ≠ .blockClose)
    (h : IsCommentRest ps) : IsCommentRest (q :: ps) := by
  obtain ⟨inner, rfl, hinner⟩ := h
  refine ⟨q :: inner, rfl, ?_⟩
  intro u hu
  rcases List.mem_cons.1 hu with rfl | hu
  · exact hq
  · exact hinner u hu

theorem lineMove_endsLines (marker r : List Char) : (lineMove marker r).mode.endsLines = true := by
  unfold lineMove
  split <;> rfl

theorem lineMove_shape {marker r : List Char}
    (hmarker : Delimits ⟨.blockOpen, marker, .code⟩ lineCloser) {ps : List Piece}
    (h : LineShape (lineMove marker r).mode ps) :
    LineShape (.code true) ((lineMove marker r).pieces ++ ps) := by
  unfold lineMove at h ⊢
  split at h
  · rename_i hatom
    rw [if_pos hatom]
    exact Or.inr ⟨rfl, [], _, ps, rfl, by simp, hmarker, h⟩
  · rename_i hatom
    rw [if_neg hatom]
    exact Or.inl ((isPlain_text _ _).append h.plain)

theorem codeMove_endsLines {p : Profile} (hp : p.blockComments = false) (fresh : Bool) (c : Char)
    (r : List Char) : (codeMove p fresh c r).mode.endsLines = true := by
  unfold codeMove
  rw [hp, Bool.false_and, if_neg Bool.false_ne_true]
  split
  · rfl
  split
  · rfl
  split
  · exact lineMove_endsLines _ _
  split
  · exact lineMove_endsLines _ _
  · rfl

theorem codeMove_shape {p : Profile} (hp : p.blockComments = false) {fresh : Bool} {c : Char}
    (hc : isBreak c = false) {r : List Char} {ps : List Piece}
    (h : LineShape (codeMove p fresh c r).mode ps) :
    LineShape (.code fresh) ((codeMove p fresh c r).pieces ++ ps) := by
  unfold codeMove at h ⊢
  simp only [hp, hc, Bool.false_and, Bool.false_eq_true, if_false] at h ⊢
  by_cases hquote : (c == '"' || c == '\'') = true
  · simp only [if_pos hquote] at h ⊢
    exact Or.inl ((isPlain_literalPieces _).append h.plain)
  simp only [if_neg hquote] at h ⊢
  by_cases hhash : (p.hashComments && fresh && c == '#') = true
  · simp only [if_pos hhash] at h ⊢
    obtain rfl : fresh = true := by simp_all
    exact lineMove_shape .hash h
  simp only [if_neg hhash] at h ⊢
  by_cases hyphen : (p.doubleHyphenComments && fresh && c == '-' && r.head? == some '-') = true
  · simp only [if_pos hyphen] at h ⊢
    obtain rfl : fresh = true := by simp_all
    exact lineMove_shape .hyphens h
  simp only [if_neg hyphen] at h ⊢
  rcases h with h | ⟨hfresh, a, o, rest, rfl, ha, ho, hrest⟩
  · exact Or.inl ((isPlain_text _ _).append h)
  · -- an indent before a comment
    obtain ⟨hfresh, hindent⟩ : fresh = true ∧ isIndent c = true := by simpa using hfresh
    refine Or.inr ⟨hfresh, ⟨.text, [c], .code⟩ :: a, o, rest, rfl, ?_, ho, hrest⟩
    intro q hq
    rcases List.mem_cons.1 hq with rfl | hq
    · exact ⟨rfl, by simpa using hindent⟩
    · exact ha q hq

theorem commentMove_shape {p : Profile} {due : Bool} {c : Char} (hc : isBreak c = false)
    (r : List Char) :
    (commentMove p .line due c r).mode.endsLines = true ∧
      ∀ ps, LineShape (commentMove p .line due c r).mode ps →
        IsCommentRest ((commentMove p .line due c r).pieces ++ ps) := by
  -- each of these moves reads one piece and stays in the comment
  have hpiece : ∀ (q : Piece) (rest : List Char) (due' : Bool), q.kind ≠ .blockClose →
      (⟨[q], rest, .comment .line due'⟩ : Move).mode.endsLines = true ∧
        ∀ ps, LineShape (⟨[q], rest, .comment .line due'⟩ : Move).mode ps →
          IsCommentRest ((⟨[q], rest, .comment .line due'⟩ : Move).pieces ++ ps) :=
    fun q rest due' hq => ⟨rfl, fun ps h => IsCommentRest.cons hq h⟩
  unfold commentMove
  rw [hc, if_neg Bool.false_ne_true]
  split
  · unfold atomMove
    dsimp only
    split
    · exact hpiece _ _ _ Kind.noConfusion
    · exact hpiece _ _ _ Kind.noConfusion
  split
  · exact hpiece _ _ _ Kind.noConfusion
  split
  · fun_cases delimiterMove p .line c r with
    | case1 t he => cases he
    | case3 t he => simp at he
    | case5 t he => cases he
    | case2 => exact hpiece _ _ _ Kind.noConfusion
    | case4 => exact hpiece _ _ _ Kind.noConfusion
    | case6 => exact hpiece _ _ _ Kind.noConfusion
    | case7 => exact hpiece _ _ _ Kind.noConfusion
  split
  · exact hpiece _ _ _ Kind.noConfusion
  · exact hpiece _ _ _ Kind.noConfusion

theorem Mode.move_shape {p : Profile} (hp : p.blockComments = false) {m : Mode}
    (hm : m.endsLines = true) {c : Char} (hc : isBreak c = false) (r : List Char) :
    (m.move p c r).mode.endsLines = true ∧
      ∀ ps, LineShape (m.move p c r).mode ps → LineShape m ((m.move p c r).pieces ++ ps) := by
  cases m with
  | code fresh => exact ⟨codeMove_endsLines hp fresh c r, fun ps h => codeMove_shape hp hc h⟩
  | comment e due =>
    cases e with
    | line => exact commentMove_shape hc r
    | block => cases hm
    | html => cases hm

/-- Every text starts with a line, unless no line of it ends. -/
theorem exists_line {p : Profile} (hp : p.blockComments = false) {m : Mode}
    (hm : m.endsLines = true) (cs : List Char) :
    (∃ l x ps e, cs = l ++ x ∧ IsLine p m l ps ∧ e.kind = .eol ∧
      scan p m cs = ps ++ e :: scan p (.code true) x) ∨
    (∃ ps, LineShape m ps ∧ scan p m cs = ps ++ [⟨.eof, [], .code⟩]) := by
  induction hn : cs.length using Nat.strongRecOn generalizing cs m with
  | ind n ih =>
    subst hn
    cases cs with
    | nil =>
      obtain ⟨ps, hshape, hfinish⟩ := Mode.finish_shape hm
      exact Or.inr ⟨ps, hshape, by rw [scan, hfinish]⟩
    | cons c r =>
      by_cases hc : isBreak c = true
      · obtain ⟨pre, hshape, hmove⟩ := Mode.move_break (p := p) hm hc
        obtain ⟨t, x, hbreak⟩ := exists_breakFrom c r
        have hread : ∀ y, scan p m (c :: (t ++ y)) =
            pre ++ ⟨.eol, (breakFrom c (t ++ y)).1, .code⟩ ::
              scan p (.code true) (breakFrom c (t ++ y)).2 := by
          intro y
          rw [scan, hmove]
          simp
        have hsplit : t ++ x = r := by
          have h := breakFrom_append c r
          rw [hbreak] at h
          exact (List.cons.inj h).2
        refine Or.inl ⟨c :: t, x, pre, ⟨.eol, c :: t, .code⟩, by rw [← hsplit]; rfl, ?_, rfl, ?_⟩
        · refine ⟨⟨c, by simp, hc⟩, hshape, ?_⟩
          intro y
          exact ⟨⟨.eol, (breakFrom c (t ++ y)).1, .code⟩, _, rfl, breakFrom_leaves hbreak y,
            hread y⟩
        · have h := hread x
          rw [hsplit, hbreak] at h
          exact h
      · have hc : isBreak c = false := by simpa using hc
        obtain ⟨hmode, hshape⟩ := Mode.move_shape hp hm hc r
        have hlen := m.move_length p c r
        rcases ih _ (Nat.lt_succ_of_le hlen) hmode (m.move p c r).rest rfl with
          ⟨l, x, ps, e, hrest, hline, he, hscan⟩ | ⟨ps, hps, hscan⟩
        · -- what the move reads belongs to the line
          obtain ⟨d, w, hw⟩ := List.exists_cons_of_ne_nil (m.move_ne_nil p c r)
          have hlossless := m.move_lossless p c r
          rw [hw, hrest, List.cons_append] at hlossless
          obtain ⟨rfl, hr⟩ := List.cons.inj hlossless
          rw [← List.append_assoc] at hr
          have hbreaks : HasBreak (w ++ l) := by
            obtain ⟨b, hb, hbreak⟩ := hline.hasBreak
            exact ⟨b, List.mem_append_right w hb, hbreak⟩
          have hmoved : (m.move p d (w ++ l ++ x)).rest = l ++ x := by rw [hr, hrest]
          obtain ⟨hleft, hextend⟩ :=
            Mode.move_truncate hbreaks hline.hasBreak.ne_nil hmoved
          have hsame := hextend x
          rw [hr] at hsame
          refine Or.inl ⟨d :: (w ++ l), x, (m.move p d r).pieces ++ ps, e, by rw [← hr]; rfl,
            ?_, he, by rw [scan, hscan, List.append_assoc]⟩
          obtain ⟨b, hb, hbreak⟩ := hbreaks
          refine ⟨⟨b, List.mem_cons_of_mem d hb, hbreak⟩, hshape ps hline.shape, ?_⟩
          intro y
          obtain ⟨e', y', he', hleaves, hread⟩ := hline.reads y
          refine ⟨e', y', he', hleaves, ?_⟩
          have hmoved' : m.move p d (w ++ l ++ y) = ⟨(m.move p d r).pieces, l ++ y,
              (m.move p d r).mode⟩ := by
            rw [hextend y, hsame, Move.extend, Move.extend, hleft]
          rw [List.cons_append, scan, hmoved', hread, List.append_assoc]
        · exact Or.inr ⟨_, hshape ps hps, by rw [scan, hscan, List.append_assoc]⟩

/-! ### The tokens of a line -/

/-- The tokens of a line without its break: text and the breaks inside of literals. -/
def IsPlainLine (ts : List Token) : Prop := ∀ t ∈ ts, t.kind = .text ∨ t.kind = .eol

def IsIndented (ts : List Token) : Prop := ∀ t ∈ ts, t.toPiece.IsIndent

/-- The tokens of a line without its break: an indent and a comment. -/
def IsRemarkLine (ts : List Token) : Prop :=
  ∃ (a : List Token) (c : Comment .blockOpen), ts = a ++ c.tokens ∧ IsIndented a ∧
    ∃ d ∈ c.opener.lexeme, isIndent d = false

theorem IsPlain.bare {ps : List Piece} (h : IsPlain ps) :
    IsPlainLine ((coalesce ps).map Piece.bare) := by
  have hcoalesce : ∀ q ∈ coalesce ps, q.kind = .text ∨ q.kind = .eol :=
    forall_mem_coalesce (fun _ _ _ _ _ _ => Or.inl rfl) h
  intro t ht
  obtain ⟨q, hq, rfl⟩ := List.mem_map.1 ht
  exact hcoalesce q hq

theorem IsCommentLine.bare {ps : List Piece} (h : IsCommentLine ps) :
    IsRemarkLine ((coalesce ps).map Piece.bare) := by
  obtain ⟨a, o, rest, rfl, ha, ho, inner, rfl, hinner⟩ := h
  have hopener : o.kind = .blockOpen := by cases ho <;> rfl
  have hindent : ∀ q ∈ coalesce a, q.IsIndent := by
    refine forall_mem_coalesce ?_ ha
    rintro q r hq ⟨-, hqs⟩ ⟨-, hrs⟩ -
    refine ⟨rfl, ?_⟩
    intro c hc
    rcases List.mem_append.1 hc with hc | hc
    · exact hqs c hc
    · exact hrs c hc
  have hkinds : ∀ q ∈ coalesce inner, q.kind ≠ .blockClose :=
    forall_mem_coalesce (fun _ _ _ _ _ _ => Kind.noConfusion) hinner
  have hsplit : coalesce (a ++ o :: (inner ++ [lineCloser])) =
      coalesce a ++ o :: (coalesce inner ++ [lineCloser]) := by
    rw [coalesce_append_cons a (by simp [hopener]),
      coalesce_append_cons inner (by simp [lineCloser])]
    rfl
  refine ⟨(coalesce a).map Piece.bare,
    ⟨o.bare, (coalesce inner).map Piece.bare, lineCloser.bare, hopener, ?_, rfl⟩, ?_, ?_, ?_⟩
  · intro t ht
    obtain ⟨q, hq, rfl⟩ := List.mem_map.1 ht
    exact hkinds q hq
  · rw [hsplit]
    simp [Comment.tokens, Comment.tail]
  · intro t ht
    obtain ⟨q, hq, rfl⟩ := List.mem_map.1 ht
    exact hindent q hq
  · exact ho.content

theorem LineShape.bare {ps : List Piece} (h : LineShape (.code true) ps) :
    IsPlainLine ((coalesce ps).map Piece.bare) ∨ IsRemarkLine ((coalesce ps).map Piece.bare) := by
  rcases h with h | ⟨-, h⟩
  · exact Or.inl h.bare
  · exact Or.inr h.bare

theorem bareTokens_line {p : Profile} {l y : List Char} {ps : List Piece} {e : Piece}
    (he : e.kind = .eol) (h : scan p (.code true) l = ps ++ e :: scan p (.code true) y) :
    bareTokens p l = (coalesce ps).map Piece.bare ++ e.bare :: bareTokens p y := by
  rw [bareTokens, h, coalesce_append_cons ps (by simp [he])]
  simp [bareTokens]

theorem textOf_bareTokens (p : Profile) (cs : List Char) : textOf (bareTokens p cs) = cs := by
  rw [bareTokens, textOf_map_bare, lexemes_coalesce, lexemes_scan]

/-- A line with its break that gives the same tokens whatever follows it. -/
structure IsTokenLine (p : Profile) (l : List Char) (ts : List Token) : Prop where
  kinds : IsPlainLine ts ∨ IsRemarkLine ts
  reads : ∀ y, ∃ e y', e.kind = .eol ∧ Leaves y y' ∧
    bareTokens p (l ++ y) = ts ++ e :: bareTokens p y'

theorem exists_tokenLine {p : Profile} (hp : p.blockComments = false) (cs : List Char) :
    (∃ l x ts e, cs = l ++ x ∧ l ≠ [] ∧ IsTokenLine p l ts ∧ e.kind = .eol ∧
      bareTokens p cs = ts ++ e :: bareTokens p x ∧ textOf ts ++ e.lexeme = l) ∨
    (∃ ts, (IsPlainLine ts ∨ IsRemarkLine ts) ∧ bareTokens p cs = ts ++ [eofToken]) := by
  have hm : (Mode.code true).endsLines = true := rfl
  rcases exists_line hp hm cs with ⟨l, x, ps, e, rfl, hline, he, hscan⟩ | ⟨ps, hshape, hscan⟩
  · have htokens := bareTokens_line he hscan
    have htext := congrArg textOf htokens
    simp only [textOf_bareTokens, textOf_append, textOf_cons, ← List.append_assoc] at htext
    refine Or.inl ⟨l, x, _, e.bare, rfl, hline.hasBreak.ne_nil, ⟨hline.shape.bare, ?_⟩, he, htokens,
      (List.append_cancel_right htext).symm⟩
    intro y
    obtain ⟨e', y', he', hleaves, hread⟩ := hline.reads y
    exact ⟨e'.bare, y', he', hleaves, bareTokens_line he' hread⟩
  · refine Or.inr ⟨_, hshape.bare, ?_⟩
    rw [bareTokens, hscan, coalesce_append_cons ps Kind.noConfusion, List.map_append]
    rfl

/-! ### Doc comments -/

theorem Mode.move_docOpen {p : Profile} (hp : p.blockComments = false) (m : Mode) (c : Char)
    (r : List Char) : ∀ q ∈ (m.move p c r).pieces, q.kind ≠ .docOpen := by
  cases m with
  | code fresh =>
    simp only [Mode.move, codeMove, hp, Bool.false_and]
    split
    · simp
    split
    · contradiction
    split
    · intro q hq
      rcases isPlain_literalPieces _ q hq with h | h <;> simp [h]
    split
    · exact fun q hq => (lineMove_kind _ _ q hq).2
    split
    · exact fun q hq => (lineMove_kind _ _ q hq).2
    · simp [Move.text]
  | comment e due =>
    by_cases hc : isBreak c = true
    · simp only [Mode.move, commentMove, if_pos hc]
      cases e <;> simp [commentBreakMove]
    · exact fun q hq => (commentMove_kind (by simpa using hc) r q hq).2

theorem scan_docOpen {p : Profile} (hp : p.blockComments = false) (m : Mode) (cs : List Char) :
    ∀ q ∈ scan p m cs, q.kind ≠ .docOpen := by
  fun_induction scan p m cs with
  | case1 m =>
    cases m with
    | code fresh => simp [Mode.finish]
    | comment e due => cases e <;> simp [Mode.finish]
  | case2 m c r ih =>
    intro q hq
    rcases List.mem_append.1 hq with hq | hq
    · exact m.move_docOpen hp c r q hq
    · exact ih q hq

theorem bareTokens_docOpen {p : Profile} (hp : p.blockComments = false) (cs : List Char) :
    ∀ t ∈ bareTokens p cs, t.kind ≠ .docOpen := by
  have hpieces : ∀ q ∈ coalesce (scan p (.code true) cs), q.kind ≠ .docOpen :=
    forall_mem_coalesce (fun _ _ _ _ _ _ => Kind.noConfusion) (scan_docOpen hp _ cs)
  intro t ht
  obtain ⟨q, hq, rfl⟩ := List.mem_map.1 ht
  exact hpieces q hq

end FeatureCut
