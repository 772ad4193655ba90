/-
  FeatureCut/Proofs/Seam.lean
  ===========================
  **Scanning two texts one after the other.**

  Where a text ends in a line break at the level of code, the scanner is back in
  its first mode, and what follows is scanned as if it stood alone.  This is not
  clear from the moves: a literal, an atom, a key and the delimiters are read
  with a look at what comes next, which may be on the other side of the seam.

  Every reader stops at a line break, or says by an empty rest that it does not.
  So a reader that has a break before it and leaves something behind does the
  same when more text is put at the end (`Mode.move_extend`), and `scan_seam`
  follows by induction on the moves.
-/
import Mathlib.Data.List.TakeWhile
import FeatureCut.Token.Scan

namespace FeatureCut

/-! ### Readers that stop before the end -/

theorem dropWhile_extend {p : Char → Bool} {cs : List Char} (h : cs.dropWhile p ≠ [])
    (x : List Char) : (cs ++ x).dropWhile p = cs.dropWhile p ++ x := by
  rw [List.dropWhile_append, if_neg (by simpa using h)]

theorem takeWhile_extend {p : Char → Bool} {cs : List Char} (h : cs.dropWhile p ≠ [])
    (x : List Char) : (cs ++ x).takeWhile p = cs.takeWhile p := by
  have hsplit := congrArg List.length (List.takeWhile_append_dropWhile (p := p) (l := cs))
  have hpos := List.length_pos_iff.2 h
  rw [List.length_append] at hsplit
  rw [List.takeWhile_append, if_neg (by omega)]

theorem breakFrom_extend {c : Char} {r : List Char} (h : (breakFrom c r).2 ≠ []) (x : List Char) :
    breakFrom c (r ++ x) = ((breakFrom c r).1, (breakFrom c r).2 ++ x) := by
  cases r with
  | nil => exact absurd rfl h
  | cons d t =>
    rw [List.cons_append, breakFrom, breakFrom]
    split <;> rfl

theorem quotedBody_extend {q : Char} {cs : List Char} (h : (quotedBody q cs).2 ≠ [])
    (x : List Char) :
    quotedBody q (cs ++ x) = ((quotedBody q cs).1, (quotedBody q cs).2 ++ x) := by
  fun_induction quotedBody q cs with
  | case1 => exact absurd rfl h
  | case2 d e t hpair ih =>
    simp only [extendFirst_snd] at h
    simp [quotedBody, hpair, ih h, extendFirst]
  | case3 d e t hpair ih =>
    simp only [extendFirst_snd] at h
    have ih := ih h
    simp only [List.cons_append] at ih
    simp [quotedBody, hpair, ih, extendFirst]
  | case4 => exact absurd rfl h
  | case5 c r hc hbreak =>
    rw [List.cons_append, quotedBody.eq_def]
    simp [hc, hbreak]
  | case6 r hc hbreak =>
    rw [List.cons_append, quotedBody.eq_def]
    simp [hc, hbreak]
  | case7 c r hc hbreak hq ih =>
    simp only [extendFirst_snd] at h
    rw [List.cons_append, quotedBody.eq_def]
    simp [hc, hbreak, hq, ih h, extendFirst]

theorem tripleBody_snd_of_short {q : Char} {r : List Char} (hrun : r.dropWhile (· == q) = [])
    (hlen : (r.takeWhile (· == q)).length < 2) : (tripleBody q r).2 = [] := by
  have hr := List.takeWhile_append_dropWhile (p := (· == q)) (l := r)
  rw [hrun, List.append_nil] at hr
  rw [hr] at hlen
  match r, hlen with
  | [], _ => rfl
  | [c], _ =>
    rw [tripleBody.eq_def]
    by_cases hc : c = '\\'
    · simp [hc]
    · simp [hc, tripleBody]

theorem tripleBody_extend {q : Char} {cs : List Char} (h : (tripleBody q cs).2 ≠ [])
    (x : List Char) :
    tripleBody q (cs ++ x) = ((tripleBody q cs).1, (tripleBody q cs).2 ++ x) := by
  fun_induction tripleBody q cs with
  | case1 => exact absurd rfl h
  | case2 d t ih =>
    simp only [extendFirst_snd] at h
    simp [tripleBody, ih h, extendFirst]
  | case3 => exact absurd rfl h
  | case4 c r hc hq =>
    rw [List.cons_append, tripleBody.eq_def]
    dsimp only
    rw [if_neg hc, takeWhile_extend h, if_pos hq, dropWhile_extend h]
  | case5 c r hc hq ih =>
    simp only [extendFirst_snd] at h
    -- the run after `c` cannot become long enough: it ends before the text does
    have hshort : ¬((c = q && ((r ++ x).takeWhile (· == q)).length ≥ 2) = true) := by
      by_cases hrest : r.dropWhile (· == q) = []
      · intro hlong
        have hcq : c = q := by simp_all
        have hlen : (r.takeWhile (· == q)).length < 2 := by simpa [hcq] using hq
        exact h (tripleBody_snd_of_short hrest hlen)
      · rw [takeWhile_extend hrest]
        exact hq
    rw [List.cons_append, tripleBody.eq_def]
    dsimp only
    rw [if_neg hc, if_neg hshort, ih h]
    rfl

theorem literalBody_extend {p : Profile} {q : Char} (hq : isBreak q = false) {r : List Char}
    (h : (literalBody p q r).2 ≠ []) (x : List Char) :
    literalBody p q (r ++ x) = ((literalBody p q r).1, (literalBody p q r).2 ++ x) := by
  -- whether two more quotes follow shows inside the text: a single one would close the literal
  have htake : ((r ++ x).take 2 == [q, q]) = (r.take 2 == [q, q]) := by
    match r, h with
    | [], h => exact absurd (by simp [literalBody, quotedBody]) h
    | [c], h =>
      have hc : c ≠ q := by
        rintro rfl
        apply h
        rw [literalBody, quotedBody.eq_def]
        by_cases hslash : c = '\\'
        · simp [hslash]
        · simp [hslash, hq]
      simp [hc]
    | c :: d :: t, h => rfl
  unfold literalBody at h ⊢
  rw [htake]
  split
  · rename_i hopen
    rw [if_pos hopen, extendFirst_snd] at h
    have hlen : 2 ≤ r.length := by
      by_contra hshort
      rw [List.drop_of_length_le (by omega)] at h
      exact h rfl
    rw [List.drop_append_of_le_length hlen, tripleBody_extend h]
    rfl
  · rename_i hopen
    rw [if_neg hopen] at h
    exact quotedBody_extend h x

theorem atomTail_extend {cs : List Char} (h : (atomTail cs).2 ≠ []) (x : List Char) :
    atomTail (cs ++ x) = ((atomTail cs).1, (atomTail cs).2 ++ x) := by
  fun_induction atomTail cs with
  | case1 => exact absurd rfl h
  | case2 c hc t ih =>
    simp only [extendFirst_snd] at h
    simp [atomTail, hc, ih h, extendFirst]
  | case3 c hc d t hd ih =>
    simp only [extendFirst_snd] at h
    have ih := ih h
    simp only [List.cons_append] at ih
    simp [atomTail, hc, hd, ih, extendFirst]
  | case4 => exact absurd rfl h
  | case5 c r hc =>
    rw [List.cons_append, atomTail.eq_def]
    simp [hc]

/-! ### Texts with a line break -/

def HasBreak (cs : List Char) : Prop := ∃ b ∈ cs, isBreak b = true

theorem HasBreak.ne_nil {cs : List Char} (h : HasBreak cs) : cs ≠ [] := by
  rintro rfl
  obtain ⟨c, hc, -⟩ := h
  cases hc

theorem HasBreak.of_append {a b : List Char} (h : HasBreak (a ++ b))
    (ha : ∀ c ∈ a, isBreak c = false) : HasBreak b := by
  obtain ⟨c, hc, hbreak⟩ := h
  rcases List.mem_append.1 hc with hc | hc
  · rw [ha c hc] at hbreak
    cases hbreak
  · exact ⟨c, hc, hbreak⟩

theorem HasBreak.of_cons {c : Char} {cs : List Char} (h : HasBreak (c :: cs))
    (hc : isBreak c = false) : HasBreak cs :=
  HasBreak.of_append (a := [c]) h (by simp [hc])

theorem HasBreak.dropWhile {p : Char → Bool} {cs : List Char} (h : HasBreak cs)
    (hp : ∀ c, isBreak c = true → p c = false) : HasBreak (cs.dropWhile p) := by
  rw [← List.takeWhile_append_dropWhile (p := p) (l := cs)] at h
  apply h.of_append
  intro c hc
  have hpc : p c = true := List.mem_takeWhile_imp hc
  by_contra hbreak
  rw [hp c (by simpa using hbreak)] at hpc
  cases hpc

theorem HasBreak.fromBreak {cs : List Char} (h : HasBreak cs) : HasBreak (fromBreak cs) :=
  h.dropWhile fun c hc => by simp [hc]

theorem HasBreak.eq_append {r x w t : List Char} (h : HasBreak r) (hw : ∀ c ∈ w, isBreak c = false)
    (heq : r ++ x = w ++ t) : ∃ t', r = w ++ t' := by
  rcases List.append_eq_append_iff.1 heq with ⟨a, ha, -⟩ | ⟨a, ha, -⟩
  · obtain ⟨c, hc, hbreak⟩ := h
    rw [hw c (by rw [ha]; exact List.mem_append_left _ hc)] at hbreak
    cases hbreak
  · exact ⟨a, ha⟩

theorem isIndent_of_isBreak {c : Char} (h : isBreak c = true) : isIndent c = false := by
  rcases isBreak_iff.1 h with rfl | rfl
  · rfl
  · rfl

theorem isBoundary_of_isBreak {c : Char} (h : isBreak c = true) : isBoundary c = true := by
  simp [isBoundary, h]

theorem isBreak_of_isAlpha {c : Char} (h : c.isAlpha = true) : isBreak c = false := by
  by_contra hbreak
  rcases isBreak_iff.1 (Bool.not_eq_false _ ▸ hbreak) with rfl | rfl
  · exact absurd h (by decide)
  · exact absurd h (by decide)

theorem isBreak_of_mem_atomTail {cs : List Char} :
    ∀ c ∈ (atomTail cs).1, isBreak c = false := by
  fun_induction atomTail cs with
  | case1 => simp
  | case2 c hc t ih =>
    intro d hd
    rw [extendFirst_fst, List.cons_append, List.singleton_append, List.mem_cons,
      List.mem_cons] at hd
    rcases hd with rfl | rfl | hd
    · exact isBreak_of_isAlpha hc
    · decide
    · exact ih d hd
  | case3 c hc d t hd ih =>
    intro b hb
    rw [extendFirst_fst, List.singleton_append, List.mem_cons] at hb
    rcases hb with rfl | hb
    · exact isBreak_of_isAlpha hc
    · exact ih b hb
  | case4 c hc =>
    intro d hd
    rw [List.mem_singleton.1 hd]
    exact isBreak_of_isAlpha hc
  | case5 c r hc => simp

theorem HasBreak.atomTail {cs : List Char} (h : HasBreak cs) : HasBreak (atomTail cs).2 := by
  rw [← atomTail_append cs] at h
  exact h.of_append isBreak_of_mem_atomTail

theorem startsWithAtom_extend {r : List Char} (h : HasBreak r) (x : List Char) :
    startsWithAtom (r ++ x) = startsWithAtom r := by
  have hrest : HasBreak (r.dropWhile isIndent) :=
    h.dropWhile fun c hc => isIndent_of_isBreak hc
  unfold startsWithAtom
  rw [dropWhile_extend hrest.ne_nil]
  cases hr : r.dropWhile isIndent with
  | nil => exact absurd hr hrest.ne_nil
  | cons c t =>
    rw [hr] at hrest
    by_cases hc : c = '@'
    · subst hc
      have ht : HasBreak t := hrest.of_cons rfl
      rw [List.cons_append]
      simp only [atomTail_extend ht.atomTail.ne_nil]
    · rw [List.cons_append]
      split <;> simp_all

/-! ### Moves before a line break -/

def Move.extend (m : Move) (x : List Char) : Move := { m with rest := m.rest ++ x }

theorem literalMove_extend {p : Profile} {q : Char} (hq : isBreak q = false) {r : List Char}
    (h : (literalMove p q r).rest ≠ []) (x : List Char) :
    literalMove p q (r ++ x) = (literalMove p q r).extend x := by
  have hbody : (literalBody p q r).2 ≠ [] := h
  simp [literalMove, Move.extend, literalBody_extend hq hbody]

theorem slashMove_extend {r : List Char} (h : HasBreak r) (x : List Char) :
    slashMove (r ++ x) = (slashMove r).extend x := by
  fun_cases slashMove r with
  | case1 t => rfl
  | case2 t hslash =>
    have ht : HasBreak t := (h.of_cons rfl).of_cons rfl
    obtain ⟨c, t, rfl⟩ := List.exists_cons_of_ne_nil ht.ne_nil
    have hc : c ≠ '/' := by
      rintro rfl
      exact hslash t rfl
    simp [slashMove, hc, Move.extend]
  | case3 t _ hstar =>
    have ht : HasBreak t := h.of_cons rfl
    obtain ⟨c, t, rfl⟩ := List.exists_cons_of_ne_nil ht.ne_nil
    have hc : c ≠ '*' := by
      rintro rfl
      exact hstar t rfl
    simp [slashMove, hc, Move.extend]
  | case4 _ _ _ hstar =>
    obtain ⟨c, t, rfl⟩ := List.exists_cons_of_ne_nil h.ne_nil
    have hc : c ≠ '*' := by
      rintro rfl
      exact hstar t rfl
    simp [slashMove, hc, Move.extend, Move.text]

theorem lineMove_extend (marker : List Char) {r : List Char} (h : HasBreak r) (x : List Char) :
    lineMove marker (r ++ x) = (lineMove marker r).extend x := by
  have hrest : fromBreak r ≠ [] := h.fromBreak.ne_nil
  unfold lineMove
  rw [startsWithAtom_extend h, firstLine, takeWhile_extend hrest, fromBreak,
    dropWhile_extend hrest]
  split <;> rfl

theorem codeMove_extend {p : Profile} {fresh : Bool} {c : Char} {r : List Char}
    (hr : HasBreak r) (h : (codeMove p fresh c r).rest ≠ []) (x : List Char) :
    codeMove p fresh c (r ++ x) = (codeMove p fresh c r).extend x := by
  obtain ⟨d, t, rfl⟩ := List.exists_cons_of_ne_nil hr.ne_nil
  unfold codeMove at h ⊢
  by_cases hbreak : isBreak c = true
  · simp only [if_pos hbreak] at h ⊢
    rw [breakFrom_extend h]
    rfl
  simp only [if_neg hbreak] at h ⊢
  by_cases hslash : (p.blockComments && c == '/') = true
  · simp only [if_pos hslash] at h ⊢
    exact slashMove_extend hr x
  simp only [if_neg hslash] at h ⊢
  by_cases hquote : (c == '"' || c == '\'') = true
  · simp only [if_pos hquote] at h ⊢
    exact literalMove_extend (by simpa using hbreak) h x
  simp only [if_neg hquote] at h ⊢
  by_cases hhash : (p.hashComments && fresh && c == '#') = true
  · simp only [if_pos hhash]
    exact lineMove_extend _ hr x
  have hhead : (d :: t ++ x).head? = (d :: t).head? := rfl
  simp only [if_neg hhash, hhead]
  by_cases hyphen :
      (p.doubleHyphenComments && fresh && c == '-' && (d :: t).head? == some '-') = true
  · simp only [if_pos hyphen]
    have hd : d = '-' := by simp_all
    exact lineMove_extend _ (hr.of_cons (by rw [hd]; rfl)) x
  · simp only [if_neg hyphen]
    rfl

theorem atomMove_extend (e : Enclosure) {r : List Char} (h : HasBreak r) (x : List Char) :
    atomMove e (r ++ x) = (atomMove e r).extend x := by
  unfold atomMove
  rw [atomTail_extend h.atomTail.ne_nil]
  dsimp only
  split <;> rfl

/-- A delimiter is read alike with a text behind it, if none is completed by that text. -/
theorem delimiterMove_append {r x : List Char}
    (h : ∀ d ∈ [['/'], ['!', '-', '-'], ['-', '>']], ∀ t, r ++ x = d ++ t → ∃ t', r = d ++ t')
    (p : Profile) (e : Enclosure) (c : Char) :
    delimiterMove p e c (r ++ x) = (delimiterMove p e c r).extend x := by
  fun_cases delimiterMove p e c r with
  | case1 t he => simp [delimiterMove, he, Move.extend]
  | case2 t he => simp [delimiterMove, he, Move.extend, Move.text]
  | case3 t he => simp_all [delimiterMove, Move.extend]
  | case4 t he => simp_all [delimiterMove, Move.extend, Move.text]
  | case5 t he => simp [delimiterMove, he, Move.extend]
  | case6 t he => simp [delimiterMove, he, Move.extend, Move.text]
  | case7 c r hclose hopen hend =>
    unfold delimiterMove
    split
    · rename_i heq
      obtain ⟨t, rfl⟩ := h ['/'] (by simp) _ heq
      exact absurd rfl (hclose t rfl)
    · rename_i heq
      obtain ⟨t, rfl⟩ := h ['!', '-', '-'] (by simp) _ heq
      exact absurd rfl (hopen t rfl)
    · rename_i heq
      obtain ⟨t, rfl⟩ := h ['-', '>'] (by simp) _ heq
      exact absurd rfl (hend t rfl)
    · rfl

theorem delimiterMove_extend (p : Profile) (e : Enclosure) (c : Char) {r : List Char}
    (h : HasBreak r) (x : List Char) :
    delimiterMove p e c (r ++ x) = (delimiterMove p e c r).extend x := by
  have hchars : ∀ d ∈ [['/'], ['!', '-', '-'], ['-', '>']], ∀ c ∈ d, isBreak c = false := by
    simp [isBreak]
  exact delimiterMove_append (fun d hd t heq => h.eq_append (hchars d hd) heq) p e c

theorem commentMove_extend {p : Profile} {e : Enclosure} {due : Bool} {c : Char} {r : List Char}
    (hr : HasBreak r) (h : (commentMove p e due c r).rest ≠ []) (x : List Char) :
    commentMove p e due c (r ++ x) = (commentMove p e due c r).extend x := by
  unfold commentMove at h ⊢
  by_cases hbreak : isBreak c = true
  · simp only [if_pos hbreak] at h ⊢
    have hrest : (breakFrom c r).2 ≠ [] := by cases e <;> exact h
    unfold commentBreakMove
    rw [breakFrom_extend hrest]
    cases e <;> rfl
  simp only [if_neg hbreak]
  by_cases hat : (c == '@') = true
  · simp only [if_pos hat]
    exact atomMove_extend e hr x
  simp only [if_neg hat]
  by_cases hindent : isIndent c = true
  · simp only [if_pos hindent]
    rfl
  simp only [if_neg hindent]
  by_cases hboundary : isBoundary c = true
  · simp only [if_pos hboundary]
    exact delimiterMove_extend p e c hr x
  simp only [if_neg hboundary]
  by_cases hdue : due = true
  · have hrest : HasBreak (r.dropWhile fun d => !isBoundary d) :=
      hr.dropWhile fun d hd => by simp [isBoundary_of_isBreak hd]
    simp only [if_pos hdue, takeWhile_extend hrest.ne_nil, dropWhile_extend hrest.ne_nil]
    rfl
  · simp only [if_neg hdue]
    rfl

theorem Mode.move_extend {p : Profile} {m : Mode} {c : Char} {r : List Char} (hr : HasBreak r)
    (h : (m.move p c r).rest ≠ []) (x : List Char) :
    m.move p c (r ++ x) = (m.move p c r).extend x := by
  cases m with
  | code fresh => exact codeMove_extend hr h x
  | comment e due => exact commentMove_extend hr h x

/-! ### The seam -/

/-- The modes in which a line break ends a line of code. -/
def Mode.endsLines : Mode → Bool
  | .code _ | .comment .line _ => true
  | .comment .block _ | .comment .html _ => false

/-- Whether a text ends in a line break that is read at the level of code: it
    stands neither in a literal nor in a comment, though it may end a line
    comment. -/
def endsLine (p : Profile) (m : Mode) : List Char → Bool
  | [] => false
  | c :: r =>
    if (m.move p c r).rest.isEmpty then m.endsLines && isBreak c
    else endsLine p (m.move p c r).mode (m.move p c r).rest
termination_by cs => cs.length
decreasing_by
  simp only [List.length_cons]
  exact Nat.lt_succ_of_le (m.move_length p c r)

theorem hasBreak_of_endsLine {p : Profile} {m : Mode} {cs : List Char}
    (h : endsLine p m cs = true) : HasBreak cs := by
  fun_induction endsLine p m cs with
  | case1 => cases h
  | case2 m c r hrest =>
    simp only [Bool.and_eq_true] at h
    exact ⟨c, by simp, h.2⟩
  | case3 m c r hrest ih =>
    obtain ⟨b, hb, hbreak⟩ := ih h
    have hmem : b ∈ c :: r := by
      rw [← m.move_lossless p c r]
      exact List.mem_append_right _ hb
    exact ⟨b, hmem, hbreak⟩

theorem Mode.hasBreak_of_move {p : Profile} {m : Mode} {c : Char} {r : List Char}
    (h : HasBreak (m.move p c r).rest) : HasBreak r := by
  obtain ⟨b, hb, hbreak⟩ := h
  have hsplit := m.move_lossless p c r
  obtain ⟨a, t, hat⟩ := List.exists_cons_of_ne_nil (m.move_ne_nil p c r)
  rw [hat, List.cons_append] at hsplit
  obtain ⟨-, hr⟩ := List.cons.inj hsplit
  exact ⟨b, hr ▸ List.mem_append_right _ hb, hbreak⟩

theorem breakFrom_seam {c : Char} {r x : List Char} (hr : (breakFrom c r).2 = [])
    (hx : ∀ d ∈ x.head?, isBreak d = false) :
    breakFrom c (r ++ x) = ((breakFrom c r).1, x) := by
  cases r with
  | nil =>
    cases x with
    | nil => rfl
    | cons d t =>
      have hd : isBreak d = false := hx d rfl
      simp [breakFrom, isBreakPair, hd]
  | cons d t =>
    by_cases hpair : isBreakPair c d = true
    · have ht : t = [] := by simpa [breakFrom, hpair] using hr
      simp [breakFrom, hpair, ht]
    · simp [breakFrom, hpair] at hr

theorem Mode.move_seam {p : Profile} {m : Mode} (hm : m.endsLines = true) {c : Char}
    (hc : isBreak c = true) {r : List Char} (hr : (m.move p c r).rest = []) :
    ∃ ps e, e.kind = .eol ∧ ∀ x : List Char, (∀ d ∈ x.head?, isBreak d = false) →
      m.move p c (r ++ x) = ⟨ps ++ [e], x, .code true⟩ := by
  cases m with
  | code fresh =>
    have hrest : (breakFrom c r).2 = [] := by simpa [Mode.move, codeMove, hc] using hr
    refine ⟨[], ⟨.eol, (breakFrom c r).1, .code⟩, rfl, ?_⟩
    intro x hx
    simp [Mode.move, codeMove, hc, breakFrom_seam hrest hx]
  | comment e due =>
    cases e with
    | line =>
      have hrest : (breakFrom c r).2 = [] := by
        simpa [Mode.move, commentMove, commentBreakMove, hc] using hr
      refine ⟨[⟨.blockClose, [], .comment⟩], ⟨.eol, (breakFrom c r).1, .code⟩, rfl, ?_⟩
      intro x hx
      simp [Mode.move, commentMove, commentBreakMove, hc, breakFrom_seam hrest hx]
    | block => cases hm
    | html => cases hm

/-- After a line break at the level of code the scanner starts anew. -/
theorem scan_seam {p : Profile} {m : Mode} {cs : List Char} (h : endsLine p m cs = true) :
    ∃ ps e, e.kind = .eol ∧ ∀ x : List Char, (∀ d ∈ x.head?, isBreak d = false) →
      scan p m (cs ++ x) = ps ++ e :: scan p (.code true) x := by
  fun_induction endsLine p m cs with
  | case1 => cases h
  | case2 m c r hrest =>
    simp only [Bool.and_eq_true] at h
    obtain ⟨ps, e, he, hmove⟩ := Mode.move_seam h.1 h.2 (List.isEmpty_iff.1 hrest)
    refine ⟨ps, e, he, ?_⟩
    intro x hx
    rw [List.cons_append, scan, hmove x hx]
    simp
  | case3 m c r hrest ih =>
    obtain ⟨ps, e, he, hscan⟩ := ih h
    have hr : HasBreak r := Mode.hasBreak_of_move (hasBreak_of_endsLine h)
    refine ⟨(m.move p c r).pieces ++ ps, e, he, ?_⟩
    intro x hx
    rw [List.cons_append, scan, Mode.move_extend hr (by simpa using hrest)]
    simp only [Move.extend, hscan x hx, List.append_assoc]

theorem coalesce_append_cons (ps : List Piece) {e : Piece} (he : e.kind ≠ .text)
    (qs : List Piece) : coalesce (ps ++ e :: qs) = coalesce ps ++ e :: coalesce qs := by
  induction ps with
  | nil =>
    change coalesce (e :: qs) = e :: coalesce qs
    rw [coalesce]
    split
    · rename_i hk _
      exact absurd hk he
    · rfl
  | cons q ps ih =>
    rw [List.cons_append, coalesce, coalesce, ih]
    cases coalesce ps with
    | nil => cases hk : q.kind <;> simp [he]
    | cons r rs =>
      cases hk : q.kind with
      | text =>
        dsimp only [List.cons_append]
        split <;> rfl
      | _ => rfl

theorem coalesce_cons_of_ne {e : Piece} (he : e.kind ≠ .text) (qs : List Piece) :
    coalesce (e :: qs) = e :: coalesce qs :=
  coalesce_append_cons [] he qs

end FeatureCut
