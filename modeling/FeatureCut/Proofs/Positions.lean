/-
  FeatureCut/Proofs/Positions.lean
  ================================
  **Where a token stands.**

  The point of a token is found by adding up lexemes.  What a point means is another
  thing: a text is read from the left, each character takes a column, and a line break
  takes a line, where breaks of two characters are taken greedily (`Advances`).  The two
  agree only if every line break among the tokens is one that a reader of the whole text
  would take (`GreedyBreaks`).

  Most breaks are read where they stand, so nothing has to be said of them.  A literal
  is cut into lines after its end is known, and by itself.  It ends at a place that a
  reader of the whole text comes to as well (`quotedBody_advances`,
  `tripleBody_advances`), so the last break in it does not lack its second character.
-/
import FeatureCut.Proofs.Grammar
import FeatureCut.Proofs.Lossless

namespace FeatureCut

/-! ### Reading a text -/

/-- Read a text from a point on, up to another point with `rest` behind it. -/
inductive Advances : Point → List Char → Point → List Char → Prop
  | refl (a : Point) (cs : List Char) : Advances a cs a cs
  | char {a b : Point} {c : Char} {r rest : List Char} (hc : isBreak c = false)
      (h : Advances (a.advance [c]) r b rest) : Advances a (c :: r) b rest
  | eol {a b : Point} {c : Char} {r rest : List Char} (hc : isBreak c = true)
      (h : Advances (a.newLine (breakFrom c r).1) (breakFrom c r).2 b rest) :
      Advances a (c :: r) b rest

theorem Advances.trans {a b c : Point} {cs ds es : List Char} (h : Advances a cs b ds)
    (h' : Advances b ds c es) : Advances a cs c es := by
  induction h with
  | refl => exact h'
  | char hc _ ih => exact .char hc (ih h')
  | eol hc _ ih => exact .eol hc (ih h')

theorem Advances.length_le {a b : Point} {cs rest : List Char} (h : Advances a cs b rest) :
    rest.length ≤ cs.length := by
  induction h with
  | refl => exact Nat.le_refl _
  | char _ _ ih => exact Nat.le_succ_of_le ih
  | @eol _ _ c r _ _ _ ih => exact Nat.le_succ_of_le (ih.trans (breakFrom_length c r))

/-- Where something has been read, a character or a break was read first. -/
theorem Advances.of_cons {a b : Point} {c : Char} {r rest : List Char}
    (h : Advances a (c :: r) b rest) (hlen : rest.length ≤ r.length) :
    (isBreak c = false ∧ Advances (a.advance [c]) r b rest) ∨
      (isBreak c = true ∧
        Advances (a.newLine (breakFrom c r).1) (breakFrom c r).2 b rest) := by
  cases h with
  | refl =>
    simp only [List.length_cons] at hlen
    omega
  | char hc h => exact Or.inl ⟨hc, h⟩
  | eol hc h => exact Or.inr ⟨hc, h⟩

theorem Advances.text (a : Point) {cs : List Char} (hcs : ∀ c ∈ cs, isBreak c = false)
    (rest : List Char) : Advances a (cs ++ rest) (a.advance cs) rest := by
  induction cs generalizing a with
  | nil => exact .refl a rest
  | cons c cs ih =>
    have htail := ih (a.advance [c]) fun d hd => hcs d (List.mem_cons_of_mem c hd)
    rw [← Point.advance_append] at htail
    exact .char (hcs c (List.mem_cons_self ..)) htail

/-- A reader comes to the end of every text. -/
theorem exists_advances_nil (a : Point) (cs : List Char) : ∃ b, Advances a cs b [] := by
  induction hn : cs.length using Nat.strongRecOn generalizing a cs with
  | ind n ih =>
    subst hn
    cases cs with
    | nil => exact ⟨a, .refl a []⟩
    | cons c r =>
      by_cases hc : isBreak c = true
      · have hlen := breakFrom_length c r
        obtain ⟨b, h⟩ := ih _ (Nat.lt_succ_of_le hlen) (a.newLine (breakFrom c r).1) _ rfl
        exact ⟨b, .eol hc h⟩
      · obtain ⟨b, h⟩ := ih _ (Nat.lt_succ_self _) (a.advance [c]) r rfl
        exact ⟨b, .char (by simpa using hc) h⟩

/-- A reader comes to each place that has no break character before it. -/
theorem exists_advances {c : Char} (hc : isBreak c = false) (a : Point) (l rest : List Char) :
    ∃ b, Advances a (l ++ c :: rest) b rest := by
  induction hn : l.length using Nat.strongRecOn generalizing a l with
  | ind n ih =>
    subst hn
    cases l with
    | nil => exact ⟨_, .char hc (.refl _ rest)⟩
    | cons d l =>
      by_cases hd : isBreak d = true
      · -- a break does not take `c` with it
        obtain ⟨l', hl', hbreak⟩ : ∃ l' : List Char, l'.length ≤ l.length ∧
            (breakFrom d (l ++ c :: rest)).2 = l' ++ c :: rest := by
          cases l with
          | nil => exact ⟨[], Nat.le_refl _, by simp [breakFrom, isBreakPair, hc]⟩
          | cons e l =>
            by_cases hpair : isBreakPair d e = true
            · exact ⟨l, Nat.le_succ _, by simp [breakFrom, hpair]⟩
            · exact ⟨e :: l, Nat.le_refl _, by simp [breakFrom, hpair]⟩
        obtain ⟨b, h⟩ := ih _ (Nat.lt_succ_of_le hl')
          (a.newLine (breakFrom d (l ++ c :: rest)).1) l' rfl
        rw [← hbreak] at h
        exact ⟨b, .eol hd h⟩
      · obtain ⟨b, h⟩ := ih _ (Nat.lt_succ_self _) (a.advance [d]) l rfl
        exact ⟨b, .char (by simpa using hd) h⟩

/-! ### Literals -/

theorem quotedBody_advances {q : Char} (hq : isBreak q = false) (a : Point) (cs : List Char) :
    ∃ b, Advances a cs b (quotedBody q cs).2 := by
  have hslash : isBreak '\\' = false := by decide
  fun_induction quotedBody q cs generalizing a with
  | case1 => exact ⟨a, .refl a []⟩
  | case2 d e t hpair ih =>
    -- the backslash takes a break of two characters with it
    have hd : isBreak d = true := by
      simp only [isBreakPair, Bool.and_eq_true] at hpair
      exact hpair.1.1
    obtain ⟨b, h⟩ := ih ((a.advance ['\\']).newLine [d, e])
    refine ⟨b, .char hslash (.eol hd ?_)⟩
    rw [breakFrom, if_pos hpair]
    exact h
  | case3 d e t hpair ih =>
    by_cases hd : isBreak d = true
    · obtain ⟨b, h⟩ := ih ((a.advance ['\\']).newLine [d])
      refine ⟨b, .char hslash (.eol hd ?_)⟩
      rw [breakFrom, if_neg hpair]
      exact h
    · obtain ⟨b, h⟩ := ih ((a.advance ['\\']).advance [d])
      exact ⟨b, .char hslash (.char (by simpa using hd) h)⟩
  | case4 r hshort => exact exists_advances_nil a _
  | case5 c r hc hbreak => exact ⟨a, .refl a _⟩
  | case6 r hc hbreak => exact ⟨_, .char hq (.refl _ r)⟩
  | case7 c r hc hbreak hne ih =>
    obtain ⟨b, h⟩ := ih (a.advance [c])
    exact ⟨b, .char (by simpa using hbreak) h⟩

theorem takeWhile_eq_replicate (q : Char) (r : List Char) :
    r.takeWhile (· == q) = List.replicate (r.takeWhile (· == q)).length q :=
  List.eq_replicate_iff.2 ⟨rfl, fun d hd => by simpa using List.mem_takeWhile_imp hd⟩

/-- A literal with three quotes ends in a quote, or with the text. -/
theorem tripleBody_last (q : Char) (cs : List Char) :
    (tripleBody q cs).2 = [] ∨ ∃ l, (tripleBody q cs).1 = l ++ [q] := by
  fun_induction tripleBody q cs with
  | case1 => exact Or.inl rfl
  | case2 d t ih =>
    rcases ih with h | ⟨l, hl⟩
    · exact Or.inl h
    · exact Or.inr ⟨'\\' :: d :: l, by rw [extendFirst_fst, hl]; rfl⟩
  | case3 => exact Or.inl rfl
  | case4 c r hc hq =>
    refine Or.inr ⟨r.takeWhile (· == q), ?_⟩
    obtain ⟨rfl, -⟩ : c = q ∧ _ := by simpa using hq
    change c :: r.takeWhile (· == c) = _
    rw [takeWhile_eq_replicate, ← List.replicate_succ, List.replicate_succ']
  | case5 c r hc hq ih =>
    rcases ih with h | ⟨l, hl⟩
    · exact Or.inl h
    · exact Or.inr ⟨c :: l, by rw [extendFirst_fst, hl]; rfl⟩

theorem tripleBody_advances {q : Char} (hq : isBreak q = false) (a : Point) (cs : List Char) :
    ∃ b, Advances a cs b (tripleBody q cs).2 := by
  rcases tripleBody_last q cs with h | ⟨l, hl⟩
  · rw [h]
    exact exists_advances_nil a cs
  · have hsplit : l ++ q :: (tripleBody q cs).2 = cs := by
      simpa [hl] using tripleBody_append q cs
    have h := exists_advances hq a l (tripleBody q cs).2
    rwa [hsplit] at h

theorem literalMove_advances (p : Profile) {q : Char} (hq : isBreak q = false) (a : Point)
    (r : List Char) : ∃ b, Advances a (q :: r) b (literalMove p q r).rest := by
  unfold literalMove literalBody
  dsimp only
  split
  · rename_i hopen
    obtain ⟨-, htake⟩ : p.tripleQuotedStrings = true ∧ r.take 2 = [q, q] := by simpa using hopen
    have hsplit : q :: q :: r.drop 2 = r := by
      have h := List.take_append_drop 2 r
      rwa [htake] at h
    obtain ⟨b, h⟩ := tripleBody_advances hq (((a.advance [q]).advance [q]).advance [q]) (r.drop 2)
    refine ⟨b, ?_⟩
    rw [extendFirst_snd]
    have hchars := Advances.char hq (Advances.char hq (Advances.char hq h))
    rwa [hsplit] at hchars
  · obtain ⟨b, h⟩ := quotedBody_advances hq (a.advance [q]) r
    exact ⟨b, .char hq h⟩

/-! ### Breaks among pieces -/

/-- Each line break is the one that a reader takes there, with `rest` behind all. -/
def GreedyBreaks (rest : List Char) : List Piece → Prop
  | [] => True
  | q :: qs =>
    (q.kind = .eol → ∃ c w, q.lexeme = c :: w ∧ isBreak c = true ∧
      breakFrom c (w ++ (lexemes qs ++ rest)) = (c :: w, lexemes qs ++ rest)) ∧
    GreedyBreaks rest qs

theorem GreedyBreaks.cons {rest : List Char} {q : Piece} {qs : List Piece} (hq : q.kind ≠ .eol)
    (h : GreedyBreaks rest qs) : GreedyBreaks rest (q :: qs) :=
  ⟨fun heol => absurd heol hq, h⟩

theorem GreedyBreaks.append {rest : List Char} {ps qs : List Piece}
    (hps : GreedyBreaks (lexemes qs ++ rest) ps) (hqs : GreedyBreaks rest qs) :
    GreedyBreaks rest (ps ++ qs) := by
  induction ps with
  | nil => exact hqs
  | cons q ps ih =>
    obtain ⟨hq, hps⟩ := hps
    rw [← List.append_assoc, ← lexemes_append] at hq
    exact ⟨hq, ih hps⟩

theorem greedyBreaks_of_kind {rest : List Char} {ps : List Piece}
    (h : ∀ q ∈ ps, q.kind ≠ .eol) : GreedyBreaks rest ps := by
  induction ps with
  | nil => trivial
  | cons q ps ih =>
    exact .cons (h q (List.mem_cons_self ..)) (ih fun r hr => h r (List.mem_cons_of_mem _ hr))

theorem greedyBreaks_breakFrom {c : Char} (hc : isBreak c = true) (r : List Char)
    (context : Context) :
    GreedyBreaks (breakFrom c r).2 [⟨.eol, (breakFrom c r).1, context⟩] := by
  obtain ⟨w, x, hbreak⟩ := exists_breakFrom c r
  have hsplit := breakFrom_append c r
  rw [hbreak] at hsplit ⊢
  obtain rfl : w ++ x = r := (List.cons.inj hsplit).2
  exact ⟨fun _ => ⟨c, w, rfl, hc, hbreak⟩, trivial⟩

def Segment.piece : Segment → Piece
  | .text cs => ⟨.text, cs, .code⟩
  | .eol cs => ⟨.eol, cs, .code⟩

theorem literalPieces_eq (body : List Char) :
    literalPieces body = (segments body).map Segment.piece := by
  unfold literalPieces
  congr 1

theorem greedyBreaks_attach {rest : List Char} {c : Char} {ss : List Segment}
    (hc : isBreak c = true →
      breakFrom c (lexemes (ss.map Segment.piece) ++ rest) =
        ([c], lexemes (ss.map Segment.piece) ++ rest))
    (h : GreedyBreaks rest (ss.map Segment.piece)) :
    GreedyBreaks rest ((Segment.attach c ss).map Segment.piece) := by
  unfold Segment.attach
  split
  · rename_i hbreak
    exact ⟨fun _ => ⟨c, [], rfl, hbreak, hc hbreak⟩, h⟩
  · split
    · exact .cons Kind.noConfusion h.2
    · exact .cons Kind.noConfusion h

/-- A break that takes nothing of what follows it. -/
theorem breakFrom_eq_of_length {c : Char} {r : List Char}
    (h : r.length ≤ (breakFrom c r).2.length) : breakFrom c r = ([c], r) := by
  cases r with
  | nil => rfl
  | cons d r =>
    by_cases hpair : isBreakPair c d = true
    · rw [breakFrom, if_pos hpair, List.length_cons] at h
      exact absurd h (Nat.not_succ_le_self _)
    · rw [breakFrom, if_neg hpair]

/-- A literal that ends where a reader comes to. -/
theorem greedyBreaks_literalPieces {a b : Point} {body rest : List Char}
    (h : Advances a (body ++ rest) b rest) : GreedyBreaks rest (literalPieces body) := by
  rw [literalPieces_eq]
  have hlexemes : ∀ cs, lexemes ((segments cs).map Segment.piece) = cs := by
    intro cs
    rw [← literalPieces_eq, lexemes_literalPieces]
  fun_induction segments body generalizing a with
  | case1 => trivial
  | case2 c =>
    refine greedyBreaks_attach ?_ (by trivial)
    intro hc
    rcases h.of_cons (Nat.le_refl _) with ⟨hc', -⟩ | ⟨-, h⟩
    · rw [hc] at hc'
      cases hc'
    · exact breakFrom_eq_of_length h.length_le
  | case3 c d r hpair ih =>
    have hpair' := hpair
    simp only [isBreakPair, Bool.and_eq_true] at hpair'
    obtain ⟨⟨hc, hd⟩, -⟩ := hpair'
    have hlen : rest.length ≤ (d :: (r ++ rest)).length := by simp; omega
    rw [List.cons_append, List.cons_append] at h
    rcases h.of_cons hlen with ⟨hc', -⟩ | ⟨-, h⟩
    · rw [hc] at hc'
      cases hc'
    · have hbreak : breakFrom c (d :: (r ++ rest)) = ([c, d], r ++ rest) := by
        rw [breakFrom, if_pos hpair]
      rw [hbreak] at h
      refine ⟨fun _ => ⟨c, [d], rfl, hc, ?_⟩, ih h⟩
      rw [hlexemes]
      exact hbreak
  | case4 c d r hpair ih =>
    have hlen : rest.length ≤ (d :: (r ++ rest)).length := by simp; omega
    rw [List.cons_append, List.cons_append] at h
    rcases h.of_cons hlen with ⟨hc, h⟩ | ⟨hc, h⟩
    · apply greedyBreaks_attach _ (ih h)
      intro hbreak
      rw [hbreak] at hc
      cases hc
    · have hbreak : breakFrom c (d :: (r ++ rest)) = ([c], d :: (r ++ rest)) := by
        rw [breakFrom, if_neg hpair]
      rw [hbreak] at h
      apply greedyBreaks_attach _ (ih h)
      intro _
      rw [hlexemes]
      exact hbreak

/-! ### The breaks of a document -/

theorem codeMove_greedyBreaks (p : Profile) (fresh : Bool) (c : Char) (r : List Char) :
    GreedyBreaks (codeMove p fresh c r).rest (codeMove p fresh c r).pieces := by
  unfold codeMove
  by_cases hc : isBreak c = true
  · rw [if_pos hc]
    exact greedyBreaks_breakFrom hc r .code
  rw [if_neg hc]
  have hline : ∀ marker s, GreedyBreaks (lineMove marker s).rest (lineMove marker s).pieces :=
    fun marker s => greedyBreaks_of_kind fun q hq => (lineMove_kind marker s q hq).1
  split
  · apply greedyBreaks_of_kind
    unfold slashMove
    split <;> simp [Move.text]
  split
  · obtain ⟨b, h⟩ := literalMove_advances p (by simpa using hc) .start r
    have hsplit : c :: (literalBody p c r).1 ++ (literalMove p c r).rest = c :: r := by
      simpa [literalMove] using literalMove_lossless p c r
    rw [← hsplit] at h
    exact greedyBreaks_literalPieces h
  split
  · exact hline _ _
  split
  · exact hline _ _
  · exact greedyBreaks_of_kind (by simp [Move.text])

theorem commentMove_greedyBreaks (p : Profile) (e : Enclosure) (due : Bool) (c : Char)
    (r : List Char) :
    GreedyBreaks (commentMove p e due c r).rest (commentMove p e due c r).pieces := by
  by_cases hc : isBreak c = true
  · rw [commentMove, if_pos hc]
    cases e with
    | line => exact .cons Kind.noConfusion (greedyBreaks_breakFrom hc r .code)
    | block => exact greedyBreaks_breakFrom hc r .comment
    | html => exact greedyBreaks_breakFrom hc r .html
  · exact greedyBreaks_of_kind fun q hq => (commentMove_kind (by simpa using hc) r q hq).1

theorem scan_greedyBreaks (p : Profile) (m : Mode) (cs : List Char) :
    GreedyBreaks [] (scan p m cs) := by
  fun_induction scan p m cs with
  | case1 m =>
    apply greedyBreaks_of_kind
    cases m with
    | code fresh => simp [Mode.finish]
    | comment e due => cases e <;> simp [Mode.finish]
  | case2 m c r ih =>
    refine GreedyBreaks.append ?_ ih
    rw [lexemes_scan, List.append_nil]
    cases m with
    | code fresh => exact codeMove_greedyBreaks p fresh c r
    | comment e due => exact commentMove_greedyBreaks p e due c r

theorem GreedyBreaks.coalesce {rest : List Char} {ps : List Piece} (h : GreedyBreaks rest ps) :
    GreedyBreaks rest (coalesce ps) := by
  induction ps with
  | nil => trivial
  | cons q ps ih =>
    have htail := ih h.2
    have hlexemes := lexemes_coalesce ps
    rcases coalesce_cons q ps with ⟨hsame, -⟩ | ⟨r, rs, hps, hqk, hrk, hjoined⟩
    · rw [hsame]
      refine ⟨?_, htail⟩
      rw [hlexemes]
      exact h.1
    · rw [hps] at htail
      rw [hjoined]
      exact .cons Kind.noConfusion htail.2

/-! ### Tokens -/

theorem Piece.advances {q : Piece} {rest : List Char} (hspelled : q.Spelled)
    (hbreak : q.kind = .eol → ∃ c w, q.lexeme = c :: w ∧ isBreak c = true ∧
      breakFrom c (w ++ rest) = (c :: w, rest)) (a : Point) :
    Advances a (q.lexeme ++ rest) (q.next a) rest := by
  unfold Piece.next
  split
  · rename_i hk
    obtain ⟨c, w, hlexeme, hc, h⟩ := hbreak hk
    rw [hlexeme]
    apply Advances.eol hc
    rw [List.append_eq, h]
    exact .refl _ rest
  · rename_i hk
    exact .text a (hspelled.unbroken hk) rest

theorem locate_advances {ps : List Piece} (hspelled : ∀ q ∈ ps, q.Spelled)
    (hbreaks : GreedyBreaks [] ps) {a : Point} {t : Token} {r : List Token}
    (h : t :: r <:+ locate a ps) : Advances a (lexemes ps) t.extent.start (textOf (t :: r)) := by
  induction ps generalizing a with
  | nil => simp [locate] at h
  | cons q qs ih =>
    rw [locate, List.suffix_cons_iff] at h
    rcases h with h | h
    · rw [h, textOf_cons, textOf_locate]
      obtain ⟨rfl, -⟩ := List.cons.inj h
      exact .refl a _
    · have hrest := ih (fun u hu => hspelled u (List.mem_cons_of_mem q hu)) hbreaks.2 h
      have hq : Advances a (q.lexeme ++ lexemes qs) (q.next a) (lexemes qs) :=
        Piece.advances (hspelled q (List.mem_cons_self ..)) (by simpa using hbreaks.1) a
      exact hq.trans hrest

/-- A reader of a source comes to each of its tokens at the point that it has. -/
theorem tokenize_advances {p : Profile} {source : String} {t : Token} {r : List Token}
    (h : t :: r <:+ tokenize p source) :
    Advances .start source.toList t.extent.start (textOf (t :: r)) := by
  have hspelled : ∀ q ∈ coalesce (scan p (.code true) source.toList), q.Spelled := by
    rw [← toPiece_tokenize]
    exact (tokenize_accepts p source).spelled
  have hadvances := locate_advances hspelled (scan_greedyBreaks p _ source.toList).coalesce h
  rwa [lexemes_coalesce, lexemes_scan] at hadvances

/-! ### Looking up a place -/

/-- The text from the start of a line on, where lines count from one. -/
def fromLine : Nat → List Char → Option (List Char)
  | 0, _ => none
  | 1, cs => some cs
  | _ + 2, [] => none
  | n + 2, c :: r => if isBreak c then fromLine (n + 1) (breakFrom c r).2 else fromLine (n + 2) r
termination_by _ cs => cs.length
decreasing_by
  · simp only [List.length_cons]
    exact Nat.lt_succ_of_le (breakFrom_length c r)
  · simp

/-- The text from a column of its first line on, where columns count from one. -/
def fromColumn : Nat → List Char → Option (List Char)
  | 0, _ => none
  | 1, cs => some cs
  | _ + 2, [] => none
  | n + 2, c :: r => if isBreak c then none else fromColumn (n + 1) r

/-- The text from a line and a column on. -/
def textAt (line column : Nat) (cs : List Char) : Option (List Char) :=
  (fromLine line cs).bind (fromColumn column)

theorem Advances.line_le {a b : Point} {cs rest : List Char} (h : Advances a cs b rest) :
    a.line ≤ b.line := by
  induction h with
  | refl => exact Nat.le_refl _
  | char _ _ ih => exact ih
  | eol _ _ ih => exact Nat.le_of_succ_le ih

theorem fromColumn_of_advances {a b : Point} {cs rest : List Char} (h : Advances a cs b rest)
    (hline : b.line = a.line) :
    ∃ n, b.column = a.column + n ∧ fromColumn (n + 1) cs = some rest := by
  induction h with
  | refl => exact ⟨0, rfl, by rw [fromColumn]⟩
  | @char a b c r rest hc _ ih =>
    obtain ⟨n, hcolumn, hfrom⟩ := ih hline
    refine ⟨n + 1, ?_, ?_⟩
    · rw [hcolumn, Nat.add_comm n 1, ← Nat.add_assoc]
      rfl
    · rw [fromColumn, hc]
      exact hfrom
  | eol _ h _ =>
    have hle := h.line_le
    rw [hline] at hle
    exact absurd hle (Nat.not_succ_le_self _)

theorem textAt_of_advances {a b : Point} {cs rest : List Char} (h : Advances a cs b rest) {n : Nat}
    (hline : b.line = a.line + (n + 1)) : textAt (n + 2) b.column cs = some rest := by
  induction h generalizing n with
  | refl => omega
  | char hc _ ih =>
    rw [textAt, fromLine, hc]
    exact ih hline
  | @eol a b c r rest hc h ih =>
    rw [textAt, fromLine, if_pos hc]
    cases n with
    | zero =>
      obtain ⟨n, hcolumn, hfrom⟩ := fromColumn_of_advances h hline
      rw [hcolumn, fromLine, Nat.add_comm]
      exact hfrom
    | succ n =>
      apply ih
      rw [hline]
      simp only [Point.newLine]
      omega

/-- The text at the point of a token starts with this token. -/
theorem textAt_tokenize {p : Profile} {source : String} {t : Token} {r : List Token}
    (h : t :: r <:+ tokenize p source) :
    textAt t.extent.start.line t.extent.start.column source.toList = some (textOf (t :: r)) := by
  have hadvances := tokenize_advances h
  obtain ⟨n, hline⟩ := Nat.exists_eq_add_of_le hadvances.line_le
  cases n with
  | zero =>
    obtain ⟨k, hcolumn, hfrom⟩ := fromColumn_of_advances hadvances hline
    rw [hline, hcolumn, Nat.add_comm Point.start.column k]
    change textAt 1 (k + 1) source.toList = _
    rw [textAt, fromLine]
    exact hfrom
  | succ n =>
    have htext := textAt_of_advances hadvances hline
    rw [hline, Nat.add_comm]
    exact htext

end FeatureCut
