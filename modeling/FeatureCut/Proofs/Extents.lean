/-
  FeatureCut/Proofs/Extents.lean
  ==============================
  **The extents of tokens are exact.**

  `lineBreaks` lists the line breaks of a text as a reader from the left takes them, and
  `pointBefore` counts from these alone: the breaks that end before a character are the
  lines above it, and the last of them is where its column starts.

  A document counts in another way.  Each token adds its lexeme to the point of the one
  before, and takes a new line if it is a break itself.  So the two agree as soon as the
  breaks among the tokens are those of the source (`breakTokens_eq`).  This holds since
  each of them is the one that a reader takes there (`GreedyBreaks`), wherever it was
  read: in code, in a comment, or in a literal.
-/
import Mathlib.Data.List.Induction
import FeatureCut.Proofs.Positions

namespace FeatureCut

/-! ### Counting in a text -/

/-- A line break of a text: how many characters stand before it, and its own. -/
structure LineBreak where
  start : Nat
  chars : List Char
deriving DecidableEq, Repr

def LineBreak.stop (b : LineBreak) : Nat := b.start + b.chars.length

/-- The line breaks of a text with `n` characters before it, taken from the left.  Two
    characters are one break if they are different. -/
def lineBreaks : Nat → List Char → List LineBreak
  | _, [] => []
  | n, '\r' :: '\n' :: r => ⟨n, ['\r', '\n']⟩ :: lineBreaks (n + 2) r
  | n, '\n' :: '\r' :: r => ⟨n, ['\n', '\r']⟩ :: lineBreaks (n + 2) r
  | n, '\r' :: r => ⟨n, ['\r']⟩ :: lineBreaks (n + 1) r
  | n, '\n' :: r => ⟨n, ['\n']⟩ :: lineBreaks (n + 1) r
  | n, _ :: r => lineBreaks (n + 1) r

/-- The line breaks of a text that end before its character `k`. -/
def breaksBefore (cs : List Char) (k : Nat) : List LineBreak :=
  (lineBreaks 0 cs).filter fun b => b.stop ≤ k

/-- How many characters stand before the line that the last of some breaks leads to. -/
def lastStop (bs : List LineBreak) : Nat := (bs.getLast?.map LineBreak.stop).getD 0

/-- The point before character `k` of a text. -/
def pointBefore (cs : List Char) (k : Nat) : Point where
  line := 1 + (breaksBefore cs k).length
  column := 1 + (k - lastStop (breaksBefore cs k))
  offset := byteLength (cs.take k)

-- The pairs are taken from the left, and the third character is a break of its own.
example : lineBreaks 0 ['a', '\n', '\r', '\n', 'b'] = [⟨1, ['\n', '\r']⟩, ⟨3, ['\n']⟩] := by
  decide

theorem lineBreaks_char {c : Char} (hc : isBreak c = false) (n : Nat) (r : List Char) :
    lineBreaks n (c :: r) = lineBreaks (n + 1) r := by
  rw [lineBreaks.eq_def]
  split <;> first | rfl | simp_all [isBreak]

theorem lineBreaks_break {c : Char} (hc : isBreak c = true) (n : Nat) (r : List Char) :
    lineBreaks n (c :: r) =
      ⟨n, (breakFrom c r).1⟩ :: lineBreaks (n + (breakFrom c r).1.length) (breakFrom c r).2 := by
  cases r with
  | nil => rcases isBreak_iff.1 hc with rfl | rfl <;> rfl
  | cons d r =>
    by_cases hpair : isBreakPair c d = true
    · rw [breakFrom, if_pos hpair]
      obtain ⟨⟨-, hd⟩, hne⟩ : (isBreak c = true ∧ isBreak d = true) ∧ c ≠ d := by
        simpa [isBreakPair] using hpair
      rcases isBreak_iff.1 hc with rfl | rfl <;> rcases isBreak_iff.1 hd with rfl | rfl
      · exact absurd rfl hne
      · rfl
      · rfl
      · exact absurd rfl hne
    · rw [breakFrom, if_neg hpair]
      have hnot : ∀ e, isBreak e = true → c ≠ e → d ≠ e := by
        rintro e he hne rfl
        exact hpair (by simp [isBreakPair, hc, he, hne])
      rcases isBreak_iff.1 hc with rfl | rfl
      · have hd : d ≠ '\n' := hnot '\n' rfl (by decide)
        simp [lineBreaks, hd]
      · have hd : d ≠ '\r' := hnot '\r' rfl (by decide)
        simp [lineBreaks, hd]

theorem lineBreaks_text {cs : List Char} (hcs : ∀ c ∈ cs, isBreak c = false) (n : Nat)
    (rest : List Char) : lineBreaks n (cs ++ rest) = lineBreaks (n + cs.length) rest := by
  induction cs generalizing n with
  | nil => rfl
  | cons c cs ih =>
    have htail := ih (fun d hd => hcs d (List.mem_cons_of_mem c hd)) (n + 1)
    rw [List.cons_append, lineBreaks_char (hcs c (List.mem_cons_self ..)), htail, List.length_cons,
      Nat.add_assoc, Nat.add_comm 1]

/-! ### Counting along tokens -/

def breakTokens (n : Nat) : List Token → List LineBreak
  | [] => []
  | t :: r =>
    if t.kind = .eol then ⟨n, t.lexeme⟩ :: breakTokens (n + t.lexeme.length) r
    else breakTokens (n + t.lexeme.length) r

theorem breakTokens_append (n : Nat) (a b : List Token) :
    breakTokens n (a ++ b) = breakTokens n a ++ breakTokens (n + (textOf a).length) b := by
  induction a generalizing n with
  | nil => rfl
  | cons t a ih =>
    simp only [List.cons_append, breakTokens, ih, textOf_cons, List.length_append, Nat.add_assoc]
    split <;> rfl

theorem stop_le_of_mem_breakTokens {n : Nat} {ts : List Token} {b : LineBreak}
    (h : b ∈ breakTokens n ts) : b.stop ≤ n + (textOf ts).length := by
  induction ts generalizing n with
  | nil => simp [breakTokens] at h
  | cons t r ih =>
    rw [textOf_cons, List.length_append, ← Nat.add_assoc]
    rw [breakTokens] at h
    split at h
    · rcases List.mem_cons.1 h with rfl | h
      · exact Nat.le_add_right _ _
      · exact ih h
    · exact ih h

theorem lt_stop_of_mem_breakTokens {n : Nat} {ts : List Token}
    (hts : ∀ t ∈ ts, t.toPiece.Spelled) {b : LineBreak} (h : b ∈ breakTokens n ts) :
    n < b.stop := by
  induction ts generalizing n with
  | nil => simp [breakTokens] at h
  | cons t r ih =>
    have hrest := fun h => Nat.lt_of_le_of_lt (Nat.le_add_right n t.lexeme.length)
      (ih (fun u hu => hts u (List.mem_cons_of_mem t hu)) h)
    rw [breakTokens] at h
    split at h
    · rename_i hk
      rcases List.mem_cons.1 h with rfl | h
      · -- a line break is not empty
        have hlexeme := (hts t (List.mem_cons_self ..)).eol hk
        have hpos : 0 < t.lexeme.length := by
          rcases hlexeme with h | h | h | h <;> rw [h] <;> decide
        exact Nat.lt_add_of_pos_right hpos
      · exact hrest h
    · exact hrest h

/-- Where each break among the tokens is the one that a reader takes there, they are the
    breaks of the text. -/
theorem breakTokens_eq {ts : List Token} (hspelled : ∀ t ∈ ts, t.toPiece.Spelled)
    (hbreaks : GreedyBreaks [] (ts.map Token.toPiece)) (n : Nat) :
    breakTokens n ts = lineBreaks n (textOf ts) := by
  induction ts generalizing n with
  | nil => rfl
  | cons t r ih =>
    have htail := ih (fun u hu => hspelled u (List.mem_cons_of_mem t hu)) hbreaks.2
    rw [breakTokens, textOf_cons]
    split
    · rename_i hk
      obtain ⟨c, w, hlexeme, hc, hbreak⟩ := hbreaks.1 hk
      rw [lexemes_map_toPiece, List.append_nil] at hbreak
      have hlexeme' : t.lexeme = c :: w := hlexeme
      rw [hlexeme', List.cons_append, lineBreaks_break hc, hbreak, htail]
    · rename_i hk
      rw [lineBreaks_text ((hspelled t (List.mem_cons_self ..)).unbroken hk), htail]

/-! ### Points along tokens -/

def pointAfter (a : Point) (ts : List Token) : Point := ts.foldl (fun a t => t.next a) a

theorem pointAfter_concat (a : Point) (ts : List Token) (t : Token) :
    pointAfter a (ts ++ [t]) = t.next (pointAfter a ts) := by
  rw [pointAfter, List.foldl_append]
  rfl

theorem extent_of_locate {a : Point} {ps : List Piece} {before after : List Token} {t : Token}
    (h : locate a ps = before ++ t :: after) :
    t.extent = ⟨pointAfter a before, pointAfter a (before ++ [t])⟩ := by
  induction ps generalizing a before with
  | nil => simp [locate] at h
  | cons q qs ih =>
    rw [locate] at h
    cases before with
    | nil =>
      obtain ⟨rfl, -⟩ := List.cons.inj h
      rfl
    | cons u before =>
      obtain ⟨rfl, htail⟩ := List.cons.inj h
      have hextent := ih htail
      exact hextent

theorem pointAfter_offset (a : Point) (ts : List Token) :
    (pointAfter a ts).offset = a.offset + byteLength (textOf ts) := by
  induction ts using List.reverseRecOn with
  | nil => rfl
  | append_singleton ts t ih =>
    rw [pointAfter_concat, Piece.next_offset, ih, textOf_append, textOf_cons, textOf_nil,
      List.append_nil, byteLength_append, Nat.add_assoc]

theorem pointAfter_line (a : Point) (ts : List Token) :
    (pointAfter a ts).line = a.line + (breakTokens 0 ts).length := by
  induction ts using List.reverseRecOn with
  | nil => rfl
  | append_singleton ts t ih =>
    rw [pointAfter_concat, breakTokens_append, List.length_append, breakTokens, Piece.next,
      ← Nat.add_assoc, ← ih]
    split <;> rfl

theorem lastStop_le (ts : List Token) : lastStop (breakTokens 0 ts) ≤ (textOf ts).length := by
  rw [lastStop]
  cases hlast : (breakTokens 0 ts).getLast? with
  | none => exact Nat.zero_le _
  | some b =>
    have hstop := stop_le_of_mem_breakTokens (List.mem_of_getLast? hlast)
    rwa [Nat.zero_add] at hstop

/-- A column counts from the last break on. -/
theorem pointAfter_column (ts : List Token) :
    (pointAfter .start ts).column = 1 + ((textOf ts).length - lastStop (breakTokens 0 ts)) := by
  induction ts using List.reverseRecOn with
  | nil => rfl
  | append_singleton ts t ih =>
    rw [pointAfter_concat, breakTokens_append, breakTokens, Piece.next, textOf_append,
      List.length_append]
    split
    · -- the last break is the token itself, and no character stands behind it
      rw [lastStop, List.getLast?_append]
      simp [breakTokens, LineBreak.stop, Point.newLine]
    · rw [breakTokens, List.append_nil, textOf_cons, textOf_nil, List.append_nil,
        Nat.sub_add_comm (lastStop_le ts), ← Nat.add_assoc, ← ih]
      rfl

/-- Where the breaks among the tokens are those of the text, the tokens lead to the points
    that a reader of the text counts. -/
theorem pointAfter_eq {before after : List Token}
    (hspelled : ∀ t ∈ after, t.toPiece.Spelled) {cs : List Char}
    (hcs : cs = textOf before ++ textOf after)
    (hbreaks : breakTokens 0 (before ++ after) = lineBreaks 0 cs) :
    pointAfter .start before = pointBefore cs (textOf before).length := by
  have hpassed : breaksBefore cs (textOf before).length = breakTokens 0 before := by
    rw [breaksBefore, ← hbreaks, breakTokens_append, List.filter_append, Nat.zero_add]
    have hkept : (breakTokens 0 before).filter (fun b => b.stop ≤ (textOf before).length) =
        breakTokens 0 before := by
      rw [List.filter_eq_self]
      intro b hb
      have hstop := stop_le_of_mem_breakTokens hb
      rw [Nat.zero_add] at hstop
      exact decide_eq_true hstop
    have hnone : (breakTokens (textOf before).length after).filter
        (fun b => b.stop ≤ (textOf before).length) = [] := by
      rw [List.filter_eq_nil_iff]
      intro b hb hstop
      have hlt := lt_stop_of_mem_breakTokens hspelled hb
      exact absurd (of_decide_eq_true hstop) (Nat.not_le_of_gt hlt)
    rw [hkept, hnone, List.append_nil]
  have hline := pointAfter_line .start before
  have hcolumn := pointAfter_column before
  have hoffset := pointAfter_offset .start before
  rw [pointBefore, hpassed, ← hcolumn, hcs, List.take_left]
  have hzero : Point.start.offset = 0 := rfl
  rw [hzero, Nat.zero_add] at hoffset
  rw [← hoffset]
  have hone : Point.start.line = 1 := rfl
  rw [hone] at hline
  rw [← hline]

/-! ### The main statement -/

/-- The line breaks among the tokens are those of the source. -/
theorem breakTokens_tokenize (p : Profile) (source : String) :
    breakTokens 0 (tokenize p source) = lineBreaks 0 source.toList := by
  have hspelled := (tokenize_accepts p source).spelled
  have hbreaks : GreedyBreaks [] ((tokenize p source).map Token.toPiece) := by
    rw [toPiece_tokenize]
    exact (scan_greedyBreaks p _ source.toList).coalesce
  rw [← textOf_tokenize p source]
  exact breakTokens_eq (fun t ht => hspelled _ (List.mem_map_of_mem ht)) hbreaks 0

/-- **The extents of tokens are exact.**  A token starts where the one before it stops, at
    the point that the line breaks of the source give for the text before it.  The breaks
    among the tokens, those in literals and comments included, are the breaks of the
    source. -/
theorem tokenize_extents (p : Profile) (source : String) :
    (∀ before t after, tokenize p source = before ++ t :: after →
      source.toList = textOf before ++ (t.lexeme ++ textOf after) ∧
        t.extent.start = (before.getLast?.map fun u => u.extent.stop).getD .start ∧
        t.extent.start = pointBefore source.toList (textOf before).length ∧
        t.extent.stop = pointBefore source.toList (textOf before ++ t.lexeme).length) ∧
      breakTokens 0 (tokenize p source) = lineBreaks 0 source.toList := by
  have hbreaks := breakTokens_tokenize p source
  have htext := textOf_tokenize p source
  have hspelled : ∀ u ∈ tokenize p source, u.toPiece.Spelled := fun u hu =>
    (tokenize_accepts p source).spelled _ (List.mem_map_of_mem hu)
  refine ⟨?_, hbreaks⟩
  intro before t after h
  have hextent := extent_of_locate h
  have hprevious : pointAfter .start before =
      (before.getLast?.map fun u => u.extent.stop).getD .start := by
    rcases List.eq_nil_or_concat before with rfl | ⟨l, u, rfl⟩
    · rfl
    · rw [List.concat_eq_append, List.append_assoc] at h
      rw [List.concat_eq_append, List.getLast?_concat, Option.map_some, Option.getD_some,
        extent_of_locate h]
  have hsource : source.toList = textOf before ++ (t.lexeme ++ textOf after) := by
    rw [← htext, h, textOf_append, textOf_cons]
  have hrest : ∀ u ∈ t :: after, u.toPiece.Spelled := fun u hu =>
    hspelled u (h ▸ List.mem_append_right before hu)
  have hstart : pointAfter .start before = pointBefore source.toList (textOf before).length := by
    apply pointAfter_eq hrest
    · exact hsource
    · rw [← h, hbreaks]
  have hstop : pointAfter .start (before ++ [t]) =
      pointBefore source.toList (textOf (before ++ [t])).length := by
    apply pointAfter_eq fun u hu => hrest u (List.mem_cons_of_mem t hu)
    · rw [hsource, textOf_append, textOf_cons, textOf_nil, List.append_nil, List.append_assoc]
    · rw [List.append_assoc, List.singleton_append, ← h, hbreaks]
  refine ⟨hsource, ?_, ?_, ?_⟩
  · rw [hextent, hprevious]
  · rw [hextent, hstart]
  · rw [hextent, hstop, textOf_append, textOf_cons, textOf_nil, List.append_nil]

/-- The second of two breaks in a literal, after a character of two bytes. -/
theorem tokenize_extents_literal :
    let source := "\"\"\"é\n\r\n\"\"\" x"
    (tokenize ⟨true, false, false, false, true⟩ source)[2]? =
        some ⟨⟨.eol, ['\n'], .code⟩, ⟨⟨2, 1, 7⟩, ⟨3, 1, 8⟩⟩⟩ ∧
      (⟨2, 1, 7⟩ : Point) = pointBefore source.toList 6 ∧
      (⟨3, 1, 8⟩ : Point) = pointBefore source.toList 7 := by
  intro source
  have hsplit : tokenize ⟨true, false, false, false, true⟩ source =
      [⟨⟨.text, "\"\"\"é".toList, .code⟩, ⟨⟨1, 1, 0⟩, ⟨1, 5, 5⟩⟩⟩,
          ⟨⟨.eol, ['\n', '\r'], .code⟩, ⟨⟨1, 5, 5⟩, ⟨2, 1, 7⟩⟩⟩] ++
        ⟨⟨.eol, ['\n'], .code⟩, ⟨⟨2, 1, 7⟩, ⟨3, 1, 8⟩⟩⟩ ::
          [⟨⟨.text, "\"\"\" x".toList, .code⟩, ⟨⟨3, 1, 8⟩, ⟨3, 6, 13⟩⟩⟩,
            ⟨⟨.eof, [], .code⟩, ⟨⟨3, 6, 13⟩, ⟨3, 6, 13⟩⟩⟩] := by
    decide +kernel
  obtain ⟨-, -, hstart, hstop⟩ :=
    (tokenize_extents ⟨true, false, false, false, true⟩ source).1 _ _ _ hsplit
  exact ⟨by rw [hsplit]; rfl, hstart, hstop⟩

end FeatureCut
