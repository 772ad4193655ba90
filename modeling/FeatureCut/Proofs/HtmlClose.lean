/-
  FeatureCut/Proofs/HtmlClose.lean
  ================================
  **Where an html comment closes.**

  An html comment closes at the first `-->` after its opener, as long as that is read as a
  lexeme of its own.  A hyphen may belong to what stands before it: a word after an `@`
  takes one after each of its letters, and `<!--` is one lexeme inside an html comment
  too.  So the closing delimiter is the first `-->` whose first hyphen is not taken
  (`htmlClose_isLeast`), which need not be the first one there is
  (`htmlClose_behind_word`).

  The text up to that place is quiet, and a quiet text is read to its end
  (`scan_inner`).
-/
import Mathlib.Order.Bounds.Defs
import FeatureCut.Language
import FeatureCut.Proofs.CommentText
import FeatureCut.Proofs.Extents

namespace FeatureCut

/-! ### The first place to close -/

/-- `-->` stands behind `pre` in a text, and it is the first one that is seen. -/
structure FirstClose (p : Profile) (x pre post : List Char) : Prop where
  split : x = pre ++ (htmlCloser.lexeme ++ post)
  seen : takesHyphen pre = false
  quiet : Enclosure.html.IsQuiet p pre

theorem isQuiet_html_iff {p : Profile} {x : List Char} :
    Enclosure.html.IsQuiet p x ↔
      ∀ a b, x = a ++ (htmlCloser.lexeme ++ b) → takesHyphen a = true := by
  constructor
  · intro h a b hx
    exact (h htmlCloser.lexeme (by simp [Enclosure.delimiters]) a b hx).2
  · intro h d hd a b hx
    obtain rfl := List.mem_singleton.1 hd
    exact ⟨rfl, h a b hx⟩

theorem exists_firstClose_of_seen (p : Profile) {x a b : List Char}
    (hx : x = a ++ (htmlCloser.lexeme ++ b)) (ha : takesHyphen a = false) :
    ∃ pre post, FirstClose p x pre post := by
  induction hn : a.length using Nat.strongRecOn generalizing a b with
  | ind n ih =>
    by_cases hquiet : Enclosure.html.IsQuiet p a
    · exact ⟨a, b, hx, ha, hquiet⟩
    · rw [isQuiet_html_iff] at hquiet
      push Not at hquiet
      obtain ⟨a', b', rfl, hseen⟩ := hquiet
      have hlen : a'.length < n := by
        rw [← hn]
        simp [htmlCloser]
      have hx' : x = a' ++ (htmlCloser.lexeme ++ (b' ++ (htmlCloser.lexeme ++ b))) := by simp [hx]
      exact ih a'.length hlen hx' (by simpa using hseen) rfl

theorem exists_firstClose_or_quiet (p : Profile) (x : List Char) :
    (∃ pre post, FirstClose p x pre post) ∨ Enclosure.html.IsQuiet p x := by
  by_cases hquiet : Enclosure.html.IsQuiet p x
  · exact Or.inr hquiet
  · rw [isQuiet_html_iff] at hquiet
    push Not at hquiet
    obtain ⟨a, b, hx, hseen⟩ := hquiet
    exact Or.inl (exists_firstClose_of_seen p hx (by simpa using hseen))

/-- No other `-->` that is seen stands before the first one. -/
theorem FirstClose.byteLength_le {p : Profile} {x pre post a b : List Char}
    (h : FirstClose p x pre post) (hx : x = a ++ (htmlCloser.lexeme ++ b))
    (ha : takesHyphen a = false) : byteLength pre ≤ byteLength a := by
  have heq : pre ++ (htmlCloser.lexeme ++ post) = a ++ (htmlCloser.lexeme ++ b) :=
    h.split.symm.trans hx
  rcases List.append_eq_append_iff.1 heq with ⟨v, rfl, -⟩ | ⟨v, rfl, hv⟩
  · rw [byteLength_append]
    exact Nat.le_add_right ..
  · cases v with
    | nil => simp
    | cons c v =>
      -- a `-->` before the first one would stand in the quiet text
      have hstarts : StartsLexeme (c :: v) (htmlCloser.lexeme ++ post) :=
        StartsLexeme.of_append (.htmlClose rfl h.seen)
      have hlexeme : CommentLexeme htmlCloser.lexeme b :=
        .delimiter (by simp [commentDelimiters])
      obtain ⟨u, hu, -⟩ := hlexeme.prefix_of_starts hv hstarts (by simp)
      have htakes := isQuiet_html_iff.1 h.quiet a u (by rw [hu])
      rw [ha] at htakes
      cases htakes

/-- An html comment is read up to the first place where it can close. -/
theorem FirstClose.scan {p : Profile} {x pre post : List Char} (h : FirstClose p x pre post)
    (due : Bool) :
    ∃ ps, scan p (.comment .html due) x = ps ++ htmlCloser :: scan p (.comment .block false) post ∧
      lexemes ps = pre ∧ ∀ q ∈ ps, IsInner .html q := by
  obtain ⟨ps, due', hscan, hlexemes, hps⟩ :=
    scan_inner Enclosure.noConfusion h.quiet (.htmlClose rfl h.seen) due
  rw [scan_htmlClose] at hscan
  rw [h.split]
  exact ⟨ps, hscan, hlexemes, hps⟩

/-- Without such a place it is read to the end of the source. -/
theorem scan_html_of_quiet {p : Profile} {x : List Char} (h : Enclosure.html.IsQuiet p x)
    (due : Bool) :
    ∃ ps, scan p (.comment .html due) x = ps ++ [⟨.eof, [], .html⟩] ∧
      ∀ q ∈ ps, IsInner .html q := by
  obtain ⟨ps, due', hscan, -, hps⟩ :=
    scan_inner Enclosure.noConfusion h .nil due
  rw [List.append_nil, scan] at hscan
  exact ⟨ps, hscan, hps⟩

/-! ### Offsets in a source -/

/-- `-->` stands in a source at the byte offset `n`. -/
def HasCloserAt (source : String) (n : Nat) : Prop :=
  ∃ before post, source.toList = before ++ (htmlCloser.lexeme ++ post) ∧ byteLength before = n

/-- `-->` stands in a source at the byte offset `n`, and its first hyphen is not taken by
    what stands before it from the offset `start` on. -/
def ClosesAt (source : String) (start n : Nat) : Prop :=
  ∃ before pre post, source.toList = before ++ (pre ++ (htmlCloser.lexeme ++ post)) ∧
    byteLength before = start ∧ start + byteLength pre = n ∧ takesHyphen pre = false

theorem eq_of_byteLength_eq {a b x y : List Char} (h : a ++ x = b ++ y)
    (hlen : byteLength a = byteLength b) : a = b ∧ x = y := by
  have hpos : ∀ (c : Char) cs, 0 < byteLength (c :: cs) := by
    intro c cs
    have := c.utf8Size_pos
    simp only [byteLength]
    omega
  induction a generalizing b with
  | nil =>
    cases b with
    | nil => exact ⟨rfl, h⟩
    | cons d b => exact absurd hlen (Nat.ne_of_lt (hpos d b))
  | cons c a ih =>
    cases b with
    | nil => exact absurd hlen.symm (Nat.ne_of_lt (hpos c a))
    | cons d b =>
      obtain ⟨rfl, htail⟩ := List.cons.inj h
      obtain ⟨rfl, rfl⟩ := ih htail (by simpa [byteLength] using hlen)
      exact ⟨rfl, rfl⟩

theorem closesAt_iff {source : String} {before x : List Char}
    (hsource : source.toList = before ++ x) {n : Nat} :
    ClosesAt source (byteLength before) n ↔
      ∃ pre post, x = pre ++ (htmlCloser.lexeme ++ post) ∧
        byteLength before + byteLength pre = n ∧ takesHyphen pre = false := by
  constructor
  · rintro ⟨before', pre, post, hsource', hlen, hn, htakes⟩
    obtain ⟨rfl, hx⟩ := eq_of_byteLength_eq (hsource'.symm.trans hsource) hlen
    exact ⟨pre, post, hx.symm, hn, htakes⟩
  · rintro ⟨pre, post, rfl, hn, htakes⟩
    exact ⟨before, pre, post, hsource, rfl, hn, htakes⟩

/-! ### The main statement -/

/-- The text behind an html opener, and the tokens it is cut into. -/
theorem exists_scan_of_htmlOpen {p : Profile} {source : String} {before after : List Token}
    {t : Token} (h : tokenize p source = before ++ t :: after) (ht : t.kind = .htmlOpen) :
    ∃ x, source.toList = textOf (before ++ [t]) ++ x ∧
      after.map Token.toPiece = coalesce (scan p (.comment .html false) x) := by
  have htext : t.kind ≠ .text := by simp [ht]
  have hmode : t.kind.mode? = some (.comment .html false) := by rw [ht]; rfl
  have hpieces := toPiece_tokenize p source
  rw [h, List.map_append, List.map_cons] at hpieces
  obtain ⟨as, bs, hscan, has, hbs⟩ := coalesce_split hpieces.symm htext
  obtain ⟨x, hx, rfl⟩ := scan_split hscan hmode
  refine ⟨x, ?_, hbs.symm⟩
  have hbefore : lexemes as = textOf before := by
    rw [← lexemes_coalesce, has, lexemes_map_toPiece]
  rw [hx, hbefore]
  simp

theorem extent_offsets {p : Profile} {source : String} {before after : List Token} {t : Token}
    (h : tokenize p source = before ++ t :: after) :
    t.extent.start.offset = byteLength (textOf before) ∧
      t.extent.stop.offset = byteLength (textOf (before ++ [t])) := by
  rw [extent_of_locate h]
  have hzero : Point.start.offset = 0 := rfl
  simp only [pointAfter_offset, hzero, Nat.zero_add, and_self]

theorem kind_ne_htmlClose_of_coalesce {ps : List Piece} (h : ∀ q ∈ ps, q.kind ≠ .htmlClose) :
    ∀ q ∈ coalesce ps, q.kind ≠ .htmlClose :=
  forall_mem_coalesce (fun _ _ _ _ _ _ => Kind.noConfusion) h

/-- The first closing token stands behind the text up to the first place to close. -/
theorem FirstClose.exists_closer {p : Profile} {x pre post : List Char} {ts : List Token}
    (h : FirstClose p x pre post)
    (hts : ts.map Token.toPiece = coalesce (FeatureCut.scan p (.comment .html false) x)) :
    ∃ inner c rest, ts = inner ++ c :: rest ∧ textOf inner = pre ∧ c.kind = .htmlClose ∧
      ts.find? (fun u => u.kind = .htmlClose) = some c := by
  obtain ⟨ps, hscan, hlexemes, hps⟩ := h.scan false
  rw [hscan, coalesce_append_cons ps Kind.noConfusion] at hts
  obtain ⟨inner, rest, rfl, hinner, hrest⟩ := List.map_eq_append_iff.1 hts
  obtain ⟨c, rest, rfl, hc, -⟩ := List.map_eq_cons_iff.1 hrest
  have hkind : c.kind = .htmlClose := congrArg Piece.kind hc
  refine ⟨inner, c, rest, rfl, ?_, hkind, ?_⟩
  · rw [← lexemes_map_toPiece, hinner, lexemes_coalesce, hlexemes]
  · have hnone : ∀ u ∈ inner, u.kind ≠ .htmlClose := by
      intro u hu
      have hmem : u.toPiece ∈ coalesce ps := by
        rw [← hinner]
        exact List.mem_map_of_mem hu
      exact kind_ne_htmlClose_of_coalesce (fun q hq => (hps q hq).kind_ne_htmlClose) _ hmem
    rw [List.find?_append, List.find?_eq_none.2 (by simpa using hnone)]
    simp [hkind]

theorem kind_ne_htmlClose_of_quiet {p : Profile} {x : List Char} {ts : List Token}
    (h : Enclosure.html.IsQuiet p x)
    (hts : ts.map Token.toPiece = coalesce (scan p (.comment .html false) x)) :
    ∀ u ∈ ts, u.kind ≠ .htmlClose := by
  obtain ⟨ps, hscan, hps⟩ := scan_html_of_quiet h false
  intro u hu
  have hmem : u.toPiece ∈ coalesce (ps ++ [⟨.eof, [], .html⟩]) := by
    rw [← hscan, ← hts]
    exact List.mem_map_of_mem hu
  refine kind_ne_htmlClose_of_coalesce ?_ _ hmem
  intro q hq
  rcases List.mem_append.1 hq with hq | hq
  · exact (hps q hq).kind_ne_htmlClose
  · rw [List.mem_singleton.1 hq]
    exact Kind.noConfusion

/-- **An html comment closes at the first `-->` whose first hyphen is its own.**  It stays
    open to the end of the source if there is none. -/
theorem htmlClose_isLeast {p : Profile} {source : String} {before after : List Token} {t : Token}
    (h : tokenize p source = before ++ t :: after) (ht : t.kind = .htmlOpen) :
    (∀ c, after.find? (fun u => u.kind = .htmlClose) = some c →
      IsLeast {n | ClosesAt source t.extent.stop.offset n} c.extent.start.offset) ∧
    ((∀ c ∈ after, c.kind ≠ .htmlClose) ↔ ∀ n, ¬ClosesAt source t.extent.stop.offset n) := by
  obtain ⟨x, hsource, hafter⟩ := exists_scan_of_htmlOpen h ht
  rw [(extent_offsets h).2]
  simp only [closesAt_iff hsource]
  rcases exists_firstClose_or_quiet p x with ⟨pre, post, hfirst⟩ | hquiet
  · obtain ⟨inner, c, rest, rfl, rfl, hkind, hfound⟩ := hfirst.exists_closer hafter
    have hoffset : c.extent.start.offset =
        byteLength (textOf (before ++ [t])) + byteLength (textOf inner) := by
      have hsplit : tokenize p source = (before ++ [t] ++ inner) ++ c :: rest := by simp [h]
      rw [(extent_offsets hsplit).1, textOf_append, byteLength_append]
    constructor
    · intro d hd
      obtain rfl : c = d := Option.some.inj (hfound.symm.trans hd)
      constructor
      · exact ⟨_, post, hfirst.split, hoffset.symm, hfirst.seen⟩
      · rintro n ⟨a, b, hx, rfl, ha⟩
        rw [hoffset]
        exact Nat.add_le_add_left (hfirst.byteLength_le hx ha) _
    · constructor
      · intro hopen
        exact absurd hkind (hopen c (by simp))
      · intro hopen
        exact absurd ⟨_, post, hfirst.split, rfl, hfirst.seen⟩ (hopen _)
  · have hnone := kind_ne_htmlClose_of_quiet hquiet hafter
    constructor
    · intro c hc
      have hkind : c.kind = .htmlClose := by simpa using List.find?_some hc
      exact absurd hkind (hnone c (List.mem_of_find?_eq_some hc))
    · refine iff_of_true hnone ?_
      rintro n ⟨a, b, hx, -, ha⟩
      have htakes := isQuiet_html_iff.1 hquiet a b hx
      rw [ha] at htakes
      cases htakes

/-- A comment with a word that takes the first hyphen of a `-->`. -/
def wordSource : String := "/* <!-- @a--> b --> */"

theorem tokenize_wordSource :
    tokenize Language.java.profile wordSource =
      [⟨⟨.blockOpen, ['/', '*'], .code⟩, ⟨⟨1, 1, 0⟩, ⟨1, 3, 2⟩⟩⟩,
          ⟨⟨.text, [' '], .comment⟩, ⟨⟨1, 3, 2⟩, ⟨1, 4, 3⟩⟩⟩] ++
        ⟨htmlOpener, ⟨⟨1, 4, 3⟩, ⟨1, 8, 7⟩⟩⟩ ::
          [⟨⟨.text, " @a--> b ".toList, .html⟩, ⟨⟨1, 8, 7⟩, ⟨1, 17, 16⟩⟩⟩,
            ⟨htmlCloser, ⟨⟨1, 17, 16⟩, ⟨1, 20, 19⟩⟩⟩,
            ⟨⟨.text, [' '], .comment⟩, ⟨⟨1, 20, 19⟩, ⟨1, 21, 20⟩⟩⟩,
            ⟨blockCloser, ⟨⟨1, 21, 20⟩, ⟨1, 23, 22⟩⟩⟩,
            ⟨⟨.eof, [], .code⟩, ⟨⟨1, 23, 22⟩, ⟨1, 23, 22⟩⟩⟩] := by
  decide +kernel

/-- Behind the word stands the second `-->`, which closes. -/
theorem htmlClose_isLeast_word : IsLeast {n | ClosesAt wordSource 7 n} 16 :=
  (htmlClose_isLeast tokenize_wordSource rfl).1 _ rfl

/-- So the first `-->` there is need not be the one that closes. -/
theorem htmlClose_behind_word :
    ¬∀ (p : Profile) (source : String) (before after : List Token) (t : Token),
      p.blockComments = true → p.htmlComments = true →
      tokenize p source = before ++ t :: after → t.kind = .htmlOpen →
      (∀ c, after.find? (fun u => u.kind = .htmlClose) = some c →
        IsLeast {n | t.extent.stop.offset ≤ n ∧ HasCloserAt source n} c.extent.start.offset) ∧
      ((∀ c ∈ after, c.kind ≠ .htmlClose) ↔
        ∀ n, t.extent.stop.offset ≤ n → ¬HasCloserAt source n) := by
  intro h
  obtain ⟨-, hleast⟩ := (h _ _ _ _ _ rfl rfl tokenize_wordSource rfl).1 _ rfl
  have hfirst : HasCloserAt wordSource 10 := ⟨"/* <!-- @a".toList, " b --> */".toList, rfl, rfl⟩
  have hle : 16 ≤ 10 := hleast ⟨by decide, hfirst⟩
  omega

end FeatureCut
