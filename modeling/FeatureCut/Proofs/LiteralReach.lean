/-
  FeatureCut/Proofs/LiteralReach.lean
  ===================================
  **How far a literal reaches.**

  The readers of literals take one character after the other.  What they come to can be
  said of the text as a whole.  A literal of one line is the longest text that its grammar
  allows (`QuotedText`), and what closes it there.  A literal with three quotes ends with
  the first long run of quotes that starts outside the escapes (`FirstRun`).

  An escape of a literal of one line may hold a break of two characters, and then the
  grammar has two readings of the same text.  Only the one that takes both goes on
  (`QuotedText.not_break`), so it is the longest one, and the literal does not end between
  the two.  That no other break is torn either is read off the places that a reader of the
  whole text comes to (`Advances.isCleanCut`).
-/
import FeatureCut.Proofs.Extents
import FeatureCut.Proofs.Words

namespace FeatureCut

/-! ### Quotes and lengths -/

/-- What the readers rely on in a quote: it takes one byte, and neither escapes the next
    character nor ends a line. -/
structure IsQuote (q : Char) : Prop where
  oneByte : q.utf8Size = 1
  ne_slash : q ≠ '\\'
  unbroken : isBreak q = false

/-- The quotes that open a literal. -/
theorem isQuote_of_opens {q : Char} (h : q = '"' ∨ q = '\'') : IsQuote q := by
  rcases h with rfl | rfl <;> exact ⟨by decide, by decide, by decide⟩

/-- The bytes of a literal of one line after its opening quote. -/
def quotedLength (q : Char) (body : String) : Nat := byteLength (quotedBody q body.toList).1

/-- The bytes of a literal with three quotes after those that open it. -/
def tripleLength (q : Char) (body : String) : Nat := byteLength (tripleBody q body.toList).1

theorem byteLength_toList (s : String) : byteLength s.toList = s.utf8ByteSize := by
  rw [← utf8ByteSize_ofList, String.ofList_toList]

theorem IsQuote.byteLength_replicate {q : Char} (hq : IsQuote q) (n : Nat) :
    byteLength (List.replicate n q) = n := by
  induction n with
  | zero => rfl
  | succ n ih => rw [List.replicate_succ, byteLength, ih, hq.oneByte, Nat.add_comm]

/-! ### The longest text of a literal -/

/-- What a literal of one line may hold: characters that stand for themselves, and escapes
    of one character or of a break of two. -/
inductive QuotedText (q : Char) : List Char → Prop
  | nil : QuotedText q []
  | plain {c : Char} {cs : List Char} (hslash : c ≠ '\\') (hquote : c ≠ q)
      (hbreak : isBreak c = false) (h : QuotedText q cs) : QuotedText q (c :: cs)
  | escape (d : Char) {cs : List Char} (h : QuotedText q cs) : QuotedText q ('\\' :: d :: cs)
  | breakEscape {d e : Char} {cs : List Char} (hpair : isBreakPair d e = true)
      (h : QuotedText q cs) : QuotedText q ('\\' :: d :: e :: cs)

theorem QuotedText.not_break {q c : Char} {cs : List Char} (hc : isBreak c = true) :
    ¬QuotedText q (c :: cs) := by
  intro h
  cases h with
  | plain _ _ hbreak _ =>
    rw [hc] at hbreak
    cases hbreak
  | escape => cases hc
  | breakEscape => cases hc

/-- `p` is the longest text of a kind that `cs` starts with, and `r` stands behind it. -/
structure LongestPrefix (kind : List Char → Prop) (cs p r : List Char) : Prop where
  split : cs = p ++ r
  mem : kind p
  longest : ∀ x y, cs = x ++ y → kind x → x.length ≤ p.length

namespace LongestPrefix

variable {q : Char} {cs p r : List Char}

/-- Where neither a character nor an escape can be read, nothing is. -/
theorem stop (h : ∀ x y, cs = x ++ y → QuotedText q x → x = []) :
    LongestPrefix (QuotedText q) cs [] cs where
  split := rfl
  mem := .nil
  longest := by
    intro x y hsplit hx
    rw [h x y hsplit hx]

theorem plain {c : Char} (hslash : c ≠ '\\') (hquote : c ≠ q) (hbreak : isBreak c = false)
    (h : LongestPrefix (QuotedText q) cs p r) :
    LongestPrefix (QuotedText q) (c :: cs) (c :: p) r where
  split := by rw [h.split, List.cons_append]
  mem := .plain hslash hquote hbreak h.mem
  longest := by
    intro x y hsplit hx
    cases hx with
    | nil => exact Nat.zero_le _
    | plain _ _ _ hx => exact Nat.succ_le_succ (h.longest _ y (List.cons.inj hsplit).2 hx)
    | escape => exact absurd (List.cons.inj hsplit).1 hslash
    | breakEscape => exact absurd (List.cons.inj hsplit).1 hslash

theorem escape {d : Char} (hpair : ∀ e ∈ cs.head?, isBreakPair d e = false)
    (h : LongestPrefix (QuotedText q) cs p r) :
    LongestPrefix (QuotedText q) ('\\' :: d :: cs) ('\\' :: d :: p) r where
  split := by rw [h.split, List.cons_append, List.cons_append]
  mem := .escape d h.mem
  longest := by
    intro x y hsplit hx
    cases hx with
    | nil => exact Nat.zero_le _
    | plain hslash => exact absurd (List.cons.inj hsplit).1.symm hslash
    | escape d' hx =>
      have htail := (List.cons.inj (List.cons.inj hsplit).2).2
      exact Nat.add_le_add_right (h.longest _ y htail hx) 2
    | breakEscape hpair' hx =>
      obtain ⟨rfl, rfl⟩ := List.cons.inj (List.cons.inj hsplit).2
      rw [hpair _ rfl] at hpair'
      cases hpair'

/-- Of the two readings of an escaped break, the one that tears it ends there. -/
theorem breakEscape {d e : Char} (hpair : isBreakPair d e = true)
    (h : LongestPrefix (QuotedText q) cs p r) :
    LongestPrefix (QuotedText q) ('\\' :: d :: e :: cs) ('\\' :: d :: e :: p) r where
  split := by rw [h.split, List.cons_append, List.cons_append, List.cons_append]
  mem := .breakEscape hpair h.mem
  longest := by
    intro x y hsplit hx
    cases hx with
    | nil => exact Nat.zero_le _
    | plain hslash => exact absurd (List.cons.inj hsplit).1.symm hslash
    | @escape d' x hx =>
      have htail := (List.cons.inj (List.cons.inj hsplit).2).2
      cases x with
      | nil => simp
      | cons f x =>
        have he : isBreak e = true := by
          simp only [isBreakPair, Bool.and_eq_true] at hpair
          exact hpair.1.2
        rw [(List.cons.inj htail).1] at he
        exact absurd hx (QuotedText.not_break he)
    | breakEscape _ hx =>
      have htail := (List.cons.inj (List.cons.inj (List.cons.inj hsplit).2).2).2
      exact Nat.add_le_add_right (h.longest _ y htail hx) 3

end LongestPrefix

/-- What ends a literal with `r` behind its text: the closing quote, or a backslash with
    nothing left to escape. -/
def literalEnd (q : Char) (r : List Char) : List Char :=
  if r = ['\\'] then r else if r.head? = some q then [q] else []

/-- A literal of one line is the longest text it may hold, and what ends it. -/
theorem quotedBody_longest {q : Char} (hq : isBreak q = false) (cs : List Char) :
    ∃ p r, LongestPrefix (QuotedText q) cs p r ∧ (quotedBody q cs).1 = p ++ literalEnd q r := by
  fun_induction quotedBody q cs with
  | case1 => exact ⟨[], [], .stop (by simp), rfl⟩
  | case2 d e t hpair ih =>
    obtain ⟨p, r, h, hbody⟩ := ih
    exact ⟨_, r, h.breakEscape hpair, by rw [extendFirst_fst, hbody]; rfl⟩
  | case3 d e t hpair ih =>
    obtain ⟨p, r, h, hbody⟩ := ih
    have hpair : ∀ f ∈ (e :: t).head?, isBreakPair d f = false := by simpa using hpair
    exact ⟨_, r, h.escape hpair, by rw [extendFirst_fst, hbody]; rfl⟩
  | case4 r hshort =>
    rcases r with _ | ⟨d, _ | ⟨e, t⟩⟩
    · -- the backslash has nothing to escape
      refine ⟨[], ['\\'], .stop ?_, rfl⟩
      intro x y hsplit hx
      cases hx with
      | nil => rfl
      | plain hslash => exact absurd (List.cons.inj hsplit).1.symm hslash
      | escape => simp at hsplit
      | breakEscape => simp at hsplit
    · have hnil : LongestPrefix (QuotedText q) [] [] [] := .stop (by simp)
      exact ⟨_, [], hnil.escape (by simp), rfl⟩
    · exact absurd rfl (hshort d e t)
  | case5 c r hc hbreak =>
    refine ⟨[], c :: r, .stop ?_, ?_⟩
    · intro x y hsplit hx
      cases x with
      | nil => rfl
      | cons d x =>
        rw [(List.cons.inj hsplit).1] at hbreak
        exact absurd hx (QuotedText.not_break hbreak)
    · have hne : c ≠ q := by
        rintro rfl
        rw [hq] at hbreak
        cases hbreak
      simp [literalEnd, hc, hne]
  | case6 r hc hbreak =>
    refine ⟨[], q :: r, .stop ?_, by simp [literalEnd, hc]⟩
    intro x y hsplit hx
    cases hx with
    | nil => rfl
    | plain _ hquote => exact absurd (List.cons.inj hsplit).1.symm hquote
    | escape => exact absurd (List.cons.inj hsplit).1 hc
    | breakEscape => exact absurd (List.cons.inj hsplit).1 hc
  | case7 c r hc hbreak hne ih =>
    obtain ⟨p, s, h, hbody⟩ := ih
    exact ⟨_, s, h.plain hc hne (by simpa using hbreak), by rw [extendFirst_fst, hbody]; rfl⟩

/-! ### The first long run of quotes -/

/-- A text that is read to its end as characters and whole escapes, so that what follows is
    not escaped. -/
inductive Decoded : List Char → Prop
  | nil : Decoded []
  | char {c : Char} {cs : List Char} (hslash : c ≠ '\\') (h : Decoded cs) : Decoded (c :: cs)
  | escape (d : Char) {cs : List Char} (h : Decoded cs) : Decoded ('\\' :: d :: cs)

/-- Behind `a` a run of `n` quotes starts in `cs`, and it goes on as far as there are any. -/
structure QuoteRun (q : Char) (cs a : List Char) (n : Nat) (b : List Char) : Prop where
  split : cs = a ++ (List.replicate n q ++ b)
  pos : 0 < n
  unescaped : Decoded a
  maximal : b.head? ≠ some q

/-- The first run of at least three quotes. -/
structure FirstRun (q : Char) (cs a : List Char) (n : Nat) (b : List Char) : Prop
    extends QuoteRun q cs a n b where
  long : 3 ≤ n
  first : ∀ a' n' b', QuoteRun q cs a' n' b' → 3 ≤ n' → a.length ≤ a'.length

namespace QuoteRun

variable {q : Char} {cs a b : List Char} {n : Nat}

theorem behind_char {c : Char} (hslash : c ≠ '\\') (h : QuoteRun q cs a n b) :
    QuoteRun q (c :: cs) (c :: a) n b :=
  ⟨by rw [h.split, List.cons_append], h.pos, .char hslash h.unescaped, h.maximal⟩

theorem behind_escape (d : Char) (h : QuoteRun q cs a n b) :
    QuoteRun q ('\\' :: d :: cs) ('\\' :: d :: a) n b :=
  ⟨by rw [h.split, List.cons_append, List.cons_append], h.pos, .escape d h.unescaped, h.maximal⟩

/-- A run at the start of a text is what the reader counts there. -/
theorem long_of_nil {c : Char} (h : QuoteRun q (c :: cs) [] n b) :
    c = q ∧ n ≤ (cs.takeWhile (· == q)).length + 1 := by
  have hsplit := h.split
  obtain ⟨m, rfl⟩ := Nat.exists_eq_succ_of_ne_zero (Nat.pos_iff_ne_zero.1 h.pos)
  rw [List.nil_append, List.replicate_succ, List.cons_append] at hsplit
  obtain ⟨rfl, rfl⟩ := List.cons.inj hsplit
  rw [List.takeWhile_append_of_pos (by simp), List.length_append, List.length_replicate]
  exact ⟨rfl, by omega⟩

/-- No run starts inside of an escape. -/
theorem of_escape {d : Char} (hq : q ≠ '\\') (h : QuoteRun q ('\\' :: d :: cs) a n b) :
    ∃ a', a = '\\' :: d :: a' ∧ QuoteRun q cs a' n b := by
  obtain ⟨hsplit, hpos, hunescaped, hmaximal⟩ := h
  cases hunescaped with
  | nil => exact absurd (long_of_nil ⟨hsplit, hpos, .nil, hmaximal⟩).1.symm hq
  | char hslash => exact absurd (List.cons.inj hsplit).1.symm hslash
  | escape d' h =>
    obtain ⟨rfl, htail⟩ := List.cons.inj (List.cons.inj hsplit).2
    exact ⟨_, rfl, htail, hpos, h, hmaximal⟩

/-- Where no long run starts, the long runs start behind the character that stands there. -/
theorem of_char {c : Char} (hslash : c ≠ '\\')
    (hshort : ¬(c = q ∧ 2 ≤ (cs.takeWhile (· == q)).length)) (h : QuoteRun q (c :: cs) a n b)
    (hn : 3 ≤ n) : ∃ a', a = c :: a' ∧ QuoteRun q cs a' n b := by
  obtain ⟨hsplit, hpos, hunescaped, hmaximal⟩ := h
  cases hunescaped with
  | nil =>
    have hlong := long_of_nil ⟨hsplit, hpos, .nil, hmaximal⟩
    exact absurd ⟨hlong.1, by omega⟩ hshort
  | char _ h =>
    obtain ⟨rfl, htail⟩ := List.cons.inj hsplit
    exact ⟨_, rfl, htail, hpos, h, hmaximal⟩
  | escape => exact absurd (List.cons.inj hsplit).1 hslash

end QuoteRun

/-- How far a literal with three quotes reaches in a text: through the first long run, or to
    the end of a text that has none. -/
inductive TripleReach (q : Char) (cs : List Char) : List Char → Prop
  | closed {a b : List Char} {n : Nat} (h : FirstRun q cs a n b) :
      TripleReach q cs (a ++ List.replicate n q)
  | unclosed (h : ∀ a n b, QuoteRun q cs a n b → n < 3) : TripleReach q cs cs

/-- What is read before the first long run is in front of it, and changes nothing else. -/
theorem TripleReach.behind {q : Char} {u cs body : List Char}
    (hforth : ∀ {a n b}, QuoteRun q cs a n b → QuoteRun q (u ++ cs) (u ++ a) n b)
    (hback : ∀ {a n b}, QuoteRun q (u ++ cs) a n b → 3 ≤ n →
      ∃ a', a = u ++ a' ∧ QuoteRun q cs a' n b)
    (h : TripleReach q cs body) : TripleReach q (u ++ cs) (u ++ body) := by
  cases h with
  | closed h =>
    rw [← List.append_assoc]
    refine .closed ⟨hforth h.toQuoteRun, h.long, ?_⟩
    intro a' n' b' h' hn'
    obtain ⟨a', rfl, hrun⟩ := hback h' hn'
    rw [List.length_append, List.length_append]
    exact Nat.add_le_add_left (h.first a' n' b' hrun hn') _
  | unclosed h =>
    refine .unclosed ?_
    intro a n b hrun
    by_contra hn
    obtain ⟨a', -, hrun⟩ := hback hrun (by omega)
    exact hn (h a' n b hrun)

theorem tripleReach_tripleBody {q : Char} (hq : q ≠ '\\') (cs : List Char) :
    TripleReach q cs (tripleBody q cs).1 := by
  fun_induction tripleBody q cs with
  | case1 =>
    refine .unclosed ?_
    intro a n b h
    have hpos := h.pos
    have hnil := h.split
    simp at hnil
    omega
  | case2 d t ih =>
    exact TripleReach.behind (u := ['\\', d]) (.behind_escape d) (fun h _ => h.of_escape hq) ih
  | case3 =>
    refine .unclosed ?_
    intro a n b h
    have hlen := congrArg List.length h.split
    simp at hlen
    omega
  | case4 c r hc hrun =>
    obtain ⟨rfl, hlen⟩ : c = q ∧ 2 ≤ (r.takeWhile (· == q)).length := by simpa using hrun
    have hbody : c :: r.takeWhile (· == c) =
        [] ++ List.replicate ((r.takeWhile (· == c)).length + 1) c := by
      rw [List.nil_append, List.replicate_succ, ← takeWhile_eq_replicate]
    change TripleReach c (c :: r) (c :: r.takeWhile (· == c))
    rw [hbody]
    refine .closed (b := r.dropWhile (· == c)) ⟨⟨?_, Nat.succ_pos _, .nil, ?_⟩, by omega, ?_⟩
    · rw [← List.append_assoc, ← hbody, List.cons_append, List.takeWhile_append_dropWhile]
    · intro hhead
      simpa using head?_dropWhile c hhead
    · intro a' n' b' _ _
      exact Nat.zero_le _
  | case5 c r hc hrun ih =>
    have hshort : ¬(c = q ∧ 2 ≤ (r.takeWhile (· == q)).length) := by simpa using hrun
    exact TripleReach.behind (u := [c]) (.behind_char hc) (fun h => h.of_char hc hshort) ih

/-! ### Places between breaks -/

/-- A byte offset at which a text may be cut: it stands between two characters, and before
    or behind each line break. -/
structure IsCleanCut (text : String) (n : Nat) : Prop where
  valid : (⟨n⟩ : String.Pos.Raw).IsValid text
  whole : ∀ b ∈ lineBreaks 0 text.toList,
    byteLength (text.toList.take b.stop) ≤ n ∨ n ≤ byteLength (text.toList.take b.start)

theorem le_start_of_mem_lineBreaks {n : Nat} {cs : List Char} {b : LineBreak}
    (h : b ∈ lineBreaks n cs) : n ≤ b.start := by
  induction hn : cs.length using Nat.strongRecOn generalizing n cs with
  | ind m ih =>
    subst hn
    cases cs with
    | nil => simp [lineBreaks] at h
    | cons c r =>
      by_cases hc : isBreak c = true
      · rw [lineBreaks_break hc] at h
        rcases List.mem_cons.1 h with rfl | h
        · exact Nat.le_refl _
        · have hlen := breakFrom_length c r
          have hle := ih _ (Nat.lt_succ_of_le hlen) h rfl
          omega
      · rw [lineBreaks_char (by simpa using hc)] at h
        have hle := ih _ (Nat.lt_succ_self _) h rfl
        omega

/-- A break of a text is read as a whole before a reader comes to a place, or as a whole
    after it. -/
theorem Advances.break_outside {a b : Point} {cs rest : List Char} (h : Advances a cs b rest)
    (n : Nat) : ∀ k ∈ lineBreaks n cs,
      k.stop + rest.length ≤ n + cs.length ∨ n + cs.length ≤ k.start + rest.length := by
  induction h generalizing n with
  | refl a cs =>
    intro k hk
    exact Or.inr (Nat.add_le_add_right (le_start_of_mem_lineBreaks hk) _)
  | char hc _ ih =>
    intro k hk
    rw [lineBreaks_char hc] at hk
    have hplace := ih (n + 1) k hk
    rw [List.length_cons]
    omega
  | @eol a b c r rest hc h ih =>
    have hread := congrArg List.length (breakFrom_append c r)
    rw [List.length_append, List.length_cons] at hread
    intro k hk
    rw [lineBreaks_break hc] at hk
    rw [List.length_cons]
    rcases List.mem_cons.1 hk with rfl | hk
    · have hle := h.length_le
      simp only [LineBreak.stop]
      omega
    · have hplace := ih _ k hk
      omega

theorem byteLength_take_le {cs : List Char} {m n : Nat} (h : m ≤ n) :
    byteLength (cs.take m) ≤ byteLength (cs.take n) := by
  obtain ⟨t, ht⟩ := List.take_prefix_take_left h
  rw [← ht, byteLength_append]
  exact Nat.le_add_right _ _

/-- The places that a reader comes to are those at which a text may be cut. -/
theorem Advances.isCleanCut {a b : Point} {text : String} {cs rest : List Char}
    (h : Advances a text.toList b rest) (hsplit : text.toList = cs ++ rest) :
    IsCleanCut text (byteLength cs) where
  valid := isValid_byteLength hsplit
  whole := by
    intro k hk
    have hcs : text.toList.take cs.length = cs := by rw [hsplit, List.take_left]
    have hlen := congrArg List.length hsplit
    rw [List.length_append] at hlen
    have houtside : k.stop ≤ cs.length ∨ cs.length ≤ k.start := by
      have hplace := h.break_outside 0 k hk
      omega
    rw [← hcs]
    rcases houtside with hstop | hstart
    · exact Or.inl (byteLength_take_le (by simpa [hcs] using hstop))
    · exact Or.inr (byteLength_take_le (by simpa [hcs] using hstart))

/-! ### The main statement -/

/-- **How far a literal reaches.**  A literal of one line takes the longest text it may
    hold, and one byte more if the closing quote follows; it takes the whole body if that
    ends in the backslash of an escape.  A literal with three quotes ends with the first run
    of at least three, or with the body if there is none.  Neither ends inside of a
    character or of a line break. -/
theorem literal_reach {q : Char} (hq : IsQuote q) (body : String) :
    (∃ p r, LongestPrefix (QuotedText q) body.toList p r ∧
      quotedLength q body =
        if r = ['\\'] then body.utf8ByteSize
        else if r.head? = some q then byteLength p + 1 else byteLength p) ∧
    ((∃ a n b, FirstRun q body.toList a n b ∧ tripleLength q body = byteLength a + n) ∨
      (∀ a n b, QuoteRun q body.toList a n b → n < 3) ∧
        tripleLength q body = body.utf8ByteSize) ∧
    IsCleanCut body (quotedLength q body) ∧ IsCleanCut body (tripleLength q body) := by
  refine ⟨?_, ?_, ?_, ?_⟩
  · obtain ⟨p, r, h, hbody⟩ := quotedBody_longest hq.unbroken body.toList
    refine ⟨p, r, h, ?_⟩
    rw [quotedLength, hbody, literalEnd, ← byteLength_toList, h.split]
    split
    · rfl
    · split <;> simp [byteLength, hq.oneByte]
  · have hreach := tripleReach_tripleBody hq.ne_slash body.toList
    rw [tripleLength]
    generalize (tripleBody q body.toList).1 = cs at hreach
    cases hreach with
    | closed h => exact Or.inl ⟨_, _, _, h, by rw [byteLength_append, hq.byteLength_replicate]⟩
    | unclosed h => exact Or.inr ⟨h, byteLength_toList body⟩
  · obtain ⟨pt, h⟩ := quotedBody_advances hq.unbroken .start body.toList
    exact h.isCleanCut (quotedBody_append q body.toList).symm
  · obtain ⟨pt, h⟩ := tripleBody_advances hq.unbroken .start body.toList
    exact h.isCleanCut (tripleBody_append q body.toList).symm

/-- An escaped break and an escaped quote before the closing one. -/
def escapedBody : String := "é\\\r\n\\\"\"\r\n"

/-- Four quotes, of which the first is escaped. -/
def tripleQuotedBody : String := "\\''''é'"

theorem literal_reach_escapes :
    IsQuote '"' ∧ quotedLength '"' escapedBody = 8 ∧ IsCleanCut escapedBody 8 ∧
      (∃ p r, LongestPrefix (QuotedText '"') escapedBody.toList p r ∧
        8 = if r = ['\\'] then 10
          else if r.head? = some '"' then byteLength p + 1 else byteLength p) ∧
      IsQuote '\'' ∧ tripleLength '\'' tripleQuotedBody = 5 ∧ IsCleanCut tripleQuotedBody 5 ∧
      ∃ a n b, FirstRun '\'' tripleQuotedBody.toList a n b ∧ 5 = byteLength a + n := by
  have hdouble : IsQuote '"' := isQuote_of_opens (Or.inl rfl)
  have hsingle : IsQuote '\'' := isQuote_of_opens (Or.inr rfl)
  have hquoted : quotedLength '"' escapedBody = 8 := by decide +kernel
  have hsize : escapedBody.utf8ByteSize = 10 := by decide +kernel
  have htriple : tripleLength '\'' tripleQuotedBody = 5 := by decide +kernel
  have hsize' : tripleQuotedBody.utf8ByteSize = 8 := by decide +kernel
  obtain ⟨hlongest, -, hcut, -⟩ := literal_reach hdouble escapedBody
  obtain ⟨-, hrun, -, hcut'⟩ := literal_reach hsingle tripleQuotedBody
  rw [hquoted] at hcut
  rw [hquoted, hsize] at hlongest
  rw [htriple] at hcut'
  rw [htriple, hsize'] at hrun
  refine ⟨hdouble, hquoted, hcut, hlongest, hsingle, htriple, hcut', hrun.resolve_right ?_⟩
  rintro ⟨-, hwhole⟩
  exact absurd hwhole (by decide)

end FeatureCut
