/-
  FeatureCut/Proofs/Window.lean
  =============================
  **The ranges that are evaluated.**

  The invariant of an evaluation by index is a `Window`: a range of tokens that either
  goes on to the end of all that is searched, or closes as many regions as it opens.
  Each step leads from a window to a smaller one with the same end, whether it passes a
  token (`Window.token`), a comment (`Window.comment`) or a region that ends somewhere
  in the document (`Window.region`).  The parts of a region are windows again
  (`Layer.Spans.fits`), also without the blank text at their ends (`Part.trimRange`).

  At the level of code a window also starts outside of comments, since tokens and
  comments are passed as a whole (`Layer.Reached`).
-/
import FeatureCut.Proofs.CheckedReading
import FeatureCut.Proofs.Grammar

namespace FeatureCut

/-! ### Places at the level of code -/

theorem Reads.code_of_blockClose {a b : Place} {q : Piece} (h : Reads a q b)
    (hq : q.kind = .blockClose) : b = .code := by
  cases h with
  | blockClose => rfl
  | lineClose => rfl
  | blockOpen hopener => cases hopener <;> cases hq
  | lineOpen hopener => cases hopener <;> cases hq
  | _ => cases hq

theorem Reads.of_code {b : Place} {q : Piece} (h : Reads .code q b) :
    ((q.kind = .text ∨ q.kind = .eol) ∧ b = .code) ∨ q.kind = .blockOpen ∨ q.kind = .docOpen := by
  cases h with
  | text => exact Or.inl ⟨Or.inl rfl, rfl⟩
  | eol => exact Or.inl ⟨Or.inr rfl, rfl⟩
  | blockOpen hopener =>
    cases hopener with
    | block => exact Or.inr (Or.inl rfl)
    | doc => exact Or.inr (Or.inr rfl)
  | lineOpen hopener => cases hopener <;> exact Or.inr (Or.inl rfl)

namespace Layer

/-- The tokens from some place on can be read as code.  Inside of doc comments there
    is nothing to ask for. -/
def Reached : Layer → List Token → Prop
  | .block, l => l = [] ∨ Accepts .code (l.map Token.toPiece)
  | .html, _ => True

theorem Reached.kind {t : Token} {r : List Token} (h : Layer.block.Reached (t :: r)) :
    t.kind = .text ∨ t.kind = .eol ∨ t.kind = .eof ∨ t.kind = .blockOpen ∨ t.kind = .docOpen := by
  rcases h with h | h
  · cases h
  · by_cases heof : t.kind = .eof
    · exact Or.inr (Or.inr (Or.inl heof))
    · obtain ⟨b, hread, -⟩ := Accepts.exists_reads h heof
      rcases hread.of_code with ⟨htext | heol, -⟩ | hopener
      · exact Or.inl htext
      · exact Or.inr (Or.inl heol)
      · exact Or.inr (Or.inr (Or.inr hopener))

variable {y : Layer}

theorem Reached.token {t : Token} {r : List Token} (h : y.Reached (t :: r))
    (ht : y.comment? t.kind = none) : y.Reached r := by
  cases y with
  | html => exact trivial
  | block =>
    rcases h with h | h
    · cases h
    · by_cases heof : t.kind = .eof
      · generalize hl : (t :: r).map Token.toPiece = l at h
        cases h with
        | code => exact Or.inl (List.map_eq_nil_iff.1 (List.cons.inj hl).2)
        | cons hread _ =>
          obtain ⟨rfl, -⟩ := List.cons.inj hl
          exact absurd heof hread.kind_ne_eof
      · obtain ⟨b, hread, hrest⟩ := Accepts.exists_reads h heof
        rcases hread.of_code with ⟨-, rfl⟩ | hblock | hdoc
        · exact Or.inr hrest
        · rw [show t.kind = .blockOpen from hblock] at ht
          cases ht
        · rw [show t.kind = .docOpen from hdoc] at ht
          cases ht

theorem Reached.comment {role : Role} {l r : List Token} (h : y.Reached (l ++ r))
    (hl : y.IsComment role l) : y.Reached r := by
  cases y with
  | html => exact trivial
  | block =>
    cases hl with
    | @mk t mark c inner ht hinner hmark hrole =>
      rcases h with h | h
      · cases h
      · have hclose : mark.kind = .blockClose := by
          rw [hmark]
          revert ht
          cases t.kind <;> intro ht <;> cases ht <;> rfl
        have hsplit : (t :: (inner ++ [mark]) ++ r).map Token.toPiece =
            (t :: inner).map Token.toPiece ++ (mark :: r).map Token.toPiece := by simp
        rw [hsplit] at h
        obtain ⟨a, -, hmark'⟩ := Accepts.exists_readsAll h (by simp)
        obtain ⟨b, hread, hrest⟩ := Accepts.exists_reads hmark' (by simp [hclose])
        rw [hread.code_of_blockClose hclose] at hrest
        exact Or.inr hrest

theorem Reached.passes {n m : Nat} {l r : List Token} (h : y.Reached (l ++ r))
    (hl : y.Passes n l m) : y.Reached r := by
  induction hl with
  | nil => exact h
  | token ht _ ih => exact ih (Reached.token h ht)
  | comment hcomment _ _ ih =>
    rw [List.append_assoc] at h
    exact ih (h.comment hcomment)

end Layer

/-! ### Windows -/

/-- A range of tokens from `i` up to `stop`, which is being evaluated while regions
    are searched up to `limit`.  If it ends before `limit`, it closes all regions that
    it opens, and no others. -/
structure Window (y : Layer) (ts : List Token) (limit stop i : Nat) : Prop where
  le : i ≤ stop
  stop_le : stop ≤ limit
  limit_le : limit ≤ ts.length
  reached : y.Reached (slice ts i limit)
  inside : stop = limit ∨ y.Passes 0 (slice ts i stop) 0

/-- A comment from `i` up to its closing token at `close`. -/
structure CommentAt (y : Layer) (ts : List Token) (limit i close : Nat) (role : Role) : Prop where
  lt : i < close
  close_lt : close < limit
  comment : y.IsComment role (slice ts i (close + 1))

theorem CommentAt.of_cutAt {y : Layer} {ts : List Token} {limit i close : Nat} {t mark : Token}
    {c : CommentKind} {role : Role} (ht : ts[i]? = some t) (hcomment : y.comment? t.kind = some c)
    (hlt : i + 1 ≤ close) (hclose : close < limit) (hlimit : limit ≤ ts.length)
    (hcut : cutAt c.close (slice ts (i + 1) limit) =
      some ⟨slice ts (i + 1) close, mark, slice ts (close + 1) limit⟩)
    (hrole : Layer.role c (slice ts (i + 1) close) = .ok role) :
    CommentAt y ts limit i close role := by
  refine ⟨hlt, hclose, ?_⟩
  obtain ⟨l, hl, hsplit, hlen⟩ := Layer.IsComment.of_cutAt hcomment hcut hrole
  rw [← slice_cons (by omega) ht] at hsplit
  have hsize : i + l.length = close + 1 := by
    have := hlen i
    dsimp only at this
    rw [length_slice (by omega)] at this
    omega
  rw [← hsize, (slice_of_append hlimit hsplit).1]
  exact hl

section

variable {y : Layer} {ts : List Token} {limit stop i : Nat} (h : Window y ts limit stop i)
include h

theorem Window.token {t : Token} (hi : i < stop) (ht : ts[i]? = some t)
    (hnone : y.comment? t.kind = none) : Window y ts limit stop (i + 1) := by
  have hlimit := h.stop_le
  have hreached := h.reached
  rw [slice_cons (by omega) ht] at hreached
  refine ⟨hi, hlimit, h.limit_le, hreached.token hnone, ?_⟩
  rcases h.inside with hstop | hpasses
  · exact Or.inl hstop
  · rw [slice_cons hi ht] at hpasses
    exact Or.inr (.of_token hnone hpasses)

theorem Window.reached_comment {close : Nat} {role : Role}
    (hc : CommentAt y ts limit i close role) : y.Reached (slice ts (close + 1) limit) := by
  have hlt := hc.lt
  have hreached := h.reached
  rw [slice_append (k := close + 1) (by omega) hc.close_lt] at hreached
  exact hreached.comment hc.comment

/-- A comment that opens in a window closes in it. -/
theorem Window.inside_comment {close : Nat} {role : Role} (hi : i < stop)
    (hc : CommentAt y ts limit i close role) :
    close < stop ∧
      (stop = limit ∨ ∃ k, role.Steps 0 k ∧ y.Passes k (slice ts (close + 1) stop) 0) := by
  have hlt := hc.lt
  have hclose := hc.close_lt
  have hlimit := h.limit_le
  have hstop := h.stop_le
  rcases h.inside with rfl | hpasses
  · exact ⟨hclose, Or.inl rfl⟩
  · have hne : slice ts i stop ≠ [] := by
      apply List.ne_nil_of_length_pos
      rw [length_slice (by omega)]
      omega
    have hwhole : slice ts i (close + 1) ++ slice ts (close + 1) limit =
        slice ts i stop ++ slice ts stop limit := by
      rw [← slice_append (by omega) (by omega), ← slice_append h.le hstop]
    obtain ⟨k, r, hsplit, hsteps, hr⟩ := hpasses.of_comment hc.comment hne hwhole
    have hlen := congrArg List.length hsplit
    rw [List.length_append, length_slice (by omega), length_slice (by omega)] at hlen
    have hrest := (slice_of_append (by omega) hsplit).2
    rw [length_slice (by omega), show i + (close + 1 - i) = close + 1 by omega] at hrest
    exact ⟨by omega, Or.inr ⟨k, hsteps, hrest ▸ hr⟩⟩

/-- Past a comment that opens no region a window goes on. -/
theorem Window.comment {close : Nat} {role : Role} (hi : i < stop)
    (hc : CommentAt y ts limit i close role) (hrole : role ≠ .opening) :
    Window y ts limit stop (close + 1) := by
  obtain ⟨hclose, hinside⟩ := h.inside_comment hi hc
  refine ⟨hclose, h.stop_le, h.limit_le, h.reached_comment hc, ?_⟩
  rcases hinside with hstop | ⟨k, hsteps, hpasses⟩
  · exact Or.inl hstop
  · cases hsteps with
    | neutral => exact Or.inr hpasses
    | alternative => exact Or.inr hpasses
    | opening => exact absurd rfl hrole

end

/-! ### Regions -/

/-- A window that closes all regions which it opens, such as a part of a region. -/
structure Part (y : Layer) (ts : List Token) (limit stop i : Nat) : Prop extends
    Window y ts limit stop i where
  passes : y.Passes 0 (slice ts i stop) 0

/-- A region in the tokens from `start` up to `limit`, with its parts. -/
structure Region.Fits (y : Layer) (ts : List Token) (limit start : Nat) (r : Region) : Prop where
  lt : start < r.ending.after
  le : r.ending.after ≤ limit
  reached : y.Reached (slice ts r.ending.after limit)
  first : Part y ts limit r.thenEnd start
  second : ∀ a b, r.elseRange? = some (a, b) → Part y ts limit b a

theorem Layer.IsComment.length_pos {y : Layer} {role : Role} {l : List Token}
    (h : y.IsComment role l) : 0 < l.length := by
  cases h with
  | mk => simp

theorem Part.of_append {y : Layer} {ts : List Token} {limit start : Nat} {part rest : List Token}
    (hlimit : limit ≤ ts.length) (hl : slice ts start limit = part ++ rest)
    (hle : start + part.length ≤ limit) (hpart : y.Passes 0 part 0)
    (hreached : y.Reached (part ++ rest)) : Part y ts limit (start + part.length) start := by
  have hpasses : y.Passes 0 (slice ts start (start + part.length)) 0 := by
    rw [(slice_of_append hlimit hl).1]
    exact hpart
  exact ⟨⟨Nat.le_add_right start part.length, hle, hlimit, hl ▸ hreached, Or.inr hpasses⟩, hpasses⟩

/-- A region that a search has come to the end of fits. -/
theorem Layer.Spans.fits {y : Layer} {ts : List Token} {limit start : Nat} {r : Region}
    (h : y.Spans start .start (slice ts start limit) r) (hlimit : limit ≤ ts.length)
    (hreached : y.Reached (slice ts start limit)) : r.Fits y ts limit start := by
  generalize hl : slice ts start limit = l at h hreached
  have hsize := congrArg List.length hl
  rw [length_slice hlimit] at hsize
  cases h with
  | @whole body last rest hbody hlast =>
    have hpos := hlast.length_pos
    rw [List.length_append, List.length_append] at hsize
    obtain ⟨-, hl'⟩ := slice_of_append hlimit hl
    obtain ⟨-, hrest⟩ := slice_of_append hlimit hl'
    constructor
    · dsimp only
      omega
    · dsimp only
      omega
    · dsimp only
      rw [hrest]
      exact (hreached.passes hbody).comment hlast
    · exact .of_append hlimit hl (by omega) hbody hreached
    · intro a b hrange
      cases hrange
  | @divided first middle second last rest _ hfirst hmiddle hsecond hlast =>
    have hpos := hlast.length_pos
    simp only [List.length_append] at hsize
    obtain ⟨-, hl₁⟩ := slice_of_append hlimit hl
    obtain ⟨-, hl₂⟩ := slice_of_append hlimit hl₁
    obtain ⟨-, hl₃⟩ := slice_of_append hlimit hl₂
    obtain ⟨-, hrest⟩ := slice_of_append hlimit hl₃
    have hreached₂ := (hreached.passes hfirst).comment hmiddle
    constructor
    · dsimp only
      omega
    · dsimp only
      omega
    · dsimp only
      rw [hrest]
      exact (hreached₂.passes hsecond).comment hlast
    · exact .of_append hlimit hl (by omega) hfirst hreached
    · intro a b hrange
      cases hrange
      exact .of_append hlimit hl₂ (by omega) hsecond hreached₂

/-- A region that opens in a window ends in it. -/
theorem Window.region {y : Layer} {ts : List Token} {limit stop i close : Nat} {r : Region}
    (h : Window y ts limit stop i) (hi : i < stop) (hc : CommentAt y ts limit i close .opening)
    (hr : y.search .start (close + 1) (slice ts (close + 1) limit) = .ok (some r)) :
    Window y ts limit stop r.ending.after := by
  have hlimit := h.limit_le
  have hfits := (Layer.spans_of_search hr).fits hlimit (h.reached_comment hc)
  obtain ⟨hclose, hinside⟩ := h.inside_comment hi hc
  rcases hinside with rfl | ⟨k, hsteps, hpasses⟩
  · exact ⟨hfits.le, Nat.le_refl stop, hlimit, hfits.reached, Or.inl rfl⟩
  · cases hsteps
    -- the search ends in the window already, so its region is this one
    obtain ⟨r', head, tail, hsplit, hafter, htail, hsearch⟩ :=
      hpasses.exists_search (s := .start) (k := 0) rfl (close + 1)
    have hfound := hsearch (slice ts stop limit)
    rw [← slice_append hclose h.stop_le, hr] at hfound
    obtain rfl : r = r' := Option.some.inj (Except.ok.inj hfound)
    have hstop := h.stop_le
    have hlen := congrArg List.length hsplit
    rw [length_slice (by omega), List.length_append] at hlen
    refine ⟨by omega, hstop, hlimit, hfits.reached, Or.inr ?_⟩
    rw [hafter, (slice_of_append (by omega) hsplit).2]
    exact htail

/-- The same, for a region that was searched without regard to where it stands. -/
theorem Window.region_shift {y : Layer} {ts : List Token} {limit stop i close : Nat} {r : Region}
    (h : Window y ts limit stop i) (hi : i < stop) (hc : CommentAt y ts limit i close .opening)
    (hr : y.search .start 0 (slice ts (close + 1) limit) = .ok (some r)) :
    Window y ts limit stop (r.shift (close + 1)).ending.after ∧
      (r.shift (close + 1)).ending.after = i + 1 + (close - i + r.ending.after) ∧
      (r.shift (close + 1)).Fits y ts limit (close + 1) := by
  have hlt := hc.lt
  have hfound := y.search_shift (close + 1) .start 0 (slice ts (close + 1) limit)
  rw [hr, Nat.zero_add] at hfound
  refine ⟨h.region hi hc hfound, ?_, ?_⟩
  · dsimp only [Region.shift, Boundary.shift]
    omega
  · exact (Layer.spans_of_search hfound).fits h.limit_le (h.reached_comment hc)

/-- Both parts of a region are ranges, and the one that is evaluated is a part. -/
theorem Region.Fits.branch {y : Layer} {ts : List Token} {limit start : Nat} {r : Region}
    (h : (r.shift start).Fits y ts limit start) (active : Bool) :
    Checked.branch? ts start (r.shift start) active =
        .ok ((r.branch? active).map fun b => (start + b.1, start + b.1 + b.2)) ∧
      ∀ b, r.branch? active = some b → Part y ts limit (start + b.1 + b.2) (start + b.1) := by
  have hfirst := h.first
  have hthen : (r.shift start).thenEnd = start + r.thenEnd := by
    cases hr : r.alternative <;>
      simp [Region.thenEnd, Region.shift, Boundary.shift, hr, Nat.add_comm]
  have hslice := Checked.slice_eq hfirst.le (Nat.le_trans hfirst.stop_le hfirst.limit_le)
  rw [Checked.branch?, hslice, Checked.ok_bind]
  rw [hthen] at hfirst ⊢
  cases hr : r.alternative with
  | none =>
    have helse : (r.shift start).elseRange? = none := by
      simp [Region.elseRange?, Region.shift, hr]
    rw [helse]
    cases active with
    | true =>
      refine ⟨rfl, ?_⟩
      intro b hb
      cases hb
      exact hfirst
    | false =>
      have hbranch : r.branch? false = none := by simp [Region.branch?, Region.elseRange?, hr]
      rw [hbranch]
      exact ⟨rfl, fun b hb => by cases hb⟩
  | some m =>
    have helse : (r.shift start).elseRange? = some (start + m.after, start + r.ending.before) := by
      simp [Region.elseRange?, Region.shift, Boundary.shift, hr, Nat.add_comm]
    have hsecond := h.second _ _ helse
    have hslice' := Checked.slice_eq hsecond.le (Nat.le_trans hsecond.stop_le hsecond.limit_le)
    rw [helse]
    dsimp only
    rw [hslice', Checked.ok_bind]
    cases active with
    | true =>
      refine ⟨rfl, ?_⟩
      intro b hb
      cases hb
      exact hfirst
    | false =>
      have hbranch : r.branch? false = some (m.after, r.ending.before - m.after) := by
        simp [Region.branch?, Region.elseRange?, hr]
      have hle := hsecond.le
      have hend : start + m.after + (r.ending.before - m.after) = start + r.ending.before := by
        omega
      rw [hbranch]
      refine ⟨by simp [hend], ?_⟩
      intro b hb
      cases hb
      rw [hend]
      exact hsecond

/-! ### Trimming -/

theorem Token.kind_of_isBlankText {t : Token} (h : t.isBlankText = true) : t.kind = .text := by
  simp only [Token.isBlankText, Bool.and_eq_true, decide_eq_true_eq] at h
  exact h.1

theorem exists_trimEnds (w : List Token) :
    ∃ trail, w = w.takeWhile Token.isBlankText ++ (trimEnds Token.isBlankText w ++ trail) ∧
      (∀ t ∈ w.takeWhile Token.isBlankText, t.kind = .text) ∧ ∀ t ∈ trail, t.kind = .text := by
  refine ⟨(w.dropWhile Token.isBlankText).rtakeWhile Token.isBlankText, ?_, ?_, ?_⟩
  · rw [trimEnds, List.rdropWhile_append_rtakeWhile, List.takeWhile_append_dropWhile]
  · exact fun t ht => Token.kind_of_isBlankText (List.mem_takeWhile_imp ht)
  · exact fun t ht => Token.kind_of_isBlankText (List.mem_rtakeWhile_imp ht)

/-- Without the blank text at its ends a part is still one. -/
theorem Part.trimRange {y : Layer} {ts : List Token} {limit stop i : Nat}
    (h : Part y ts limit stop i) :
    Part y ts limit (trimRange ts i stop).2 (trimRange ts i stop).1 := by
  have hlimit := h.limit_le
  have hstop := h.stop_le
  have hle := h.le
  have hlength : stop ≤ ts.length := Nat.le_trans hstop hlimit
  have hreached := h.reached
  have hpasses := h.passes
  rw [trimRange_slice hle hlength]
  obtain ⟨trail, hsplit, hlead, htrail⟩ := exists_trimEnds (slice ts i stop)
  generalize (slice ts i stop).takeWhile Token.isBlankText = lead at *
  generalize trimEnds Token.isBlankText (slice ts i stop) = part at *
  have hlen := congrArg List.length hsplit
  rw [length_slice hlength, List.length_append, List.length_append] at hlen
  have hwhole : slice ts i limit = lead ++ (part ++ (trail ++ slice ts stop limit)) := by
    rw [slice_append hle hstop, hsplit, List.append_assoc, List.append_assoc]
  rw [hwhole] at hreached
  rw [hsplit] at hpasses
  exact .of_append hlimit (slice_of_append hlimit hwhole).2 (by omega)
    (.of_text hlead htrail hpasses) (hreached.passes (.text hlead 0))

end FeatureCut
