/-
  FeatureCut/Proofs/Scopes.lean
  =============================
  **What an evaluation enters.**

  A document is evaluated by going into its active regions, html regions and inline
  bodies, each of which is a `Scope`.  `Enters` says which ones a scope leads to: those
  of the items that a walk over it comes to, and it comes to an item if nothing before
  it stops.

  Every scope that is entered is smaller than the one it is entered from
  (`Enters.inside`).  A branch is a range of tokens strictly inside of the range around
  it, and an inline body has fewer characters than the range that its comment stands in.
  The ranges are those of the evaluation by index, so this rests on the windows that are
  kept there (`Visits.window`).
-/
import FeatureCut.Proofs.Context
import FeatureCut.Proofs.Mentions
import FeatureCut.Proofs.Safety

namespace FeatureCut

/-! ### Scopes -/

/-- What is evaluated on one level: a document, or a window in one that is a branch of a
    region. -/
inductive Scope where
  | document (source : List Char)
  | branch (size : Nat) (ts : List Token)
  | htmlBranch (size : Nat) (ts : List Token)

def Scope.tokens (o : Options) : Scope → List Token
  | .document source => tokenize o.language.profile (String.ofList source)
  | .branch size ts | .htmlBranch size ts => ts.take size

/-- A scope lies inside a range of tokens: a document has fewer characters, and a branch
    is a part of the range that leaves out tokens at both ends, and characters. -/
def Scope.Inside (w : List Token) : Scope → Prop
  | .document source => source.length < (textOf w).length
  | .branch size ts | .htmlBranch size ts =>
    ∃ a b, textOf a ≠ [] ∧ b ≠ [] ∧ w = a ++ (ts.take size ++ b)

/-! ### Entering a scope -/

/-- A walk comes to the item at `u`: none of the items before it stops. -/
inductive Visits {σ : Type} (item : Nat → Token → List Token → Item σ) :
    Nat → List Token → Nat → Token → List Token → Prop
  | here {n : Nat} {t : Token} {r : List Token} : Visits item (n + 1) (t :: r) n t r
  | later {n m : Nat} {t u : Token} {r s : List Token} (hstop : (item n t r).trail.stop = none)
      (h : Visits item (n - (item n t r).taken) (r.drop (item n t r).taken) m u s) :
      Visits item (n + 1) (t :: r) m u s

/-- The branch that is evaluated of the html region which opens at `t`. -/
inductive HtmlEnters (o : Options) (t : Token) (r : List Token) : Scope → Prop
  | region {cut : Cut} {p : Polarity} {key : KeyExpr} {region : Region} {start size : Nat}
      (hk : t.kind = .htmlOpen) (hc : cutAt .htmlClose r = some cut)
      (hd : classifyHtml cut.inner = .ok (.opening p key))
      (hregion : findHtmlRegion 0 cut.rest = .ok (some region))
      (hbranch : region.branch? (p.selects key o.keys) = some (start, size)) :
      HtmlEnters o t r (.htmlBranch size (cut.rest.drop start))

/-- What is evaluated of the comment at `t` on the next level: the branch of a region, the
    body of an active inline directive, or a branch of an html region in a doc comment. -/
inductive CodeEnters (o : Options) (inner : Level) (t : Token) (r : List Token) : Scope → Prop
  | region {cut : Cut} {p : Polarity} {key : KeyExpr} {region : Region} {start size : Nat}
      (hk : t.kind = .blockOpen) (hc : cutAt .blockClose r = some cut)
      (hd : classify cut.inner = .ok (.opening p key))
      (hregion : findRegion 0 cut.rest = .ok (some region))
      (hbranch : region.branch? (p.selects key o.keys) = some (start, size)) :
      CodeEnters o inner t r (.branch (trimWindow size (cut.rest.drop start)).2
        (cut.rest.drop (start + (trimWindow size (cut.rest.drop start)).1)))
  | inline {cut : Cut} {p : Polarity} {key : KeyExpr} {lead : Nat} {body : List Token}
      (hk : t.kind = .blockOpen) (hc : cutAt .blockClose r = some cut)
      (hd : classify cut.inner = .ok (.inline p key lead body))
      (hactive : p.selects key o.keys = true) :
      CodeEnters o inner t r (.document (stripSpace (textOf body)))
  | doc {cut : Cut} {m : Nat} {u : Token} {s : List Token} {x : Scope} (hk : t.kind = .docOpen)
      (hc : cutAt .blockClose r = some cut)
      (hvisits : Visits (docItem o inner) cut.inner.length cut.inner m u s)
      (henters : HtmlEnters o u s x) : CodeEnters o inner t r x

/-- The evaluation of a scope goes into another one, where `inner` evaluates what is
    entered. -/
inductive Enters (o : Options) (inner : Level) : Scope → Scope → Prop
  | document {source : List Char} {ts : List Token} {m : Nat} {t : Token} {r : List Token}
      {x : Scope} (hts : ts = tokenize o.language.profile (String.ofList source))
      (hvisits : Visits (codeItem o inner true) ts.length ts m t r)
      (henters : CodeEnters o inner t r x) : Enters o inner (.document source) x
  | branch {n m : Nat} {ts r : List Token} {t : Token} {x : Scope}
      (hvisits : Visits (codeItem o inner false) n ts m t r)
      (henters : CodeEnters o inner t r x) : Enters o inner (.branch n ts) x
  | htmlBranch {n m : Nat} {ts r : List Token} {t : Token} {x : Scope}
      (hvisits : Visits (docItem o inner) n ts m t r) (henters : HtmlEnters o t r x) :
      Enters o inner (.htmlBranch n ts) x

/-- One scope is entered from another through `k` scopes, itself included. -/
inductive Enclosed (o : Options) (inner : Level) : Scope → Nat → Scope → Prop
  | here (x : Scope) : Enclosed o inner x 0 x
  | step {x y z : Scope} {k : Nat} (henters : Enters o inner x y) (h : Enclosed o inner y k z) :
      Enclosed o inner x (k + 1) z

/-! ### Windows of a walk -/

/-- Evaluators by index that take what they give from evaluators of lists. -/
def Level.byIndex (m : Level) : Checked.Level where
  branch ts start stop := .ok (m.branch (stop - start) (slice ts start ts.length))
  htmlBranch ts limit start stop := .ok (m.htmlBranch (stop - start) (slice ts start limit))
  document source := .ok (m.document source)

theorem Level.follows_byIndex (m : Level) : m.byIndex.Follows m :=
  ⟨fun _ => rfl, fun _ => rfl, fun _ => rfl⟩

/-- The items of a walk lead from window to window. -/
def KeepsWindows {σ : Type} (item : Nat → Token → List Token → Item σ) (y : Layer)
    (ts : List Token) (limit stop : Nat) : Prop :=
  ∀ i t, Window y ts limit stop i → i < stop → ts[i]? = some t →
    (item (stop - (i + 1)) t (slice ts (i + 1) limit)).trail.stop = none →
    Window y ts limit stop (i + 1 + (item (stop - (i + 1)) t (slice ts (i + 1) limit)).taken)

theorem keepsWindows_of_meets {σ : Type} {item : Nat → Token → List Token → Item σ} {y : Layer}
    {ts : List Token} {limit stop : Nat}
    (h : ∀ i t, Window y ts limit stop i → i < stop → ts[i]? = some t →
      ∃ v : Checked.Visit σ, v.Meets y ts limit stop i
        (item (stop - (i + 1)) t (slice ts (i + 1) limit))) :
    KeepsWindows item y ts limit stop := by
  intro i t hwindow hi ht hstop
  obtain ⟨v, hmeets⟩ := h i t hwindow hi ht
  rw [← hmeets.trail] at hstop
  rw [← hmeets.next hstop]
  exact hmeets.window hstop

theorem codeItem_keepsWindows (o : Options) (m : Level) (top : Bool) (ts : List Token)
    (stop : Nat) : KeepsWindows (codeItem o m top) .block ts ts.length stop := by
  apply keepsWindows_of_meets
  intro i t hwindow hi ht
  obtain ⟨v, -, hmeets⟩ := Checked.codeItem_meets (o := o) m.follows_byIndex hwindow hi ht top
  exact ⟨v, hmeets⟩

theorem docItem_keepsWindows (o : Options) (m : Level) (ts : List Token) (limit stop : Nat) :
    KeepsWindows (docItem o m) .html ts limit stop := by
  apply keepsWindows_of_meets
  intro i t hwindow hi ht
  obtain ⟨v, -, hmeets⟩ := Checked.docItem_meets (o := o) m.follows_byIndex hwindow hi ht _
  exact ⟨v, hmeets⟩

/-- A walk over a window comes to items at the start of windows. -/
theorem Visits.window {σ : Type} {item : Nat → Token → List Token → Item σ} {y : Layer}
    {ts : List Token} {limit stop i : Nat} (hitem : KeepsWindows item y ts limit stop)
    (h : Window y ts limit stop i) {m : Nat} {t : Token} {r : List Token}
    (hvisits : Visits item (stop - i) (slice ts i limit) m t r) :
    ∃ j, Window y ts limit stop j ∧ i ≤ j ∧ j < stop ∧ ts[j]? = some t ∧
      r = slice ts (j + 1) limit := by
  generalize hn : stop - i = n at hvisits
  generalize hl : slice ts i limit = l at hvisits
  have hlimit := h.limit_le
  have hstop := h.stop_le
  induction hvisits generalizing i with
  | @here n t r =>
    have hi : i < stop := by omega
    obtain ⟨u, hu⟩ : ∃ u, ts[i]? = some u := exists_token (by omega)
    rw [slice_cons (by omega) hu] at hl
    obtain ⟨rfl, rfl⟩ := List.cons.inj hl
    exact ⟨i, h, Nat.le_refl i, hi, hu, rfl⟩
  | @later n m t u r s hnone hrest ih =>
    have hi : i < stop := by omega
    obtain ⟨v, hv⟩ : ∃ v, ts[i]? = some v := exists_token (by omega)
    rw [slice_cons (by omega) hv] at hl
    obtain ⟨rfl, rfl⟩ := List.cons.inj hl
    obtain rfl : n = stop - (i + 1) := by omega
    have hnext := hitem i v h hi hv hnone
    obtain ⟨j, hwindow, hle, hj⟩ := ih hnext (by omega) (drop_slice _).symm
    exact ⟨j, hwindow, by omega, hj⟩

/-! ### Branches as ranges -/

theorem Layer.branch_lt_of_search {y : Layer} {l : List Token} {region : Region} {active : Bool}
    {start size : Nat} (h : y.search .start 0 l = .ok (some region))
    (hbranch : region.branch? active = some (start, size)) :
    start + size < region.ending.after := by
  have hspans := Layer.spans_of_search h
  cases hspans with
  | @whole body last rest hbody hlast =>
    have hpos := hlast.length_pos
    cases active with
    | true =>
      cases hbranch
      dsimp only [Region.thenEnd, Search.start]
      omega
    | false => cases hbranch
  | @divided first middle second last rest _ hfirst hmiddle hsecond hlast =>
    have hpos := hlast.length_pos
    cases active with
    | true =>
      cases hbranch
      dsimp only [Region.thenEnd]
      omega
    | false =>
      cases hbranch
      dsimp only
      omega

/-- The branch of a region that opens in a window ends before the region does, and so
    before the window. -/
theorem Window.branch {y : Layer} {ts : List Token} {limit stop i close : Nat} {region : Region}
    {active : Bool} {start size : Nat} (h : Window y ts limit stop i) (hi : i < stop)
    (hc : CommentAt y ts limit i close .opening)
    (hr : y.search .start 0 (slice ts (close + 1) limit) = .ok (some region))
    (hbranch : region.branch? active = some (start, size)) :
    Part y ts limit (close + 1 + start + size) (close + 1 + start) ∧
      close + 1 + start + size < stop := by
  obtain ⟨hwindow, -, hfits⟩ := h.region_shift hi hc hr
  have hlt := Layer.branch_lt_of_search hr hbranch
  have hle := hwindow.le
  dsimp only [Region.shift, Boundary.shift] at hle
  exact ⟨(hfits.branch active).2 _ hbranch, by omega⟩

theorem CommentAt.of_opener {y : Layer} {ts : List Token} {limit i : Nat} {t : Token}
    {c : CommentKind} {cut : Cut} {role : Role} (hlimit : limit ≤ ts.length) (ht : ts[i]? = some t)
    (hcomment : y.comment? t.kind = some c) (hc : cutAt c.close (slice ts (i + 1) limit) = some cut)
    (hrole : Layer.role c cut.inner = .ok role) :
    ∃ close, CommentAt y ts limit i close role ∧ cut.inner = slice ts (i + 1) close ∧
      cut.rest = slice ts (close + 1) limit := by
  rcases Checked.seek_cut hlimit c.close (i + 1) with
    ⟨close, mark, hlt, hclose, -, hcut, -⟩ | ⟨hnone, -⟩
  · obtain rfl := Option.some.inj (hcut.symm.trans hc)
    exact ⟨close, .of_cutAt ht hcomment hlt hclose hlimit hcut hrole, rfl, rfl⟩
  · rw [hnone] at hc
    cases hc

theorem take_slice {ts : List Token} {a b limit : Nat} (hb : b ≤ limit) :
    (slice ts a limit).take (b - a) = slice ts a b := by
  rw [slice, List.take_take, Nat.min_eq_left (by omega), slice]

/-- A branch that is a range behind a token lies inside each range around both. -/
theorem slice_inside {ts : List Token} {first i a b stop limit : Nat} {t : Token}
    (ht : ts[i]? = some t) (hlexeme : t.lexeme ≠ []) (hfirst : first ≤ i) (hia : i < a)
    (hab : a ≤ b) (hb : b < stop) (hstop : stop ≤ ts.length) (hlimit : b ≤ limit) :
    ∃ l r, textOf l ≠ [] ∧ r ≠ [] ∧
      slice ts first stop = l ++ ((slice ts a limit).take (b - a) ++ r) := by
  refine ⟨slice ts first a, slice ts b stop, ?_, ?_, ?_⟩
  · rw [slice_append hfirst (Nat.le_of_lt hia), slice_cons hia ht, textOf_append, textOf_cons]
    simp [hlexeme]
  · apply List.ne_nil_of_length_pos
    rw [length_slice hstop]
    omega
  · rw [take_slice hlimit, ← slice_append hab (by omega), ← slice_append (by omega) (by omega)]

/-! ### Scopes of a document -/

/-- A scope that an evaluation can be in: a branch is a range of some document. -/
inductive Scope.Stands (o : Options) : Scope → Prop
  | document (source : List Char) : Stands o (.document source)
  | branch {ts : List Token} {source : String} {start stop : Nat}
      (hts : ts = tokenize o.language.profile source) (h : Part .block ts ts.length stop start) :
      Stands o (.branch (stop - start) (slice ts start ts.length))
  | htmlBranch {ts : List Token} {source : String} {limit start stop : Nat}
      (hts : ts = tokenize o.language.profile source) (h : Part .html ts limit stop start) :
      Stands o (.htmlBranch (stop - start) (slice ts start limit))

theorem lexeme_ne_nil {p : Profile} {source : String} {i : Nat} {t : Token}
    (ht : (tokenize p source)[i]? = some t) (heof : t.kind ≠ .eof) (hclose : t.kind ≠ .blockClose) :
    t.lexeme ≠ [] := by
  intro hnil
  have hspelled := (tokenize_accepts p source).spelled t.toPiece
    (List.mem_map_of_mem (List.mem_of_getElem? ht))
  rcases hspelled.ne_nil hnil with h | h
  · exact heof h
  · exact hclose (congrArg Piece.kind h)

section

variable {o : Options} {source : String} {ts : List Token}
  (hts : ts = tokenize o.language.profile source)
include hts

theorem HtmlEnters.inside {limit stop i : Nat} {t : Token} {x : Scope}
    (h : Window .html ts limit stop i) (hi : i < stop) (ht : ts[i]? = some t)
    (henters : HtmlEnters o t (slice ts (i + 1) limit) x) :
    x.Stands o ∧ ∀ first last, first ≤ i → stop ≤ last → last ≤ ts.length →
      x.Inside (slice ts first last) := by
  cases henters with
  | @region cut p key region start size hk hc hd hregion hbranch =>
    obtain ⟨close, hat, -, hrest⟩ := CommentAt.of_opener (y := .html) (c := .html) h.limit_le ht
      (by rw [hk, Layer.comment?]) hc (Layer.role_html hd)
    rw [hrest, findHtmlRegion, ← Layer.search_html] at hregion
    obtain ⟨hpart, hlt⟩ := h.branch hi hat hregion hbranch
    have hsize : size = close + 1 + start + size - (close + 1 + start) := by omega
    have hclose := hat.lt
    have hlexeme := lexeme_ne_nil (hts ▸ ht) (by simp [hk]) (by simp [hk])
    rw [hrest, drop_slice, hsize]
    refine ⟨.htmlBranch hts hpart, ?_⟩
    intro first last hfirst hlast hlength
    exact slice_inside ht hlexeme hfirst (by omega) hpart.le (by omega) hlength hpart.stop_le

theorem CodeEnters.inside {inner : Level} {stop i : Nat} {t : Token} {x : Scope}
    (h : Window .block ts ts.length stop i) (hi : i < stop) (ht : ts[i]? = some t)
    (henters : CodeEnters o inner t (slice ts (i + 1) ts.length) x) :
    x.Stands o ∧ ∀ first, first ≤ i → x.Inside (slice ts first stop) := by
  have hstop := h.stop_le
  cases henters with
  | @region cut p key region start size hk hc hd hregion hbranch =>
    obtain ⟨close, hat, -, hrest⟩ := CommentAt.of_opener (y := .block) (c := .block)
      (Nat.le_refl _) ht (by rw [hk, Layer.comment?]) hc (Layer.role_block hd)
    rw [hrest, findRegion, ← Layer.search_block] at hregion
    obtain ⟨hpart, hlt⟩ := h.branch hi hat hregion hbranch
    have hclose := hat.lt
    have htrimmed := hpart.trimRange
    rw [hrest, drop_slice, drop_slice, ← Nat.add_assoc]
    rw [trimRange_add] at htrimmed
    dsimp only at htrimmed
    have hle := trimWindow_le size (slice ts (close + 1 + start) ts.length)
    generalize trimWindow size (slice ts (close + 1 + start) ts.length) = window at *
    have hsize : window.2 = close + 1 + start + window.1 + window.2 -
        (close + 1 + start + window.1) := by omega
    have hlexeme := lexeme_ne_nil (hts ▸ ht) (by simp [hk]) (by simp [hk])
    rw [hsize]
    refine ⟨.branch hts htrimmed, ?_⟩
    intro first hfirst
    exact slice_inside ht hlexeme hfirst (by omega) (by omega) (by omega) hstop htrimmed.stop_le
  | @inline cut p key lead body hk hc hd hactive =>
    refine ⟨.document _, ?_⟩
    intro first hfirst
    obtain ⟨close, hat, hinner, -⟩ := CommentAt.of_opener (y := .block) (c := .block)
      (Nat.le_refl _) ht (by rw [hk, Layer.comment?]) hc (Layer.role_block hd)
    have hclose := hat.lt
    have hlt := (h.inside_comment hi hat).1
    -- the body stands in its comment, and the opening delimiter does not belong to it
    have hbody : (stripSpace (textOf body)).length ≤ (textOf (slice ts (i + 1) close)).length := by
      rw [← hinner]
      exact ((stripSpace_isInfix _).trans (classify_standsIn hd).2).length_le
    have hopener : 0 < t.lexeme.length := by
      apply List.length_pos_of_ne_nil
      exact lexeme_ne_nil (hts ▸ ht) (by simp [hk]) (by simp [hk])
    have hrange : slice ts first stop =
        slice ts first i ++ t :: (slice ts (i + 1) close ++ slice ts close stop) := by
      rw [slice_append hfirst h.le, slice_cons hi ht, slice_append hclose (Nat.le_of_lt hlt)]
    rw [Scope.Inside, hrange, textOf_append, textOf_cons, textOf_append]
    simp only [List.length_append]
    omega
  | @doc cut m u s x hk hc hvisits hhtml =>
    obtain ⟨close, hat, hinner, -⟩ := CommentAt.of_opener (y := .block) (c := .doc)
      (Nat.le_refl _) ht (by rw [hk, Layer.comment?]) hc rfl
    have hclose := hat.lt
    have hlt := (h.inside_comment hi hat).1
    have hbody : Window .html ts close close (i + 1) :=
      ⟨hclose, Nat.le_refl close, by omega, trivial, Or.inl rfl⟩
    have hlen : cut.inner.length = close - (i + 1) := by
      rw [hinner, length_slice (by omega)]
    rw [hlen, hinner] at hvisits
    obtain ⟨j, hwindow, hle, hj, hu, rfl⟩ :=
      hvisits.window (docItem_keepsWindows o inner ts close close) hbody
    obtain ⟨hstands, hinside⟩ := hhtml.inside hts hwindow hj hu
    exact ⟨hstands, fun first hfirst => hinside first stop (by omega) (by omega) hstop⟩

end

theorem window_of_document {p : Profile} {source : String} {ts : List Token}
    (hts : ts = tokenize p source) : Window .block ts ts.length ts.length 0 := by
  refine ⟨Nat.zero_le _, Nat.le_refl _, Nat.le_refl _, ?_, Or.inl rfl⟩
  rw [slice_length, List.drop_zero, hts]
  exact Checked.reached_tokenize p source

/-- **What is entered is smaller**, and it stands in a document again. -/
theorem Enters.inside {o : Options} {inner : Level} {x y : Scope} (hx : x.Stands o)
    (henters : Enters o inner x y) : y.Stands o ∧ y.Inside (x.tokens o) := by
  cases henters with
  | @document source ts m t r _ hts hvisits hcode =>
    have hwhole : slice ts 0 ts.length = ts := by rw [slice_length, List.drop_zero]
    have hwindow := window_of_document hts
    rw [← hwhole, length_slice (Nat.le_refl _)] at hvisits
    obtain ⟨j, hwindow', -, hj, ht, rfl⟩ :=
      hvisits.window (codeItem_keepsWindows o inner true ts ts.length) hwindow
    obtain ⟨hstands, hinside⟩ := hcode.inside hts hwindow' hj ht
    have hinside' := hinside 0 (Nat.zero_le j)
    rw [hwhole, hts] at hinside'
    exact ⟨hstands, hinside'⟩
  | @branch n m l r t _ hvisits hcode =>
    cases hx with
    | @branch ts source start stop hts hpart =>
      obtain ⟨j, hwindow, hle, hj, ht, rfl⟩ :=
        hvisits.window (codeItem_keepsWindows o inner false ts stop) hpart.toWindow
      obtain ⟨hstands, hinside⟩ := hcode.inside hts hwindow hj ht
      rw [Scope.tokens, take_slice hpart.stop_le]
      exact ⟨hstands, hinside start hle⟩
  | @htmlBranch n m l r t _ hvisits hhtml =>
    cases hx with
    | @htmlBranch ts source limit start stop hts hpart =>
      obtain ⟨j, hwindow, hle, hj, ht, rfl⟩ :=
        hvisits.window (docItem_keepsWindows o inner ts limit stop) hpart.toWindow
      obtain ⟨hstands, hinside⟩ := hhtml.inside hts hwindow hj ht
      have hlength := Nat.le_trans hpart.stop_le hpart.limit_le
      rw [Scope.tokens, take_slice hpart.stop_le]
      exact ⟨hstands, hinside start stop hle (Nat.le_refl stop) hlength⟩

theorem Enclosed.stands {o : Options} {inner : Level} {x y : Scope} {k : Nat}
    (h : Enclosed o inner x k y) (hx : x.Stands o) : y.Stands o := by
  induction h with
  | here => exact hx
  | step henters _ ih => exact ih (henters.inside hx).1

end FeatureCut
