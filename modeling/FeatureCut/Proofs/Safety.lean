/-
  FeatureCut/Proofs/Safety.lean
  =============================
  **Evaluation by index never goes wrong.**

  On a window each checked evaluator does what its namesake does with lists, and what
  is left over is a window again (`Checked.Visit.Meets`).  Walking over the window
  repeats this (`Checked.walk_eq`), the branches of a region and the bodies of inline
  directives are one level deeper (`Checked.Level.follows_ofDepth`), and
  `Checked.transform_faultless` says that there is no fault in any document.
-/
import FeatureCut.Proofs.Window

namespace FeatureCut

/-! ### Visits -/

namespace Checked

/-- A visit gives what an item gives, and if the evaluation goes on, it goes on where
    the item ends, inside of the window. -/
structure Visit.Meets {σ : Type} (y : Layer) (ts : List Token) (limit stop i : Nat) (v : Visit σ)
    (item : Item σ) : Prop where
  trail : v.trail = item.trail
  next : v.trail.stop = none → v.next = i + 1 + item.taken
  window : v.trail.stop = none → Window y ts limit stop v.next

theorem Visit.Meets.of_stop {σ : Type} {y : Layer} {ts : List Token} {limit stop i : Nat}
    {v : Visit σ} {item : Item σ} {s : Stop} (htrail : v.trail = item.trail)
    (hstop : v.trail.stop = some s) : v.Meets y ts limit stop i item := by
  refine ⟨htrail, fun h => ?_, fun h => ?_⟩
  · cases hstop.symm.trans h
  · cases hstop.symm.trans h

/-- A comment that opens no region is left behind as a whole. -/
theorem Visit.Meets.of_comment {σ : Type} {y : Layer} {ts : List Token}
    {limit stop i close : Nat} {role : Role} (h : Window y ts limit stop i) (hi : i < stop)
    (hc : CommentAt y ts limit i close role) (hrole : role ≠ .opening) (trail : Trail σ) :
    Visit.Meets y ts limit stop i ⟨trail, close + 1⟩ ⟨trail, close - i⟩ := by
  refine ⟨rfl, fun _ => ?_, fun _ => h.comment hi hc hrole⟩
  have hlt := hc.lt
  dsimp only
  omega

theorem walk_eq {σ : Type} {visit : Nat → Checked (Visit σ)}
    {item : Nat → Token → List Token → Item σ} {y : Layer} {ts : List Token} {limit stop i : Nat}
    (hvisit : ∀ i t, Window y ts limit stop i → i < stop → ts[i]? = some t →
      ∃ v, visit i = .ok v ∧
        v.Meets y ts limit stop i (item (stop - (i + 1)) t (FeatureCut.slice ts (i + 1) limit)))
    (h : Window y ts limit stop i) :
    walk visit stop i = .ok (FeatureCut.walk item (stop - i) (FeatureCut.slice ts i limit)) := by
  induction hn : stop - i using Nat.strongRecOn generalizing i with
  | ind n ih =>
    subst hn
    have hstop := h.stop_le
    have hlimit := h.limit_le
    by_cases hi : i < stop
    · have hlt : i < ts.length := by omega
      obtain ⟨t, ht⟩ := exists_token hlt
      obtain ⟨v, hv, hmeets⟩ := hvisit i t h hi ht
      have hsize : stop - i = stop - (i + 1) + 1 := by omega
      rw [walk, if_pos hi, hv, ok_bind, slice_cons (by omega) ht, hsize, FeatureCut.walk]
      cases hend : v.trail.stop with
      | some s =>
        rw [Option.isSome_some, if_pos rfl, ← hmeets.trail, Trail.andThen_of_stop hend]
      | none =>
        have hnext := hmeets.next hend
        have hwindow := hmeets.window hend
        have hle := hwindow.le
        rw [Option.isSome_none, if_neg Bool.false_ne_true, if_pos ⟨by omega, hle⟩,
          ih _ (by omega) hwindow rfl, ok_bind, ← hmeets.trail, drop_slice, ← hnext,
          Nat.sub_sub, ← hnext]
    · rw [walk, if_neg hi, Nat.sub_eq_zero_of_le (by omega), FeatureCut.walk]

/-- The checked evaluators of a level do what those without checks do. -/
structure Level.Follows (c : Level) (m : FeatureCut.Level) : Prop where
  branch : ∀ {ts : List Token} {start stop : Nat}, Part .block ts ts.length stop start →
    c.branch ts start stop =
      .ok (m.branch (stop - start) (FeatureCut.slice ts start ts.length))
  htmlBranch : ∀ {ts : List Token} {limit start stop : Nat}, Part .html ts limit stop start →
    c.htmlBranch ts limit start stop =
      .ok (m.htmlBranch (stop - start) (FeatureCut.slice ts start limit))
  document : ∀ source, c.document source = .ok (m.document source)

theorem search_start {y : Layer} {ts : List Token} {limit : Nat} (hlimit : limit ≤ ts.length)
    (start : Nat) :
    search y ts limit ⟨1, none⟩ start =
      .ok ((y.search .start 0 (FeatureCut.slice ts start limit)).map
        (Option.map (Region.shift start))) := by
  have hshift := y.search_shift start .start 0 (FeatureCut.slice ts start limit)
  rw [Nat.zero_add] at hshift
  rw [← hshift]
  exact search_eq hlimit y .start start

theorem textOf_comment {ts : List Token} {i close : Nat} {t mark : Token} (ht : ts[i]? = some t)
    (hlt : i + 1 ≤ close) (hmark : ts[close]? = some mark) :
    textOf (FeatureCut.slice ts i (close + 1)) =
      t.lexeme ++ textOf (FeatureCut.slice ts (i + 1) close) ++ mark.lexeme := by
  rw [slice_cons (by omega) ht, slice_append hlt (Nat.le_succ close),
    slice_cons (Nat.lt_succ_self close) hmark, slice_of_le (Nat.le_refl _), textOf_cons,
    textOf_append, textOf_cons, textOf_nil, List.append_nil, List.append_assoc]

section

variable {o : Options} {c : Level} {m : FeatureCut.Level} (hinner : c.Follows m)
include hinner

/-! ### Doc comments -/

theorem htmlRegionItem_meets {ts : List Token} {limit stop i close : Nat}
    (h : Window .html ts limit stop i) (hi : i < stop)
    (hc : CommentAt .html ts limit i close .opening) (t : Token) (p : Polarity) (key : KeyExpr) :
    ∃ v, htmlRegionItem o c ts limit t p key (close + 1) = .ok v ∧
      v.Meets .html ts limit stop i (FeatureCut.htmlRegionItem o m t (close - i) p key
        (FeatureCut.slice ts (close + 1) limit)) := by
  have hlimit := h.limit_le
  unfold htmlRegionItem FeatureCut.htmlRegionItem findHtmlRegion
  rw [search_start hlimit, ok_bind, ← Layer.search_html]
  cases hr : Layer.html.search .start 0 (FeatureCut.slice ts (close + 1) limit) with
  | error e => exact ⟨_, rfl, .of_stop rfl rfl⟩
  | ok found =>
    cases found with
    | none => exact ⟨_, rfl, .of_stop rfl rfl⟩
    | some region =>
      obtain ⟨hwindow, hnext, hfits⟩ := h.region_shift hi hc hr
      obtain ⟨hbranch, hpart⟩ := hfits.branch (p.selects key o.keys)
      dsimp only [Except.map, Option.map]
      rw [hbranch, ok_bind]
      cases hb : region.branch? (p.selects key o.keys) with
      | none => exact ⟨_, rfl, ⟨rfl, fun _ => hnext, fun _ => hwindow⟩⟩
      | some b =>
        obtain ⟨start, size⟩ := b
        dsimp only [Option.map]
        rw [hinner.htmlBranch (hpart _ hb), ok_bind, Nat.add_sub_cancel_left, drop_slice]
        exact ⟨_, rfl, ⟨rfl, fun _ => hnext, fun _ => hwindow⟩⟩

theorem docItem_meets {ts : List Token} {limit stop i : Nat} {t : Token}
    (h : Window .html ts limit stop i) (hi : i < stop) (ht : ts[i]? = some t) (n : Nat) :
    ∃ v, docItem o c ts limit i = .ok v ∧
      v.Meets .html ts limit stop i
        (FeatureCut.docItem o m n t (FeatureCut.slice ts (i + 1) limit)) := by
  have hlimit := h.limit_le
  unfold docItem FeatureCut.docItem
  rw [tokenAt_of_some ht, ok_bind]
  by_cases hhtml : t.kind = .htmlOpen
  · have hcomment : Layer.html.comment? t.kind = some .html := by rw [hhtml, Layer.comment?]
    rw [hhtml]
    dsimp only
    rcases seek_cut hlimit .htmlClose (i + 1) with
      ⟨close, mark, hlt, hclose, hmark, hcut, hseek⟩ | ⟨hcut, hseek⟩
    · rw [hseek, ok_bind, hcut]
      dsimp only
      have hsize : (FeatureCut.slice ts (i + 1) close).length + 1 = close - i := by
        rw [length_slice (by omega)]
        omega
      rw [classifyHtml_eq (by omega), ok_bind, hsize, ← textOf_comment ht hlt hmark]
      cases hd : FeatureCut.classifyHtml (FeatureCut.slice ts (i + 1) close) with
      | error e => exact ⟨_, rfl, .of_stop rfl rfl⟩
      | ok d =>
        have hat : CommentAt .html ts limit i close d.role :=
          .of_cutAt ht hcomment hlt hclose hlimit hcut (Layer.role_html hd)
        cases d with
        | opening p key => exact htmlRegionItem_meets hinner h hi hat t p key
        | _ =>
          dsimp only
          rw [slice_eq (by omega) (by omega), ok_bind]
          exact ⟨_, rfl, .of_comment h hi hat Role.noConfusion _⟩
    · rw [hseek, ok_bind, hcut]
      exact ⟨_, rfl, .of_stop rfl rfl⟩
  · have hnone : Layer.html.comment? t.kind = none := by
      cases hk : t.kind <;> first | rfl | contradiction
    have hwindow := h.token hi ht hnone
    cases hk : t.kind <;>
      first
      | contradiction
      | exact ⟨_, rfl, ⟨rfl, fun _ => rfl, fun _ => hwindow⟩⟩

theorem docCommentItem_meets {ts : List Token} {stop i : Nat} {t : Token}
    (h : Window .block ts ts.length stop i) (hi : i < stop) (ht : ts[i]? = some t)
    (hdoc : t.kind = .docOpen) :
    ∃ v, docCommentItem o c ts i t = .ok v ∧
      v.Meets .block ts ts.length stop i
        (FeatureCut.docCommentItem o m t (FeatureCut.slice ts (i + 1) ts.length)) := by
  have hcomment : Layer.block.comment? t.kind = some .doc := by rw [hdoc, Layer.comment?]
  unfold docCommentItem FeatureCut.docCommentItem
  rcases seek_cut (Nat.le_refl ts.length) .blockClose (i + 1) with
    ⟨close, mark, hlt, hclose, hmark, hcut, hseek⟩ | ⟨hcut, hseek⟩
  · have hbody : Window .html ts close close (i + 1) :=
      ⟨hlt, Nat.le_refl close, by omega, trivial, Or.inl rfl⟩
    have hwalk := walk_eq (fun j u hj hlt hu => docItem_meets (o := o) hinner hj hlt hu _) hbody
    rw [hseek, ok_bind, hcut]
    dsimp only
    have hat : CommentAt .block ts ts.length i close .neutral :=
      .of_cutAt ht hcomment hlt hclose (Nat.le_refl _) hcut rfl
    have hsize : close - (i + 1) + 1 = close - i := by omega
    rw [hwalk, ok_bind, tokenAt_of_some hmark, ok_bind, length_slice (by omega), hsize]
    exact ⟨_, rfl, .of_comment h hi hat Role.noConfusion _⟩
  · rw [hseek, ok_bind, hcut]
    exact ⟨_, rfl, .of_stop rfl rfl⟩

/-! ### Block comments -/

omit hinner in
theorem breakAfter?_cases (top : Bool) {ts : List Token} {stop i : Nat} (hstop : stop ≤ ts.length)
    (k : Nat) :
    (∃ b, i + 1 + k < stop ∧ ts[i + 1 + k]? = some b ∧ Layer.block.comment? b.kind = none ∧
      FeatureCut.breakAfter? top (stop - (i + 1)) k (FeatureCut.slice ts (i + 1) ts.length) =
        some b ∧
      breakAfter? top ts (i + 1 + k) stop = .ok (some b)) ∨
    (FeatureCut.breakAfter? top (stop - (i + 1)) k (FeatureCut.slice ts (i + 1) ts.length) = none ∧
      breakAfter? top ts (i + 1 + k) stop = .ok none) := by
  have hcond : (top && decide (k < stop - (i + 1))) = (top && decide (i + 1 + k < stop)) := by
    congr 2
    apply propext
    omega
  unfold breakAfter? FeatureCut.breakAfter?
  rw [hcond, drop_slice]
  by_cases hlt : (top && decide (i + 1 + k < stop)) = true
  · obtain ⟨-, hk⟩ : top = true ∧ i + 1 + k < stop := by simpa using hlt
    have hbound : i + 1 + k < ts.length := by omega
    obtain ⟨b, hb⟩ := exists_token hbound
    rw [if_pos hlt, if_pos hlt, tokenAt_of_some hb, ok_bind, slice_cons hbound hb, List.head?_cons]
    by_cases heol : b.kind = .eol
    · exact Or.inl ⟨b, hk, hb, by rw [heol]; rfl, by simp [heol], by rw [if_pos heol]⟩
    · exact Or.inr ⟨by simp [heol], by rw [if_neg heol]⟩
  · rw [if_neg hlt, if_neg hlt]
    exact Or.inr ⟨rfl, rfl⟩

omit hinner in
theorem Visit.Meets.settled {ts : List Token} {stop i : Nat} {v : Visit Step} {item : Item Step}
    (h : v.Meets .block ts ts.length stop i item) (hstop : stop ≤ ts.length) (top : Bool) :
    ∃ v', v.settled top ts stop = .ok v' ∧
      v'.Meets .block ts ts.length stop i
        (item.settled top (stop - (i + 1)) (FeatureCut.slice ts (i + 1) ts.length)) := by
  unfold Visit.settled Item.settled
  cases hend : v.trail.stop with
  | some s =>
    rw [Option.isSome_some, if_pos rfl]
    refine ⟨v, rfl, .of_stop ?_ hend⟩
    split
    · rw [← h.trail, Trail.andThen_of_stop hend]
    · exact h.trail
  | none =>
    have hnext := h.next hend
    have hwindow := h.window hend
    rw [Option.isSome_none, if_neg Bool.false_ne_true, hnext]
    rcases breakAfter?_cases (i := i) top hstop item.taken with
      ⟨b, hlt, hb, hnone, hbreak, hchecked⟩ | ⟨hbreak, hchecked⟩
    · rw [hbreak, hchecked, ok_bind]
      rw [hnext] at hwindow
      refine ⟨_, rfl, ?_, fun _ => ?_, fun _ => hwindow.token hlt hb hnone⟩
      · dsimp only
        rw [h.trail]
      · dsimp only
        omega
    · rw [hbreak, hchecked, ok_bind]
      exact ⟨v, rfl, h⟩

theorem regionItem_meets {ts : List Token} {stop i close : Nat}
    (h : Window .block ts ts.length stop i) (hi : i < stop)
    (hc : CommentAt .block ts ts.length i close .opening) (t : Token) (p : Polarity)
    (key : KeyExpr) :
    ∃ v, regionItem o c ts t p key (close + 1) = .ok v ∧
      v.Meets .block ts ts.length stop i (FeatureCut.regionItem o m t (close - i) p key
        (FeatureCut.slice ts (close + 1) ts.length)) := by
  unfold regionItem FeatureCut.regionItem findRegion
  rw [search_start (Nat.le_refl _), ok_bind, ← Layer.search_block]
  cases hr : Layer.block.search .start 0 (FeatureCut.slice ts (close + 1) ts.length) with
  | error e => exact ⟨_, rfl, .of_stop rfl rfl⟩
  | ok found =>
    cases found with
    | none => exact ⟨_, rfl, .of_stop rfl rfl⟩
    | some region =>
      obtain ⟨hwindow, hnext, hfits⟩ := h.region_shift hi hc hr
      obtain ⟨hbranch, hpart⟩ := hfits.branch (p.selects key o.keys)
      have hdivided : (region.shift (close + 1)).alternative.isSome =
          region.alternative.isSome := by
        rw [Region.shift, Option.isSome_map]
      dsimp only [Except.map, Option.map]
      rw [hbranch, ok_bind, hdivided]
      cases hb : region.branch? (p.selects key o.keys) with
      | none => exact ⟨_, rfl, ⟨rfl, fun _ => hnext, fun _ => hwindow⟩⟩
      | some b =>
        obtain ⟨start, size⟩ := b
        have hpart' := hpart _ hb
        have hlength := Nat.le_trans hpart'.stop_le hpart'.limit_le
        dsimp only [Option.map]
        rw [trimRange_eq hlength hpart'.le, ok_bind, hinner.branch hpart'.trimRange, ok_bind,
          trimRange_add, Nat.add_sub_cancel_left, drop_slice, drop_slice, ← Nat.add_assoc]
        exact ⟨_, rfl, ⟨rfl, fun _ => hnext, fun _ => hwindow⟩⟩

theorem inlineTrail_eq (body : List Char) :
    inlineTrail c body = .ok (FeatureCut.inlineTrail m body) := by
  rw [inlineTrail, hinner.document, ok_bind, FeatureCut.inlineTrail]

theorem blockItem_meets {ts : List Token} {stop i : Nat} {t : Token}
    (h : Window .block ts ts.length stop i) (hi : i < stop) (ht : ts[i]? = some t)
    (hblock : t.kind = .blockOpen) (top : Bool) :
    ∃ v, blockItem o c top ts stop i t = .ok v ∧
      v.Meets .block ts ts.length stop i (FeatureCut.blockItem o m top (stop - (i + 1)) t
        (FeatureCut.slice ts (i + 1) ts.length)) := by
  have hcomment : Layer.block.comment? t.kind = some .block := by rw [hblock, Layer.comment?]
  unfold blockItem FeatureCut.blockItem
  rcases seek_cut (Nat.le_refl ts.length) .blockClose (i + 1) with
    ⟨close, mark, hlt, hclose, hmark, hcut, hseek⟩ | ⟨hcut, hseek⟩
  · rw [hseek, ok_bind, hcut]
    dsimp only
    have hsize : (FeatureCut.slice ts (i + 1) close).length + 1 = close - i := by
      rw [length_slice (by omega)]
      omega
    rw [classify_eq (by omega), ok_bind, hsize, ← textOf_comment ht hlt hmark]
    cases hd : FeatureCut.classify (FeatureCut.slice ts (i + 1) close) with
    | error e => exact ⟨_, rfl, .of_stop rfl rfl⟩
    | ok d =>
      have hat : CommentAt .block ts ts.length i close d.role :=
        .of_cutAt ht hcomment hlt hclose (Nat.le_refl _) hcut (Layer.role_block hd)
      cases d with
      | opening p key =>
        obtain ⟨v, hv, hmeets⟩ := regionItem_meets (o := o) hinner h hi hat t p key
        dsimp only
        rw [hv, ok_bind]
        exact hmeets.settled h.stop_le top
      | inline p key lead body =>
        dsimp only
        split
        · rw [inlineTrail_eq hinner, ok_bind]
          exact ⟨_, rfl, .of_comment h hi hat Role.noConfusion _⟩
        · rw [ok_bind]
          exact ⟨_, rfl, .of_comment h hi hat Role.noConfusion _⟩
      | fileExclusion key =>
        exact (Visit.Meets.of_comment h hi hat Role.noConfusion _).settled h.stop_le top
      | license key =>
        have hplace : close + 1 = i + 1 + (close - i) := by omega
        dsimp only
        rw [hplace]
        rcases breakAfter?_cases (i := i) top h.stop_le (close - i) with
          ⟨b, hbound, hb, hnone, hbreak, hchecked⟩ | ⟨hbreak, hchecked⟩
        · have hwindow := h.comment hi hat Role.noConfusion
          rw [hbreak, hchecked, ok_bind]
          rw [← hplace] at hbound hb
          refine ⟨_, rfl, rfl, fun _ => ?_, fun _ => hwindow.token hbound hb hnone⟩
          dsimp only
          omega
        · rw [hbreak, hchecked, ok_bind, ← hplace]
          exact ⟨_, rfl, .of_comment h hi hat Role.noConfusion _⟩
      | _ =>
        dsimp only
        rw [slice_eq (by omega) hclose, ok_bind]
        exact ⟨_, rfl, .of_comment h hi hat Role.noConfusion _⟩
  · rw [hseek, ok_bind, hcut]
    exact ⟨_, rfl, .of_stop rfl rfl⟩

theorem codeItem_meets {ts : List Token} {stop i : Nat} {t : Token}
    (h : Window .block ts ts.length stop i) (hi : i < stop) (ht : ts[i]? = some t) (top : Bool) :
    ∃ v, codeItem o c top ts stop i = .ok v ∧
      v.Meets .block ts ts.length stop i (FeatureCut.codeItem o m top (stop - (i + 1)) t
        (FeatureCut.slice ts (i + 1) ts.length)) := by
  have hstop := h.stop_le
  have hreached := h.reached
  rw [slice_cons (by omega) ht] at hreached
  have htoken : Layer.block.comment? t.kind = none → Window .block ts ts.length stop (i + 1) :=
    h.token hi ht
  unfold codeItem FeatureCut.codeItem
  rw [tokenAt_of_some ht, ok_bind]
  rcases hreached.kind with hk | hk | hk | hk | hk
  · rw [hk]
    exact ⟨_, rfl, rfl, fun _ => rfl, fun _ => htoken (by rw [hk]; rfl)⟩
  · rw [hk]
    exact ⟨_, rfl, rfl, fun _ => rfl, fun _ => htoken (by rw [hk]; rfl)⟩
  · rw [hk]
    exact ⟨_, rfl, rfl, fun _ => rfl, fun _ => htoken (by rw [hk]; rfl)⟩
  · rw [hk]
    exact blockItem_meets hinner h hi ht hk top
  · rw [hk]
    exact docCommentItem_meets hinner h hi ht hk

/-! ### Documents -/

theorem evaluateTokens_eq {ts : List Token} (hts : Layer.block.Reached ts) :
    evaluateTokens o c ts = .ok (FeatureCut.evaluateTokens o m ts) := by
  have hslice : FeatureCut.slice ts 0 ts.length = ts := by rw [slice_length, List.drop_zero]
  have hwindow : Window .block ts ts.length ts.length 0 :=
    ⟨Nat.zero_le _, Nat.le_refl _, Nat.le_refl _, hslice.symm ▸ hts, Or.inl rfl⟩
  have hwalk := walk_eq (fun j u hj hlt hu => codeItem_meets (o := o) hinner hj hlt hu true) hwindow
  rw [hslice, Nat.sub_zero] at hwalk
  exact hwalk

omit hinner in
theorem reached_tokenize (p : Profile) (source : String) :
    Layer.block.Reached (tokenize p source) :=
  Or.inr (tokenize_accepts p source)

theorem evaluateDocument_eq (source : String) :
    evaluateDocument o c source = .ok (FeatureCut.evaluateDocument o m source) := by
  rw [evaluateDocument, evaluateTokens_eq hinner (reached_tokenize _ _), ok_bind,
    FeatureCut.evaluateDocument]

omit hinner in
theorem Level.follows_ofDepth (o : Options) (limit n : Nat) :
    (Level.ofDepth o limit n).Follows (FeatureCut.Level.ofDepth o limit n) := by
  induction n generalizing o with
  | zero => exact ⟨fun _ => rfl, fun _ => rfl, fun _ => rfl⟩
  | succ n ih =>
    constructor
    · intro ts start stop hpart
      exact walk_eq (fun j u hj hlt hu => codeItem_meets (ih o) hj hlt hu false) hpart.toWindow
    · intro ts limit start stop hpart
      exact walk_eq (fun j u hj hlt hu => docItem_meets (ih o) hj hlt hu _) hpart.toWindow
    · intro source
      exact evaluateDocument_eq (ih o.forInlineBody) _

end

/-- **Evaluation by index never goes wrong.**  For every source and all options each
    token that is read is there, each range ends in the document and not before it
    starts, as do both parts of each region, no count falls below zero, each step leads
    on and stays in its range, and only what is code is taken for code.  The result is
    the one of `transform`. -/
theorem transform_faultless (o : Options) (source : String) :
    transform o source = .ok (FeatureCut.transform o source) := by
  unfold transform FeatureCut.transform
  cases o.validate with
  | error e => rfl
  | ok _ =>
    dsimp only
    rw [evaluate, evaluateDocument_eq (Level.follows_ofDepth o maxDepth maxDepth)]
    rfl

end Checked

end FeatureCut
