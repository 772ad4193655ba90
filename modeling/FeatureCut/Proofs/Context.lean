/-
  FeatureCut/Proofs/Context.lean
  ==============================
  **What succeeds, succeeds in every context.**

  The evaluator looks ahead as far as the document goes: for the end of a comment
  and for the end of a region.  If it does not fail, all that it looked for was
  found, and then it does not matter what comes later.  The same tokens with
  other tokens after them are evaluated to the same trail.

  Documents end with tokens that neither open nor close a comment, at least the
  end of the source.  These can be replaced by whatever follows (`walk_context`),
  and where the window goes on, so does the walk (`walk_seam`).
-/
import FeatureCut.Evaluate

namespace FeatureCut

/-! ### Looking for the end of a comment -/

/-- Tokens that neither open nor close a comment. -/
def Inert (ts : List Token) : Prop :=
  ∀ t ∈ ts, t.kind ≠ .blockOpen ∧ t.kind ≠ .docOpen ∧ t.kind ≠ .blockClose

theorem Inert.cutAt {y l : List Token} (hy : Inert y) {cut : Cut}
    (h : cutAt .blockClose (l ++ y) = some cut) :
    ∃ rest, cut.rest = rest ++ y ∧ cut.inner.length + rest.length + 1 = l.length ∧
      ∀ x, FeatureCut.cutAt .blockClose (l ++ x) = some ⟨cut.inner, cut.mark, rest ++ x⟩ := by
  have hmark : cut.mark ∉ y := fun hmem => (hy _ hmem).2.2 (cutAt_kind h)
  have hsplit := cutAt_append h
  rcases List.append_eq_append_iff.1 hsplit with ⟨a, -, ha⟩ | ⟨a, ha, ha'⟩
  · rw [ha] at hmark
    simp at hmark
  · cases a with
    | nil =>
      rw [List.nil_append] at ha'
      rw [← ha'] at hmark
      simp at hmark
    | cons m rest =>
      obtain ⟨hm, hrest⟩ := List.cons.inj ha'
      refine ⟨rest, hrest, ?_, ?_⟩
      · rw [ha]
        simp
        omega
      · intro x
        rw [ha, List.append_assoc, List.cons_append, ← hm]
        exact cutAt_append_cons (cutAt_inner h) (cutAt_kind h) _

theorem Inert.tail {t : Token} {y : List Token} (hy : Inert (t :: y)) : Inert y :=
  fun u hu => hy u (List.mem_cons_of_mem t hu)

theorem Inert.searchBlocks {y : List Token} (hy : Inert y) (s : Search) (pos : Nat) :
    searchBlocks s pos y = .ok none := by
  induction y generalizing pos with
  | nil => rw [FeatureCut.searchBlocks]
  | cons t y ih =>
    obtain ⟨hblock, hdoc, -⟩ := hy t (by simp)
    rw [searchBlocks_token s pos ⟨hblock, hdoc⟩]
    exact ih hy.tail _

/-! ### Looking for the end of a region -/

/-- The parts of a region stand in order, among the first `n` tokens. -/
structure Region.Within (r : Region) (n : Nat) : Prop where
  ending : r.ending.before ≤ r.ending.after
  after : r.ending.after ≤ n
  alternative : ∀ b, r.alternative = some b → b.before ≤ b.after ∧ b.after ≤ r.ending.before

theorem Region.Within.mono {r : Region} {n m : Nat} (h : r.Within n) (hnm : n ≤ m) : r.Within m :=
  ⟨h.ending, Nat.le_trans h.after hnm, h.alternative⟩

theorem Region.Within.branch? {r : Region} {n : Nat} (h : r.Within n) {active : Bool}
    {start size : Nat} (hbranch : r.branch? active = some (start, size)) : start + size ≤ n := by
  obtain ⟨⟨before, after⟩, alternative⟩ := r
  have hending : before ≤ after := h.ending
  have hafter : after ≤ n := h.after
  cases active with
  | true =>
    simp only [Region.branch?, if_pos, Option.some.injEq, Prod.mk.injEq, Region.thenEnd] at hbranch
    cases alternative with
    | none =>
      dsimp only at hbranch
      omega
    | some b =>
      have := h.alternative b rfl
      dsimp only at hbranch this
      omega
  | false =>
    cases alternative with
    | none => cases hbranch
    | some b =>
      have := h.alternative b rfl
      simp [Region.branch?, Region.elseRange?] at hbranch
      dsimp only at this
      omega

/-- The division that a search has met stands before the given place. -/
def Search.Behind (s : Search) (pos : Nat) : Prop :=
  ∀ b, s.alternative = some b → b.before ≤ b.after ∧ b.after ≤ pos

theorem Search.Behind.mono {s : Search} {n m : Nat} (h : s.Behind n) (hnm : n ≤ m) : s.Behind m :=
  fun b hb => ⟨(h b hb).1, Nat.le_trans (h b hb).2 hnm⟩

theorem Search.Behind.feed_inl {s : Search} {m : Remark} (h : s.Behind m.bounds.before)
    (hm : m.bounds.before ≤ m.bounds.after) {region : Region} (hf : s.feed m = .inl region) :
    region.Within m.bounds.after := by
  obtain ⟨role, bounds⟩ := m
  obtain ⟨nested, alternative⟩ := s
  cases role with
  | neutral => cases hf
  | opening => cases hf
  | alternative => cases hf
  | closing =>
    cases nested with
    | zero =>
      cases hf
      exact ⟨hm, Nat.le_refl _, h⟩
    | succ n => cases hf

theorem Search.Behind.feed_inr {s s' : Search} {m : Remark} (h : s.Behind m.bounds.before)
    (hm : m.bounds.before ≤ m.bounds.after) (hf : s.feed m = .inr s') :
    s'.Behind m.bounds.after := by
  obtain ⟨role, bounds⟩ := m
  obtain ⟨nested, alternative⟩ := s
  have hmono : Search.Behind ⟨nested, alternative⟩ bounds.after := h.mono hm
  cases role with
  | neutral =>
    cases hf
    exact hmono
  | opening =>
    cases hf
    exact hmono
  | alternative =>
    simp only [Search.feed, Sum.inr.injEq] at hf
    subst hf
    split
    · intro b hb
      cases hb
      exact ⟨hm, Nat.le_refl _⟩
    · exact hmono
  | closing =>
    cases nested with
    | zero => cases hf
    | succ n =>
      cases hf
      exact hmono

theorem searchBlocks_context {y : List Token} (hy : Inert y) {s : Search} {pos : Nat}
    {l : List Token} {region : Region} (hs : s.Behind pos)
    (h : searchBlocks s pos (l ++ y) = .ok (some region)) :
    region.Within (pos + l.length) ∧ ∀ x, searchBlocks s pos (l ++ x) = .ok (some region) := by
  generalize hts : l ++ y = ts at h
  fun_induction searchBlocks s pos ts generalizing l with
  | case1 s pos => cases h
  | case2 s pos t r hk hc => cases h
  | case3 s pos t r hk cut hc e he => cases h
  | case4 s pos t r hk cut hc d hd found hf =>
    cases h
    cases l with
    | nil => exact absurd hk (hy t (by rw [← List.nil_append y, hts]; simp)).1
    | cons t' l =>
      obtain ⟨rfl, rfl⟩ := List.cons.inj hts
      obtain ⟨rest, hrest, hlen, hcut⟩ := hy.cutAt hc
      constructor
      · have hwithin := hs.feed_inl (by simp; omega) hf
        exact hwithin.mono (by simp; omega)
      · intro x
        rw [List.cons_append, searchBlocks_of_block hk (hcut x) hd, hf]
  | case5 s pos t r hk cut hc d hd s' hf ih =>
    cases l with
    | nil => exact absurd hk (hy t (by rw [← List.nil_append y, hts]; simp)).1
    | cons t' l =>
      obtain ⟨rfl, rfl⟩ := List.cons.inj hts
      obtain ⟨rest, hrest, hlen, hcut⟩ := hy.cutAt hc
      obtain ⟨hwithin, hsearch⟩ := ih (hs.feed_inr (by simp; omega) hf) hrest.symm h
      constructor
      · exact hwithin.mono (by simp; omega)
      · intro x
        rw [List.cons_append, searchBlocks_of_block hk (hcut x) hd, hf]
        exact hsearch x
  | case6 s pos t r hk hc => cases h
  | case7 s pos t r hk cut hc ih =>
    cases l with
    | nil => exact absurd hk (hy t (by rw [← List.nil_append y, hts]; simp)).2.1
    | cons t' l =>
      obtain ⟨rfl, rfl⟩ := List.cons.inj hts
      obtain ⟨rest, hrest, hlen, hcut⟩ := hy.cutAt hc
      obtain ⟨hwithin, hsearch⟩ := ih (hs.mono (by omega)) hrest.symm h
      constructor
      · exact hwithin.mono (by simp; omega)
      · intro x
        rw [List.cons_append, searchBlocks_of_doc hk (hcut x)]
        exact hsearch x
  | case8 s pos t r hb hd ih =>
    cases l with
    | nil =>
      rw [List.nil_append] at hts
      subst hts
      rw [hy.tail.searchBlocks] at h
      cases h
    | cons t' l =>
      obtain ⟨rfl, rfl⟩ := List.cons.inj hts
      obtain ⟨hwithin, hsearch⟩ := ih (hs.mono (by omega)) rfl h
      constructor
      · exact hwithin.mono (by simp; omega)
      · intro x
        rw [List.cons_append, searchBlocks_token s pos ⟨hb, hd⟩]
        exact hsearch x


theorem findRegion_context {y : List Token} (hy : Inert y) {l : List Token} {region : Region}
    (h : findRegion 0 (l ++ y) = .ok (some region)) :
    region.Within l.length ∧ ∀ x, findRegion 0 (l ++ x) = .ok (some region) := by
  have hstart : Search.start.Behind 0 := fun b hb => by cases hb
  have hcontext := searchBlocks_context hy hstart h
  rw [Nat.zero_add] at hcontext
  exact hcontext

/-! ### Failing -/

/-- The evaluation ends in an error. -/
def Trail.Fails {σ : Type} (a : Trail σ) : Prop := ∃ e, a.stop = some (.failed e)

theorem Trail.fails_fail {σ : Type} (e : Error) : (Trail.fail e : Trail σ).Fails := ⟨e, rfl⟩

theorem Trail.Fails.andThen {σ : Type} {a : Trail σ} (h : a.Fails) (b : Trail σ) :
    (a.andThen b).Fails := by
  obtain ⟨e, he⟩ := h
  exact ⟨e, by simp [Trail.andThen, he]⟩

theorem Trail.Fails.of_none {σ : Type} {a b : Trail σ} (ha : a.stop = none) (hb : b.Fails) :
    (a.andThen b).Fails := by
  obtain ⟨e, he⟩ := hb
  exact ⟨e, by simp [Trail.andThen, ha, he]⟩

theorem Trail.andThen_congr {σ : Type} {a b c : Trail σ} (h : ¬(a.andThen b).Fails)
    (hbc : ¬b.Fails → b = c) : a.andThen b = a.andThen c := by
  cases ha : a.stop with
  | none => rw [hbc fun hb => h (Trail.Fails.of_none ha hb)]
  | some s => rw [Trail.andThen_of_stop ha, Trail.andThen_of_stop ha]

/-! ### Items -/

/-- The evaluators of a level give the same in every context. -/
structure Level.Local (inner : Level) : Prop where
  branch : ∀ {y : List Token}, Inert y → ∀ {n : Nat} {l : List Token}, n ≤ l.length →
    ¬(inner.branch n (l ++ y)).Fails → ∀ x, inner.branch n (l ++ x) = inner.branch n (l ++ y)

theorem trimWindow_context {n : Nat} {l : List Token} (hn : n ≤ l.length) (x : List Token) :
    trimWindow n (l ++ x) = trimWindow n l := by
  simp only [trimWindow, List.take_append_of_le_length hn]

theorem trimWindow_le (n : Nat) (ts : List Token) :
    (trimWindow n ts).1 + (trimWindow n ts).2 ≤ n := by
  have hlead := (List.takeWhile_prefix Token.isBlankText (l := ts.take n)).length_le
  rw [List.length_take] at hlead
  simp only [trimWindow]
  omega

theorem docCommentItem_context {y : List Token} (hy : Inert y) {o : Options} {inner : Level}
    {t : Token} {l : List Token} (h : ¬(docCommentItem o inner t (l ++ y)).trail.Fails) :
    (docCommentItem o inner t (l ++ y)).taken ≤ l.length ∧
      ∀ x, docCommentItem o inner t (l ++ x) = docCommentItem o inner t (l ++ y) := by
  unfold docCommentItem at h ⊢
  cases hcut : cutAt .blockClose (l ++ y) with
  | none =>
    rw [hcut] at h
    exact absurd (Trail.fails_fail _) h
  | some cut =>
    obtain ⟨rest, -, hlen, hcontext⟩ := hy.cutAt hcut
    have hsize : cut.inner.length + 1 ≤ l.length := by omega
    exact ⟨hsize, fun x => by rw [hcontext x]⟩

section

variable {inner : Level} (hinner : inner.Local) {y : List Token} (hy : Inert y)
include hinner hy

theorem regionItem_context {o : Options} {t : Token} {size : Nat} {p : Polarity} {key : KeyExpr}
    {l : List Token} (h : ¬(regionItem o inner t size p key (l ++ y)).trail.Fails) :
    (regionItem o inner t size p key (l ++ y)).taken ≤ size + l.length ∧
      ∀ x, regionItem o inner t size p key (l ++ x) = regionItem o inner t size p key (l ++ y) := by
  unfold regionItem at h ⊢
  rcases hfind : findRegion 0 (l ++ y) with e | (_ | region)
  · rw [hfind] at h
    exact absurd (Trail.Fails.of_none rfl (Trail.fails_fail e)) h
  · rw [hfind] at h
    exact absurd (Trail.Fails.of_none rfl (Trail.fails_fail _)) h
  · obtain ⟨hwithin, hcontext⟩ := findRegion_context hy hfind
    rw [hfind] at h
    refine ⟨Nat.add_le_add_left hwithin.after size, ?_⟩
    intro x
    rw [hcontext x]
    dsimp only at h ⊢
    cases hbranch : region.branch? (p.selects key o.keys) with
    | none => rfl
    | some range =>
      obtain ⟨start, n⟩ := range
      have hrange : start + n ≤ l.length := hwithin.branch? hbranch
      have hsize : n ≤ (l.drop start).length := by
        rw [List.length_drop]
        omega
      -- the trimmed window lies before the inert tokens too
      have htrim : ∀ z, trimWindow n ((l ++ z).drop start) = trimWindow n (l.drop start) := by
        intro z
        rw [List.drop_append_of_le_length (by omega), trimWindow_context hsize]
      have hle := trimWindow_le n (l.drop start)
      have hdrop : ∀ z, (l ++ z).drop (start + (trimWindow n (l.drop start)).1) =
          l.drop (start + (trimWindow n (l.drop start)).1) ++ z := by
        intro z
        rw [List.drop_append_of_le_length (by omega)]
      rw [hbranch] at h
      simp only [htrim, hdrop] at h ⊢
      rw [hinner.branch hy (by rw [List.length_drop]; omega) ?_ x]
      intro hfails
      exact h (Trail.Fails.of_none rfl (Trail.Fails.of_none rfl (hfails.andThen _)))

theorem blockItem_context {o : Options} {n : Nat} {t : Token} {l : List Token}
    (h : ¬(blockItem o inner false n t (l ++ y)).trail.Fails) :
    (blockItem o inner false n t (l ++ y)).taken ≤ l.length ∧
      ∀ m x, blockItem o inner false m t (l ++ x) = blockItem o inner false n t (l ++ y) := by
  unfold blockItem at h ⊢
  cases hcut : cutAt .blockClose (l ++ y) with
  | none =>
    rw [hcut] at h
    exact absurd (Trail.fails_fail _) h
  | some cut =>
    obtain ⟨rest, hrest, hlen, hcontext⟩ := hy.cutAt hcut
    have hsize : cut.inner.length + 1 ≤ l.length := by omega
    rw [hcut] at h
    simp only [hcontext] at h ⊢
    cases hd : classify cut.inner with
    | error e =>
      rw [hd] at h
      exact absurd (Trail.fails_fail _) h
    | ok d =>
      cases d with
      | opening p key =>
        simp only [hd, Item.settled, breakAfter?, Bool.false_and] at h ⊢
        rw [hrest] at h ⊢
        obtain ⟨htaken, hregion⟩ := regionItem_context hinner hy h
        refine ⟨?_, fun _ x => hregion x⟩
        exact Nat.le_trans htaken (by omega)
      | _ => exact ⟨hsize, fun _ _ => rfl⟩

theorem codeItem_context {o : Options} {n : Nat} {t : Token} {l : List Token}
    (h : ¬(codeItem o inner false n t (l ++ y)).trail.Fails) :
    (codeItem o inner false n t (l ++ y)).taken ≤ l.length ∧
      ∀ m x, codeItem o inner false m t (l ++ x) = codeItem o inner false n t (l ++ y) := by
  unfold codeItem at h ⊢
  cases hk : t.kind with
  | docOpen =>
    rw [hk] at h
    obtain ⟨htaken, hdoc⟩ := docCommentItem_context hy h
    exact ⟨htaken, fun _ => hdoc⟩
  | blockOpen =>
    rw [hk] at h
    exact blockItem_context hinner hy h
  | _ => exact ⟨Nat.zero_le _, fun _ _ => rfl⟩

/-! ### Walks -/

theorem walk_context {o : Options} {n : Nat} {l : List Token} (hn : n ≤ l.length)
    (h : ¬(walk (codeItem o inner false) n (l ++ y)).Fails) (x : List Token) :
    walk (codeItem o inner false) n (l ++ x) = walk (codeItem o inner false) n (l ++ y) := by
  induction n using Nat.strongRecOn generalizing l with
  | ind n ih =>
    cases n with
    | zero => rw [walk, walk]
    | succ n =>
      obtain ⟨t, l, rfl⟩ := List.exists_cons_of_length_pos (Nat.lt_of_lt_of_le n.succ_pos hn)
      have hn : n ≤ l.length := Nat.le_of_succ_le_succ hn
      rw [List.cons_append, walk] at h
      rw [List.cons_append, List.cons_append, walk, walk]
      obtain ⟨htaken, hitem⟩ := codeItem_context hinner hy fun hfails => h (hfails.andThen _)
      rw [hitem n x]
      symm
      apply Trail.andThen_congr h
      intro hrest
      rw [List.drop_append_of_le_length htaken] at hrest ⊢
      rw [List.drop_append_of_le_length htaken]
      exact (ih _ (by omega) (by rw [List.length_drop]; omega) hrest).symm

/-- Before inert tokens that can be replaced, a walk does its part and then goes
    on with what stands there. -/
theorem walk_seam {o : Options} {l : List Token}
    (h : ¬(walk (codeItem o inner false) (l.length + y.length) (l ++ y)).Fails) (k : Nat)
    (x : List Token) :
    walk (codeItem o inner false) (l.length + k) (l ++ x) =
      (walk (codeItem o inner false) l.length l).andThen (walk (codeItem o inner false) k x) := by
  induction hlen : l.length using Nat.strongRecOn generalizing l with
  | ind n ih =>
    cases l with
    | nil =>
      subst hlen
      rw [List.nil_append, List.length_nil, Nat.zero_add, walk.eq_1 _ [], Trail.nothing_andThen]
    | cons t l =>
      subst hlen
      rw [List.cons_append, List.length_cons, Nat.succ_add, walk] at h
      rw [List.cons_append, List.length_cons, Nat.succ_add, walk, walk]
      obtain ⟨htaken, hitem⟩ := codeItem_context hinner hy fun hfails => h (hfails.andThen _)
      have hnil := hitem l.length []
      rw [List.append_nil] at hnil
      rw [hitem _ x, hnil, Trail.andThen_assoc]
      generalize codeItem o inner false (l.length + y.length) t (l ++ y) = i at h htaken
      cases hstop : i.trail.stop with
      | some s => rw [Trail.andThen_of_stop hstop, Trail.andThen_of_stop hstop]
      | none =>
        have hleft : (l.drop i.taken).length = l.length - i.taken := List.length_drop
        have hrest : ¬(walk (codeItem o inner false) ((l.drop i.taken).length + y.length)
            (l.drop i.taken ++ y)).Fails := by
          intro hfails
          apply h
          rw [List.drop_append_of_le_length htaken, Nat.sub_add_comm htaken, ← hleft]
          exact Trail.Fails.of_none hstop hfails
        rw [List.drop_append_of_le_length htaken, Nat.sub_add_comm htaken, ← hleft,
          ih _ (by rw [hleft, List.length_cons]; omega) hrest rfl]

end

theorem Level.local_ofDepth (o : Options) (limit n : Nat) : (Level.ofDepth o limit n).Local := by
  induction n with
  | zero => exact ⟨fun _ _ _ _ h => absurd (Trail.fails_fail _) h⟩
  | succ n ih => exact ⟨fun hy _ _ hn h x => walk_context ih hy hn h x⟩

end FeatureCut
