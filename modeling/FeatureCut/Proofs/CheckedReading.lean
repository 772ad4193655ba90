/-
  FeatureCut/Proofs/CheckedReading.lean
  =====================================
  **Reading by index finds no fault.**

  What is read by index, from one index up to another, is what is read from the list
  of the tokens between them.  This is said once for `Checked.seek`, the only loop that
  looks at tokens one by one, and from there on for keys, directives and searches.  A
  search starts with one open region, its own, so its count is one more than the
  number of nested regions and never falls below zero.
-/
import FeatureCut.Proofs.Checked
import FeatureCut.Proofs.ForestEvaluation

namespace FeatureCut

/-! ### Slices -/

section

variable {ts : List Token} {i j k : Nat}

/-- The step that every loop takes. -/
theorem slice_cons {t : Token} (hij : i < j) (ht : ts[i]? = some t) :
    slice ts i j = t :: slice ts (i + 1) j := by
  obtain ⟨hi, rfl⟩ := List.getElem?_eq_some_iff.1 ht
  have hsize : j - i = j - (i + 1) + 1 := by omega
  rw [slice, slice, List.drop_eq_getElem_cons hi, hsize, List.take_succ_cons]

theorem slice_of_le (h : j ≤ i) : slice ts i j = [] := by
  rw [slice, Nat.sub_eq_zero_of_le h, List.take_zero]

theorem slice_append (hik : i ≤ k) (hkj : k ≤ j) :
    slice ts i j = slice ts i k ++ slice ts k j := by
  have hsize : j - i = k - i + (j - k) := by omega
  have hdrop : (ts.drop i).drop (k - i) = ts.drop k := by
    rw [List.drop_drop, Nat.add_sub_of_le hik]
  rw [slice, slice, slice, hsize, List.take_add, hdrop]

theorem length_slice (hj : j ≤ ts.length) : (slice ts i j).length = j - i := by
  rw [slice, List.length_take, List.length_drop]
  omega

theorem drop_slice (k : Nat) : (slice ts i j).drop k = slice ts (i + k) j := by
  rw [slice, slice, List.drop_take, List.drop_drop, Nat.sub_sub]

theorem slice_length (i : Nat) : slice ts i ts.length = ts.drop i := by
  rw [slice, List.take_of_length_le (by rw [List.length_drop])]

/-- Parts of a slice are slices. -/
theorem slice_of_append {a b : List Token} (hj : j ≤ ts.length) (h : slice ts i j = a ++ b) :
    slice ts i (i + a.length) = a ∧ slice ts (i + a.length) j = b := by
  have hlen := congrArg List.length h
  rw [length_slice hj, List.length_append] at hlen
  have hdrop : slice ts (i + a.length) j = b := by rw [← drop_slice, h, List.drop_left]
  refine ⟨?_, hdrop⟩
  by_cases ha : a = []
  · rw [ha, List.length_nil, Nat.add_zero, slice_of_le (Nat.le_refl i)]
  · have hpos := List.length_pos_of_ne_nil ha
    rw [slice_append (Nat.le_add_right i a.length) (by omega), hdrop] at h
    exact List.append_cancel_right h

theorem trimRange_add (ts : List Token) (i n : Nat) :
    trimRange ts i (i + n) =
      let window := trimWindow n (slice ts i ts.length)
      (i + window.1, i + window.1 + window.2) := by
  rw [trimRange, Nat.add_sub_cancel_left, slice_length]

theorem trimRange_slice (hij : i ≤ j) (hj : j ≤ ts.length) :
    trimRange ts i j =
      (i + ((slice ts i j).takeWhile Token.isBlankText).length,
        i + ((slice ts i j).takeWhile Token.isBlankText).length +
          (trimEnds Token.isBlankText (slice ts i j)).length) := by
  have hsplit : ts.drop i = slice ts i j ++ ts.drop j := by
    rw [← slice_length, ← slice_length, slice_append hij hj]
  have hwindow := trimWindow_append (slice ts i j) (ts.drop j)
  rw [length_slice hj, ← hsplit] at hwindow
  rw [trimRange, hwindow]

theorem exists_token (hi : i < ts.length) : ∃ t, ts[i]? = some t :=
  ⟨_, List.getElem?_eq_getElem hi⟩

end

namespace Checked

@[simp] theorem ok_bind {α β : Type} (a : α) (f : α → Checked β) : (Except.ok a >>= f) = f a := rfl

theorem tokenAt_of_some {ts : List Token} {i : Nat} {t : Token} (ht : ts[i]? = some t) :
    tokenAt ts i = .ok t := by
  rw [tokenAt, ht]

theorem slice_eq {ts : List Token} {start stop : Nat} (hstart : start ≤ stop)
    (hstop : stop ≤ ts.length) : slice ts start stop = .ok (FeatureCut.slice ts start stop) :=
  if_pos ⟨hstart, hstop⟩

/-! ### Looking for a token -/

section

variable {ts : List Token} {limit : Nat} (hlimit : limit ≤ ts.length)
include hlimit

/-- Either the first token that is looked for is found, or there is none. -/
theorem seek_cases (p : Token → Bool) (i : Nat) :
    (∃ j t, i ≤ j ∧ j < limit ∧ ts[j]? = some t ∧ p t = true ∧
      (∀ u ∈ FeatureCut.slice ts i j, p u = false) ∧ seek p ts i limit = .ok (some j)) ∨
    ((∀ u ∈ FeatureCut.slice ts i limit, p u = false) ∧ seek p ts i limit = .ok none) := by
  induction hn : limit - i generalizing i with
  | zero =>
    refine Or.inr ⟨?_, ?_⟩
    · rw [slice_of_le (by omega)]
      simp
    · rw [seek, if_neg (by omega)]
  | succ n ih =>
    have hi : i < ts.length := by omega
    obtain ⟨t, ht⟩ := exists_token hi
    rw [seek, if_pos (by omega), tokenAt_of_some ht, ok_bind]
    by_cases hp : p t = true
    · rw [if_pos hp]
      refine Or.inl ⟨i, t, Nat.le_refl i, by omega, ht, hp, ?_, rfl⟩
      rw [slice_of_le (Nat.le_refl i)]
      simp
    · rw [if_neg hp]
      rcases ih (i + 1) (by omega) with ⟨j, u, hij, hj, hu, hpu, hbefore, hseek⟩ | ⟨hnone, hseek⟩
      · refine Or.inl ⟨j, u, by omega, hj, hu, hpu, ?_, hseek⟩
        rw [slice_cons (by omega) ht]
        simpa [hp] using hbefore
      · refine Or.inr ⟨?_, hseek⟩
        rw [slice_cons (by omega) ht]
        simpa [hp] using hnone

theorem seek_gaps (i : Nat) :
    (∃ j t, i ≤ j ∧ j < limit ∧ ts[j]? = some t ∧
      skipGaps (FeatureCut.slice ts i limit) = t :: FeatureCut.slice ts (j + 1) limit ∧
      seek (fun u => !u.isGap) ts i limit = .ok (some j)) ∨
    (skipGaps (FeatureCut.slice ts i limit) = [] ∧
      seek (fun u => !u.isGap) ts i limit = .ok none) := by
  rcases seek_cases hlimit (fun u => !u.isGap) i with
    ⟨j, t, hij, hj, ht, hpt, hbefore, hseek⟩ | ⟨hnone, hseek⟩
  · refine Or.inl ⟨j, t, hij, hj, ht, ?_, hseek⟩
    have hgaps : ∀ u ∈ FeatureCut.slice ts i j, u.isGap = true := by simpa using hbefore
    have hword : t.isGap = false := by simpa using hpt
    rw [skipGaps, slice_append hij (Nat.le_of_lt hj), slice_cons hj ht,
      List.dropWhile_append_of_pos hgaps, List.dropWhile_cons_of_neg (by simp [hword])]
  · refine Or.inr ⟨?_, hseek⟩
    rw [skipGaps, List.dropWhile_eq_nil_iff]
    simpa using hnone

theorem seek_cut (kind : Kind) (i : Nat) :
    (∃ j mark, i ≤ j ∧ j < limit ∧ ts[j]? = some mark ∧
      cutAt kind (FeatureCut.slice ts i limit) =
        some ⟨FeatureCut.slice ts i j, mark, FeatureCut.slice ts (j + 1) limit⟩ ∧
      seek (fun u => u.kind = kind) ts i limit = .ok (some j)) ∨
    (cutAt kind (FeatureCut.slice ts i limit) = none ∧
      seek (fun u => u.kind = kind) ts i limit = .ok none) := by
  rcases seek_cases hlimit (fun u => u.kind = kind) i with
    ⟨j, mark, hij, hj, hmark, hkind, hbefore, hseek⟩ | ⟨hnone, hseek⟩
  · refine Or.inl ⟨j, mark, hij, hj, hmark, ?_, hseek⟩
    rw [slice_append hij (Nat.le_of_lt hj), slice_cons hj hmark]
    exact cutAt_append_cons (by simpa using hbefore) (by simpa using hkind) _
  · refine Or.inr ⟨?_, hseek⟩
    cases hc : cutAt kind (FeatureCut.slice ts i limit) with
    | none => rfl
    | some cut =>
      have hmem : cut.mark ∈ FeatureCut.slice ts i limit := by
        rw [cutAt_append hc]
        simp
      have hkind := hnone cut.mark hmem
      simp [cutAt_kind hc] at hkind

theorem onlyGaps_eq (i : Nat) :
    onlyGaps ts i limit = .ok ((FeatureCut.slice ts i limit).all Token.isGap) := by
  unfold onlyGaps
  rcases seek_cases hlimit (fun u => !u.isGap) i with
    ⟨j, t, hij, hj, ht, hpt, -, hseek⟩ | ⟨hnone, hseek⟩
  · have hall : (FeatureCut.slice ts i limit).all Token.isGap = false := by
      rw [slice_append hij (Nat.le_of_lt hj), slice_cons hj ht]
      simp only [Bool.not_eq_true'] at hpt
      simp [hpt]
    rw [hseek, hall, ok_bind, Option.isNone_some]
  · have hall : (FeatureCut.slice ts i limit).all Token.isGap = true := by simpa using hnone
    rw [hseek, hall, ok_bind, Option.isNone_none]

/-! ### Directives -/

theorem readKey_cases (a : Atom) {first : Nat} {t : Token} (ht : ts[first]? = some t) :
    (∃ e, FeatureCut.readKey a t (FeatureCut.slice ts (first + 1) limit) = .error e ∧
      readKey a ts first limit = .ok (.error e)) ∨
    ∃ key next, first < next ∧ next ≤ limit ∧
      FeatureCut.readKey a t (FeatureCut.slice ts (first + 1) limit) =
        .ok (key, FeatureCut.slice ts next limit) ∧
      readKey a ts first limit = .ok (.ok (key, next)) := by
  unfold readKey FeatureCut.readKey
  rw [tokenAt_of_some ht, ok_bind]
  rcases seek_gaps hlimit (first + 1) with ⟨j, k, hij, hj, hk, hskip, hseek⟩ | ⟨hskip, hseek⟩
  · rw [hskip, hseek, ok_bind]
    dsimp only
    rw [tokenAt_of_some hk, ok_bind]
    by_cases hkey : k.kind = .key
    · rw [if_pos hkey, if_pos hkey]
      exact Or.inr ⟨_, j + 1, by omega, by omega, rfl, rfl⟩
    · rw [if_neg hkey, if_neg hkey]
      exact Or.inl ⟨_, rfl, rfl⟩
  · rw [hskip, hseek, ok_bind]
    exact Or.inl ⟨_, rfl, rfl⟩

theorem classifyConditional_eq (p : Polarity) {start first : Nat} {t : Token}
    (hfirst : start ≤ first) (ht : ts[first]? = some t) :
    classifyConditional p ts start first limit =
      .ok (FeatureCut.classifyConditional (FeatureCut.slice ts start limit).length p t
        (FeatureCut.slice ts (first + 1) limit)) := by
  unfold classifyConditional FeatureCut.classifyConditional
  rw [tokenAt_of_some ht, ok_bind]
  rcases readKey_cases hlimit p.atom ht with
    ⟨e, hkey, hread⟩ | ⟨key, next, hnext, hle, hkey, hread⟩
  · rw [hkey, hread]
    rfl
  · rw [hkey, hread]
    simp only [bind, Except.bind]
    rcases seek_cut hlimit (.atom .ending) next with
      ⟨j, mark, hij, hj, -, hcut, hseek⟩ | ⟨hcut, hseek⟩
    · rw [hcut, hseek]
      dsimp only
      rw [slice_eq hij (by omega), length_slice hlimit, length_slice hlimit]
      have hlead : limit - start - (limit - next) = next - start := by omega
      rw [hlead]
    · rw [hcut, hseek]
      dsimp only
      rw [onlyGaps_eq hlimit]

theorem classify_eq (start : Nat) :
    classify ts start limit = .ok (FeatureCut.classify (FeatureCut.slice ts start limit)) := by
  unfold classify FeatureCut.classify
  rcases seek_gaps hlimit start with ⟨first, t, hfirst, hlt, ht, hskip, hseek⟩ | ⟨hskip, hseek⟩
  · rw [hskip, hseek, ok_bind]
    dsimp only
    rw [tokenAt_of_some ht, ok_bind]
    cases t.kind with
    | atom a =>
      cases a with
      | includeIf => exact classifyConditional_eq hlimit .positive hfirst ht
      | excludeIf => exact classifyConditional_eq hlimit .negative hfirst ht
      | fileExcludeIf =>
        dsimp only
        rcases readKey_cases hlimit .fileExcludeIf ht with
          ⟨e, hkey, hread⟩ | ⟨key, next, -, -, hkey, hread⟩
        · rw [hkey, hread]
          rfl
        · rw [hkey, hread, ok_bind]
          dsimp only
          rw [onlyGaps_eq hlimit]
          rfl
      | alternative =>
        dsimp only
        rw [onlyGaps_eq hlimit, ok_bind]
      | ending =>
        dsimp only
        rw [onlyGaps_eq hlimit, ok_bind]
      | license =>
        dsimp only
        rcases seek_gaps hlimit (first + 1) with
          ⟨j, k, -, -, hk, hskip', hseek'⟩ | ⟨hskip', hseek'⟩
        · rw [hskip', hseek', ok_bind]
          dsimp only
          rw [tokenAt_of_some hk, ok_bind]
        · rw [hskip', hseek', ok_bind]
    | _ => rfl
  · rw [hskip, hseek, ok_bind]

theorem classifyHtml_eq (start : Nat) :
    classifyHtml ts start limit =
      .ok (FeatureCut.classifyHtml (FeatureCut.slice ts start limit)) := by
  -- only the key matters of what was read
  have hread : ∀ (a : Atom) (p : Polarity) {first : Nat} {t : Token}, ts[first]? = some t →
      (do
        let found ← readKey a ts first limit
        .ok (found.map fun found => HtmlDirective.opening p found.1) :
          Checked (Except Error HtmlDirective)) =
      .ok ((FeatureCut.readKey a t (FeatureCut.slice ts (first + 1) limit)).map
        fun found => .opening p found.1) := by
    intro a p first t ht
    rcases readKey_cases hlimit a ht with ⟨e, hkey, hread⟩ | ⟨key, next, -, -, hkey, hread⟩
    · rw [hkey, hread, ok_bind]
      rfl
    · rw [hkey, hread, ok_bind]
      rfl
  unfold classifyHtml FeatureCut.classifyHtml
  rcases seek_gaps hlimit start with ⟨first, t, hfirst, hlt, ht, hskip, hseek⟩ | ⟨hskip, hseek⟩
  · rw [hskip, hseek, ok_bind]
    dsimp only
    rw [tokenAt_of_some ht, ok_bind]
    cases t.kind with
    | atom a =>
      cases a with
      | includeIf => exact hread .includeIf .positive ht
      | excludeIf => exact hread .excludeIf .negative ht
      | _ => rfl
    | _ => rfl
  · rw [hskip, hseek, ok_bind]

theorem role_eq (start : Nat) (c : CommentKind) :
    role ts start limit c = .ok (Layer.role c (FeatureCut.slice ts start limit)) := by
  cases c with
  | block => rw [role, classify_eq hlimit, ok_bind, Layer.role]
  | doc => rfl
  | html => rw [role, classifyHtml_eq hlimit, ok_bind, Layer.role]

/-! ### Searches -/

omit hlimit in
theorem Counter.feed_eq (s : Search) (m : Remark) :
    Counter.feed ⟨s.nested + 1, s.alternative⟩ m =
      .ok ((s.feed m).map id fun s => ⟨s.nested + 1, s.alternative⟩) := by
  obtain ⟨role, bounds⟩ := m
  obtain ⟨nested, alternative⟩ := s
  cases role with
  | neutral => rfl
  | opening => rfl
  | alternative =>
    cases alternative with
    | none => cases nested <;> rfl
    | some b => simp [Counter.feed, Search.feed]
  | closing => cases nested <;> rfl

theorem search_eq (y : Layer) (s : Search) (i : Nat) :
    search y ts limit ⟨s.nested + 1, s.alternative⟩ i =
      .ok (y.search s i (FeatureCut.slice ts i limit)) := by
  induction hn : limit - i using Nat.strongRecOn generalizing i s with
  | ind n ih =>
    by_cases hi : i < limit
    · have hlt : i < ts.length := by omega
      obtain ⟨t, ht⟩ := exists_token hlt
      rw [search, if_pos hi, tokenAt_of_some ht, ok_bind, slice_cons hi ht]
      cases hcomment : y.comment? t.kind with
      | none =>
        dsimp only
        rw [ih _ (by omega) s (i + 1) rfl, Layer.search_token hcomment]
      | some c =>
        dsimp only
        rcases seek_cut hlimit c.close (i + 1) with
          ⟨close, mark, hij, hj, -, hcut, hseek⟩ | ⟨hcut, hseek⟩
        · rw [hseek, ok_bind]
          dsimp only
          rw [role_eq (by omega), ok_bind]
          cases hrole : Layer.role c (FeatureCut.slice ts (i + 1) close) with
          | error e => rw [Layer.search_unsound hcomment hcut hrole]
          | ok role =>
            have hafter : i + (FeatureCut.slice ts (i + 1) close).length + 2 = close + 1 := by
              rw [length_slice (by omega)]
              omega
            rw [Layer.search_comment hcomment hcut hrole]
            dsimp only
            rw [hafter, Counter.feed_eq, ok_bind]
            cases s.feed ⟨role, ⟨i, close + 1⟩⟩ with
            | inl region => rfl
            | inr s' =>
              dsimp only [Sum.map_inr]
              rw [if_pos (by omega), ih _ (by omega) s' (close + 1) rfl]
        · rw [hseek, ok_bind, Layer.search_unterminated hcomment hcut]
    · rw [search, if_neg hi, slice_of_le (by omega), Layer.search]

/-! ### Trimming -/

omit hlimit in
theorem trimStop_eq {start stop : Nat} (hstart : start ≤ stop) (hstop : stop ≤ ts.length) :
    trimStop ts start stop = .ok (start +
      ((FeatureCut.slice ts start stop).rdropWhile Token.isBlankText).length) := by
  induction stop with
  | zero =>
    obtain rfl : start = 0 := by omega
    rw [slice_of_le (Nat.le_refl 0)]
    rfl
  | succ stop ih =>
    rw [trimStop]
    by_cases hle : start ≤ stop
    · obtain ⟨t, ht⟩ := exists_token hstop
      have hconcat : FeatureCut.slice ts start (stop + 1) =
          FeatureCut.slice ts start stop ++ [t] := by
        rw [slice_append hle (Nat.le_succ stop), slice_cons (Nat.lt_succ_self stop) ht,
          slice_of_le (Nat.le_refl _)]
      rw [if_pos hle, tokenAt_of_some ht, ok_bind, hconcat]
      by_cases hblank : t.isBlankText = true
      · rw [if_pos hblank, ih hle (by omega), List.rdropWhile_concat_pos _ _ _ hblank]
      · rw [if_neg hblank, List.rdropWhile_concat_neg _ _ _ hblank, List.length_append,
          length_slice (by omega), List.length_singleton]
        congr 1
        omega
    · rw [if_neg hle, slice_of_le (by omega)]
      obtain rfl : start = stop + 1 := by omega
      rfl

theorem seek_blank {start : Nat} (hstart : start ≤ limit) :
    ∃ found, seek (fun t => !t.isBlankText) ts start limit = .ok found ∧
      found.getD limit ≤ limit ∧
      found.getD limit =
        start + ((FeatureCut.slice ts start limit).takeWhile Token.isBlankText).length ∧
      FeatureCut.slice ts (found.getD limit) limit =
        (FeatureCut.slice ts start limit).dropWhile Token.isBlankText := by
  rcases seek_cases hlimit (fun t => !t.isBlankText) start with
    ⟨j, t, hij, hj, ht, hpt, hbefore, hseek⟩ | ⟨hnone, hseek⟩
  · have hblank : ∀ u ∈ FeatureCut.slice ts start j, u.isBlankText = true := by simpa using hbefore
    have hword : ¬ t.isBlankText = true := by simpa using hpt
    refine ⟨some j, hseek, Nat.le_of_lt hj, ?_, ?_⟩
    · rw [slice_append hij (Nat.le_of_lt hj), slice_cons hj ht,
        List.takeWhile_append_of_pos hblank, List.takeWhile_cons_of_neg hword, List.append_nil,
        length_slice (by omega), Option.getD_some, Nat.add_sub_of_le hij]
    · rw [slice_append hij (Nat.le_of_lt hj), List.dropWhile_append_of_pos hblank, slice_cons hj ht,
        List.dropWhile_cons_of_neg hword]
      exact slice_cons hj ht
  · have hblank : ∀ u ∈ FeatureCut.slice ts start limit, u.isBlankText = true := by
      simpa using hnone
    refine ⟨none, hseek, Nat.le_refl limit, ?_, ?_⟩
    · rw [List.takeWhile_eq_self_iff.2 hblank, length_slice hlimit, Option.getD_none,
        Nat.add_sub_of_le hstart]
    · rw [List.dropWhile_eq_nil_iff.2 hblank]
      exact slice_of_le (Nat.le_refl limit)

theorem trimRange_eq {start : Nat} (hstart : start ≤ limit) :
    trimRange ts start limit = .ok (FeatureCut.trimRange ts start limit) := by
  obtain ⟨found, hseek, hle, hfirst, hrest⟩ := seek_blank hlimit hstart
  rw [trimRange, hseek, ok_bind]
  dsimp only
  rw [trimStop_eq hle hlimit, ok_bind, hrest, trimRange_slice hstart hlimit, hfirst, trimEnds]

end

end Checked

end FeatureCut
