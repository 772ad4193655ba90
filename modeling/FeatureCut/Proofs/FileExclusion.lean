/-
  FeatureCut/Proofs/FileExclusion.lean
  ====================================
  **A file exclusion leaves nothing.**

  Where a file exclusion is reached and its key holds, the document is empty, whatever has
  been written before and whatever comes after.  `transform_fileExclusion` says so for an
  exclusion that stands behind complete lines of code, or at the start.

  Nothing before it looks past the exclusion: what is accepted on its own is evaluated in
  the same way with more tokens behind it (`evaluatePart_seam`).  Nothing after it can
  disturb it: the comment is cut into tokens before the scanner sees what follows
  (`bareTokens_exclusion`), and the evaluation stops there.

  Only the reason to stop counts here, not the page.  So the break after a directive may be
  taken along or not whatever the license looks like (`walk_top_stop`), and header and
  licenses need no conditions.
-/
import FeatureCut.Proofs.Concatenation
import FeatureCut.Proofs.DirectiveLine

namespace FeatureCut

/-! ### The reason to stop -/

theorem Trail.stop_andThen_congr (a : Trail Step) {b c : Trail Step} (h : b.stop = c.stop) :
    (a.andThen b).stop = (a.andThen c).stop := by
  cases hstop : a.stop with
  | some s => rw [Trail.andThen_of_stop hstop, Trail.andThen_of_stop hstop]
  | none => rw [Trail.stop_andThen hstop, Trail.stop_andThen hstop, h]

/-- Two walks over a document, with and without the breaks after directives, stop for the
    same reason. -/
theorem walk_top_stop (o : Options) (inner : Level) (n : Nat) (ts : List Token) :
    (walk (codeItem o inner true) n ts).stop = (walk (codeItem o inner false) n ts).stop := by
  refine walk_top_induction (R := fun a b => a.stop = b.stop) (fun _ => rfl)
    Trail.stop_andThen_congr ?_ n ts
  intro n t r
  refine (codeItem_top o inner n t r).imp_right ?_
  rintro ⟨⟨b, step, hbreak, hitem⟩, -⟩
  refine ⟨b, hbreak, by rw [hitem], fun a c hrest => ?_⟩
  rw [hitem, Trail.andThen_assoc]
  refine Trail.stop_andThen_congr _ ?_
  rw [Trail.stop_andThen rfl, Trail.stop_andThen rfl, hrest]

theorem Trail.excluded_of_bare {σ : Type} {a b : Trail σ} (hab : a.bare = b.bare) :
    a.stop = some .excluded ↔ b.stop = some .excluded := by
  have hstop : a.stop.map Stop.bare = b.stop.map Stop.bare := congrArg Trail.stop hab
  have hbare : ∀ s : Option Stop, s.map Stop.bare = some .excluded ↔ s = some .excluded := by
    intro s
    rcases s with _ | (_ | e) <;> simp [Stop.bare]
  rw [← hbare, hstop, hbare]

section

variable (o : Options) (n : Nat) (source : String)

theorem evaluateTokens_stop_eq_none_iff :
    (evaluateTokens o (Level.ofDepth o maxDepth n) (tokenize o.language.profile source)).stop =
        none ↔
      (evaluatePart o (Level.ofDepth o maxDepth n)
        (bareTokens o.language.profile source.toList)).stop = none := by
  have hbare := evaluateTokens_bareTokens o maxDepth n source
  rw [← Trail.stop_of_bare hbare, evaluateTokens, walk_top_stop, evaluatePart]

theorem evaluateTokens_excluded_iff :
    (evaluateTokens o (Level.ofDepth o maxDepth n) (tokenize o.language.profile source)).stop =
        some .excluded ↔
      (evaluatePart o (Level.ofDepth o maxDepth n)
        (bareTokens o.language.profile source.toList)).stop = some .excluded := by
  have hbare := evaluateTokens_bareTokens o maxDepth n source
  rw [← Trail.excluded_of_bare hbare, evaluateTokens, walk_top_stop, evaluatePart]

end

/-! ### The comment -/

def exclusionComment (key : KeyExpr) : String :=
  "/* " ++ Atom.fileExcludeIf.name ++ " " ++ key.text ++ " */"

def exclusionSaying (key : KeyExpr) : Saying (.fileExclusion key) where
  toComment := bareComment (keyedPieces .fileExcludeIf key) (keyedPieces_kind .fileExcludeIf key)
  classified := by
    have h : classify ((keyedPieces .fileExcludeIf key).map Piece.bare) =
        .ok (.fileExclusion ⟨String.ofList key.text.toList⟩) := rfl
    rwa [String.ofList_toList] at h

/-- The comment is read before anything that follows it. -/
theorem bareTokens_exclusion {p : Profile} (hp : p.blockComments = true) {key : KeyExpr}
    (hkey : key.text ≠ "") (hchars : ∀ c ∈ key.text.toList, isBoundary c = false)
    (r : List Char) :
    ∃ rest, bareTokens p ((exclusionComment key).toList ++ r) =
      (exclusionSaying key).tokens ++ rest := by
  have hread : (exclusionComment key).toList ++ r =
      '/' :: '*' :: ' ' :: (Atom.fileExcludeIf.name.toList ++ ' ' :: (key.text.toList ++
        ' ' :: '*' :: '/' :: r)) := by
    simp [exclusionComment]
  refine ⟨(coalesce (scan p (.code false) r)).map Piece.bare, ?_⟩
  rw [bareTokens, hread, scan_blockOpen hp, scan_keyed p rfl hkey hchars,
    coalesce_cons_of_ne Kind.noConfusion, coalesce_append_cons _ Kind.noConfusion]
  simp [exclusionSaying, bareComment, Comment.tokens, Comment.tail, keyedPieces, spacePiece,
    coalesce]

theorem evaluatePart_exclusion {o : Options} {key : KeyExpr}
    (hkey : key.holdsOrDefault o.keys = true) (inner : Level) (rest : List Token) :
    (evaluatePart o inner ((exclusionSaying key).tokens ++ rest)).stop = some .excluded := by
  have hitem : ∀ n, codeItem o inner false n (exclusionSaying key).opener
      ((exclusionSaying key).tail ++ rest) =
        ⟨exclusionTrail o (exclusionSaying key).opener key,
          (exclusionSaying key).inner.length + 1⟩ := by
    intro n
    rw [codeItem, (exclusionSaying key).opener_kind]
    dsimp only
    rw [blockItem, (exclusionSaying key).toComment.cutAt_tail]
    dsimp only
    rw [(exclusionSaying key).classified]
    rfl
  have hstop : (exclusionTrail o (exclusionSaying key).opener key).stop = some .excluded := by
    rw [exclusionTrail, if_pos hkey]
    rfl
  rw [evaluatePart, Comment.tokens, List.cons_append, List.length_cons, walk, hitem,
    Trail.andThen_of_stop hstop]
  exact hstop

/-! ### The key -/

/-- A key expression that is the reserved key but for blanks asks for nothing else. -/
theorem KeyExpr.parts_of_reserved {key : KeyExpr}
    (h : trimBlank key.text.toList = reservedKey.toList) : key.parts = [reservedKey] := by
  have hbar : '|' ∉ key.text.toList := by
    intro hmem
    obtain ⟨a, b, hsplit, ha, hb⟩ := exists_trimBlank key.text.toList
    rw [h] at hsplit
    rw [hsplit] at hmem
    rcases List.mem_append.1 hmem with hmem | hmem
    · exact absurd (ha _ hmem) (by decide)
    · rcases List.mem_append.1 hmem with hmem | hmem
      · exact absurd hmem (by decide)
      · exact absurd (hb _ hmem) (by decide)
  have hne : reservedKey.toList ≠ [] := by decide
  rw [KeyExpr.parts, List.splitOn_eq_singleton hbar]
  simp [h, hne]

/-- With valid options a key that holds excludes the file, and the reserved key does so when
    no key is active. -/
theorem KeyExpr.holdsOrDefault_of {o : Options} (hvalid : o.validate = .ok ()) {key : KeyExpr}
    (h : key.holds o.keys = true ∨ key.text = reservedKey ∧ o.keys.isEmpty = true) :
    key.holdsOrDefault o.keys = true := by
  unfold KeyExpr.holdsOrDefault
  rcases h with h | ⟨htext, hempty⟩
  · split
    · rename_i htrim
      -- the reserved key would be active
      rw [KeyExpr.holds, KeyExpr.parts_of_reserved htrim] at h
      have hcontains : o.keys.contains reservedKey = true := by simpa using h
      rw [Options.validate, if_pos hcontains] at hvalid
      cases hvalid
    · exact h
  · rw [if_pos (by rw [htext]; decide)]
    exact hempty

theorem KeyExpr.text_ne_empty {key : KeyExpr} {keys : ActiveKeys}
    (h : key.holds keys = true ∨ key.text = reservedKey ∧ keys.isEmpty = true) :
    key.text ≠ "" := by
  intro hempty
  rcases h with h | ⟨h, -⟩
  · have hparts : key.parts = [] := by
      rw [KeyExpr.parts, hempty]
      rfl
    rw [KeyExpr.holds, hparts] at h
    cases h
  · rw [hempty] at h
    exact absurd h (by decide)

/-! ### The main statement -/

theorem evaluate_stop_eq_none {o : Options} {source : String}
    (h : (evaluate o source).stop = none) (source' : String) :
    (evaluateTokens o (Level.ofDepth o maxDepth maxDepth)
        (tokenize o.language.profile source)).stop = none ∧
      (evaluate o source').stop = (evaluateTokens o (Level.ofDepth o maxDepth maxDepth)
        (tokenize o.language.profile source')).stop := by
  rw [evaluate] at h
  obtain ⟨hheader, htokens⟩ := Trail.stop_of_andThen h
  exact ⟨htokens, Trail.stop_andThen hheader _⟩

/-- **A file exclusion is absolute.**  Behind complete lines of code that are accepted on
    their own, or at the start, an exclusion whose key holds leaves the document empty: no
    header and no output of those lines is left, and what follows may be anything at all. -/
theorem transform_fileExclusion {o : Options} (hprofile : o.language.profile.blockComments = true)
    {s₁ s₂ out : String}
    (hend : s₁ = "" ∨ endsLine o.language.profile (.code true) s₁.toList = true)
    (h₁ : transform o s₁ = .ok out) (hexcluded : (evaluate o s₁).stop ≠ some .excluded)
    {key : KeyExpr} (hchars : ∀ c ∈ key.text.toList, isBoundary c = false)
    (hkey : key.holds o.keys = true ∨ key.text = reservedKey ∧ o.keys.isEmpty = true) :
    transform o (s₁ ++ exclusionComment key ++ s₂) = .ok "" := by
  obtain ⟨hvalid, hresult⟩ : o.validate = .ok () ∧ (evaluate o s₁).result = .ok out := by
    rw [transform] at h₁
    cases hvalid : o.validate with
    | error e => rw [hvalid] at h₁; cases h₁
    | ok u => rw [hvalid] at h₁; exact ⟨rfl, h₁⟩
  have hholds : key.holdsOrDefault o.keys = true := KeyExpr.holdsOrDefault_of hvalid hkey
  obtain ⟨hstop, hsame⟩ := evaluate_stop_eq_none (Trail.stop_eq_none_of_result hresult hexcluded)
    (s₁ ++ exclusionComment key ++ s₂)
  rw [evaluateTokens_stop_eq_none_iff] at hstop
  obtain ⟨rest, htokens⟩ := bareTokens_exclusion hprofile (KeyExpr.text_ne_empty hkey) hchars
    s₂.toList
  have hexclusion := evaluatePart_exclusion hholds (Level.ofDepth o maxDepth maxDepth) rest
  rw [← htokens] at hexclusion
  suffices hpart : (evaluatePart o (Level.ofDepth o maxDepth maxDepth)
      (bareTokens o.language.profile (s₁ ++ exclusionComment key ++ s₂).toList)).stop =
        some .excluded by
    rw [← evaluateTokens_excluded_iff, ← hsame] at hpart
    rw [transform, hvalid]
    dsimp only
    rw [Trail.result, hpart]
  rw [String.toList_append, String.toList_append, List.append_assoc]
  rcases hend with rfl | hend
  · exact hexclusion
  · obtain ⟨ts, b, hb, hseam⟩ := bareTokens_seam hend
    have hhead : ∀ c ∈ ((exclusionComment key).toList ++ s₂.toList).head?, isBreak c = false := by
      intro c hc
      obtain rfl : '/' = c := by simpa [exclusionComment] using hc
      rfl
    have halone := hseam [] (by simp)
    rw [List.append_nil, bareTokens_nil] at halone
    rw [halone] at hstop
    have hpart := evaluatePart_seam (Level.local_ofDepth o maxDepth maxDepth) hb rfl
      (Trail.not_fails_of_none hstop)
    have hbefore : (evaluatePart o (Level.ofDepth o maxDepth maxDepth) ts).stop = none := by
      rw [hpart [eofToken]] at hstop
      exact (Trail.stop_of_andThen hstop).1
    rw [hseam _ hhead, hpart, Trail.stop_andThen hbefore, Trail.stop_andThen rfl]
    exact hexclusion

/-- A header, a line of output and a region before the exclusion, and an open region and an
    unfinished comment behind it. -/
theorem transform_fileExclusion_unfinished :
    transform { Options.licensed "L\n" with autoHeader := true }
        ("x\n/* @exclude-if A */\ny\n/* @end */\n" ++ exclusionComment ⟨reservedKey⟩ ++
          "\n/* @include-if A */ /* @end") = .ok "" := by
  have hchars : ∀ c ∈ (⟨reservedKey⟩ : KeyExpr).text.toList, isBoundary c = false := by
    simp [reservedKey, isBoundary, isIndent, isBreak]
  have hlines : transform { Options.licensed "L\n" with autoHeader := true }
      "x\n/* @exclude-if A */\ny\n/* @end */\n" = .ok "L\nx\ny\n" := by
    decide +kernel
  exact transform_fileExclusion rfl (Or.inr (by decide +kernel)) hlines (by decide +kernel) hchars
    (Or.inr ⟨rfl, by decide +kernel⟩)

end FeatureCut
