/-
  FeatureCut/Proofs/Concatenation.lean
  ====================================
  **Two sources one after the other.**

  Without licenses, a source that ends in a line break at the level of code can be
  put before another one, and the results follow each other too.  Three things
  cross the seam, and each is back where it started: the scanner (`Seam`), the
  search for the end of a region (`Context`), and the line that is being written
  (`LineCollapse`).  The tokens after the seam stand at other places, which does
  not matter (`Places`).

  Documents are compared as parts, where the break after a directive is an item
  of its own, so that no item reaches over the seam.
-/
import FeatureCut.Proofs.Context
import FeatureCut.Proofs.LineCollapse
import FeatureCut.Proofs.Places
import FeatureCut.Proofs.Seam

namespace FeatureCut

/-! ### Documents as parts -/

/-- What the tokens of a document give where breaks after directives are items of
    their own. -/
def evaluatePart (o : Options) (inner : Level) (ts : List Token) : Trail Step :=
  walk (codeItem o inner false) ts.length ts

def eofToken : Token := Piece.bare ⟨.eof, [], .code⟩

theorem eofToken_kind : eofToken.kind ≠ .blockOpen ∧ eofToken.kind ≠ .docOpen :=
  ⟨Kind.noConfusion, Kind.noConfusion⟩

theorem bareTokens_nil (p : Profile) : bareTokens p [] = [eofToken] := by
  rw [bareTokens, scan]
  rfl

theorem bareTokens_seam {p : Profile} {cs : List Char} (h : endsLine p (.code true) cs = true) :
    ∃ ts b, b.kind = .eol ∧ ∀ x : List Char, (∀ d ∈ x.head?, isBreak d = false) →
      bareTokens p (cs ++ x) = ts ++ b :: bareTokens p x := by
  obtain ⟨ps, e, he, hscan⟩ := scan_seam h
  refine ⟨(coalesce ps).map Piece.bare, e.bare, he, ?_⟩
  intro x hx
  have htext : e.kind ≠ .text := by
    rw [he]
    exact Kind.noConfusion
  simp only [bareTokens, hscan x hx, coalesce_append_cons ps htext, List.map_append, List.map_cons]

section

variable {o : Options} (hlicenses : o.licenses.isEmpty = true)
include hlicenses

theorem evaluateTokens_samePage (inner : Level) (ts : List Token) :
    (evaluateTokens o inner ts).SamePage (evaluatePart o inner ts) :=
  walk_top (Options.licenseEndsLine_of_isEmpty hlicenses) inner ts.length ts

theorem evaluateTokens_result_iff (n : Nat) (source : String) {out : String} :
    (evaluateTokens o (Level.ofDepth o maxDepth n) (tokenize o.language.profile source)).result =
        .ok out ↔
      (evaluatePart o (Level.ofDepth o maxDepth n)
        (bareTokens o.language.profile source.toList)).result = .ok out := by
  have hbare := evaluateTokens_bareTokens o maxDepth n source
  rw [← Trail.result_of_bare hbare, (evaluateTokens_samePage hlicenses _ _).result]

theorem evaluateTokens_stop_iff (n : Nat) (source : String) :
    (evaluateTokens o (Level.ofDepth o maxDepth n) (tokenize o.language.profile source)).stop =
        none ↔
      (evaluatePart o (Level.ofDepth o maxDepth n)
        (bareTokens o.language.profile source.toList)).stop = none := by
  have hbare := evaluateTokens_bareTokens o maxDepth n source
  rw [← Trail.stop_of_bare hbare, (evaluateTokens_samePage hlicenses _ _).stop]

end

theorem transform_eq_ok_iff {o : Options} (hheader : o.autoHeader = false) {source out : String} :
    transform o source = .ok out ↔ o.validate = .ok () ∧
      (evaluateTokens o (Level.ofDepth o maxDepth maxDepth)
        (tokenize o.language.profile source)).result = .ok out := by
  rw [transform, evaluate_of_no_header hheader]
  cases o.validate with
  | error e => simp
  | ok u => simp

theorem Trail.stop_eq_none_of_result {a : Trail Step} {out : String} (h : a.result = .ok out)
    (hexcluded : a.stop ≠ some .excluded) : a.stop = none := by
  unfold Trail.result at h
  split at h
  · assumption
  · contradiction
  · cases h

theorem Trail.result_of_none {a : Trail Step} (h : a.stop = none) :
    a.result = .ok (String.ofList (render a.steps)) := by
  unfold Trail.result
  rw [h]

theorem Trail.not_fails_of_none {σ : Type} {a : Trail σ} (h : a.stop = none) : ¬a.Fails := by
  rintro ⟨e, he⟩
  rw [h] at he
  cases he

/-! ### The seam -/

theorem inert_break_eof {b e : Token} (hb : b.kind = .eol) (he : e.kind = .eof) :
    Inert [b, e] := by
  intro t ht
  rcases List.mem_cons.1 ht with rfl | ht
  · rw [hb]
    exact ⟨Kind.noConfusion, Kind.noConfusion, Kind.noConfusion⟩
  · rw [List.mem_singleton.1 ht, he]
    exact ⟨Kind.noConfusion, Kind.noConfusion, Kind.noConfusion⟩

theorem evaluatePart_eof {e : Token} (he : e.kind = .eof) (o : Options) (inner : Level) :
    evaluatePart o inner [e] = .nothing := by
  rw [evaluatePart, List.length_singleton, walk, codeItem_eof he, Trail.nothing_andThen,
    List.drop_nil, walk_nil]

/-- What follows a line break is evaluated after what comes before it. -/
theorem evaluatePart_seam {o : Options} {inner : Level} (hinner : inner.Local) {b e : Token}
    (hb : b.kind = .eol) (he : e.kind = .eof) {ts : List Token}
    (h : ¬(evaluatePart o inner (ts ++ [b, e])).Fails) (x : List Token) :
    evaluatePart o inner (ts ++ b :: x) =
      (evaluatePart o inner ts).andThen
        ((Trail.write [.eol b.lexeme]).andThen (evaluatePart o inner x)) := by
  have hinert := inert_break_eof hb he
  have hlen : (ts ++ [b, e]).length = ts.length + [b, e].length := List.length_append
  rw [evaluatePart, hlen] at h
  rw [evaluatePart, List.length_append, List.length_cons,
    walk_seam hinner hinert h (x.length + 1) (b :: x), walk_eol hb]
  rfl

theorem Page.isClean_of_concat (p : Page) (ss : List Step) (cs : List Char) :
    (p.steps (ss ++ [.eol cs])).IsClean := by
  rw [Page.steps_append]
  exact Page.isClean_eol _ cs

/-- **A document of complete lines and another one give their texts one after the
    other.**  The break at the end of the first one is read as code, so no literal
    and no comment is open there, and the second one does not prolong it. -/
theorem transform_append {o : Options} (hlicenses : o.licenses.isEmpty = true)
    (hheader : o.autoHeader = false) {s₁ s₂ o₁ o₂ : String}
    (hend : endsLine o.language.profile (.code true) s₁.toList = true)
    (hstart : ∀ c ∈ s₂.toList.head?, isBreak c = false)
    (h₁ : transform o s₁ = .ok o₁) (hexcluded₁ : (evaluate o s₁).stop ≠ some .excluded)
    (h₂ : transform o s₂ = .ok o₂) (hexcluded₂ : (evaluate o s₂).stop ≠ some .excluded) :
    transform o (s₁ ++ s₂) = .ok (o₁ ++ o₂) := by
  rw [evaluate_of_no_header hheader] at hexcluded₁ hexcluded₂
  obtain ⟨hvalid, hresult₁⟩ := (transform_eq_ok_iff hheader).1 h₁
  obtain ⟨-, hresult₂⟩ := (transform_eq_ok_iff hheader).1 h₂
  have hstop₁ := (evaluateTokens_stop_iff hlicenses maxDepth s₁).1
    (Trail.stop_eq_none_of_result hresult₁ hexcluded₁)
  have hstop₂ := (evaluateTokens_stop_iff hlicenses maxDepth s₂).1
    (Trail.stop_eq_none_of_result hresult₂ hexcluded₂)
  rw [evaluateTokens_result_iff hlicenses] at hresult₁ hresult₂
  rw [transform_eq_ok_iff hheader, evaluateTokens_result_iff hlicenses, String.toList_append]
  refine ⟨hvalid, ?_⟩
  -- the tokens of the first source up to its last line break
  obtain ⟨ts, b, hb, htokens⟩ := bareTokens_seam hend
  have htokens₁ := htokens [] (by simp)
  rw [List.append_nil, bareTokens_nil] at htokens₁
  rw [htokens₁] at hstop₁ hresult₁
  rw [htokens _ hstart]
  have hinner := Level.local_ofDepth o maxDepth maxDepth
  have hseam := evaluatePart_seam hinner hb rfl (Trail.not_fails_of_none hstop₁)
  have hpart₁ := hseam [eofToken]
  rw [evaluatePart_eof rfl, Trail.andThen_nothing] at hpart₁
  have hpart := hseam (bareTokens o.language.profile s₂.toList)
  rw [← Trail.andThen_assoc, ← hpart₁] at hpart
  -- the first source ends with a complete line
  have hclean : (Page.empty.steps (evaluatePart o (Level.ofDepth o maxDepth maxDepth)
      (ts ++ [b, eofToken])).steps).IsClean := by
    rw [hpart₁] at hstop₁ ⊢
    rw [Trail.steps_andThen (Trail.stop_of_andThen hstop₁).1]
    exact Page.isClean_of_concat _ _ _
  rw [Trail.result_of_none hstop₁] at hresult₁
  rw [Trail.result_of_none hstop₂] at hresult₂
  rw [hpart, Trail.result_of_none ((Trail.stop_andThen hstop₁ _).trans hstop₂),
    Trail.steps_andThen hstop₁, render_append hclean, String.ofList_append,
    Except.ok.inj hresult₁, Except.ok.inj hresult₂]

/-- A region and a literal before the seam, a region and an unfinished line after
    it. -/
theorem transform_append_regions :
    transform {} ("/* @exclude-if A */\nx = '/*';\n/* @end */\n" ++
        "y/* @include-if A */z/* @else */\nw/* @end */") =
      .ok ("x = '/*';\n" ++ "y\nw") := by
  apply transform_append (o := {})
  · rfl
  · rfl
  · decide +kernel
  · simp [isBreak]
  · decide +kernel
  · decide +kernel
  · decide +kernel
  · decide +kernel

end FeatureCut
