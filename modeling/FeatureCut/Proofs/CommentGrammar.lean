/-
  FeatureCut/Proofs/CommentGrammar.lean
  =====================================
  **A grammar of comments.**

  What a comment says can be told from its text alone, without tokens: it starts with a
  directive word behind blanks, a key follows right behind that word, and what counts in the
  rest is its first ending word, or that it is blank.  `Says` lists the cases, and every text
  falls under one of them (`exists_meaning`).

  White space means different things at different places.  Any blank may stand before a
  word and behind everything, but only spaces and tabs stand between a word and its key.
-/
import Mathlib.Data.Nat.Find
import FeatureCut.Directive
import FeatureCut.Proofs.Words

namespace FeatureCut

/-! ### What comments say -/

/-- What a comment says, without tokens and places. -/
inductive Meaning where
  | plain
  | opening (polarity : Polarity) (key : List Char)
  | inline (polarity : Polarity) (key body : List Char)
  | fileExclusion (key : List Char)
  | alternative
  | closing
  | license (key : Option (List Char))
  | missingKey (a : Atom)
  | missingEnd (a : Atom) (key : List Char)
deriving DecidableEq, Repr

/-- The reading that a classification comes to; other errors do not occur. -/
def Meaning.of? : Except Error Directive → Option Meaning
  | .ok .plain => some .plain
  | .ok (.opening pol key) => some (.opening pol key.text.toList)
  | .ok (.inline pol key _ body) => some (.inline pol key.text.toList (textOf body))
  | .ok (.fileExclusion key) => some (.fileExclusion key.text.toList)
  | .ok .alternative => some .alternative
  | .ok .closing => some .closing
  | .ok (.license key) => some (.license (key.map String.toList))
  | .error (.missingKey a _ _) => some (.missingKey a)
  | .error (.missingEnd a key _ _) => some (.missingEnd a key.toList)
  | .error _ => none

def AllBlank (cs : List Char) : Prop := ∀ c ∈ cs, isBlank c = true

/-- The first thing in a text is a directive word, and `r` stands behind it. -/
def StartsWith (b : List Char) (a : Atom) (r : List Char) : Prop :=
  ∃ lead, b = lead ++ (a.name.toList ++ r) ∧ AllBlank lead ∧ EndsWord r

/-- A text starts with a key, behind spaces and tabs at most.  The key goes on as far as it
    can, and `tail` stands behind it. -/
structure HasKey (r key tail : List Char) : Prop where
  text : ∃ indent, r = indent ++ (key ++ tail) ∧ ∀ c ∈ indent, isIndent c = true
  nonempty : key ≠ []
  unbounded : ∀ c ∈ key, isBoundary c = false
  ends : EndsKey tail

/-- An ending word stands in a text behind `body`. -/
def EndsBehind (t body : List Char) : Prop :=
  ∃ x, t = body ++ (Atom.ending.name.toList ++ x) ∧ EndsWord x

/-- The first ending word of a text stands behind `body`. -/
structure FirstEnding (t body : List Char) : Prop where
  ends : EndsBehind t body
  first : ∀ u, EndsBehind t u → body.length ≤ u.length

/-- What a comment with the text `b` says.  A region or an exclusion needs a key.  What
    does not start with a directive word is no directive, and the words that divide or close
    a region stand alone. -/
inductive Says (b : List Char) : Meaning → Prop
  | closing (h : trimBlank b = Atom.ending.name.toList) : Says b .closing
  | alternative (h : trimBlank b = Atom.alternative.name.toList) : Says b .alternative
  | keyless {a : Atom} {r : List Char} (ha : a ∈ [.includeIf, .excludeIf, .fileExcludeIf])
      (h : StartsWith b a r) (hkey : ¬∃ key tail, HasKey r key tail) : Says b (.missingKey a)
  | inline {pol : Polarity} {r key tail body : List Char} (h : StartsWith b pol.atom r)
      (hkey : HasKey r key tail) (hend : FirstEnding tail body) : Says b (.inline pol key body)
  | opening {pol : Polarity} {r key tail : List Char} (h : StartsWith b pol.atom r)
      (hkey : HasKey r key tail) (htail : AllBlank tail) : Says b (.opening pol key)
  | endless {pol : Polarity} {r key tail : List Char} (h : StartsWith b pol.atom r)
      (hkey : HasKey r key tail) (hend : ¬∃ body, EndsBehind tail body) (htail : ¬AllBlank tail) :
      Says b (.missingEnd pol.atom key)
  | fileExclusion {r key tail : List Char} (h : StartsWith b .fileExcludeIf r)
      (hkey : HasKey r key tail) (htail : AllBlank tail) : Says b (.fileExclusion key)
  | license {r key tail : List Char} (h : StartsWith b .license r) (hkey : HasKey r key tail) :
      Says b (.license (some key))
  | keylessLicense {r : List Char} (h : StartsWith b .license r)
      (hkey : ¬∃ key tail, HasKey r key tail) : Says b (.license none)
  | text (h : ¬∃ a r, StartsWith b a r) : Says b .plain
  | stray {a : Atom} {r : List Char} (ha : a ∈ [.alternative, .ending]) (h : StartsWith b a r)
      (hr : ¬AllBlank r) : Says b .plain
  | strayExclusion {r key tail : List Char} (h : StartsWith b .fileExcludeIf r)
      (hkey : HasKey r key tail) (htail : ¬AllBlank tail) : Says b .plain

/-! ### Every text has a reading -/

theorem exists_hasKey_or (r : List Char) :
    (∃ key tail, HasKey r key tail) ∨
      ∃ i y, r = i ++ y ∧ (∀ c ∈ i, isIndent c = true) ∧
        ∀ c ∈ y.head?, isIndent c = false ∧ isBoundary c = true := by
  have hindent : ∀ c ∈ r.takeWhile isIndent, isIndent c = true := fun c hc =>
    List.mem_takeWhile_imp hc
  have hsplit : r = r.takeWhile isIndent ++ r.dropWhile isIndent :=
    List.takeWhile_append_dropWhile.symm
  have hhead : ∀ c ∈ (r.dropWhile isIndent).head?, isIndent c = false := head?_dropWhile
  generalize r.dropWhile isIndent = y at hsplit hhead
  cases y with
  | nil => exact Or.inr ⟨_, [], hsplit, hindent, by simp⟩
  | cons c t =>
    by_cases hc : isBoundary c = true
    · refine Or.inr ⟨_, c :: t, hsplit, hindent, ?_⟩
      intro d hd
      obtain rfl : c = d := by simpa using hd
      exact ⟨hhead c rfl, hc⟩
    · left
      refine ⟨c :: t.takeWhile fun d => !isBoundary d, t.dropWhile fun d => !isBoundary d, ?_⟩
      refine ⟨⟨_, ?_, hindent⟩, by simp, ?_, ?_⟩
      · rw [List.cons_append, List.takeWhile_append_dropWhile]
        exact hsplit
      · intro d hd
        rcases List.mem_cons.1 hd with rfl | hd
        · simpa using hc
        · simpa using List.mem_takeWhile_imp hd
      · intro d hd
        simpa using head?_dropWhile d hd

theorem exists_firstEnding {t : List Char} (h : ∃ body, EndsBehind t body) :
    ∃ body, FirstEnding t body := by
  classical
  have hlen : ∃ n, ∃ body, EndsBehind t body ∧ body.length = n := by
    obtain ⟨body, hbody⟩ := h
    exact ⟨body.length, body, hbody, rfl⟩
  obtain ⟨body, hbody, hmin⟩ := Nat.find_spec hlen
  refine ⟨body, hbody, ?_⟩
  intro u hu
  rw [hmin]
  exact Nat.find_min' hlen ⟨u, hu, rfl⟩

theorem not_endsBehind_of_allBlank {t : List Char} (h : AllBlank t) :
    ¬∃ body, EndsBehind t body := by
  rintro ⟨body, x, rfl, -⟩
  have hat : isBlank '@' = true := h '@' (by simp [Atom.name])
  exact absurd hat (by decide)

theorem trimBlank_of_startsWith {b r : List Char} {a : Atom} (h : StartsWith b a r)
    (hr : AllBlank r) : trimBlank b = a.name.toList := by
  obtain ⟨lead, rfl, hlead, -⟩ := h
  obtain ⟨w, hname, -, -⟩ := a.exists_name_eq
  have hfirst : isBlank '@' = false := by decide
  have hlast : ∀ c ∈ a.name.toList.reverse.head?, isBlank c = false := by
    cases a <;> simp [Atom.name, isBlank, blankRanges]
  have hreverse : ∀ c ∈ r.reverse, isBlank c = true := fun c hc => hr c (by simpa using hc)
  have hdrop : (lead ++ (a.name.toList ++ r)).dropWhile isBlank = a.name.toList ++ r := by
    rw [List.dropWhile_append_of_pos hlead, hname]
    simp [hfirst]
  have hdrop' : (a.name.toList ++ r).reverse.dropWhile isBlank = a.name.toList.reverse := by
    rw [List.reverse_append, List.dropWhile_append_of_pos hreverse]
    cases hrev : a.name.toList.reverse with
    | nil => rfl
    | cons c t =>
      have hc : isBlank c = false := hlast c (by simp [hrev])
      simp [hc]
  rw [trimBlank, hdrop, hdrop', List.reverse_reverse]

/-- No letter is blank. -/
theorem isBlank_of_isAlpha {c : Char} (h : c.isAlpha = true) : isBlank c = false := by
  have hrange : 65 ≤ c.toNat ∧ c.toNat ≤ 90 ∨ 97 ≤ c.toNat ∧ c.toNat ≤ 122 := by
    rcases Bool.or_eq_true_iff.1 h with hupper | hlower
    · exact Or.inl (of_decide_eq_true hupper)
    · obtain ⟨hleft, hright⟩ := Bool.and_eq_true_iff.1 hlower
      exact Or.inr ⟨of_decide_eq_true hleft, of_decide_eq_true hright⟩
  simp only [isBlank, blankRanges, List.any_cons, List.any_nil, Bool.or_false,
    Bool.or_eq_false_iff, Bool.and_eq_false_iff, decide_eq_false_iff_not]
  omega

theorem AllBlank.endsWord {cs : List Char} (h : AllBlank cs) : EndsWord cs := by
  intro c hc
  have hblank := h c (List.mem_of_mem_head? hc)
  constructor
  · by_contra halpha
    rw [isBlank_of_isAlpha (by simpa using halpha)] at hblank
    cases hblank
  · rintro rfl
    exact absurd hblank (by decide)

theorem startsWith_of_trimBlank {b : List Char} {a : Atom} (h : trimBlank b = a.name.toList) :
    ∃ r, StartsWith b a r ∧ AllBlank r := by
  obtain ⟨lead, r, hb, hlead, hr⟩ := exists_trimBlank b
  exact ⟨r, ⟨lead, by rw [← h, ← hb], hlead, AllBlank.endsWord hr⟩, hr⟩

theorem exists_meaning (b : List Char) : ∃ meaning, Says b meaning := by
  by_cases hfirst : ∃ a r, StartsWith b a r
  · obtain ⟨a, r, h⟩ := hfirst
    have hconditional : ∀ pol : Polarity, a = pol.atom → ∃ meaning, Says b meaning := by
      rintro pol rfl
      by_cases hkey : ∃ key tail, HasKey r key tail
      · obtain ⟨key, tail, hkey⟩ := hkey
        by_cases hend : ∃ body, EndsBehind tail body
        · obtain ⟨body, hbody⟩ := exists_firstEnding hend
          exact ⟨_, .inline h hkey hbody⟩
        · by_cases htail : AllBlank tail
          · exact ⟨_, .opening h hkey htail⟩
          · exact ⟨_, .endless h hkey hend htail⟩
      · exact ⟨_, .keyless (by cases pol <;> decide) h hkey⟩
    have halone : a ∈ [.alternative, .ending] → AllBlank r ∨ ∃ meaning, Says b meaning := by
      intro ha
      by_cases hr : AllBlank r
      · exact Or.inl hr
      · exact Or.inr ⟨_, .stray ha h hr⟩
    cases a with
    | includeIf => exact hconditional .positive rfl
    | excludeIf => exact hconditional .negative rfl
    | fileExcludeIf =>
      by_cases hkey : ∃ key tail, HasKey r key tail
      · obtain ⟨key, tail, hkey⟩ := hkey
        by_cases htail : AllBlank tail
        · exact ⟨_, .fileExclusion h hkey htail⟩
        · exact ⟨_, .strayExclusion h hkey htail⟩
      · exact ⟨_, .keyless (by decide) h hkey⟩
    | alternative =>
      rcases halone (by decide) with hr | hsaid
      · exact ⟨_, .alternative (trimBlank_of_startsWith h hr)⟩
      · exact hsaid
    | ending =>
      rcases halone (by decide) with hr | hsaid
      · exact ⟨_, .closing (trimBlank_of_startsWith h hr)⟩
      · exact hsaid
    | license =>
      by_cases hkey : ∃ key tail, HasKey r key tail
      · obtain ⟨key, tail, hkey⟩ := hkey
        exact ⟨_, .license h hkey⟩
      · exact ⟨_, .keylessLicense h hkey⟩
  · exact ⟨_, .text hfirst⟩

end FeatureCut
