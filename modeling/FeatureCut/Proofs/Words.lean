/-
  FeatureCut/Proofs/Words.lean
  ============================
  **Where a directive word ends.**

  After an `@` the scanner takes letters, each with at most one hyphen behind it, and as
  many as there are.  So `@end-` and `@endif` are words of their own, and no directive.  In
  terms of the text alone: a directive word stands at a place exactly if its name does and
  neither a letter nor a hyphen follows (`Atom.ofLexeme?_eq_some_iff`).  `OpensDirective`
  says what the scanner looks for behind the marker of a line comment.
-/
import FeatureCut.Proofs.Grammar

namespace FeatureCut

/-! ### The ends of words and keys -/

theorem head?_dropWhile {f : Char → Bool} {cs : List Char} :
    ∀ c ∈ (cs.dropWhile f).head?, f c = false := by
  intro c hc
  have hhead := List.head?_dropWhile_not f cs
  rw [Option.mem_def.1 hc] at hhead
  exact hhead

/-- No word goes on at the start of a text: neither a letter nor a hyphen stands there. -/
def EndsWord (cs : List Char) : Prop := ∀ c ∈ cs.head?, c.isAlpha = false ∧ c ≠ '-'

theorem endsWord_cons {c : Char} (hc : c.isAlpha = false) (hhyphen : c ≠ '-') (r : List Char) :
    EndsWord (c :: r) := by
  intro d hd
  obtain rfl : c = d := by simpa using hd
  exact ⟨hc, hhyphen⟩

theorem atomTail_of_endsWord {cs : List Char} (h : EndsWord cs) : atomTail cs = ([], cs) := by
  cases cs with
  | nil => rfl
  | cons c r =>
    have hc : c.isAlpha = false := (h c rfl).1
    rw [atomTail.eq_def]
    simp [hc]

/-- What is read of a text does not change if more is put behind it, as long as no word
    goes on there. -/
theorem atomTail_append_of_endsWord (w : List Char) {x : List Char} (hx : EndsWord x) :
    atomTail (w ++ x) = ((atomTail w).1, (atomTail w).2 ++ x) := by
  fun_induction atomTail w with
  | case1 => exact atomTail_of_endsWord hx
  | case2 c hc t ih => simp [atomTail, hc, ih, extendFirst]
  | case3 c hc d t hd ih =>
    rw [List.cons_append] at ih
    simp [atomTail, hc, hd, ih, extendFirst]
  | case4 c hc =>
    cases x with
    | nil => simp [atomTail, hc]
    | cons d t =>
      have hd : d ≠ '-' := (hx d rfl).2
      simp [atomTail, hc, hd, atomTail_of_endsWord hx, extendFirst]
  | case5 c r hc =>
    rw [List.cons_append, atomTail.eq_def]
    simp [hc]

/-- What is left starts with no letter, and with a hyphen only if the letter before it has
    one already or there is none. -/
theorem head?_atomTail (cs : List Char) :
    ∀ c ∈ (atomTail cs).2.head?, c.isAlpha = false ∧
      (c = '-' → (atomTail cs).1 = [] ∨ (atomTail cs).1.getLast? = some '-') := by
  fun_induction atomTail cs with
  | case1 => simp
  | case2 c hc t ih =>
    intro d hd
    obtain ⟨halpha, hhyphen⟩ := ih d hd
    refine ⟨halpha, ?_⟩
    intro hd
    right
    rcases hhyphen hd with hnil | hlast
    · simp [hnil]
    · simp [List.getLast?_cons, hlast]
  | case3 c hc d t hd ih =>
    intro b hb
    obtain ⟨halpha, hhyphen⟩ := ih b hb
    refine ⟨halpha, ?_⟩
    intro hbhyphen
    rcases hhyphen hbhyphen with hnil | hlast
    · -- the next character is neither a letter, nor the hyphen that would have been taken
      exfalso
      subst hbhyphen
      have hrest := atomTail_append (d :: t)
      rw [hnil, List.nil_append] at hrest
      have hhead : (atomTail (d :: t)).2.head? = some '-' := hb
      rw [hrest] at hhead
      exact hd (Option.some.inj hhead)
    · right
      simp [List.getLast?_cons, hlast]
  | case4 c hc => simp
  | case5 c r hc =>
    intro d hd
    obtain rfl : c = d := by simpa using hd
    exact ⟨by simpa using hc, fun _ => Or.inl rfl⟩

/-- No key goes on at the start of a text. -/
def EndsKey (cs : List Char) : Prop := ∀ c ∈ cs.head?, isBoundary c = true

theorem endsKey_cons {c : Char} (hc : isBoundary c = true) (r : List Char) : EndsKey (c :: r) := by
  intro d hd
  obtain rfl : c = d := by simpa using hd
  exact hc

theorem EndsKey.takeWhile_append {x : List Char} (hx : EndsKey x) (w : List Char) :
    (w ++ x).takeWhile (fun c => !isBoundary c) = w.takeWhile fun c => !isBoundary c := by
  induction w with
  | nil =>
    cases x with
    | nil => rfl
    | cons c r =>
      have hc : isBoundary c = true := hx c rfl
      simp [hc]
  | cons c w ih => by_cases hc : isBoundary c = true <;> simp [hc, ih]

theorem EndsKey.dropWhile_append {x : List Char} (hx : EndsKey x) (w : List Char) :
    (w ++ x).dropWhile (fun c => !isBoundary c) = (w.dropWhile fun c => !isBoundary c) ++ x := by
  have hwhole : _ = w ++ x := List.takeWhile_append_dropWhile (p := fun c => !isBoundary c)
  have hpart : _ = w := List.takeWhile_append_dropWhile (p := fun c => !isBoundary c)
  rw [hx.takeWhile_append] at hwhole
  refine List.append_cancel_left (hwhole.trans ?_)
  rw [← List.append_assoc, hpart]

/-! ### Directive words -/

theorem Atom.exists_name_eq (a : Atom) :
    ∃ w, a.name.toList = '@' :: w ∧ atomTail w = (w, []) ∧ Atom.ofLexeme? ('@' :: w) = some a := by
  refine ⟨a.name.toList.tail, ?_⟩
  cases a <;> decide +kernel

theorem Atom.getLast?_name (a : Atom) : a.name.toList.getLast? ≠ some '-' := by
  cases a <;> decide

theorem Atom.atomTail_name {a : Atom} {w x : List Char} (hname : a.name.toList = '@' :: w)
    (hx : EndsWord x) : atomTail (w ++ x) = (w, x) := by
  obtain ⟨w', hname', htail, -⟩ := a.exists_name_eq
  obtain rfl : w = w' := (List.cons.inj (hname.symm.trans hname')).2
  rw [atomTail_append_of_endsWord w hx, htail, List.nil_append]

/-- A lexeme that starts with `@` is a directive word if its name stands there and ends. -/
theorem Atom.ofLexeme?_eq_some_iff {r : List Char} {a : Atom} :
    Atom.ofLexeme? ('@' :: (atomTail r).1) = some a ↔
      ∃ x, '@' :: r = a.name.toList ++ x ∧ EndsWord x := by
  constructor
  · intro h
    have hname := Atom.name_of_ofLexeme? h
    refine ⟨(atomTail r).2, ?_, ?_⟩
    · rw [hname, List.cons_append, atomTail_append]
    · intro c hc
      obtain ⟨halpha, hhyphen⟩ := head?_atomTail r c hc
      refine ⟨halpha, ?_⟩
      intro hc
      have hlast := a.getLast?_name
      rw [hname] at hlast
      rcases hhyphen hc with hnil | hend
      · cases a <;> simp [hnil, Atom.name] at hname
      · rw [List.getLast?_cons, hend] at hlast
        exact hlast rfl
  · rintro ⟨x, hr, hx⟩
    obtain ⟨w, hname, -, hlexeme⟩ := a.exists_name_eq
    rw [hname, List.cons_append] at hr
    rw [(List.cons.inj hr).2, Atom.atomTail_name hname hx]
    exact hlexeme

/-- Spaces or tabs and then a directive word. -/
def OpensDirective (cs : List Char) : Prop :=
  ∃ (indent : List Char) (a : Atom) (x : List Char), cs = indent ++ (a.name.toList ++ x) ∧
    (∀ c ∈ indent, isIndent c = true) ∧ EndsWord x

theorem startsWithAtom_iff {cs : List Char} : startsWithAtom cs = true ↔ OpensDirective cs := by
  constructor
  · intro h
    unfold startsWithAtom at h
    split at h
    · rename_i r hr
      obtain ⟨a, ha⟩ := Option.isSome_iff_exists.1 h
      obtain ⟨x, hx, hend⟩ := Atom.ofLexeme?_eq_some_iff.1 ha
      refine ⟨cs.takeWhile isIndent, a, x, ?_, ?_, hend⟩
      · rw [← hx, ← hr, List.takeWhile_append_dropWhile]
      · exact fun c hc => List.mem_takeWhile_imp hc
    · cases h
  · rintro ⟨indent, a, x, rfl, hindent, hend⟩
    obtain ⟨w, hname, -, hlexeme⟩ := a.exists_name_eq
    have hdrop : (indent ++ (a.name.toList ++ x)).dropWhile isIndent = '@' :: (w ++ x) := by
      rw [List.dropWhile_append_of_pos hindent, hname]
      rfl
    unfold startsWithAtom
    rw [hdrop]
    simp only [Atom.atomTail_name hname hend, hlexeme, Option.isSome_some]

end FeatureCut
