/-
  FeatureCut/Proofs/Lossless.lean
  ===============================
  **Nothing is lost between a source and its tokens.**

  The scanner covers the text it is given (`lexemes_scan`), and joining text and
  giving out places changes no character.  So the lexemes of a document put
  together are its source.  The byte offsets of a token are counted along the way
  and never looked at while scanning; `tokenize_lossless` says that all the same
  they are places between two characters of the source, and that the bytes
  between them spell the token.  The pieces that the scanner cuts before text is
  joined are slices of the source in the same sense.
-/
import FeatureCut.Token.Scan

namespace FeatureCut

/-! ### Covering the text -/

@[simp] theorem lexemes_finish (m : Mode) : lexemes m.finish = [] := by
  cases m with
  | code fresh => rfl
  | comment e due => cases e <;> rfl

theorem lexemes_scan (p : Profile) (m : Mode) (cs : List Char) : lexemes (scan p m cs) = cs := by
  fun_induction scan p m cs with
  | case1 m => exact lexemes_finish m
  | case2 m c r ih => rw [lexemes_append, ih, m.move_lossless]

theorem lexemes_coalesce (ps : List Piece) : lexemes (coalesce ps) = lexemes ps := by
  induction ps with
  | nil => rfl
  | cons p ps ih =>
    rw [lexemes_cons, ← ih, coalesce]
    split
    · rename_i q qs hk hq
      rw [hq]
      split
      · simp
      · rfl
    · rfl

theorem lexemes_map_toPiece (ts : List Token) : lexemes (ts.map Token.toPiece) = textOf ts := by
  induction ts with
  | nil => rfl
  | cons t r ih => rw [List.map_cons, lexemes_cons, ih, textOf_cons]

theorem textOf_locate (pt : Point) (ps : List Piece) : textOf (locate pt ps) = lexemes ps := by
  induction ps generalizing pt with
  | nil => rfl
  | cons q qs ih => simp [locate, ih]

theorem textOf_tokenize (p : Profile) (source : String) :
    textOf (tokenize p source) = source.toList := by
  rw [tokenize, textOf_locate, lexemes_coalesce, lexemes_scan]

/-! ### Places and bytes -/

/-- A text is the slice of a source between two byte offsets: both are places
    between characters, and the bytes from one to the other spell the text. -/
structure IsSlice (source : String) (first last : Nat) (cs : List Char) : Prop where
  first_valid : (⟨first⟩ : String.Pos.Raw).IsValid source
  last_valid : (⟨last⟩ : String.Pos.Raw).IsValid source
  bytes : source.toByteArray.extract first last = cs.utf8Encode

theorem utf8ByteSize_ofList (cs : List Char) : (String.ofList cs).utf8ByteSize = byteLength cs := by
  induction cs with
  | nil => rfl
  | cons c cs ih =>
    rw [← List.singleton_append, String.ofList_append, String.utf8ByteSize_append, ih,
      byteLength_append]
    simp [byteLength]

theorem isValid_byteLength {source : String} {a b : List Char} (h : source.toList = a ++ b) :
    (⟨byteLength a⟩ : String.Pos.Raw).IsValid source := by
  rw [String.Pos.Raw.isValid_iff_exists_append]
  refine ⟨String.ofList a, String.ofList b, ?_, ?_⟩
  · rw [← String.ofList_append, ← h, String.ofList_toList]
  · apply String.Pos.Raw.ext
    exact (utf8ByteSize_ofList a).symm

theorem isSlice_of_append {source : String} {a cs b : List Char}
    (h : source.toList = a ++ (cs ++ b)) :
    IsSlice source (byteLength a) (byteLength a + byteLength cs) cs where
  first_valid := isValid_byteLength h
  last_valid := by
    rw [← byteLength_append]
    exact isValid_byteLength (b := b) (by rw [h, List.append_assoc])
  bytes := by
    have hs : source = String.ofList (a ++ (cs ++ b)) := by rw [← h, String.ofList_toList]
    have hsize : ∀ l : List Char, byteLength l = l.utf8Encode.size := by
      intro l
      rw [← utf8ByteSize_ofList, ← String.size_toByteArray, String.toByteArray_ofList]
    rw [hs, String.toByteArray_ofList, List.utf8Encode_append, List.utf8Encode_append, hsize a,
      hsize cs]
    have hskip := ByteArray.extract_append_size_add (a := a.utf8Encode)
      (b := cs.utf8Encode ++ b.utf8Encode) (i := 0) (j := cs.utf8Encode.size)
    rw [Nat.add_zero] at hskip
    rw [hskip, ByteArray.extract_append_eq_left rfl]

/-! ### Offsets along a list of pieces -/

theorem Piece.next_offset (q : Piece) (pt : Point) :
    (q.next pt).offset = pt.offset + byteLength q.lexeme := by
  unfold Piece.next
  split <;> rfl

/-- A token starts as many bytes after the first one as the pieces before it
    take, and stops after its own lexeme. -/
theorem exists_append_of_mem_locate {pt : Point} {ps : List Piece} {t : Token}
    (h : t ∈ locate pt ps) :
    ∃ a b, ps = a ++ t.toPiece :: b ∧
      t.extent.start.offset = pt.offset + byteLength (lexemes a) ∧
      t.extent.stop.offset = t.extent.start.offset + byteLength t.lexeme := by
  induction ps generalizing pt with
  | nil => simp [locate] at h
  | cons q qs ih =>
    simp only [locate, List.mem_cons] at h
    rcases h with rfl | h
    · exact ⟨[], qs, rfl, rfl, q.next_offset pt⟩
    · obtain ⟨a, b, rfl, hstart, hstop⟩ := ih h
      refine ⟨q :: a, b, rfl, ?_, hstop⟩
      rw [hstart, q.next_offset, lexemes_cons, byteLength_append, Nat.add_assoc]

/-! ### The main statement -/

/-- **Cutting a source into tokens is lossless.**  The lexemes of the tokens are
    the source, every token is the slice of the source between its two offsets,
    and every piece the scanner cuts on the way is a slice too. -/
theorem tokenize_lossless (p : Profile) (source : String) :
    textOf (tokenize p source) = source.toList ∧
      (∀ t ∈ tokenize p source,
        IsSlice source t.extent.start.offset t.extent.stop.offset t.lexeme) ∧
      ∀ a q b, scan p (.code true) source.toList = a ++ q :: b →
        IsSlice source (byteLength (lexemes a)) (byteLength (lexemes a) + byteLength q.lexeme)
          q.lexeme := by
  have hscan := lexemes_scan p (.code true) source.toList
  refine ⟨?_, ?_, ?_⟩
  · rw [tokenize, textOf_locate, lexemes_coalesce, hscan]
  · intro t ht
    obtain ⟨a, b, hps, hstart, hstop⟩ := exists_append_of_mem_locate ht
    rw [← lexemes_coalesce, hps, lexemes_append, lexemes_cons] at hscan
    have hzero : Point.start.offset = 0 := rfl
    rw [hstop, hstart, hzero, Nat.zero_add]
    exact isSlice_of_append hscan.symm
  · intro a q b hps
    rw [hps, lexemes_append, lexemes_cons] at hscan
    exact isSlice_of_append hscan.symm

/-- The delimiter after a character of two bytes. -/
theorem tokenize_lossless_accent :
    textOf (tokenize ⟨true, true, false, false, true⟩ "é/* @end */") = "é/* @end */".toList ∧
      IsSlice "é/* @end */" 2 4 ['/', '*'] := by
  obtain ⟨htext, htokens, -⟩ := tokenize_lossless ⟨true, true, false, false, true⟩ "é/* @end */"
  have hmem : (⟨⟨.blockOpen, ['/', '*'], .code⟩, ⟨⟨1, 2, 2⟩, ⟨1, 4, 4⟩⟩⟩ : Token) ∈
      tokenize ⟨true, true, false, false, true⟩ "é/* @end */" := by
    decide +kernel
  exact ⟨htext, htokens _ hmem⟩

end FeatureCut
