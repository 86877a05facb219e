import Mathlib.Data.Part

/-!
# Slices by byte offsets

A slice of a text is given by two offsets that count bytes. There is one only if the offsets are in
order, in range, and on boundaries of characters.

* `isBoundary_iff`: boundaries are where the characters can be taken apart.
* `slice_eq_some`: the slice between two boundaries is what stands between.
-/

namespace LoxLexis.Text

/-! ## Offsets -/

/-- How many bytes a text takes. -/
def bytes (s : List Char) : Nat :=
  (String.ofList s).utf8ByteSize

@[simp] theorem bytes_nil : bytes [] = 0 := rfl

@[simp] theorem bytes_append (s t : List Char) : bytes (s ++ t) = bytes s + bytes t := by
  rw [bytes, String.ofList_append, String.utf8ByteSize_append, bytes, bytes]

@[simp] theorem bytes_cons (c : Char) (s : List Char) : bytes (c :: s) = c.utf8Size + bytes s := by
  rw [bytes, String.ofList_cons, String.utf8ByteSize_append, String.utf8ByteSize_singleton, bytes]

@[simp] theorem bytes_toList (source : String) : bytes source.toList = source.utf8ByteSize := by
  rw [bytes, String.ofList_toList]

theorem length_le_bytes (s : List Char) : s.length ≤ bytes s := by
  induction s with
  | nil => exact Nat.le_refl 0
  | cons c s ih =>
      have hc := c.utf8Size_pos
      rw [List.length_cons, bytes_cons]
      omega

theorem bytes_pos {s : List Char} (h : s ≠ []) : 0 < bytes s :=
  Nat.lt_of_lt_of_le (List.length_pos_iff.mpr h) (length_le_bytes s)

/-- The offset comes neither after the end of the text nor inside a character. -/
def IsBoundary (source : String) (offset : Nat) : Prop :=
  (⟨offset⟩ : String.Pos.Raw).IsValid source

theorem isBoundary_iff {source : String} {offset : Nat} :
    IsBoundary source offset ↔
      ∃ before after, source.toList = before ++ after ∧ offset = bytes before := by
  rw [IsBoundary, String.Pos.Raw.isValid_iff_exists_append]
  constructor
  · rintro ⟨before, after, rfl, hoffset⟩
    refine ⟨before.toList, after.toList, String.toList_append, ?_⟩
    rw [bytes_toList]
    exact congrArg String.Pos.Raw.byteIdx hoffset
  · rintro ⟨before, after, hsource, rfl⟩
    refine ⟨String.ofList before, String.ofList after, ?_, rfl⟩
    rw [← String.ofList_append, ← hsource, String.ofList_toList]

/-! ## Slices -/

/-- The text between two offsets, if it can be taken. -/
def slice (source : String) (first last : Nat) : Part String :=
  ⟨first ≤ last ∧ IsBoundary source first ∧ IsBoundary source last,
    fun h => source.extract (source.pos ⟨first⟩ h.2.1) (source.pos ⟨last⟩ h.2.2)⟩

theorem slice_eq_some {source : String} {before part after : List Char}
    (h : source.toList = before ++ part ++ after) :
    slice source (bytes before) (bytes before + bytes part) = Part.some (String.ofList part) := by
  have hfirst : IsBoundary source (bytes before) :=
    isBoundary_iff.mpr ⟨before, part ++ after, by rw [h, List.append_assoc], rfl⟩
  have hlast : IsBoundary source (bytes before + bytes part) :=
    isBoundary_iff.mpr ⟨before ++ part, after, h, (bytes_append before part).symm⟩
  obtain rfl : String.ofList before ++ String.ofList part ++ String.ofList after = source := by
    rw [← String.ofList_append, ← String.ofList_append, ← h, String.ofList_toList]
  have hmiddle (a b c : ByteArray) : (a ++ b ++ c).extract a.size (a.size + b.size) = b := by
    rw [ByteArray.extract_append, ByteArray.extract_append_eq_right rfl rfl]
    simp
  refine Part.eq_some_iff.mpr ⟨⟨Nat.le_add_right .., hfirst, hlast⟩, ?_⟩
  rw [← String.toByteArray_inj]
  simp only [slice, String.toByteArray_extract, String.toByteArray_append]
  exact hmiddle ..

end LoxLexis.Text
