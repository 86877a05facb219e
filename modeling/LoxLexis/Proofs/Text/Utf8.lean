import LoxLexis.Proofs.Text.Line

/-!
# Texts as bytes

A line feed is one byte, and that byte is part of no other character. So the lines of the
bytes of a text are the bytes of its lines (`splitAfter_toUTF8`).
-/

namespace LoxLexis.Text

/-! ## The bytes of a text -/

theorem toList_loop_eq (bytes : ByteArray) (i : Nat) (front : List UInt8) :
    ByteArray.toList.loop bytes i front = front.reverse ++ bytes.data.toList.drop i := by
  fun_induction ByteArray.toList.loop bytes i front with
  | case1 i front hi ih =>
      have hlt : i < bytes.data.toList.length := by simpa using hi
      rw [ih, List.drop_eq_getElem_cons hlt]
      simp [ByteArray.get!, hi]
  | case2 i front hi =>
      have hle : bytes.data.toList.length ≤ i := by simpa using hi
      rw [List.drop_eq_nil_of_le hle, List.append_nil]

theorem toList_eq_data (bytes : ByteArray) : bytes.toList = bytes.data.toList := by
  rw [ByteArray.toList, toList_loop_eq]
  rfl

/-- The bytes of a text are those of its characters, one after the other. -/
theorem toList_toUTF8 (s : String) :
    s.toUTF8.toList = s.toList.flatMap String.utf8EncodeChar := by
  rw [toList_eq_data, String.toUTF8_eq_toByteArray, ← String.utf8Encode_toList, List.utf8Encode,
    List.toList_data_toByteArray]

theorem toByteArray_toList_toUTF8 (s : String) : s.toUTF8.toList.toByteArray = s.toUTF8 := by
  apply ByteArray.ext
  rw [toList_eq_data, List.data_toByteArray]

/-! ## Line feeds -/

/-- What the bytes beyond ASCII are made of. -/
theorem le_toNat_ofNat_mod_add {m base : Nat} (n : Nat) (hm : 0 < m) (hbase : 0x80 ≤ base)
    (hsum : base + m ≤ 0x100) : 0x80 ≤ (UInt8.ofNat (n % m + base)).toNat := by
  have hmod := Nat.mod_lt n hm
  have hlt : n % m + base < UInt8.size := Nat.lt_of_lt_of_le (by omega) hsum
  rw [UInt8.toNat_ofNat_of_lt' hlt]
  omega

/-- The characters beyond ASCII have bytes beyond ASCII only. -/
theorem le_of_mem_utf8EncodeChar {c : Char} (hc : 0x7f < c.val.toNat) :
    ∀ b ∈ String.utf8EncodeChar c, 0x80 ≤ b.toNat := by
  unfold String.utf8EncodeChar
  rw [if_neg (Nat.not_le.mpr hc)]
  -- two, three or four bytes
  split_ifs
  all_goals
    simp only [List.mem_cons, List.not_mem_nil, or_false, forall_eq_or_imp, forall_eq]
    and_intros
    all_goals apply le_toNat_ofNat_mod_add <;> decide

theorem feed_mem_utf8EncodeChar {c : Char} (h : 10 ∈ String.utf8EncodeChar c) : c = '\n' := by
  by_cases hc : c.val.toNat ≤ 0x7f
  · rw [String.utf8EncodeChar, if_pos hc, List.mem_singleton] at h
    have hlt : c.val.toNat < UInt8.size := Nat.lt_of_le_of_lt hc (by decide)
    have hval : 10 = c.val.toNat := by
      rw [← UInt8.toNat_ofNat_of_lt' hlt, ← h]
      rfl
    exact Char.ext (UInt32.toNat_inj.mp hval.symm)
  · exact absurd (le_of_mem_utf8EncodeChar (Nat.not_le.mp hc) 10 h) (by decide)

/-! ## Lines -/

theorem splitAfter_flatMap_utf8EncodeChar (s : List Char) :
    splitAfter 10 (s.flatMap String.utf8EncodeChar)
      = (splitAfter '\n' s).map (·.flatMap String.utf8EncodeChar) := by
  have hfeed {line : List Char} (hline : '\n' ∉ line) :
      10 ∉ line.flatMap String.utf8EncodeChar := by
    intro h
    obtain ⟨c, hc, hmem⟩ := List.mem_flatMap.mp h
    exact hline (feed_mem_utf8EncodeChar hmem ▸ hc)
  induction s using lines_induction with
  | last line hline =>
      rw [splitAfter_line hline, splitAfter_line (hfeed hline)]
      cases line with
      | nil => rfl
      | cons c line =>
          have hne : (c :: line).flatMap String.utf8EncodeChar ≠ [] := by
            rw [List.flatMap_cons]
            exact List.append_ne_nil_of_left_ne_nil String.utf8EncodeChar_ne_nil _
          rw [if_neg hne, if_neg (List.cons_ne_nil c line), List.map_singleton]
  | feed line rest hline ih =>
      have hbytes : (line ++ '\n' :: rest).flatMap String.utf8EncodeChar
          = line.flatMap String.utf8EncodeChar ++ 10 :: rest.flatMap String.utf8EncodeChar :=
        List.flatMap_append
      rw [hbytes, splitAfter_line_append hline, splitAfter_line_append (hfeed hline), ih,
        List.map_cons, List.flatMap_append]
      rfl

/-- The lines of the bytes are the bytes of the lines. -/
theorem splitAfter_toUTF8 (text : String) :
    splitAfter 10 text.toUTF8.toList = (lines text).map (·.toUTF8.toList) := by
  rw [toList_toUTF8, splitAfter_flatMap_utf8EncodeChar, lines, List.map_map]
  refine List.map_congr_left fun line _ => ?_
  rw [Function.comp_apply, toList_toUTF8, String.toList_ofList]

end LoxLexis.Text
