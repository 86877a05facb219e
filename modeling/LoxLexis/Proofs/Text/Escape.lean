import LoxLexis.Diagnostic.Fault

/-!
# Escaped characters are printable

Whatever a character is, its escape holds printable ASCII only, and the character can be told
from it (`escape_injective`).
-/

namespace LoxLexis.Text

/-- A number is printed with the digits below its base. -/
theorem exists_digitChar_of_mem_toDigits {b n : Nat} (hb : 1 < b) {c : Char}
    (hc : c ∈ Nat.toDigits b n) : ∃ d, d < b ∧ c = Nat.digitChar d := by
  induction n using Nat.strongRecOn with
  | ind n ih =>
      rw [Nat.toDigits_eq_if hb] at hc
      split at hc
      · rename_i hlt
        exact ⟨n, hlt, List.mem_singleton.mp hc⟩
      · rename_i hge
        have hpos : 0 < n := Nat.lt_of_lt_of_le (Nat.lt_of_succ_lt hb) (Nat.le_of_not_lt hge)
        rcases List.mem_append.mp hc with hc | hc
        · exact ih (n / b) (Nat.div_lt_self hpos hb) hc
        · exact ⟨n % b, Nat.mod_lt _ (Nat.lt_of_succ_lt hb), List.mem_singleton.mp hc⟩

theorem isPrintableAscii_of_mem_toDigits {n : Nat} {c : Char} (hc : c ∈ Nat.toDigits 16 n) :
    isPrintableAscii c = true := by
  have htable : ∀ d < 16, isPrintableAscii (Nat.digitChar d) = true := by decide
  obtain ⟨d, hd, rfl⟩ := exists_digitChar_of_mem_toDigits (by decide) hc
  exact htable d hd

theorem isPrintableAscii_of_lookup {c letter : Char} (h : shortEscapes.lookup c = some letter) :
    isPrintableAscii letter = true := by
  have htable : ∀ e ∈ shortEscapes, isPrintableAscii e.2 = true := by decide
  obtain ⟨front, back, hsplit, -⟩ := List.lookup_eq_some_iff.mp h
  apply htable (c, letter)
  rw [hsplit]
  exact List.mem_append_right _ List.mem_cons_self

theorem isPrintableAscii_of_mem_escape {c d : Char} (hd : d ∈ escape c) :
    isPrintableAscii d = true := by
  unfold escape at hd
  split at hd
  · rename_i letter hletter
    rw [List.mem_cons, List.mem_singleton] at hd
    rcases hd with rfl | rfl
    · decide
    · exact isPrintableAscii_of_lookup hletter
  · split at hd
    · rename_i hprintable
      rw [List.mem_singleton.mp hd]
      exact hprintable
    · rw [List.mem_append, List.mem_append, List.mem_singleton] at hd
      rcases hd with (hmark | hdigit) | rfl
      · exact List.all_eq_true.mp (by decide : ['\\', 'u', '{'].all isPrintableAscii = true) d hmark
      · exact isPrintableAscii_of_mem_toDigits hdigit
      · decide

/-! ## Escapes can be told apart -/

theorem digitChar_inj {d e : Nat} (hd : d < 16) (he : e < 16)
    (h : Nat.digitChar d = Nat.digitChar e) : d = e := by
  have htable : ∀ d < 16, ∀ e < 16, Nat.digitChar d = Nat.digitChar e → d = e := by decide
  exact htable d hd e he h

/-- The last digit is the remainder, and those before it are the digits of the quotient. -/
theorem toDigits_eq_append {b : Nat} (hb : 1 < b) (n : Nat) :
    Nat.toDigits b n
      = (if n < b then [] else Nat.toDigits b (n / b)) ++ [Nat.digitChar (n % b)] := by
  rw [Nat.toDigits_eq_if hb]
  split
  · rename_i hlt
    rw [Nat.mod_eq_of_lt hlt, List.nil_append]
  · rfl

theorem toDigits_inj {b m n : Nat} (hb : 1 < b) (hsixteen : b ≤ 16)
    (h : Nat.toDigits b m = Nat.toDigits b n) : m = n := by
  have hpos : 0 < b := Nat.lt_of_succ_lt hb
  induction m using Nat.strongRecOn generalizing n with
  | ind m ih =>
      rw [toDigits_eq_append hb, toDigits_eq_append hb n, List.append_singleton_inj] at h
      obtain ⟨hfront, hlast⟩ := h
      have hmod : m % b = n % b :=
        digitChar_inj (Nat.lt_of_lt_of_le (Nat.mod_lt m hpos) hsixteen)
          (Nat.lt_of_lt_of_le (Nat.mod_lt n hpos) hsixteen) hlast
      have hdiv : m / b = n / b := by
        by_cases hm : m < b <;> by_cases hn : n < b
        · rw [Nat.div_eq_of_lt hm, Nat.div_eq_of_lt hn]
        · rw [if_pos hm, if_neg hn] at hfront
          exact absurd hfront.symm Nat.toDigits_ne_nil
        · rw [if_neg hm, if_pos hn] at hfront
          exact absurd hfront Nat.toDigits_ne_nil
        · rw [if_neg hm, if_neg hn] at hfront
          have hlt : m / b < m := Nat.div_lt_self (Nat.lt_of_lt_of_le hpos (Nat.not_lt.mp hm)) hb
          exact ih (m / b) hlt hfront
      rw [← Nat.div_add_mod m b, ← Nat.div_add_mod n b, hdiv, hmod]

/-- The three forms of an escape. They differ in length. -/
theorem escape_cases (c : Char) :
    (∃ letter, (c, letter) ∈ shortEscapes ∧ escape c = ['\\', letter]) ∨
      escape c = [c] ∨ escape c = '\\' :: 'u' :: '{' :: (Nat.toDigits 16 c.toNat ++ ['}']) := by
  unfold escape
  split
  · rename_i letter hletter
    obtain ⟨front, back, hsplit, -⟩ := List.lookup_eq_some_iff.mp hletter
    refine Or.inl ⟨letter, ?_, rfl⟩
    rw [hsplit]
    exact List.mem_append_right _ List.mem_cons_self
  · split
    · exact Or.inr (Or.inl rfl)
    · exact Or.inr (Or.inr rfl)

theorem escape_injective : Function.Injective escape := by
  intro c d h
  have htable : ∀ e ∈ shortEscapes, ∀ f ∈ shortEscapes, e.2 = f.2 → e.1 = f.1 := by decide
  have hlength := congrArg List.length h
  rcases escape_cases c with ⟨l, hl, hc⟩ | hc | hc <;>
    rcases escape_cases d with ⟨m, hm, hd⟩ | hd | hd <;>
    rw [hc, hd] at h hlength
  case inl.inl =>
    obtain ⟨-, hletters⟩ := List.cons.inj h
    exact htable (c, l) hl (d, m) hm (List.singleton_inj.mp hletters)
  case inr.inl.inr.inl => exact List.singleton_inj.mp h
  case inr.inr.inr.inr =>
    simp only [List.cons.injEq, true_and, List.append_left_inj] at h
    exact Char.toNat_inj.mp (toDigits_inj (by decide) (Nat.le_refl 16) h)
  -- the other six pairs have two lengths
  all_goals simp at hlength

end LoxLexis.Text
