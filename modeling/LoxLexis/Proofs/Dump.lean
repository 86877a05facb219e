import LoxLexis.Command.Run
import LoxLexis.Proofs.TokenData
import Mathlib.Data.List.Nodup

/-!
# Reading a dump

A dump shows every token as kind, spelling and value, with a space between them and a
line feed at the end. Nothing is escaped, and a string is shown twice, so a dump may hold
lines and spaces that are part of a string, and text that looks like other tokens. Still
two sources with one dump have the same tokens, up to their lines.

The reason is that a dump can be read from the left. The kind ends at the first space. If
it is a string, then the spelling ends at the second quote, and otherwise at the next
space. Kind and spelling give the value, so that the place where the token ends is known
as well (`content_eq_of_text_append_eq`), and the rest of the dump is a dump again.
-/

namespace LoxLexis

/-! ## The names of kinds -/

namespace Kind

theorem mem_all (k : Kind) : k ∈ all := by
  cases k with
  | symbol s => simp [all, s.mem_all]
  | keyword k => simp [all, k.mem_all]
  | identifier | string | number | eof => simp [all]

theorem name_injective : Function.Injective name := by
  have hnodup : (all.map name).Nodup := by decide +kernel
  intro k l h
  exact List.inj_on_of_nodup_map hnodup k.mem_all l.mem_all h

theorem space_not_mem_name (k : Kind) : ' ' ∉ k.name.toList := by
  have hall : ∀ k ∈ all, ' ' ∉ k.name.toList := by decide +kernel
  exact hall k k.mem_all

end Kind

/-! ## What a token shows -/

/-- What a token is, wherever it stands. -/
def Token.content (t : Token) : Kind × String × Option Literal :=
  (t.kind, t.lexeme, t.literal)

theorem Token.toList_text (t : Token) :
    t.text.toList = t.kind.name.toList ++ ' ' ::
      (t.lexeme.toList ++ ' ' :: ((t.literal.map Literal.text).getD "null").toList) := by
  simp [text, String.toList_append]

/-- Lines are not shown. -/
theorem Token.text_eq_content (t : Token) :
    t.text = Token.text ⟨t.content.1, t.content.2.1, t.content.2.2, 0⟩ :=
  rfl

theorem dump_eq_content (ts : List Token) :
    dump ts = String.join ((ts.map Token.content).map fun c =>
      Token.text ⟨c.1, c.2.1, c.2.2, 0⟩ ++ "\n") := by
  rw [List.map_map]
  rfl

theorem toList_dump_cons (t : Token) (ts : List Token) :
    (dump (t :: ts)).toList = t.text.toList ++ '\n' :: (dump ts).toList := by
  simp [dump, String.toList_join]

section Tokens

variable {source : String} {t : Token} (ht : t ∈ (analyze source).tokens)

include ht

/-- Only strings hold spaces. -/
theorem space_not_mem_lexeme (hkind : t.kind ≠ .string) : ' ' ∉ t.lexeme.toList := by
  rcases piece_or_eof_of_mem_tokens ht with ⟨p, hp, hpt⟩ | heof
  · obtain ⟨hpkind, hlexeme, -, -⟩ := Piece.token?_eq_some_iff.mp hpt
    rw [hlexeme, String.toList_ofList]
    intro hmem
    rcases Piece.eq_of_isBlank_mem_text hp rfl hmem with
      rfl | ⟨body, rfl⟩ | ⟨body, rfl⟩ | ⟨body, rfl⟩
    · cases hpkind
    · cases hpkind
    · exact hkind (Option.some.inj hpkind).symm
    · cases hpkind
  · rw [heof]
    exact List.not_mem_nil

theorem exists_body_of_kind_string (hkind : t.kind = .string) :
    ∃ body : List Char, '"' ∉ body ∧ t.lexeme.toList = '"' :: (body ++ ['"']) := by
  rcases piece_or_eof_of_mem_tokens ht with ⟨p, hp, hpt⟩ | heof
  · obtain ⟨hpkind, hlexeme, -, -⟩ := Piece.token?_eq_some_iff.mp hpt
    rw [hkind] at hpkind
    obtain ⟨body, rfl⟩ := Piece.kind?_eq_string_iff.mp hpkind
    exact ⟨body, hp, by rw [hlexeme, String.toList_ofList]; rfl⟩
  · rw [heof] at hkind
    cases hkind

end Tokens

/-! ## Reading from the left -/

section Reading

variable {s₁ s₂ : String}

/-- The line of one token in a dump, told apart from what follows it. -/
theorem content_eq_of_text_append_eq {a b : Token} (ha : a ∈ (analyze s₁).tokens)
    (hb : b ∈ (analyze s₂).tokens) {r s : List Char}
    (h : a.text.toList ++ '\n' :: r = b.text.toList ++ '\n' :: s) :
    a.content = b.content ∧ r = s := by
  have hlexeme : a.lexeme = b.lexeme := by
    have hshown := h
    simp only [Token.toList_text, List.append_assoc, List.cons_append] at hshown
    obtain ⟨hname, hafter⟩ := append_cons_inj_of_not_mem
      a.kind.space_not_mem_name b.kind.space_not_mem_name hshown
    have hkind : a.kind = b.kind := Kind.name_injective (String.toList_inj.mp hname)
    by_cases hstring : a.kind = .string
    · -- the spelling goes on to the quote after the body, which holds none
      obtain ⟨v, hv, hva⟩ := exists_body_of_kind_string ha hstring
      obtain ⟨w, hw, hwb⟩ := exists_body_of_kind_string hb (hkind ▸ hstring)
      rw [hva, hwb] at hafter
      simp only [List.cons_append, List.append_assoc, List.nil_append] at hafter
      obtain ⟨hbody, -⟩ := append_cons_inj_of_not_mem hv hw (List.cons.inj hafter).2
      exact String.toList_inj.mp (by rw [hva, hwb, hbody])
    · obtain ⟨hspelling, -⟩ := append_cons_inj_of_not_mem
        (space_not_mem_lexeme ha hstring) (space_not_mem_lexeme hb (hkind ▸ hstring)) hafter
      exact String.toList_inj.mp hspelling
  obtain ⟨hkind, hliteral⟩ := kind_literal_eq_of_lexeme_eq ha hb hlexeme
  have hcontent : a.content = b.content := by
    rw [Token.content, hkind, hlexeme, hliteral]
    rfl
  rw [a.text_eq_content, hcontent, ← b.text_eq_content] at h
  exact ⟨hcontent, (List.cons.inj (List.append_cancel_left h)).2⟩

theorem map_content_eq_of_dump_eq {as bs : List Token}
    (has : ∀ a ∈ as, a ∈ (analyze s₁).tokens) (hbs : ∀ b ∈ bs, b ∈ (analyze s₂).tokens)
    (h : dump as = dump bs) : as.map Token.content = bs.map Token.content := by
  have hempty : ∀ (t : Token) (ts : List Token), dump (t :: ts) ≠ dump [] := by
    intro t ts heq
    have hlist := congrArg String.toList heq
    rw [toList_dump_cons] at hlist
    exact List.append_ne_nil_of_right_ne_nil _ (List.cons_ne_nil _ _) hlist
  induction as generalizing bs with
  | nil =>
      cases bs with
      | nil => rfl
      | cons b bs => exact absurd h.symm (hempty b bs)
  | cons a as ih =>
      cases bs with
      | nil => exact absurd h (hempty a as)
      | cons b bs =>
          obtain ⟨ha, has⟩ := List.forall_mem_cons.mp has
          obtain ⟨hb, hbs⟩ := List.forall_mem_cons.mp hbs
          have hlist := congrArg String.toList h
          rw [toList_dump_cons, toList_dump_cons] at hlist
          obtain ⟨hcontent, hrest⟩ := content_eq_of_text_append_eq ha hb hlist
          rw [List.map_cons, List.map_cons, hcontent, ih has hbs (String.toList_inj.mp hrest)]

end Reading

/-- Two sources have the same dump if and only if they have the same tokens, one by one,
up to the lines. -/
theorem dump_eq_iff (s₁ s₂ file₁ file₂ : String) :
    (Command.listing s₁ file₁).dump = (Command.listing s₂ file₂).dump ↔
      (analyze s₁).tokens.map (fun t => (t.kind, t.lexeme, t.literal))
        = (analyze s₂).tokens.map (fun t => (t.kind, t.lexeme, t.literal)) := by
  constructor
  · intro h
    exact map_content_eq_of_dump_eq (fun _ ha => ha) (fun _ hb => hb) h
  · intro h
    show dump (analyze s₁).tokens = dump (analyze s₂).tokens
    rw [dump_eq_content, dump_eq_content]
    exact congrArg _ (congrArg _ h)

/-- A string that shows lines like those of other tokens. -/
example : dump (analyze "\"\nEOF  null\n\"").tokens
    = "STRING \"\nEOF  null\n\" \nEOF  null\n\nEOF  null\n" := by decide +kernel

end LoxLexis
