import LoxLexis.Proofs.LongestMatch

/-!
# What a token says about itself

Kind, spelling and value of a token are made in different places: the kind by the sort
of piece and the keyword table, the spelling by the text of the piece, the value by
taking off quotes or reading digits. `Token.Coherent` says how the three must fit
together, by the spelling alone, and every token of a scan is coherent.

The spelling alone is also enough to tell tokens apart: a text is one sound piece at
most (`Piece.eq_of_text_eq`), so tokens with one spelling have one kind and one value,
whatever sources they come from.
-/

namespace LoxLexis

/-! ## Shapes of spellings -/

/-- ASCII digits, perhaps followed by a point and more of them. -/
def IsNumberText (w : List Char) : Prop :=
  ∃ ds, ds ≠ [] ∧ (∀ d ∈ ds, d.isDigit = true) ∧
    (w = ds ∨ ∃ fs, fs ≠ [] ∧ (∀ d ∈ fs, d.isDigit = true) ∧ w = ds ++ '.' :: fs)

/-- An ASCII letter or underscore, followed by these and ASCII digits. -/
def IsWordText (w : List Char) : Prop :=
  ∃ c cs, w = c :: cs ∧ (c.isAlpha = true ∨ c = '_') ∧
    ∀ x ∈ cs, x.isAlpha = true ∨ x = '_' ∨ x.isDigit = true

/-- Kind and value are those that go with the spelling. -/
structure Token.Coherent (t : Token) : Prop where
  lexeme_ne : t.lexeme ≠ ""
  number_iff : t.kind = .number ↔ IsNumberText t.lexeme.toList
  number_value : t.kind = .number →
    ∃ x, t.literal = some (.number x) ∧ x.isNaN = false ∧ x.negative = false
  string_iff : t.kind = .string ↔ t.lexeme.toList.head? = some '"'
  string_value : t.kind = .string →
    ∃ s, t.literal = some (.string s) ∧ t.lexeme = "\"" ++ s ++ "\"" ∧ '"' ∉ s.toList
  no_value : t.kind ≠ .number → t.kind ≠ .string → t.literal = none
  keyword_iff : t.isKeyword = true ↔
    (Keyword.ofText? t.lexeme).map Kind.keyword = some t.kind
  keyword_name : t.isKeyword = true →
    t.kind.name.toList = t.lexeme.toList.map Char.toUpper
  identifier_iff : t.kind = .identifier ↔
    IsWordText t.lexeme.toList ∧ Keyword.ofText? t.lexeme = none
  symbol_iff : ∀ s, t.kind = .symbol s ↔ t.lexeme.toList = s.spelling

/-! ## Kinds of pieces -/

theorem Keyword.toList_name (k : Keyword) :
    k.name.toList = k.spelling.toList.map Char.toUpper := by
  cases k <;> decide

/-- A word is a keyword or an identifier, as the keyword table has it. -/
theorem Kind.ofWord_eq_iff {text : String} {kind : Kind} :
    ofWord text = kind ↔
      (∃ k, Keyword.ofText? text = some k ∧ kind = keyword k) ∨
        Keyword.ofText? text = none ∧ kind = identifier := by
  unfold ofWord
  cases Keyword.ofText? text <;> simp [eq_comm]

namespace Piece

variable {p : Piece}

theorem kind?_eq_symbol_iff {s : Symbol} : p.kind? = some (.symbol s) ↔ p = symbol s := by
  cases p <;> simp [kind?, Kind.ofWord_eq_iff]

theorem kind?_eq_string_iff : p.kind? = some .string ↔ ∃ body, p = quoted body := by
  cases p <;> simp [kind?, Kind.ofWord_eq_iff]

theorem kind?_eq_number_iff : p.kind? = some .number ↔ ∃ n, p = number n := by
  cases p <;> simp [kind?, Kind.ofWord_eq_iff]

theorem kind?_eq_keyword_iff {k : Keyword} :
    p.kind? = some (.keyword k) ↔
      ∃ letters, p = word letters ∧ Keyword.ofText? (String.ofList letters) = some k := by
  cases p <;> simp [kind?, Kind.ofWord_eq_iff]

theorem kind?_eq_identifier_iff :
    p.kind? = some .identifier ↔
      ∃ letters, p = word letters ∧ Keyword.ofText? (String.ofList letters) = none := by
  cases p <;> simp [kind?, Kind.ofWord_eq_iff]

theorem lexeme_of_kind? {kind : Kind} (hp : p.Sound) (hkind : p.kind? = some kind) :
    Lexeme (some kind) p.text := by
  have hc : p.cause? = none := by cases p <;> first | rfl | cases hkind
  exact hkind ▸ lexeme_of_sound hp hc

/-! ## The kind by the spelling

A text is in one language only, so one language that the spelling is in gives the kind. -/

section Spelling

variable {kind : Kind} (hp : p.Sound) (hkind : p.kind? = some kind)

include hp hkind

theorem kind_eq_number_iff : kind = .number ↔ IsNumberText p.text := by
  have hlexeme := lexeme_of_kind? hp hkind
  constructor
  · rintro rfl
    obtain ⟨n, rfl⟩ := kind?_eq_number_iff.mp hkind
    refine ⟨n.whole, hp.whole_ne_nil, hp.whole_isDigit, ?_⟩
    by_cases hf : n.fraction = []
    · exact Or.inl (by simp [text, Numeral.text, hf])
    · exact Or.inr ⟨n.fraction, hf, hp.fraction_isDigit, by simp [text, Numeral.text, hf]⟩
  · rintro ⟨ds, hne, hds, htext | ⟨fs, hfs, hfd, htext⟩⟩
    · rw [htext] at hlexeme
      exact Option.some.inj (hlexeme.kind_unique (.whole hne hds))
    · rw [htext] at hlexeme
      exact Option.some.inj (hlexeme.kind_unique (.decimal hne hds hfs hfd))

theorem kind_eq_string_iff : kind = .string ↔ p.text.head? = some '"' := by
  constructor
  · rintro rfl
    obtain ⟨body, rfl⟩ := kind?_eq_string_iff.mp hkind
    rfl
  · intro hhead
    obtain ⟨w, htext⟩ := List.head?_eq_some_iff.mp hhead
    cases p with
    | quoted body => exact (Option.some.inj hkind).symm
    | symbol s => exact absurd rfl (Symbol.spelling_head htext).2.1
    | number n =>
        obtain ⟨d, v, hn, hd⟩ := Numeral.text_eq_cons hp
        obtain ⟨rfl, -⟩ := List.cons.inj (hn.symm.trans htext)
        exact absurd hd (by decide)
    | word letters =>
        obtain ⟨c, cs, hletters, hstart, -⟩ := hp
        obtain ⟨rfl, -⟩ := List.cons.inj (hletters.symm.trans htext)
        exact absurd hstart (by decide)
    | blank | comment | stray | unclosed => cases hkind

theorem kind_eq_symbol_iff (s : Symbol) : kind = .symbol s ↔ p.text = s.spelling := by
  constructor
  · rintro rfl
    rw [kind?_eq_symbol_iff.mp hkind, text]
  · intro htext
    have hlexeme := lexeme_of_kind? hp hkind
    rw [htext] at hlexeme
    have hsymbol : Lexeme (some (.symbol s)) s.spelling :=
      lexeme_of_kind? (p := symbol s) trivial rfl
    exact Option.some.inj (hlexeme.kind_unique hsymbol)

theorem kind_eq_identifier_iff :
    kind = .identifier ↔
      IsWordText p.text ∧ Keyword.ofText? (String.ofList p.text) = none := by
  constructor
  · rintro rfl
    obtain ⟨letters, rfl, hnone⟩ := kind?_eq_identifier_iff.mp hkind
    obtain ⟨c, cs, rfl, hstart, hcs⟩ := hp
    exact ⟨⟨c, cs, rfl, isWordStart_iff.mp hstart, fun x hx => isWordChar_iff.mp (hcs x hx)⟩,
      hnone⟩
  · rintro ⟨⟨c, cs, htext, hc, hcs⟩, hnone⟩
    have hlexeme := lexeme_of_kind? hp hkind
    rw [htext] at hlexeme hnone
    have hword := Option.some.inj (hlexeme.kind_unique (.word hc hcs))
    exact hword.trans (Kind.ofWord_eq_iff.mpr (Or.inr ⟨hnone, rfl⟩))

theorem isKeyword_iff_ofText? :
    kind.isKeyword = true ↔
      (Keyword.ofText? (String.ofList p.text)).map Kind.keyword = some kind := by
  constructor
  · intro hkeyword
    cases kind with
    | keyword k =>
        obtain ⟨letters, rfl, hsome⟩ := kind?_eq_keyword_iff.mp hkind
        rw [text, hsome, Option.map_some]
    | symbol | identifier | string | number | eof => cases hkeyword
  · intro hmap
    obtain ⟨k, -, rfl⟩ := Option.map_eq_some_iff.mp hmap
    rfl

end Spelling

end Piece

/-! ## Tokens are coherent -/

theorem Numeral.value_spec (n : Numeral) :
    n.value.isNaN = false ∧ n.value.negative = false :=
  ⟨Binary64.isNaN_nearest _ _, Binary64.negative_nearest _ _⟩

theorem Piece.coherent_of_token? {p : Piece} (hp : p.Sound) {line : Nat} {t : Token}
    (ht : p.token? line = some t) : t.Coherent := by
  obtain ⟨hkind, hlexeme, hliteral, -⟩ := Piece.token?_eq_some_iff.mp ht
  have htext : t.lexeme.toList = p.text := by rw [hlexeme, String.toList_ofList]
  constructor
  case lexeme_ne =>
    intro hempty
    exact text_ne_nil hp (by rw [← htext, hempty, String.toList_empty])
  case number_iff => rw [htext, kind_eq_number_iff hp hkind]
  case number_value =>
    intro hnumber
    rw [hnumber] at hkind
    obtain ⟨n, rfl⟩ := kind?_eq_number_iff.mp hkind
    exact ⟨n.value, hliteral, n.value_spec⟩
  case string_iff => rw [htext, kind_eq_string_iff hp hkind]
  case string_value =>
    intro hstring
    rw [hstring] at hkind
    obtain ⟨body, rfl⟩ := kind?_eq_string_iff.mp hkind
    refine ⟨String.ofList body, hliteral, ?_, by rwa [String.toList_ofList]⟩
    apply String.toList_inj.mp
    simp [htext, text]
  case no_value =>
    intro hnumber hstring
    rw [hliteral]
    cases p with
    | number n => exact absurd (Option.some.inj hkind).symm hnumber
    | quoted body => exact absurd (Option.some.inj hkind).symm hstring
    | blank | comment | symbol | word | stray | unclosed => rfl
  case keyword_iff => rw [hlexeme, ← isKeyword_iff_ofText? hp hkind, Token.isKeyword]
  case keyword_name =>
    intro hkeyword
    rw [Token.isKeyword, isKeyword_iff_ofText? hp hkind, ← hlexeme] at hkeyword
    obtain ⟨k, hk, hkeq⟩ := Option.map_eq_some_iff.mp hkeyword
    rw [← hkeq, ← Keyword.ofText?_eq_some_iff.mp hk]
    exact k.toList_name
  case identifier_iff => rw [htext, hlexeme, kind_eq_identifier_iff hp hkind]
  case symbol_iff =>
    intro s
    rw [htext, kind_eq_symbol_iff hp hkind]

/-! ## The spelling tells tokens apart -/

theorem Piece.eq_of_text_eq {p q : Piece} (hp : p.Sound) (hq : q.Sound)
    (h : p.text = q.text) : p = q := by
  have hpieces := pieces_text hp
  rw [h, pieces_text hq] at hpieces
  exact (List.cons.inj hpieces).1.symm

/-- A token of a scan is a sound piece, or the end, which has no spelling. -/
theorem piece_or_eof_of_mem_tokens {source : String} {t : Token}
    (ht : t ∈ (analyze source).tokens) :
    (∃ p : Piece, p.Sound ∧ p.token? t.line = some t) ∨ t = .eof t.line := by
  rw [analyze_eq_found, List.mem_append, List.mem_singleton] at ht
  rcases ht with ht | rfl
  · obtain ⟨b, p, hmem, hp⟩ := mem_found Piece.token? ht
    have hline := (Piece.token?_eq_some_iff.mp hp).2.2.2
    exact Or.inl ⟨p, sound_of_mem_pieces hmem, hline ▸ hp⟩
  · exact Or.inr rfl

theorem kind_literal_eq_of_lexeme_eq {s₁ s₂ : String} {a b : Token}
    (ha : a ∈ (analyze s₁).tokens) (hb : b ∈ (analyze s₂).tokens)
    (h : a.lexeme = b.lexeme) : a.kind = b.kind ∧ a.literal = b.literal := by
  rcases piece_or_eof_of_mem_tokens ha with ⟨p, hp, hpa⟩ | haeof <;>
    rcases piece_or_eof_of_mem_tokens hb with ⟨q, hq, hqb⟩ | hbeof
  · obtain ⟨hkind, hlexeme, hliteral, -⟩ := Piece.token?_eq_some_iff.mp hpa
    obtain ⟨hkind', hlexeme', hliteral', -⟩ := Piece.token?_eq_some_iff.mp hqb
    have htext : p.text = q.text :=
      String.ofList_injective (hlexeme.symm.trans (h.trans hlexeme'))
    obtain rfl := Piece.eq_of_text_eq hp hq htext
    exact ⟨Option.some.inj (hkind.symm.trans hkind'), hliteral.trans hliteral'.symm⟩
  · rw [hbeof] at h
    exact absurd h (Piece.coherent_of_token? hp hpa).lexeme_ne
  · rw [haeof] at h
    exact absurd h.symm (Piece.coherent_of_token? hq hqb).lexeme_ne
  · rw [haeof, hbeof]
    exact ⟨rfl, rfl⟩

theorem Token.Coherent.agrees_self {t : Token} (h : t.Coherent) : t.agrees t = true := by
  have hliteral : Token.literalsAgree t.literal t.literal = true := by
    by_cases hnumber : t.kind = .number
    · obtain ⟨x, hx, hnan, -⟩ := h.number_value hnumber
      simp [hx, Token.literalsAgree, Literal.agrees, Binary64.numEq, hnan]
    · by_cases hstring : t.kind = .string
      · obtain ⟨s, hs, -⟩ := h.string_value hstring
        simp [hs, Token.literalsAgree, Literal.agrees]
      · rw [h.no_value hnumber hstring]
        rfl
  simp [Token.agrees, hliteral]

theorem agrees_self_of_mem_tokens {source : String} {t : Token}
    (ht : t ∈ (analyze source).tokens) : t.agrees t = true := by
  rcases piece_or_eof_of_mem_tokens ht with ⟨p, hp, hpt⟩ | heof
  · exact (Piece.coherent_of_token? hp hpt).agrees_self
  · rw [heof]
    simp [Token.agrees, Token.eof, Token.literalsAgree]

/-- The tokens of a scan are coherent, up to the end, which stands last and only there;
and two tokens, of any scans, are equal if spelling and line are. -/
theorem tokens_coherent :
    (∀ source, ∃ ts line, (analyze source).tokens = ts ++ [.eof line] ∧
      ∀ t ∈ ts, t.kind ≠ .eof ∧ t.Coherent) ∧
    (∀ s₁ s₂, ∀ a ∈ (analyze s₁).tokens, ∀ b ∈ (analyze s₂).tokens,
      (a.lexeme = b.lexeme → a.kind = b.kind ∧ a.literal = b.literal) ∧
      (a.agrees b = true ↔ a.lexeme = b.lexeme ∧ a.line = b.line)) := by
  constructor
  · intro source
    refine ⟨_, _, congrArg Analysis.tokens (analyze_eq_found source), ?_⟩
    intro t ht
    obtain ⟨b, p, hmem, hp⟩ := mem_found Piece.token? ht
    have hkind := (Piece.token?_eq_some_iff.mp hp).1
    refine ⟨?_, Piece.coherent_of_token? (sound_of_mem_pieces hmem) hp⟩
    intro heof
    exact p.kind?_ne_eof (hkind.trans (congrArg some heof))
  · intro s₁ s₂ a ha b hb
    refine ⟨kind_literal_eq_of_lexeme_eq ha hb, ?_⟩
    constructor
    · intro hagrees
      simp only [Token.agrees, Bool.and_eq_true, beq_iff_eq] at hagrees
      exact ⟨hagrees.1.1.2, hagrees.2⟩
    · rintro ⟨hlexeme, hline⟩
      obtain ⟨hkind, hliteral⟩ := kind_literal_eq_of_lexeme_eq ha hb hlexeme
      have heq : a = b := by
        cases a
        cases b
        simp_all
      exact heq ▸ agrees_self_of_mem_tokens ha

theorem tokens_coherent_and :
    let a : Token := ⟨.keyword .kwAnd, "and", none, 1⟩
    let b : Token := ⟨.keyword .kwAnd, "and", none, 2⟩
    (a ∈ (analyze "and").tokens ∧ b ∈ (analyze "or\nand").tokens) ∧
    a.Coherent ∧ a.kind = b.kind ∧ a.agrees b = false := by
  intro a b
  have ha : a ∈ (analyze "and").tokens := by decide +kernel
  have hb : b ∈ (analyze "or\nand").tokens := by decide +kernel
  obtain ⟨hsplit, hequal⟩ := tokens_coherent
  obtain ⟨ts, line, htokens, hts⟩ := hsplit "and"
  obtain ⟨hcontent, hagrees⟩ := hequal _ _ a ha b hb
  refine ⟨⟨ha, hb⟩, ?_, (hcontent rfl).1, ?_⟩
  · rw [htokens, List.mem_append, List.mem_singleton] at ha
    rcases ha with ha | heof
    · exact (hts a ha).2
    · cases congrArg Token.kind heof
  · rw [← Bool.not_eq_true, hagrees]
    exact fun h => absurd h.2 (by decide)

end LoxLexis
