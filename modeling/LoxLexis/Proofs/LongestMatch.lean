import LoxLexis.Proofs.Piece.Placement

/-!
# Longest match

`Lexeme` gives the languages of blanks, comments and tokens as they are documented,
without reference to how a source is cut. `Munch` says what the longest match takes
off the front of a text: the longest lexeme there, or, where no lexeme stands at the
front, the whole rest after an open quote and else one character.

The argument has one idea: a piece that does not stop at what follows it can be made
longer (`exists_longer`). A lexeme at the front of a text therefore grows until it
stops, and a text begins with one stopping piece only, the one that is cut off.
-/

namespace LoxLexis

/-! ## The languages -/

/-- The lexemes, each with the kind of token it is, or with `none` between tokens. -/
inductive Lexeme : Option Kind → List Char → Prop where
  | blank {c : Char} : c ∈ [' ', '\r', '\t', '\n'] → Lexeme none [c]
  | comment {body : List Char} : '\n' ∉ body → Lexeme none ('/' :: '/' :: body)
  | single {c : Char} {s : Symbol} :
      c ∈ ['(', ')', '{', '}', ',', '.', '-', '+', ';', '*', '/', '!', '=', '<', '>'] →
      s.spelling = [c] → Lexeme (some (.symbol s)) [c]
  | double {c : Char} {s : Symbol} :
      c ∈ ['!', '=', '<', '>'] → s.spelling = [c, '='] →
      Lexeme (some (.symbol s)) [c, '=']
  | quoted {body : List Char} :
      '"' ∉ body → Lexeme (some .string) ('"' :: body ++ ['"'])
  | whole {ds : List Char} :
      ds ≠ [] → (∀ d ∈ ds, d.isDigit = true) → Lexeme (some .number) ds
  | decimal {ds fs : List Char} :
      ds ≠ [] → (∀ d ∈ ds, d.isDigit = true) →
      fs ≠ [] → (∀ d ∈ fs, d.isDigit = true) →
      Lexeme (some .number) (ds ++ '.' :: fs)
  | word {c : Char} {cs : List Char} :
      c.isAlpha = true ∨ c = '_' →
      (∀ x ∈ cs, x.isAlpha = true ∨ x = '_' ∨ x.isDigit = true) →
      Lexeme (some (Kind.ofWord (String.ofList (c :: cs)))) (c :: cs)

/-- A lexeme at the front of a text, none there being longer. -/
structure Longest (kind : Option Kind) (w s : List Char) : Prop where
  lexeme : Lexeme kind w
  front : w <+: s
  longest : ∀ kind' w', Lexeme kind' w' → w' <+: s → w'.length ≤ w.length

def NoLexeme (s : List Char) : Prop :=
  ∀ kind w, Lexeme kind w → ¬ w <+: s

/-- The piece that the longest match takes off the front of a text. -/
inductive Munch : List Char → Piece → Prop where
  | lexeme {s : List Char} {p : Piece} :
      p.cause? = none → Longest p.kind? p.text s → Munch s p
  | unclosed {body : List Char} :
      NoLexeme ('"' :: body) → Munch ('"' :: body) (.unclosed body)
  | stray {c : Char} {rest : List Char} :
      c ≠ '"' → NoLexeme (c :: rest) → Munch (c :: rest) (.stray c)

/-! ## Lexemes are the texts of sound pieces -/

theorem isWordStart_iff {c : Char} : isWordStart c = true ↔ c.isAlpha = true ∨ c = '_' := by
  simp [isWordStart]

theorem isWordChar_iff {c : Char} :
    isWordChar c = true ↔ c.isAlpha = true ∨ c = '_' ∨ c.isDigit = true := by
  simp [isWordChar, isWordStart, or_assoc]

namespace Piece

theorem lexeme_of_sound {p : Piece} (hp : p.Sound) (hc : p.cause? = none) :
    Lexeme p.kind? p.text := by
  cases p with
  | blank c =>
      have h := isBlank_iff.mp hp
      exact .blank (by simpa using h)
  | comment body => exact .comment hp
  | symbol s => cases s <;> first | exact .single (by decide) rfl | exact .double (by decide) rfl
  | quoted body => exact .quoted hp
  | number n =>
      show Lexeme _ n.text
      unfold Numeral.text
      split
      · exact .whole hp.whole_ne_nil hp.whole_isDigit
      · rename_i hf
        exact .decimal hp.whole_ne_nil hp.whole_isDigit hf hp.fraction_isDigit
  | word letters =>
      obtain ⟨c, cs, rfl, hstart, hcs⟩ := hp
      exact .word (isWordStart_iff.mp hstart) fun x hx => isWordChar_iff.mp (hcs x hx)
  | stray c => simp [cause?] at hc
  | unclosed body => simp [cause?] at hc

theorem exists_sound_of_lexeme {kind : Option Kind} {w : List Char}
    (h : Lexeme kind w) :
    ∃ p : Piece, p.Sound ∧ p.cause? = none ∧ p.kind? = kind ∧ p.text = w := by
  cases h with
  | @blank c hc => exact ⟨blank c, isBlank_iff.mpr (by simpa using hc), rfl, rfl, rfl⟩
  | @comment body hb => exact ⟨comment body, hb, rfl, rfl, rfl⟩
  | @single c s _ hs => exact ⟨symbol s, trivial, rfl, rfl, hs⟩
  | @double c s _ hs => exact ⟨symbol s, trivial, rfl, rfl, hs⟩
  | @quoted body hb => exact ⟨quoted body, hb, rfl, rfl, rfl⟩
  | whole hne hds =>
      exact ⟨number ⟨w, []⟩, ⟨hne, hds, by simp⟩, rfl, rfl, rfl⟩
  | @decimal ds fs hne hds hfs hfd =>
      refine ⟨number ⟨ds, fs⟩, ⟨hne, hds, hfd⟩, rfl, rfl, ?_⟩
      simp [text, Numeral.text, hfs]
  | @word c cs hc hcs =>
      have hs : isWordStart c = true := isWordStart_iff.mpr hc
      exact ⟨word (c :: cs), ⟨c, cs, rfl, hs, fun x hx => isWordChar_iff.mpr (hcs x hx)⟩,
        rfl, rfl, rfl⟩

end Piece

/-- A text is in one of the languages only. -/
theorem Lexeme.kind_unique {kind kind' : Option Kind} {w : List Char}
    (h : Lexeme kind w) (h' : Lexeme kind' w) : kind = kind' := by
  obtain ⟨p, hp, -, rfl, rfl⟩ := Piece.exists_sound_of_lexeme h
  obtain ⟨q, hq, -, rfl, hqp⟩ := Piece.exists_sound_of_lexeme h'
  have hpieces := pieces_text hp
  rw [← hqp, pieces_text hq] at hpieces
  rw [(List.cons.inj hpieces).1]

/-! ## Growing -/

theorem Numeral.exists_longer {n : Numeral} (hn : n.Sound) {rest : List Char}
    (hstop : ¬ n.StopsAt rest) :
    ∃ (m : Numeral) (after : List Char), m.Sound ∧
      m.text ++ after = n.text ++ rest ∧ n.text.length < m.text.length := by
  obtain ⟨whole, fraction⟩ := n
  by_cases hdigit : ∃ d after, rest = d :: after ∧ d.isDigit = true
  · -- one more digit, on the side of the point where the numeral ends
    obtain ⟨d, after, rfl, hd⟩ := hdigit
    by_cases hf : fraction = []
    · subst hf
      refine ⟨⟨whole ++ [d], []⟩, after, ⟨by simp, ?_, by simp⟩, by simp [text], by simp [text]⟩
      intro x hx
      rcases List.mem_append.mp hx with hx | hx
      · exact hn.whole_isDigit x hx
      · rw [List.mem_singleton.mp hx]
        exact hd
    · refine ⟨⟨whole, fraction ++ [d]⟩, after, ⟨hn.whole_ne_nil, hn.whole_isDigit, ?_⟩,
        by simp [text, hf], by simp [text, hf]⟩
      intro x hx
      rcases List.mem_append.mp hx with hx | hx
      · exact hn.fraction_isDigit x hx
      · rw [List.mem_singleton.mp hx]
        exact hd
  · -- a point and the first digit of a fraction
    have hhead : ∀ c ∈ rest.head?, c.isDigit = false := by
      intro c hc
      obtain ⟨after, rfl⟩ := List.head?_eq_some_iff.mp hc
      rw [← Bool.not_eq_true]
      exact fun h => hdigit ⟨c, after, rfl, h⟩
    have hpoint : ∃ d after, fraction = [] ∧ rest = '.' :: d :: after ∧ d.isDigit = true := by
      by_contra hno
      refine hstop ⟨hhead, ?_⟩
      intro d after hf hrest
      rw [← Bool.not_eq_true]
      exact fun h => hno ⟨d, after, hf, hrest, h⟩
    obtain ⟨d, after, rfl, rfl, hd⟩ := hpoint
    exact ⟨⟨whole, [d]⟩, after, ⟨hn.whole_ne_nil, hn.whole_isDigit,
      List.forall_mem_singleton.mpr hd⟩, by simp [text], by simp [text]⟩

namespace Piece

/-- A piece that does not stop at what follows is the start of a longer one. -/
theorem exists_longer {p : Piece} (hp : p.Sound) (hc : p.cause? = none)
    {rest : List Char} (hstop : ¬ p.StopsAt rest) :
    ∃ (q : Piece) (after : List Char), q.Sound ∧ q.cause? = none ∧
      q.text ++ after = p.text ++ rest ∧ p.text.length < q.text.length := by
  cases p with
  | blank c => exact absurd trivial hstop
  | comment body =>
      simp only [StopsAt, not_forall] at hstop
      obtain ⟨c, hhead, hne⟩ := hstop
      obtain ⟨after, rfl⟩ := List.head?_eq_some_iff.mp hhead
      refine ⟨comment (body ++ [c]), after, ?_, rfl, by simp [text], by simp [text]⟩
      intro hmem
      rcases List.mem_append.mp hmem with hmem | hmem
      · exact hp hmem
      · exact hne (List.mem_singleton.mp hmem).symm
  | symbol s =>
      simp only [StopsAt, not_forall] at hstop
      obtain ⟨c, hhead, hno⟩ := hstop
      obtain ⟨after, rfl⟩ := List.head?_eq_some_iff.mp hhead
      -- an equals sign makes a symbol longer, a second slash makes a comment
      by_cases heq : c = '=' ∧ s.withEqual? ≠ none
      · obtain ⟨rfl, hsome⟩ := heq
        obtain ⟨t, ht⟩ := Option.ne_none_iff_exists'.mp hsome
        have hspell := Symbol.spelling_of_withEqual? ht
        exact ⟨symbol t, after, trivial, rfl, by simp [text, hspell], by simp [text, hspell]⟩
      · obtain ⟨rfl, rfl⟩ : c = '/' ∧ s = .slash := by
          by_contra hslash
          refine hno ⟨?_, ?_⟩
          · intro h
            by_contra hsome
            exact heq ⟨h, hsome⟩
          · intro h hs
            exact hslash ⟨h, hs⟩
        exact ⟨comment [], after, by simp [Sound], rfl, rfl, by decide⟩
  | quoted body => exact absurd trivial hstop
  | number n =>
      obtain ⟨m, after, hm, htext, hlen⟩ := Numeral.exists_longer hp hstop
      exact ⟨number m, after, hm, rfl, htext, hlen⟩
  | word letters =>
      obtain ⟨c, cs, rfl, hstart, hcs⟩ := hp
      simp only [StopsAt, not_forall] at hstop
      obtain ⟨d, hhead, hd⟩ := hstop
      obtain ⟨after, rfl⟩ := List.head?_eq_some_iff.mp hhead
      refine ⟨word (c :: (cs ++ [d])), after, ⟨c, _, rfl, hstart, ?_⟩, rfl,
        by simp [text], by simp [text]⟩
      intro x hx
      rcases List.mem_append.mp hx with hx | hx
      · exact hcs x hx
      · rw [List.mem_singleton.mp hx]
        simpa using hd
  | stray c => simp [cause?] at hc
  | unclosed body => simp [cause?] at hc

/-- Grown as far as it goes, a piece at the front of a text stops. The induction is
on the text that is left. -/
theorem exists_stopping {p : Piece} (hp : p.Sound) (hc : p.cause? = none)
    (rest : List Char) :
    ∃ (q : Piece) (after : List Char), q.Sound ∧ q.cause? = none ∧ q.StopsAt after ∧
      q.text ++ after = p.text ++ rest ∧ p.text.length ≤ q.text.length := by
  induction h : rest.length using Nat.strong_induction_on generalizing p rest with
  | _ k ih =>
      subst h
      by_cases hstop : p.StopsAt rest
      · exact ⟨p, rest, hp, hc, hstop, rfl, Nat.le_refl _⟩
      · obtain ⟨q, after, hq, hqc, htext, hlt⟩ := exists_longer hp hc hstop
        have hlen := congrArg List.length htext
        simp only [List.length_append] at hlen
        obtain ⟨r, end_, hr, hrc, hrstop, hrtext, hle⟩ :=
          ih after.length (by omega) hq hqc after rfl
        exact ⟨r, end_, hr, hrc, hrstop, hrtext.trans htext, by omega⟩

/-- No lexeme at the front of a text is longer than the piece that stops there, and
there is none if that piece is a fault. -/
theorem lexeme_le_of_stopsAt {p : Piece} (hp : p.Sound) {rest : List Char}
    (hstop : p.StopsAt rest) {kind : Option Kind} {w : List Char} (hw : Lexeme kind w)
    (hfront : w <+: p.text ++ rest) :
    p.cause? = none ∧ w.length ≤ p.text.length := by
  obtain ⟨q, hq, hqc, -, rfl⟩ := exists_sound_of_lexeme hw
  obtain ⟨after, hafter⟩ := hfront
  -- the lexeme grows until it stops, and only one piece at the front stops
  obtain ⟨r, end_, hr, hrc, hrstop, hrtext, hle⟩ := exists_stopping hq hqc after
  obtain ⟨rfl, -⟩ := eq_of_text_append_eq hr hrstop hp hstop (hrtext.trans hafter)
  exact ⟨hrc, hle⟩

theorem munch_of_stopsAt {p : Piece} (hp : p.Sound) {rest : List Char}
    (hstop : p.StopsAt rest) : Munch (p.text ++ rest) p := by
  by_cases hc : p.cause? = none
  · refine .lexeme hc ⟨lexeme_of_sound hp hc, List.prefix_append _ _, ?_⟩
    intro kind w hw hfront
    exact (lexeme_le_of_stopsAt hp hstop hw hfront).2
  · have hno : NoLexeme (p.text ++ rest) := fun kind w hw hfront =>
      hc (lexeme_le_of_stopsAt hp hstop hw hfront).1
    cases p with
    | stray c => exact .stray hp.quote hno
    | unclosed body =>
        obtain rfl : rest = [] := hstop
        rw [List.append_nil] at hno ⊢
        exact .unclosed hno
    | blank | comment | symbol | quoted | number | word => exact absurd rfl hc

end Piece

/-! ## The pieces of a source -/

/-- A source falls into non-empty pieces that make it up, each taken off by longest
match; the tokens are the pieces that are tokens, with their text and kind, and the
end, and the faults are the pieces that match no lexeme. -/
theorem analyze_longest_match (source : String) :
    (∀ p ∈ pieces source.toList, p.text ≠ []) ∧
    (pieces source.toList).flatMap Piece.text = source.toList ∧
    (∀ before p after, pieces source.toList = before ++ p :: after →
      Munch ((p :: after).flatMap Piece.text) p) ∧
    (analyze source).tokens.map (fun t => (t.kind, t.lexeme))
      = (pieces source.toList).filterMap
          (fun p => p.kind?.map fun kind => (kind, String.ofList p.text))
        ++ [(.eof, "")] ∧
    (analyze source).faults.map Fault.cause
      = (pieces source.toList).filterMap Piece.cause? := by
  have htiles := tiles_pieces source.toList
  refine ⟨fun p hp => Piece.text_ne_nil (htiles.sound p hp), htiles.flatMap_text, ?_, ?_, ?_⟩
  · intro before p after hsplit
    rw [hsplit] at htiles
    rw [List.flatMap_cons]
    exact Piece.munch_of_stopsAt htiles.split.1 htiles.split.2
  · have hkind : ∀ line (p : Piece), (p.token? line).map (fun t => (t.kind, t.lexeme))
        = p.kind?.map fun kind => (kind, String.ofList p.text) :=
      fun line p => p.map_token? _ line
    rw [analyze_eq_found, List.map_append, map_found _ hkind]
    rfl
  · rw [analyze_eq_found, map_found _ Piece.map_cause_fault?]

end LoxLexis
