import LoxLexis.Proofs.Cursor.Reading

/-!
# One turn of a scan

A turn that begins at an offset with text behind it reads the piece that `Piece.cut` takes off that
text, whole and no more, and leaves behind what the piece comes to (`run_turn`). There is one lemma
for each part of the scanner that a first character leads to.
-/

namespace LoxLexis

variable {σ : Type} {source : String} {report : σ → Fault → σ} {s : Cursor σ}
  {before after rest : List Char} {c : Char}

/-! ## Pieces -/

namespace Cursor

/-- What a turn that comes to a piece leaves behind. -/
def past (report : σ → Fault → σ) (s : Cursor σ) (p : Piece) : Cursor σ :=
  ⟨s.toProgress.step report p, s.current, s.current + Text.bytes p.text⟩

variable {p : Piece}

theorem past_of_nothing (h : p.finding s.line = .nothing) :
    s.past report p = s.begin.read p.text := by
  simp only [past, Progress.step, h]
  rfl

theorem past_of_token {t : Token} (h : p.finding s.line = .token t) :
    s.past report p = { s.begin.read p.text with tokens := s.tokens.push t } := by
  simp only [past, Progress.step, h]
  rfl

theorem past_of_fault {f : Fault} (h : p.finding s.line = .fault f) :
    s.past report p = { s.begin.read p.text with kept := report s.kept f } := by
  simp only [past, Progress.step, h]
  rfl

end Cursor

namespace Scanner

open Cursor

/-! ### Symbols, numbers and words -/

/-- The token of a symbol that has been read whole. -/
theorem run_addToken_symbol {t : Symbol} (h : s.At source before (t.spelling ++ after)) :
    (addToken source (.symbol t)).run (s.begin.read t.spelling)
      = Part.some ((), s.past report (.symbol t)) := by
  have hfeed : '\n' ∉ t.spelling := by cases t <;> decide
  rw [run_addToken h hfeed, past_of_token rfl]
  rfl

theorem run_symbol {t : Symbol} (ht : t.spelling = [c]) (h : s.At source before (c :: rest)) :
    (symbol source t).run (s.begin.read [c])
      = Part.some ((), s.past report (Piece.cutSymbol t rest).1) := by
  have hread : (s.begin.read [c]).At source (before ++ [c]) rest := h.begin.read
  have hshort : s.At source before (t.spelling ++ rest) := by rwa [ht]
  cases hlonger : t.withEqual? with
  | none =>
      have hcut : Piece.cutSymbol t rest = (.symbol t, rest) := by
        simp [Piece.cutSymbol, hlonger]
      rw [hcut, ← ht]
      simpa [symbol, hlonger] using run_addToken_symbol hshort
  | some longer =>
      have hspell : longer.spelling = [c, '='] := by
        rw [Symbol.spelling_of_withEqual? hlonger, ht, List.singleton_append]
      by_cases hnext : rest.head? = some '='
      · obtain ⟨after, rfl⟩ := List.head?_eq_some_iff.mp hnext
        have hcut : Piece.cutSymbol t ('=' :: after) = (.symbol longer, after) := by
          simp [Piece.cutSymbol, hlonger]
        have hlong : s.At source before (longer.spelling ++ after) := by rwa [hspell]
        have htake := run_takeIf_of_eq hread (by decide)
        rw [read_read, List.singleton_append, ← hspell] at htake
        simpa [symbol, hlonger, hcut, htake] using run_addToken_symbol hlong
      · have hcut : Piece.cutSymbol t rest = (.symbol t, rest) := by
          unfold Piece.cutSymbol
          split
          · exact absurd rfl hnext
          · rfl
        have htake := run_takeIf_of_ne hread hnext
        rw [← ht] at htake ⊢
        simpa [symbol, hlonger, hcut, htake] using run_addToken_symbol hshort

theorem run_numeral (hc : c.isDigit = true) (h : s.At source before (c :: rest)) :
    (numeral source).run (s.begin.read [c])
      = Part.some ((), s.begin.read (Numeral.cut (c :: rest)).1.text) := by
  have hdigits {t : Cursor σ} {before after} (h : t.At source before after) :
      (takeWhile source Char.isDigit).run t = Part.some ((), t.read (after.takeWhile Char.isDigit)) :=
    run_takeWhile (by decide) (by decide) h
  have hdigit (after : List Char) :
      after.takeWhile Char.isDigit = [] ↔ (after.head?.getD '\x00').isDigit = false := by
    cases after <;> simp [List.takeWhile_cons]
  have hwhole := hdigits (h.begin.read (w := [c]))
  have hat : (s.begin.read (c :: rest.takeWhile Char.isDigit)).At source
      (before ++ c :: rest.takeWhile Char.isDigit) (rest.dropWhile Char.isDigit) := by
    apply At.read
    rw [List.cons_append, List.takeWhile_append_dropWhile]
    exact h.begin
  rw [read_read, List.singleton_append] at hwhole
  unfold Numeral.cut
  rw [List.takeWhile_cons_of_pos hc, List.dropWhile_cons_of_pos hc]
  split
  · rename_i after hafter
    rw [hafter] at hat
    dsimp only
    split
    · rename_i hfraction
      -- the point stays outside because no digit follows it
      have hnext := (hdigit after).mp hfraction
      simp [numeral, hwhole, run_peek hat, run_peekNext hat, hnext, Numeral.text]
    · rename_i hfraction
      have hnext : (after.head?.getD '\x00').isDigit = true := by
        simpa using mt (hdigit after).mpr hfraction
      have hpoint := run_skip hat
      rw [← read_of_ne_feed _ (by decide)] at hpoint
      have hrest := hdigits (hat.read (w := ['.']))
      have hrun : (numeral source).run (s.begin.read [c])
          = Part.some ((), ((s.begin.read (c :: rest.takeWhile Char.isDigit)).read ['.']).read
              (after.takeWhile Char.isDigit)) := by
        simp [numeral, hwhole, run_peek hat, run_peekNext hat, hnext, hpoint, hrest]
      rw [hrun, read_read, read_read]
      simp [Numeral.text, hfraction]
  · rename_i hpoint
    have hnext : (rest.dropWhile Char.isDigit).head?.getD '\x00' ≠ '.' := by
      cases hafter : rest.dropWhile Char.isDigit with
      | nil => decide
      | cons d after =>
          rintro rfl
          exact hpoint after hafter
    simp [numeral, hwhole, run_peek hat, run_peekNext hat, hnext, Numeral.text]

theorem run_number (hc : c.isDigit = true) (h : s.At source before (c :: rest)) :
    (number source).run (s.begin.read [c])
      = Part.some ((), s.past report (.number (Numeral.cut (c :: rest)).1)) := by
  have hnumeral := run_numeral hc h
  have hsound := Numeral.sound_cut hc rest
  have hat : s.At source before
      ((Numeral.cut (c :: rest)).1.text ++ (Numeral.cut (c :: rest)).2) := by
    rwa [Numeral.text_cut_append]
  generalize (Numeral.cut (c :: rest)).1 = n at *
  have hfeed : '\n' ∉ n.text := by
    intro hmem
    simpa using Piece.eq_of_isBlank_mem_text (p := .number n) hsound rfl hmem
  have hline : (s.begin.read n.text).line = s.line := line_read_of_feed_not_mem hfeed
  have hpast : s.past report (.number n) = { s.begin.read n.text with
      tokens := s.tokens.push ⟨.number, String.ofList n.text, some (.number n.value), s.line⟩ } :=
    past_of_token rfl
  simp [number, hnumeral, run_lexeme hat, run_pushToken hat, hline, Numeral.read?_text hsound,
    hpast]

theorem run_word (hc : isWordStart c = true) (h : s.At source before (c :: rest)) :
    (word source).run (s.begin.read [c])
      = Part.some ((), s.past report (.word (c :: rest.takeWhile isWordChar))) := by
  have htake := run_takeWhile (p := isWordChar) (by decide) (by decide) (h.begin.read (w := [c]))
  rw [read_read, List.singleton_append] at htake
  have hat : s.At source before
      ((c :: rest.takeWhile isWordChar) ++ rest.dropWhile isWordChar) := by
    rwa [List.cons_append, List.takeWhile_append_dropWhile]
  have hsound : (Piece.word (c :: rest.takeWhile isWordChar)).Sound :=
    ⟨c, _, rfl, hc, fun x hx => List.mem_takeWhile_imp hx⟩
  generalize c :: rest.takeWhile isWordChar = letters at *
  have hfeed : '\n' ∉ letters := by
    intro hmem
    simpa using Piece.eq_of_isBlank_mem_text hsound rfl hmem
  have hpast : s.past report (.word letters) = { s.begin.read letters with
      tokens := s.tokens.push
        ⟨Kind.ofWord (String.ofList letters), String.ofList letters, none, s.line⟩ } :=
    past_of_token rfl
  simp [word, htake, run_lexeme hat, run_addToken hat hfeed, hpast]

/-! ### Strings -/

section Strings

variable {body : List Char}

/-- The offsets of a string without its quotes. -/
theorem slice_body (h : s.At source before ((Piece.quoted body).text ++ after)) :
    let t := s.begin.read (Piece.quoted body).text
    Text.slice source (t.start + 1) (t.current - 1) = Part.some (String.ofList body) := by
  intro t
  have hquote : ('"' : Char).utf8Size = 1 := by decide
  have hstart : t.start + 1 = Text.bytes (before ++ ['"']) := by
    show s.current + 1 = _
    rw [h.current_eq, Text.bytes_append, Text.bytes_cons, hquote, Text.bytes_nil]
  have hcurrent : t.current - 1 = Text.bytes (before ++ ['"']) + Text.bytes body := by
    show s.current + Text.bytes ('"' :: body ++ ['"']) - 1 = _
    simp only [h.current_eq, Text.bytes_append, Text.bytes_cons, Text.bytes_nil, hquote]
    omega
  have hsource : source.toList = before ++ ['"'] ++ body ++ '"' :: after := by
    simp [h.toList_eq, Piece.text]
  rw [hstart, hcurrent]
  exact Text.slice_eq_some hsource

theorem run_stringBody_of_stop (h : s.At source before ('"' :: (body ++ after)))
    (hbody : '"' ∉ body) (hafter : ∀ x ∈ after.head?, (x != '"') = false) :
    (stringBody source).run (s.begin.read ['"']) = Part.some ((), s.begin.read ('"' :: body)) := by
  have hall : ∀ x ∈ body, (x != '"') = true := by
    intro x hx
    rw [bne_iff_ne]
    rintro rfl
    exact hbody hx
  have hread : (s.begin.read ['"']).At source (before ++ ['"']) (body ++ after) := h.begin.read
  have hrun := run_stringBody hread
  rwa [takeWhile_append_of_stop hall hafter, read_read, List.singleton_append] at hrun

theorem run_string_unclosed (h : s.At source before ('"' :: body)) (hbody : '"' ∉ body) :
    (string source report).run (s.begin.read ['"'])
      = Part.some ((), s.past report (.unclosed body)) := by
  have hall : s.At source before ('"' :: (body ++ [])) := by rwa [List.append_nil]
  have hloop := run_stringBody_of_stop hall hbody (by simp)
  have hend := run_atEnd (hall.begin.read (w := '"' :: body))
  have hrun : (string source report).run (s.begin.read ['"'])
      = (fault report .unclosedString).run (s.begin.read ('"' :: body)) := by
    simp [string, hloop, hend]
  rw [hrun, past_of_fault rfl]
  rfl

theorem run_string_quoted (h : s.At source before ((Piece.quoted body).text ++ after))
    (hbody : '"' ∉ body) :
    (string source report).run (s.begin.read ['"']) = Part.some ((), s.past report (.quoted body)) := by
  have hquote : s.At source before ('"' :: (body ++ '"' :: after)) := by
    simpa [Piece.text] using h
  have hloop := run_stringBody_of_stop hquote hbody (by simp)
  have hread := hquote.begin.read (w := '"' :: body)
  have hskip := run_skip hread
  rw [← read_of_ne_feed _ (by decide), read_read] at hskip
  have hvalue := slice_body h
  rw [show (Piece.quoted body).text = '"' :: (body ++ ['"']) from rfl] at hvalue
  have hline : (s.begin.read ['"']).line = s.line := line_read_of_feed_not_mem (by decide)
  have hrun : (string source report).run (s.begin.read ['"'])
      = (pushToken source .string (some (.string (String.ofList body))) s.line).run
          (s.begin.read ('"' :: body ++ ['"'])) := by
    simp [string, hloop, run_atEnd hread, hskip, hline, hvalue]
  rw [hrun, past_of_token rfl]
  exact run_pushToken h ..

theorem run_string (h : s.At source before ('"' :: rest)) :
    (string source report).run (s.begin.read ['"'])
      = Part.some ((), s.past report (Piece.cutQuoted rest).1) := by
  by_cases hmem : '"' ∈ rest
  · obtain ⟨body, after, rfl, hbody⟩ := List.eq_append_cons_of_mem hmem
    rw [Piece.cutQuoted_append hbody]
    exact run_string_quoted (by simpa [Piece.text] using h) hbody
  · rw [Piece.cutQuoted_unclosed hmem]
    exact run_string_unclosed h hmem

end Strings

/-! ### Any first character -/

theorem run_slash (h : s.At source before ('/' :: rest)) :
    (slash source).run (s.begin.read ['/']) = Part.some ((), s.past report (Piece.cut '/' rest).1) := by
  have hread : (s.begin.read ['/']).At source (before ++ ['/']) rest := h.begin.read
  by_cases hnext : rest.head? = some '/'
  · obtain ⟨after, rfl⟩ := List.head?_eq_some_iff.mp hnext
    have htake := run_takeIf_of_eq hread (by decide)
    have hcomment := run_comment (hread.read (w := ['/']))
    rw [read_read, List.singleton_append] at htake hcomment
    rw [read_read] at hcomment
    rw [Piece.cut_slash_slash, past_of_nothing rfl]
    simp [slash, htake, hcomment, Piece.text]
  · have htake := run_takeIf_of_ne hread hnext
    have hcut : Piece.cut '/' rest = (.symbol .slash, rest) := by
      rw [Piece.cut_of_symbol (s := .slash) rfl fun _ => hnext]
      rfl
    rw [hcut]
    simpa [slash, htake, Symbol.spelling] using run_addToken_symbol (t := .slash) h

/-- The order of the cases is the one in which the turn tries them. -/
theorem run_scanToken (h : s.At source before (c :: rest)) :
    (scanToken source report).run s.begin = Part.some ((), s.past report (Piece.cut c rest).1) := by
  have hadvance := run_advance h.begin
  by_cases hfeed : c = '\n'
  · subst hfeed
    have hnone : Symbol.single? '\n' = none := by decide
    rw [Piece.cut_of_isBlank rfl, past_of_nothing rfl]
    simp [scanToken, hadvance, hnone, feed, Cursor.read, Piece.text, Text.newlines]
  rw [← read_of_ne_feed _ hfeed] at hadvance
  cases hs : Symbol.single? c with
  | some t =>
      have hspell := Symbol.single?_eq_some_iff.mp hs
      by_cases ht : t = .slash
      · subst ht
        obtain rfl : c = '/' := (List.cons.inj hspell).1.symm
        simpa [scanToken, hadvance, hs] using run_slash h
      · rw [Piece.cut_of_symbol hspell fun hslash => absurd hslash ht]
        simpa [scanToken, hadvance, hs, ht] using run_symbol hspell h
  | none =>
      have hgap : isBlank c = true ↔ (c = ' ' ∨ c = '\r') ∨ c = '\t' := by
        rw [isBlank_iff]
        simp [hfeed, or_assoc]
      by_cases hb : isBlank c = true
      · rw [Piece.cut_of_isBlank hb, past_of_nothing rfl]
        simp [scanToken, hadvance, hs, hgap.mp hb, Piece.text]
      have hsolid := hgap.not.mp hb
      by_cases hq : c = '"'
      · subst hq
        rw [Piece.cut_quote]
        simpa [scanToken, hadvance, hs] using run_string h
      by_cases hd : c.isDigit = true
      · rw [Piece.cut_of_isDigit hd]
        simpa [scanToken, hadvance, hs, hsolid, hfeed, hq, hd] using run_number hd h
      by_cases hw : isWordStart c = true
      · rw [Piece.cut_of_isWordStart hw]
        simpa [scanToken, hadvance, hs, hsolid, hfeed, hq, hd, hw] using run_word hw h
      have hc : StartsNothing c :=
        ⟨by simpa using hb, hq, by simpa using hd, by simpa using hw, hs⟩
      rw [Piece.cut_of_startsNothing hc, past_of_fault rfl]
      have hline : (s.begin.read [c]).line = s.line :=
        line_read_of_feed_not_mem (by simpa using Ne.symm hfeed)
      have hrun : (scanToken source report).run s.begin
          = (fault report (.strayCharacter c)).run (s.begin.read [c]) := by
        simp [scanToken, hadvance, hs, hsolid, hfeed, hq, hd, hw]
      rw [hrun, ← hline]
      rfl

theorem run_turn (report : σ → Fault → σ) (h : s.At source before (c :: rest)) :
    (turn source report).run s = Part.some ((), s.past report (Piece.cut c rest).1) := by
  simp only [turn, StateT.run_bind, StateT.run_modify, pure_bind]
  exact run_scanToken h

end Scanner

end LoxLexis
