import LoxLexis.Proofs.LineByLine
import LoxLexis.Proofs.Lookahead

/-!
# Comments and strings hold any text

Between its slashes and the end of the line, or between its quotes, a scan looks only for
the character that ends the comment or the string. So a comment may hold anything, and
what is found in a source does not change if it is put in or taken out
(`analyze_comment`). A string is a token with just the value that stands between its
quotes, and what comes before and after it is scanned as if it stood by itself
(`analyze_quoted`).

A comment put behind a text may stand behind a token, which must then end there; or it
goes on with a comment that the text ends in. The induction is on the tiling of the text,
and only its last piece decides between the two.
-/

namespace LoxLexis

/-! ## A comment behind a text -/

namespace Piece

variable {p : Piece}

/-- Two slashes end every piece but a comment, an open quote, and a slash. -/
theorem stopsAt_slashes (hcomment : ∀ body, p ≠ comment body)
    (hclosed : p.cause? ≠ some .unclosedString) (hslash : p ≠ symbol .slash)
    (body : List Char) : p.StopsAt ('/' :: '/' :: body) := by
  cases p with
  | comment w => exact absurd rfl (hcomment w)
  | unclosed w => exact absurd rfl hclosed
  | symbol s =>
      rintro c ⟨⟩
      refine ⟨fun h => absurd h (by decide), ?_⟩
      rintro - rfl
      exact hslash rfl
  | number n =>
      constructor
      · rintro c ⟨⟩
        decide
      · rintro d after - ⟨⟩
  | word letters =>
      rintro c ⟨⟩
      decide
  | blank | quoted | stray => trivial

/-- A piece with more text behind it does not look as far as the slashes, unless it is a
whole number with only a point behind it. -/
theorem stopsAt_append_slashes {rest : List Char} (h : p.StopsAt rest) (hne : rest ≠ [])
    (body : List Char) : p.StopsAt (rest ++ '/' :: '/' :: body) := by
  by_cases hpoint : ∃ n, p = number n ∧ rest = ['.']
  · obtain ⟨n, rfl, rfl⟩ := hpoint
    constructor
    · exact h.head
    · rintro d after - ⟨⟩
      decide
  · apply stopsAt_append_of_ne_nil h hne
    intro n hn _ hrest
    exact hpoint ⟨n, hn, hrest⟩

end Piece

/-- The pieces of a text with a comment behind it. Nothing more is found in them by an `f`
that finds nothing in comments. -/
theorem Tiles.exists_append_comment {ps : List Piece} {s body : List Char} (h : Tiles ps s)
    (hclosed : ∀ p ∈ ps, p.cause? ≠ some .unclosedString) (hslash : s.getLast? ≠ some '/')
    (hbody : '\n' ∉ body) :
    ∃ qs, Tiles qs (s ++ '/' :: '/' :: body) ∧
      ∀ {β : Type} (f : Nat → Piece → Option β), (∀ line w, f line (.comment w) = none) →
        ∀ before, found f before qs = found f before ps := by
  have hadded : Tiles [.comment body] ('/' :: '/' :: body) := by
    simpa [Piece.text] using Tiles.cons (p := .comment body) hbody (Piece.stopsAt_nil _) .nil
  induction h with
  | nil =>
      refine ⟨[.comment body], hadded, ?_⟩
      intro β f hf before
      rw [found_cons, hf]
      rfl
  | @cons p ps rest hp hstop hps ih =>
      obtain ⟨hpclosed, hpsclosed⟩ := List.forall_mem_cons.mp hclosed
      by_cases hne : rest = []
      · subst hne
        obtain rfl : ps = [] := hps.pieces_eq.symm.trans pieces_nil
        rw [List.append_nil] at hslash ⊢
        by_cases hcomment : ∃ w, p = .comment w
        · -- the comment goes on
          obtain ⟨w, rfl⟩ := hcomment
          have hsound : (Piece.comment (w ++ '/' :: '/' :: body)).Sound := by
            simp only [Piece.Sound, List.mem_append, List.mem_cons, not_or]
            exact ⟨hp, by decide, by decide, hbody⟩
          refine ⟨[.comment (w ++ '/' :: '/' :: body)], ?_, ?_⟩
          · simpa [Piece.text] using Tiles.cons hsound (Piece.stopsAt_nil _) .nil
          · intro β f hf before
            rw [found_cons, found_cons, hf, hf]
            rfl
        · have hsymbol : p ≠ .symbol .slash := by
            rintro rfl
            exact hslash rfl
          have hstops := Piece.stopsAt_slashes (not_exists.mp hcomment) hpclosed hsymbol body
          refine ⟨[p, .comment body], .cons hp hstops hadded, ?_⟩
          intro β f hf before
          rw [found_cons, found_cons, hf, found_cons]
          rfl
      · rw [List.getLast?_append_of_ne_nil _ hne] at hslash
        obtain ⟨qs, hqs, hfound⟩ := ih hpsclosed hslash
        refine ⟨p :: qs, ?_, ?_⟩
        · rw [List.append_assoc]
          exact .cons hp (Piece.stopsAt_append_slashes hstop hne body) hqs
        · intro β f hf before
          rw [found_cons, found_cons, hfound f hf]

theorem analyze_append_comment {source body : String} (hclosed : EndsClosed source)
    (hslash : source.toList.getLast? ≠ some '/') (hbody : '\n' ∉ body.toList) :
    analyze (source ++ "//" ++ body) = analyze source := by
  obtain ⟨qs, hqs, hfound⟩ :=
    (tiles_pieces source.toList).exists_append_comment (endsClosed_iff.mp hclosed) hslash hbody
  have htext : (source ++ "//" ++ body).toList = source.toList ++ '/' :: '/' :: body.toList := by
    simp [String.toList_append]
  have hnewlines : Text.newlines ('/' :: '/' :: body.toList) = 0 := by
    apply Text.newlines_line
    simpa using hbody
  have hend : lineAt (source ++ "//" ++ body).toList = lineAt source.toList := by
    rw [htext, lineAt_append, hnewlines, Nat.add_zero]
  rw [← htext] at hqs
  rw [analyze_of_tiles hqs, analyze_eq_found source, hend,
    hfound Piece.token? fun _ _ => rfl, hfound Piece.fault? fun _ _ => rfl]

/-- The results for a text are all that it passes on behind a line feed. -/
theorem analyze_append_feed_congr {a b : String} (hclosed : EndsClosed a)
    (h : analyze b = analyze a) (rest : String) :
    analyze (b ++ "\n" ++ rest) = analyze (a ++ "\n" ++ rest) := by
  have happend {s : String} (hs : EndsClosed s) : pieces (s ++ ("\n" ++ rest)).toList
      = pieces s.toList ++ pieces ("\n" ++ rest).toList := by
    rw [String.toList_append, String.toList_append]
    exact pieces_feed_append (endsClosed_iff.mp hs) rest.toList
  have hclosed' : EndsClosed b := by
    rwa [EndsClosed, h]
  have hnewlines : Text.newlines b.toList = Text.newlines a.toList := by
    have htokens := congrArg (fun x => x.tokens.getLast?) h
    simp only [analyze_eq_found, List.getLast?_concat, Option.some_inj] at htokens
    exact Nat.add_left_cancel (congrArg Token.line htokens)
  rw [String.append_assoc, String.append_assoc, analyze_append (happend hclosed'),
    analyze_append (happend hclosed), h, hnewlines]

/-- No comment makes a difference, whatever it holds: not before the end of its line, and
not at the end of the source. -/
theorem analyze_comment {source body : String} (hclosed : EndsClosed source)
    (hslash : source.toList.getLast? ≠ some '/') (hbody : '\n' ∉ body.toList)
    (rest : String) :
    analyze (source ++ "//" ++ body ++ "\n" ++ rest) = analyze (source ++ "\n" ++ rest) ∧
      analyze (source ++ "//" ++ body) = analyze source := by
  have hadded := analyze_append_comment hclosed hslash hbody
  exact ⟨analyze_append_feed_congr hclosed hadded rest, hadded⟩

/-- Behind a number that ends with a point, a comment that holds a quote and a fault. -/
theorem analyze_comment_quote :
    (EndsClosed "x = 1." ∧ "x = 1.".toList.getLast? ≠ some '/' ∧ '\n' ∉ " \"@ é/\r".toList) ∧
    analyze ("x = 1." ++ "//" ++ " \"@ é/\r" ++ "\n" ++ "#")
      = ⟨[⟨.identifier, "x", none, 1⟩, ⟨.symbol .equal, "=", none, 1⟩,
          ⟨.number, "1", some (.number (.ofBits 0x3FF0000000000000)), 1⟩,
          ⟨.symbol .dot, ".", none, 1⟩, .eof 2], [⟨.strayCharacter '#', 2⟩]⟩ := by
  have hclosed : EndsClosed "x = 1." := by
    unfold EndsClosed
    decide +kernel
  have hslash : "x = 1.".toList.getLast? ≠ some '/' := by decide
  have hbody : '\n' ∉ " \"@ é/\r".toList := by decide
  refine ⟨⟨hclosed, hslash, hbody⟩, ?_⟩
  rw [(analyze_comment hclosed hslash hbody "#").1]
  decide +kernel

/-! ## A string at the start of a line -/

theorem toList_quoted (body : String) :
    ("\"" ++ body ++ "\"").toList = (Piece.quoted body.toList).text := by
  simp [Piece.text, String.toList_append]

theorem newlines_quoted (body : List Char) :
    Text.newlines (Piece.quoted body).text = Text.newlines body := by
  show Text.newlines (['"'] ++ body ++ ['"']) = _
  rw [Text.newlines_append, Text.newlines_append]
  exact Nat.zero_add _

/-- A string by itself. -/
theorem analyze_quoted_text {body : String} (hbody : '"' ∉ body.toList) :
    analyze ("\"" ++ body ++ "\"")
      = ⟨[⟨.string, "\"" ++ body ++ "\"", some (.string body), 1⟩,
          .eof (1 + Text.newlines body.toList)], []⟩ := by
  have htext : String.ofList (Piece.quoted body.toList).text = "\"" ++ body ++ "\"" := by
    rw [← toList_quoted, String.ofList_toList]
  have h := analyze_text (p := .quoted body.toList) hbody
  rw [Piece.token?, htext, lineAt, newlines_quoted] at h
  rw [h, Piece.literal?, String.ofList_toList]
  rfl

/-- Nothing of what stands behind the closing quote belongs to the string. -/
theorem pieces_quoted_append {body : String} (hbody : '"' ∉ body.toList) (rest : String) :
    pieces ("\"" ++ body ++ "\"" ++ rest).toList
      = pieces ("\"" ++ body ++ "\"").toList ++ pieces rest.toList := by
  rw [String.toList_append, toList_quoted, pieces_text (p := .quoted body.toList) hbody]
  exact pieces_text_append (p := .quoted body.toList) hbody trivial

/-- A string has the value between its quotes; what stands before and behind it is
scanned by itself, the latter on the lines further down. -/
theorem analyze_quoted {source body : String} (hclosed : EndsClosed source)
    (hline : source = "" ∨ source.toList.getLast? = some '\n') (hbody : '"' ∉ body.toList)
    (rest : String) :
    let k := Text.newlines source.toList + Text.newlines body.toList
    analyze (source ++ "\"" ++ body ++ "\"" ++ rest)
      = ⟨(analyze source).tokens.dropLast
          ++ ⟨.string, "\"" ++ body ++ "\"", some (.string body),
              1 + Text.newlines source.toList⟩
            :: (analyze rest).tokens.map (Token.lower k),
        (analyze source).faults ++ (analyze rest).faults.map (Fault.lower k)⟩ := by
  intro k
  have hfront (t : String) :
      pieces (source ++ t).toList = pieces source.toList ++ pieces t.toList := by
    rw [String.toList_append]
    exact pieces_append (endsClosed_iff.mp hclosed) (hline.imp_left (congrArg _)) t.toList
  have hback : pieces (source ++ ("\"" ++ body ++ "\"") ++ rest).toList
      = pieces (source ++ ("\"" ++ body ++ "\"")).toList ++ pieces rest.toList := by
    rw [String.append_assoc, hfront, hfront, pieces_quoted_append hbody, List.append_assoc]
  have hk : Text.newlines (source ++ ("\"" ++ body ++ "\"")).toList = k := by
    rw [String.toList_append, Text.newlines_append, toList_quoted, newlines_quoted]
  have hassoc : source ++ "\"" ++ body ++ "\"" ++ rest
      = source ++ ("\"" ++ body ++ "\"") ++ rest := by
    simp only [String.append_assoc]
  rw [hassoc, analyze_append hback, hk, analyze_append (hfront _), analyze_quoted_text hbody]
  show Analysis.mk ((_ ++ [_, _]).dropLast ++ _) (_ ++ [] ++ _) = _
  rw [List.dropLast_append_of_ne_nil (List.cons_ne_nil _ _), List.append_assoc, List.append_nil]
  rfl

/-- A string over two lines, behind a comment with a quote and before an open one. -/
theorem analyze_quoted_lines :
    (EndsClosed "a // \"\n" ∧ "a // \"\n".toList.getLast? = some '\n' ∧
      '"' ∉ "// \\\r\né\x00".toList) ∧
    analyze ("a // \"\n" ++ "\"" ++ "// \\\r\né\x00" ++ "\"" ++ "b\n\"")
      = ⟨[⟨.identifier, "a", none, 1⟩,
          ⟨.string, "\"// \\\r\né\x00\"", some (.string "// \\\r\né\x00"), 2⟩,
          ⟨.identifier, "b", none, 3⟩, .eof 4], [⟨.unclosedString, 4⟩]⟩ := by
  have hclosed : EndsClosed "a // \"\n" := by
    unfold EndsClosed
    decide +kernel
  have hline : "a // \"\n".toList.getLast? = some '\n' := by decide
  have hbody : '"' ∉ "// \\\r\né\x00".toList := by decide
  refine ⟨⟨hclosed, hline, hbody⟩, ?_⟩
  rw [analyze_quoted hclosed (Or.inr hline) hbody "b\n\""]
  decide +kernel

end LoxLexis
