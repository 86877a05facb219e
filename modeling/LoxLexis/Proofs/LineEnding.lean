import LoxLexis.Proofs.Piece.Joining
import LoxLexis.Proofs.Text.Line

/-!
# Line endings

A source may end its lines with a line feed alone or with a carriage return before it.
`unifyEndings` takes such carriage returns out. The tokens and the faults of a source do
not depend on them, save that strings hold what stands between their quotes; and neither
does the report on a fault.

What becomes of a carriage return depends on where it stands: between tokens it is a
piece of its own, in a comment it is the last character, in a string it is one of many.
`exists_unified` says for each sort of piece what stands in its place afterwards, and
the rest is an induction on the pieces.
-/

namespace LoxLexis

namespace Text

/-- Takes out every carriage return that stands before a line feed. -/
def unifyEndings : List Char → List Char
  | '\r' :: '\n' :: rest => '\n' :: unifyEndings rest
  | c :: rest => c :: unifyEndings rest
  | [] => []

variable {s t : List Char}

theorem unifyEndings_cons {c : Char} (h : c = '\r' → s.head? ≠ some '\n') :
    unifyEndings (c :: s) = c :: unifyEndings s := by
  rw [unifyEndings]
  rintro s rfl rfl
  exact h rfl rfl

theorem unifyEndings_feed (s : List Char) :
    unifyEndings ('\n' :: s) = '\n' :: unifyEndings s :=
  unifyEndings_cons fun h => absurd h (by decide)

theorem unifyEndings_return (h : s.head? = some '\n') :
    unifyEndings ('\r' :: s) = unifyEndings s := by
  obtain ⟨s, rfl⟩ := List.head?_eq_some_iff.mp h
  rw [unifyEndings, unifyEndings_feed]

theorem newlines_unifyEndings (s : List Char) : newlines (unifyEndings s) = newlines s := by
  fun_induction unifyEndings s with
  | case1 s ih =>
      show (_ :: _).count _ = (_ :: _ :: _).count _
      rw [List.count_cons_self, List.count_cons_of_ne (by decide), List.count_cons_self]
      exact congrArg (· + 1) ih
  | case2 c s _ ih =>
      show (_ :: _).count _ = (_ :: _).count _
      rw [List.count_cons, List.count_cons]
      exact congrArg (· + _) ih
  | case3 => rfl

theorem unifyEndings_sublist (s : List Char) : (unifyEndings s).Sublist s := by
  fun_induction unifyEndings s with
  | case1 s ih => exact (ih.cons_cons _).cons _
  | case2 c s _ ih => exact ih.cons_cons _
  | case3 => exact .slnil

/-- Two texts may be treated apart unless a line ending is split between them. -/
theorem unifyEndings_append (h : s.getLast? = some '\r' → t.head? ≠ some '\n') :
    unifyEndings (s ++ t) = unifyEndings s ++ unifyEndings t := by
  induction s with
  | nil => rfl
  | cons c s ih =>
      cases s with
      | nil =>
          rw [List.singleton_append, unifyEndings_cons (fun hc => h (by rw [hc]; rfl)),
            unifyEndings_cons (fun _ => by simp)]
          rfl
      | cons d s =>
          have htail := ih (by rwa [List.getLast?_cons_cons] at h)
          by_cases hsplit : c = '\r' ∧ d = '\n'
          · obtain ⟨rfl, rfl⟩ := hsplit
            rw [List.cons_append, unifyEndings_return rfl, unifyEndings_return rfl, htail]
          · have hd : c = '\r' → some d ≠ some '\n' :=
              fun hc heq => hsplit ⟨hc, Option.some.inj heq⟩
            rw [List.cons_append, unifyEndings_cons hd, unifyEndings_cons hd, htail,
              List.cons_append]

theorem unifyEndings_of_feed_not_mem (h : '\n' ∉ s) : unifyEndings s = s := by
  induction s with
  | nil => rfl
  | cons c s ih =>
      rw [List.mem_cons, not_or] at h
      rw [unifyEndings_cons, ih h.2]
      intro _ hhead
      exact h.2 (List.mem_of_head? hhead)

theorem unifyEndings_of_return_not_mem (h : '\r' ∉ s) : unifyEndings s = s := by
  induction s with
  | nil => rfl
  | cons c s ih =>
      rw [List.mem_cons, not_or] at h
      rw [unifyEndings_cons (fun hc => absurd hc.symm h.1), ih h.2]

/-- A line loses the carriage return at its end. -/
theorem unifyEndings_line (h : '\n' ∉ s) (t : List Char) :
    unifyEndings (s ++ '\n' :: t) = dropReturn s ++ unifyEndings ('\n' :: t) := by
  unfold dropReturn
  split
  · rename_i hlast
    obtain ⟨v, rfl⟩ := List.getLast?_eq_some_iff.mp hlast
    have hv : '\n' ∉ v := fun hmem => h (List.mem_append_left _ hmem)
    rw [List.append_assoc, unifyEndings_append (fun _ => by simp),
      unifyEndings_of_feed_not_mem hv, List.singleton_append, unifyEndings_return rfl,
      List.dropLast_concat]
  · rename_i hlast
    rw [unifyEndings_append (fun heq => absurd heq hlast), unifyEndings_of_feed_not_mem h]

example : unifyEndings "a\r\r\n\rb".toList = "a\r".toList ++ '\n' :: "\rb".toList := by decide

/-- What stays of a line before its end, or before the end of the text. -/
theorem exists_unifyEndings_line (hs : '\n' ∉ s) (ht : ∀ c ∈ t.head?, c = '\n') :
    ∃ s', '\n' ∉ s' ∧ unifyEndings (s ++ t) = s' ++ unifyEndings t := by
  cases t with
  | nil =>
      refine ⟨s, hs, ?_⟩
      rw [unifyEndings, List.append_nil, unifyEndings_of_feed_not_mem hs]
  | cons c t =>
      obtain rfl := ht c rfl
      exact ⟨dropReturn s, feed_not_mem_dropReturn hs, unifyEndings_line hs t⟩

theorem unifyEndings_cons_cases (c : Char) (s : List Char) :
    (∃ s', s = '\n' :: s' ∧ unifyEndings (c :: s) = '\n' :: unifyEndings s') ∨
      unifyEndings (c :: s) = c :: unifyEndings s := by
  by_cases hsplit : c = '\r' ∧ s.head? = some '\n'
  · obtain ⟨rfl, hs⟩ := hsplit
    obtain ⟨s', rfl⟩ := List.head?_eq_some_iff.mp hs
    exact Or.inl ⟨s', rfl, by rw [unifyEndings_return hs, unifyEndings_feed]⟩
  · exact Or.inr (unifyEndings_cons fun hc hs => hsplit ⟨hc, hs⟩)

theorem startsAlike_unifyEndings (s : List Char) : StartsAlike s (unifyEndings s) := by
  have hhead : ∀ s : List Char, ∀ c ∈ (unifyEndings s).head?, c ∈ s.head? ∨ c = '\n' := by
    rintro (_ | ⟨d, s⟩) c hc
    · exact Or.inl hc
    · rcases unifyEndings_cons_cases d s with ⟨s', -, h⟩ | h
      · rw [h] at hc
        exact Or.inr (Option.some.inj hc).symm
      · rw [h] at hc
        exact Or.inl hc
  refine ⟨hhead s, ?_⟩
  intro d after hpoint
  cases s with
  | nil => cases hpoint
  | cons c s =>
      rcases unifyEndings_cons_cases c s with ⟨s', -, h⟩ | h
      · rw [h] at hpoint
        exact absurd (List.cons.inj hpoint).1 (by decide)
      · rw [h] at hpoint
        obtain ⟨rfl, htail⟩ := List.cons.inj hpoint
        have hd : d ∈ (unifyEndings s).head? := by rw [htail]; rfl
        rcases hhead s d hd with hd | rfl
        · obtain ⟨after', rfl⟩ := List.head?_eq_some_iff.mp hd
          exact Or.inl ⟨after', rfl⟩
        · exact Or.inr rfl

end Text

/-! ## Tokens and pieces -/

def Literal.unifyEndings : Literal → Literal
  | string s => string (String.ofList (Text.unifyEndings s.toList))
  | number x => number x

/-- The token with the line endings of its spelling unified, and of its value if that is
a text. -/
def Token.unifyEndings (t : Token) : Token :=
  { t with
    lexeme := String.ofList (Text.unifyEndings t.lexeme.toList)
    literal := t.literal.map Literal.unifyEndings }

namespace Piece

/-- The second piece may stand in place of the first. -/
structure Unified (p q : Piece) : Prop where
  sound : q.Sound
  newlines : q.newlines = p.newlines
  token? : ∀ line, q.token? line = (p.token? line).map Token.unifyEndings
  fault? : ∀ line, q.fault? line = p.fault? line

theorem unified_self {p : Piece} (hp : p.Sound)
    (htext : Text.unifyEndings p.text = p.text) (hquoted : ∀ body, p ≠ quoted body) :
    p.Unified p where
  sound := hp
  newlines := rfl
  fault? := fun _ => rfl
  token? := by
    intro line
    have hlexeme : String.ofList (Text.unifyEndings (String.ofList p.text).toList)
        = String.ofList p.text := by
      rw [String.toList_ofList, htext]
    have hliteral : p.literal?.map Literal.unifyEndings = p.literal? := by
      cases p with
      | quoted body => exact absurd rfl (hquoted body)
      | blank | comment | symbol | number | word | stray | unclosed => rfl
    rw [map_token?, Piece.token?]
    congr 1
    ext kind : 1
    rw [Token.unifyEndings, hlexeme, hliteral]

theorem unified_comment {body body' : List Char} (h : '\n' ∉ body) (h' : '\n' ∉ body') :
    (comment body).Unified (comment body') where
  sound := h'
  newlines := by
    have hcount : ∀ w : List Char, '\n' ∉ w → (comment w).newlines = 0 := by
      intro w hw
      apply List.count_eq_zero_of_not_mem
      simp [text, hw]
    rw [hcount body h, hcount body' h']
  token? := fun _ => rfl
  fault? := fun _ => rfl

theorem text_quoted_unifyEndings (body : List Char) :
    (quoted (Text.unifyEndings body)).text = Text.unifyEndings (quoted body).text := by
  show _ = Text.unifyEndings ('"' :: (body ++ ['"']))
  rw [Text.unifyEndings_cons (fun h => absurd h (by decide)),
    Text.unifyEndings_append (fun _ => by simp)]
  rfl

theorem unified_quoted {body : List Char} (h : '"' ∉ body) :
    (quoted body).Unified (quoted (Text.unifyEndings body)) where
  sound := fun hmem => h ((Text.unifyEndings_sublist body).mem hmem)
  newlines := by
    rw [newlines, text_quoted_unifyEndings, Text.newlines_unifyEndings]
    rfl
  token? := by
    intro line
    rw [map_token?, Piece.token?, text_quoted_unifyEndings]
    simp [kind?, literal?, Token.unifyEndings, Literal.unifyEndings]
  fault? := fun _ => rfl

theorem text_unclosed_unifyEndings (body : List Char) :
    (unclosed (Text.unifyEndings body)).text = Text.unifyEndings (unclosed body).text :=
  (Text.unifyEndings_cons fun h => absurd h (by decide)).symm

theorem unified_unclosed {body : List Char} (h : '"' ∉ body) :
    (unclosed body).Unified (unclosed (Text.unifyEndings body)) := by
  have hnewlines : (unclosed (Text.unifyEndings body)).newlines = (unclosed body).newlines := by
    rw [newlines, text_unclosed_unifyEndings, Text.newlines_unifyEndings]
    rfl
  refine ⟨fun hmem => h ((Text.unifyEndings_sublist body).mem hmem), hnewlines, fun _ => rfl, ?_⟩
  intro line
  rw [fault?, hnewlines, fault?]

/-- What stands in the place of a piece, unless that is a carriage return which belongs to
the line feed after it. -/
theorem exists_unified {p : Piece} (hp : p.Sound) {rest : List Char} (hstop : p.StopsAt rest)
    (hsplit : p = blank '\r' → rest.head? ≠ some '\n') :
    ∃ q, p.Unified q ∧ q.StopsAt (Text.unifyEndings rest) ∧
      Text.unifyEndings (p.text ++ rest) = q.text ++ Text.unifyEndings rest := by
  have halike := Text.startsAlike_unifyEndings rest
  by_cases hbody : (∃ body, p = comment body) ∨ (∃ body, p = quoted body) ∨
      ∃ body, p = unclosed body
  · rcases hbody with ⟨body, rfl⟩ | ⟨body, rfl⟩ | ⟨body, rfl⟩
    · obtain ⟨body', hbody', htext⟩ := Text.exists_unifyEndings_line hp hstop
      refine ⟨comment body', unified_comment hp hbody', ?_, ?_⟩
      · exact stopsAt_of_startsAlike (p := comment body') (by simp [cause?]) halike hstop
      · show Text.unifyEndings ('/' :: '/' :: (body ++ rest)) = _
        rw [Text.unifyEndings_cons (fun h => absurd h (by decide)),
          Text.unifyEndings_cons (fun h => absurd h (by decide)), htext]
        rfl
    · refine ⟨quoted (Text.unifyEndings body), unified_quoted hp, trivial, ?_⟩
      rw [text_quoted_unifyEndings]
      apply Text.unifyEndings_append
      intro hlast
      rw [text, List.getLast?_concat] at hlast
      cases hlast
    · obtain rfl : rest = [] := hstop
      refine ⟨unclosed (Text.unifyEndings body), unified_unclosed hp, rfl, ?_⟩
      rw [text_unclosed_unifyEndings, Text.unifyEndings, List.append_nil, List.append_nil]
  · -- no other piece holds a carriage return, unless it is one
    have hreturn : '\r' ∈ p.text → p = blank '\r' :=
      fun h => (eq_of_isBlank_mem_text hp rfl h).resolve_right hbody
    have htext : Text.unifyEndings p.text = p.text := by
      by_cases h : '\r' ∈ p.text
      · rw [hreturn h]
        rfl
      · exact Text.unifyEndings_of_return_not_mem h
    have hquoted : ∀ body, p ≠ quoted body :=
      fun body h => hbody (Or.inr (Or.inl ⟨body, h⟩))
    have hcause : p.cause? ≠ some .unclosedString :=
      fun h => hbody (Or.inr (Or.inr (cause?_eq_unclosedString_iff.mp h)))
    refine ⟨p, unified_self hp htext hquoted, stopsAt_of_startsAlike hcause halike hstop, ?_⟩
    rw [Text.unifyEndings_append, htext]
    exact fun hlast => hsplit (hreturn (List.mem_of_getLast? hlast))

end Piece

/-- The pieces of a source with its line endings unified. -/
theorem exists_tiles_unifyEndings {ps : List Piece} {s : List Char} (h : Tiles ps s) :
    ∃ qs, Tiles qs (Text.unifyEndings s) ∧
      ∀ before before', lineAt before' = lineAt before →
        found Piece.token? before' qs
          = (found Piece.token? before ps).map Token.unifyEndings ∧
        found Piece.fault? before' qs = found Piece.fault? before ps := by
  induction h with
  | nil => exact ⟨[], .nil, fun _ _ _ => ⟨rfl, rfl⟩⟩
  | @cons p ps rest hp hstop _ ih =>
      obtain ⟨qs, hqs, hfound⟩ := ih
      by_cases hsplit : p = .blank '\r' ∧ rest.head? = some '\n'
      · -- the carriage return goes, and the line feed after it stays
        obtain ⟨rfl, hfeed⟩ := hsplit
        refine ⟨qs, ?_, ?_⟩
        · show Tiles qs (Text.unifyEndings ('\r' :: rest))
          rwa [Text.unifyEndings_return hfeed]
        · intro before before' hline
          have hnext : lineAt before' = lineAt (before ++ ['\r']) := by
            rw [lineAt_append, hline]
            rfl
          exact hfound _ _ hnext
      · obtain ⟨q, hq, hqstop, htext⟩ :=
          Piece.exists_unified hp hstop fun hblank hfeed => hsplit ⟨hblank, hfeed⟩
        refine ⟨q :: qs, htext ▸ .cons hq.sound hqstop hqs, ?_⟩
        intro before before' hline
        have hnext : lineAt (before' ++ q.text) = lineAt (before ++ p.text) := by
          rw [lineAt_append, lineAt_append, hline]
          exact congrArg _ hq.newlines
        obtain ⟨htokens, hfaults⟩ := hfound _ _ hnext
        constructor
        · rw [found_cons, found_cons, hline, hq.token?, htokens, List.map_append,
            Option.toList_map]
        · rw [found_cons, found_cons, hline, hq.fault?, hfaults]

/-! ## Source lines -/

namespace Text

/-- Trimming hides what became of the end of a line. -/
theorem trim_lineAfter?_unifyEndings (k : Nat) (s : List Char) :
    (lineAfter? k (unifyEndings s)).map trim = (lineAfter? k s).map trim := by
  induction k generalizing s with
  | zero =>
      rcases eq_line_or_append s with h | ⟨line, rest, hline, rfl⟩
      · rw [unifyEndings_of_feed_not_mem h]
      · rw [unifyEndings_line hline, unifyEndings_feed, lineAfter?, lineAfter?,
          firstLine_line_append (feed_not_mem_dropReturn hline), firstLine_line_append hline,
          Option.map_some, Option.map_some, trim_dropReturn]
  | succ k ih =>
      rcases eq_line_or_append s with h | ⟨line, rest, hline, rfl⟩
      · rw [unifyEndings_of_feed_not_mem h]
      · rw [unifyEndings_line hline, unifyEndings_feed, lineAfter?, lineAfter?,
          afterFirstLine?_line_append (feed_not_mem_dropReturn hline),
          afterFirstLine?_line_append hline]
        exact ih rest

theorem trim_line?_unifyEndings (s : List Char) (n : Nat) :
    (line? (unifyEndings s) n).map trim = (line? s n).map trim := by
  have hdrop : trim ∘ dropReturn = trim := funext trim_dropReturn
  cases n with
  | zero => rfl
  | succ k =>
      rw [line?, line?, Option.map_map, Option.map_map, hdrop, trim_lineAfter?_unifyEndings]

end Text

/-! ## Sources -/

/-- The source with every carriage return before a line feed taken out. -/
def unifyEndings (source : String) : String :=
  String.ofList (Text.unifyEndings source.toList)

theorem Fault.report_unifyEndings (f : Fault) (source file : String) :
    f.report (unifyEndings source) file = f.report source file := by
  have hexcerpt : ∀ line : Option (List Char), line.map f.excerpt
      = (line.map Text.trim).map fun shown =>
          String.ofList f.lineNumber ++ " | " ++ String.ofList shown := by
    intro line
    rw [Option.map_map]
    rfl
  simp only [report, reportLines, hexcerpt, unifyEndings, String.toList_ofList,
    Text.trim_line?_unifyEndings]

/-- Tokens, faults and reports do not depend on how a source ends its lines. -/
theorem analyze_unifyEndings (source : String) :
    (analyze (unifyEndings source)).tokens
      = (analyze source).tokens.map Token.unifyEndings ∧
    (analyze (unifyEndings source)).faults = (analyze source).faults ∧
    ∀ (f : Fault) (file : String),
      f.report (unifyEndings source) file = f.report source file := by
  obtain ⟨qs, hqs, hfound⟩ := exists_tiles_unifyEndings (tiles_pieces source.toList)
  obtain ⟨htokens, hfaults⟩ := hfound [] [] rfl
  have htext : (unifyEndings source).toList = Text.unifyEndings source.toList :=
    String.toList_ofList
  have hend : lineAt (unifyEndings source).toList = lineAt source.toList := by
    rw [htext, lineAt, Text.newlines_unifyEndings, lineAt]
  rw [← htext] at hqs
  rw [analyze_of_tiles hqs, analyze_eq_found source, htokens, hfaults, hend]
  refine ⟨?_, rfl, fun f file => f.report_unifyEndings source file⟩
  rw [List.map_append]
  rfl

end LoxLexis
