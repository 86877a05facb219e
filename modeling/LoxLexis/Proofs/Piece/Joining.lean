import LoxLexis.Proofs.Piece.Placement

/-!
# Joining texts

When two texts are put one after the other, the pieces of both are the pieces of the
whole if every piece of the first still stops where it did (`Tiles.append`). What was
found in the second text is then found again, further down by the line feeds of the
first (`found_lower`), and the results of the two scans are put together
(`analyze_append`).

Whether a piece stops is decided by the next character or two. A line feed there never
makes a piece longer, so most pieces that stop at one text stop at every text that
`StartsAlike`.
-/

namespace LoxLexis

/-! ## Lower down -/

/-- The same token, the given number of lines further down. -/
def Token.lower (k : Nat) (t : Token) : Token :=
  { t with line := t.line + k }

/-- The same fault, the given number of lines further down. -/
def Fault.lower (k : Nat) (f : Fault) : Fault :=
  { f with line := f.line + k }

theorem Piece.token?_add (line k : Nat) (p : Piece) :
    p.token? (line + k) = (p.token? line).map (Token.lower k) := by
  rw [map_token?]
  rfl

theorem Piece.fault?_add (line k : Nat) (p : Piece) :
    p.fault? (line + k) = (p.fault? line).map (Fault.lower k) := by
  cases p with
  | unclosed body =>
      simp only [fault?, Option.map_some, Fault.lower]
      rw [Nat.add_right_comm]
  | blank | comment | symbol | quoted | number | word | stray => rfl

/-- The text before the pieces counts only by its line feeds. -/
theorem found_lower {β : Type} {f : Nat → Piece → Option β} {g : β → β} {k : Nat}
    (hf : ∀ line p, f (line + k) p = (f line p).map g) {before before' : List Char}
    (hline : lineAt before' = lineAt before + k) (ps : List Piece) :
    found f before' ps = (found f before ps).map g := by
  induction ps generalizing before before' with
  | nil => rfl
  | cons p ps ih =>
      have hnext : lineAt (before' ++ p.text) = lineAt (before ++ p.text) + k := by
        rw [lineAt_append, lineAt_append, hline, Nat.add_right_comm]
      rw [found_cons, found_cons, hline, hf, ih hnext, List.map_append, Option.toList_map]

/-! ## Tilings one after the other -/

theorem Tiles.append {ps qs : List Piece} {s t : List Char} (hps : Tiles ps s)
    (hqs : Tiles qs t)
    (hstop : ∀ p ∈ ps, ∀ rest, p.StopsAt rest → p.StopsAt (rest ++ t)) :
    Tiles (ps ++ qs) (s ++ t) := by
  induction hps with
  | nil => exact hqs
  | @cons p ps rest hp hrest _ ih =>
      obtain ⟨hhead, htail⟩ := List.forall_mem_cons.mp hstop
      rw [List.cons_append, List.append_assoc]
      exact .cons hp (hhead rest hrest) (ih htail)

/-! ## Texts that are scanned apart -/

/-- If two texts fall into pieces apart, then what is found in them is put together, on the
lines that follow each other. -/
theorem analyze_append {a b : String}
    (h : pieces (a ++ b).toList = pieces a.toList ++ pieces b.toList) :
    let k := Text.newlines a.toList
    analyze (a ++ b)
      = ⟨(analyze a).tokens.dropLast ++ (analyze b).tokens.map (Token.lower k),
        (analyze a).faults ++ (analyze b).faults.map (Fault.lower k)⟩ := by
  intro k
  have hbehind : lineAt ([] ++ (pieces a.toList).flatMap Piece.text) = lineAt [] + k := by
    rw [lineAt_append, flatMap_text_pieces]
  have hend : lineAt (a ++ b).toList = lineAt b.toList + k := by
    rw [String.toList_append, lineAt_append, lineAt, lineAt, Nat.add_right_comm]
  rw [analyze_eq_found, h, found_append, found_append,
    found_lower (fun line p => p.token?_add line k) hbehind,
    found_lower (fun line p => p.fault?_add line k) hbehind, hend, analyze_eq_found a,
    analyze_eq_found b]
  show Analysis.mk _ _ = Analysis.mk _ _
  rw [List.dropLast_concat, List.map_append, List.append_assoc]
  rfl

/-! ## A line feed in place of something else -/

/-- The second text begins as the first does, or with a line feed; and if a point comes
first, so does the character behind the point. -/
structure StartsAlike (s t : List Char) : Prop where
  head : ∀ c ∈ t.head?, c ∈ s.head? ∨ c = '\n'
  point : ∀ d after, t = '.' :: d :: after → (∃ after', s = '.' :: d :: after') ∨ d = '\n'

/-- No piece goes on with a line feed but a comment, which ends there, and an open
quote. -/
theorem Piece.stopsAt_of_startsAlike {p : Piece} (hp : p.cause? ≠ some .unclosedString)
    {s t : List Char} (hst : StartsAlike s t) (hs : p.StopsAt s) : p.StopsAt t := by
  cases p with
  | comment body =>
      intro c hc
      rcases hst.head c hc with hc | rfl
      · exact hs c hc
      · rfl
  | symbol symbol =>
      intro c hc
      rcases hst.head c hc with hc | rfl
      · exact hs c hc
      · constructor <;> (intro h; exact absurd h (by decide))
  | number n =>
      constructor
      case head =>
        intro c hc
        rcases hst.head c hc with hc | rfl
        · exact hs.head c hc
        · decide
      case point =>
        intro d after hf ht
        rcases hst.point d after ht with ⟨after', h⟩ | rfl
        · exact hs.point d after' hf h
        · decide
  | word letters =>
      intro c hc
      rcases hst.head c hc with hc | rfl
      · exact hs c hc
      · decide
  | unclosed body => exact absurd rfl hp
  | blank | quoted | stray => trivial

theorem startsAlike_append_feed (s t : List Char) : StartsAlike s (s ++ '\n' :: t) := by
  match s with
  | [] => exact ⟨by simp, by simp⟩
  | [c] =>
      refine ⟨by simp, ?_⟩
      rintro d after ⟨⟩
      exact Or.inr rfl
  | c :: d :: s =>
      refine ⟨by simp, ?_⟩
      rintro d after ⟨⟩
      exact Or.inl ⟨s, rfl⟩

end LoxLexis
