import LoxLexis.Proofs.LineNumber
import LoxLexis.Proofs.Piece.Joining
import LoxLexis.Proofs.Text.Line

/-!
# Scanning line by line

A line feed ends every piece but an open string. So a source may be cut at a line feed
where no string is open, the two parts scanned by themselves, and the results put
together, with the lines of the second part counted on from the first. Nothing but the
line number passes from the one part to the other.

If no line leaves a string open, then the source may be cut at every line feed
(`pieces_splitAfter`), and each fault of a line is found again in the source, on the line
of that number (`found_fault?_splitAfter`).
-/

namespace LoxLexis

/-- No string is open at the end of the text. -/
def EndsClosed (source : String) : Prop :=
  ∀ f ∈ (analyze source).faults, f.cause ≠ .unclosedString

/-- No piece is an open quote. -/
def Closed (s : List Char) : Prop :=
  ∀ p ∈ pieces s, p.cause? ≠ some .unclosedString

theorem endsClosed_iff {source : String} : EndsClosed source ↔ Closed source.toList := by
  have hcauses : EndsClosed source ↔
      ∀ cause ∈ (analyze source).faults.map Fault.cause, cause ≠ .unclosedString := by
    rw [List.forall_mem_map]
    rfl
  rw [hcauses, map_cause_faults, List.forall_mem_filterMap]
  constructor
  · intro h p hp hcause
    exact h p hp _ hcause rfl
  · rintro h p hp _ hcause rfl
    exact h p hp hcause

/-- The pieces of two texts with a line feed between them. -/
theorem tiles_append_feed {a : String} (h : EndsClosed a) (b : String) :
    Tiles (pieces a.toList ++ .blank '\n' :: pieces b.toList) (a ++ "\n" ++ b).toList := by
  have hfeed : Tiles (.blank '\n' :: pieces b.toList) ('\n' :: b.toList) :=
    .cons (p := .blank '\n') rfl trivial (tiles_pieces b.toList)
  have htiles := (tiles_pieces a.toList).append hfeed fun p hp rest hrest =>
    Piece.stopsAt_of_startsAlike (endsClosed_iff.mp h p hp)
      (startsAlike_append_feed rest b.toList) hrest
  simpa [String.toList_append] using htiles

/-- What is found in two texts with a line feed between them. -/
theorem found_append_feed {β : Type} {f : Nat → Piece → Option β} {g : Nat → β → β}
    (hf : ∀ line k p, f (line + k) p = (f line p).map (g k))
    (hfeed : ∀ line, f line (.blank '\n') = none) (a b : List Char) :
    found f [] (pieces a ++ .blank '\n' :: pieces b)
      = found f [] (pieces a) ++ (found f [] (pieces b)).map (g (1 + Text.newlines a)) := by
  have hline : lineAt (a ++ ['\n']) = lineAt [] + (1 + Text.newlines a) := by
    rw [lineAt_append]
    simp [lineAt, Text.newlines, Nat.add_comm]
  rw [found_append, found_cons, hfeed, flatMap_text_pieces, List.nil_append,
    ← found_lower (fun line p => hf line _ p) hline]
  rfl

/-- Where no string is open, a scan may stop at a line feed and start again behind it. -/
theorem analyze_append_feed (a b : String) (h : EndsClosed a) :
    let k := 1 + Text.newlines a.toList
    (analyze (a ++ "\n" ++ b)).tokens
      = (analyze a).tokens.dropLast ++ (analyze b).tokens.map (Token.lower k) ∧
    (analyze (a ++ "\n" ++ b)).faults
      = (analyze a).faults ++ (analyze b).faults.map (Fault.lower k) := by
  intro k
  have hend : lineAt (a ++ "\n" ++ b).toList = lineAt b.toList + k := by
    rw [String.toList_append, String.toList_append, lineAt, lineAt, Text.newlines_append,
      Text.newlines_append, show Text.newlines "\n".toList = 1 from rfl]
    omega
  rw [analyze_of_tiles (tiles_append_feed h b), analyze_eq_found a, analyze_eq_found b,
    found_append_feed (fun line k p => p.token?_add line k) (fun _ => rfl),
    found_append_feed (fun line k p => p.fault?_add line k) (fun _ => rfl), hend]
  refine ⟨?_, rfl⟩
  rw [List.dropLast_concat, List.map_append, List.append_assoc]
  rfl

theorem analyze_append_feed_comment :
    EndsClosed "1. // \"\r" ∧
    (analyze ("1. // \"\r" ++ "\n" ++ "@ y")).tokens.map (fun t => (t.lexeme, t.line))
      = [("1", 1), (".", 1), ("y", 2), ("", 2)] ∧
    (analyze ("1. // \"\r" ++ "\n" ++ "@ y")).faults = [⟨.strayCharacter '@', 2⟩] := by
  have hclosed : EndsClosed "1. // \"\r" := by
    unfold EndsClosed
    decide +kernel
  obtain ⟨htokens, hfaults⟩ := analyze_append_feed "1. // \"\r" "@ y" hclosed
  rw [htokens, hfaults]
  exact ⟨hclosed, by decide +kernel, by decide +kernel⟩

/-! ## All lines of a text -/

/-- An open quote takes in the line feed behind it. -/
theorem Tiles.exists_unclosed_append_feed {ps : List Piece} {s : List Char} (h : Tiles ps s)
    (hopen : ∃ p ∈ ps, p.cause? = some .unclosedString) :
    ∃ qs, Tiles qs (s ++ ['\n']) ∧ ∃ q ∈ qs, q.cause? = some .unclosedString := by
  induction h with
  | nil => simp at hopen
  | @cons p ps rest hp hstop hps ih =>
      by_cases hcause : p.cause? = some .unclosedString
      · obtain ⟨body, rfl⟩ := Piece.cause?_eq_unclosedString_iff.mp hcause
        obtain rfl : rest = [] := hstop
        have hsound : (Piece.unclosed (body ++ ['\n'])).Sound := by
          rw [Piece.Sound, List.mem_append, not_or]
          exact ⟨hp, by decide⟩
        refine ⟨[.unclosed (body ++ ['\n'])], ?_, _, List.mem_singleton_self _, rfl⟩
        simpa [Piece.text] using Tiles.cons hsound (Piece.stopsAt_nil _) .nil
      · have hrest : ∃ q ∈ ps, q.cause? = some .unclosedString := by
          obtain ⟨q, hq, hqopen⟩ := hopen
          rcases List.mem_cons.mp hq with rfl | hq
          · exact absurd hqopen hcause
          · exact ⟨q, hq, hqopen⟩
        obtain ⟨qs, hqs, q, hq, hqopen⟩ := ih hrest
        have hstop' : p.StopsAt (rest ++ ['\n']) :=
          Piece.stopsAt_of_startsAlike hcause (startsAlike_append_feed rest []) hstop
        refine ⟨p :: qs, ?_, q, List.mem_cons_of_mem p hq, hqopen⟩
        rw [List.append_assoc]
        exact .cons hp hstop' hqs

theorem Closed.of_append_feed {s : List Char} (h : Closed (s ++ ['\n'])) : Closed s := by
  intro p hp hcause
  obtain ⟨qs, hqs, q, hq, hqopen⟩ := (tiles_pieces s).exists_unclosed_append_feed ⟨p, hp, hcause⟩
  rw [Closed, hqs.pieces_eq] at h
  exact h q hq hqopen

theorem pieces_append_feed {s : List Char} (h : Closed s) (t : List Char) :
    pieces (s ++ '\n' :: t) = pieces s ++ .blank '\n' :: pieces t := by
  have hclosed : EndsClosed (String.ofList s) := by
    rwa [endsClosed_iff, String.toList_ofList]
  have htiles := tiles_append_feed hclosed (String.ofList t)
  apply Tiles.pieces_eq
  simpa [String.toList_append] using htiles

theorem pieces_line_append {line : List Char} (h : Closed (line ++ ['\n']))
    (rest : List Char) :
    pieces (line ++ '\n' :: rest) = pieces (line ++ ['\n']) ++ pieces rest := by
  rw [pieces_append_feed h.of_append_feed, pieces_append_feed h.of_append_feed, pieces_nil,
    List.append_assoc]
  rfl

/-- A text in which no string is open, and what stands behind a line feed. -/
theorem pieces_feed_append {s : List Char} (hclosed : Closed s) (rest : List Char) :
    pieces (s ++ '\n' :: rest) = pieces s ++ pieces ('\n' :: rest) := by
  have hnil : Closed [] := by
    simp [Closed]
  have hfeed := pieces_append_feed hnil rest
  rw [pieces_nil, List.nil_append, List.nil_append] at hfeed
  rw [pieces_append_feed hclosed, hfeed]

/-- A text that ends its last line, with any other behind it. -/
theorem pieces_append {s : List Char} (hclosed : Closed s)
    (hline : s = [] ∨ s.getLast? = some '\n') (rest : List Char) :
    pieces (s ++ rest) = pieces s ++ pieces rest := by
  rcases hline with rfl | hlast
  · rw [pieces_nil]
    rfl
  · obtain ⟨v, rfl⟩ := List.getLast?_eq_some_iff.mp hlast
    rw [List.append_assoc]
    exact pieces_line_append hclosed rest

/-- The pieces of a source are those of its lines. -/
theorem pieces_splitAfter {s : List Char}
    (h : ∀ line ∈ Text.splitAfter '\n' s, Closed line) :
    pieces s = (Text.splitAfter '\n' s).flatMap pieces := by
  induction s using Text.lines_induction with
  | last line hline =>
      rw [Text.splitAfter_line hline]
      split
      · rename_i hnil
        rw [hnil, pieces_nil]
        rfl
      · rw [List.flatMap_singleton]
  | feed line rest hline ih =>
      rw [Text.splitAfter_line_append hline] at h ⊢
      obtain ⟨hhead, htail⟩ := List.forall_mem_cons.mp h
      rw [pieces_line_append hhead, ih htail, List.flatMap_cons]

/-- All faults of a line are on one line, although its line feed is scanned with it. -/
theorem line_of_mem_found_line {s line before : List Char}
    (hline : line ∈ Text.splitAfter '\n' s) (hclosed : Closed line) {f : Fault}
    (hf : f ∈ found Piece.fault? before (pieces line)) : f.line = lineAt before := by
  have hfree {front : List Char} (hfront : '\n' ∉ front)
      (hf : f ∈ found Piece.fault? before (pieces front)) : f.line = lineAt before := by
    have hle := line_le_of_mem_found Piece.line_bounds_fault? hf
    rw [flatMap_text_pieces, lineAt_append, Text.newlines_line hfront] at hle
    exact Nat.le_antisymm hle (le_line_of_mem_found Piece.line_bounds_fault? hf)
  obtain ⟨front, hfront, rfl | rfl⟩ := Text.eq_line_of_mem_splitAfter hline
  · exact hfree hfront hf
  · rw [pieces_append_feed hclosed.of_append_feed, found_append, List.mem_append] at hf
    rcases hf with hf | hf
    · exact hfree hfront hf
    · simp [found_cons, pieces_nil, Piece.fault?] at hf

/-- Faults on one line are what they are by their causes. -/
theorem found_fault?_eq_map_cause {before : List Char} {ps : List Piece} {i : Nat}
    (h : ∀ f ∈ found Piece.fault? before ps, f.line = i) :
    found Piece.fault? before ps = (ps.filterMap Piece.cause?).map (⟨·, i⟩) := by
  rw [← map_found Piece.fault? Piece.map_cause_fault? before, List.map_map]
  conv => lhs; rw [← List.map_id (found Piece.fault? before ps)]
  refine List.map_congr_left fun f hf => ?_
  rw [Function.comp_apply, ← h f hf]
  rfl

/-- The faults of a source are those of its lines, each on the line of its own number. -/
theorem found_fault?_splitAfter {s : List Char}
    (h : ∀ line ∈ Text.splitAfter '\n' s, Closed line) (before : List Char) :
    found Piece.fault? before (pieces s)
      = ((Text.splitAfter '\n' s).zipIdx (lineAt before)).flatMap fun (line, i) =>
          ((pieces line).filterMap Piece.cause?).map (⟨·, i⟩) := by
  induction s using Text.lines_induction generalizing before with
  | last line hline =>
      have hsplit := Text.splitAfter_line hline
      split at hsplit
      · rename_i hnil
        rw [hsplit, hnil, pieces_nil]
        rfl
      · have hmem : line ∈ Text.splitAfter '\n' line := hsplit ▸ List.mem_singleton_self line
        rw [found_fault?_eq_map_cause fun f hf => line_of_mem_found_line hmem (h _ hmem) hf,
          hsplit]
        exact (List.flatMap_singleton ..).symm
  | feed line rest hline ih =>
      have hsplit := Text.splitAfter_line_append hline rest
      have hmem : line ++ ['\n'] ∈ Text.splitAfter '\n' (line ++ '\n' :: rest) :=
        hsplit ▸ List.mem_cons_self
      have hnext : lineAt (before ++ (line ++ ['\n'])) = lineAt before + 1 := by
        rw [lineAt_append, Text.newlines_line_append hline]
        rfl
      rw [pieces_line_append (h _ hmem), found_append, flatMap_text_pieces,
        found_fault?_eq_map_cause fun f hf => line_of_mem_found_line hmem (h _ hmem) hf]
      rw [hsplit] at h ⊢
      rw [ih (List.forall_mem_cons.mp h).2, hnext, List.zipIdx_cons, List.flatMap_cons]

end LoxLexis
