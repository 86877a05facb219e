import LoxLexis.Proofs.Piece.Placement

/-!
# Line numbers

A scan keeps a running line number. Here is what the number comes to at
each token and fault: one more than the line feeds of the source before the first
character, or before the end of the source for an open quote and for the end token.
So the lines never go down.
-/

namespace LoxLexis

theorem lineAt_mono (s t : List Char) : lineAt s ≤ lineAt (s ++ t) := by
  rw [lineAt_append]
  exact Nat.le_add_right _ _

/-- What is beside a piece is the text of the source before it. -/
theorem prefix_of_mem_placed {before b : List Char} {ps : List Piece} {p : Piece}
    (h : (b, p) ∈ placed before ps) : b ++ p.text <+: before ++ ps.flatMap Piece.text := by
  induction ps generalizing before with
  | nil => simp [placed] at h
  | cons q ps ih =>
      rw [List.flatMap_cons, ← List.append_assoc]
      rcases List.mem_cons.mp h with heq | hmem
      · obtain ⟨rfl, rfl⟩ := Prod.mk.inj heq
        exact List.prefix_append _ _
      · exact ih hmem

/-! ## Lines never go down -/

section Sorted

variable {β : Type} {f : Nat → Piece → Option β} {line : β → Nat}
  (hf : ∀ l p b, f l p = some b → l ≤ line b ∧ line b ≤ l + p.newlines)

include hf

theorem le_line_of_mem_found {before : List Char} {ps : List Piece} {b : β}
    (hb : b ∈ found f before ps) : lineAt before ≤ line b := by
  induction ps generalizing before with
  | nil => simp at hb
  | cons p ps ih =>
      rw [found_cons, List.mem_append, Option.mem_toList] at hb
      rcases hb with hb | hb
      · exact (hf _ _ _ hb).1
      · exact Nat.le_trans (lineAt_mono before p.text) (ih hb)

theorem line_le_of_mem_found {before : List Char} {ps : List Piece} {b : β}
    (hb : b ∈ found f before ps) :
    line b ≤ lineAt (before ++ ps.flatMap Piece.text) := by
  induction ps generalizing before with
  | nil => simp at hb
  | cons p ps ih =>
      rw [found_cons, List.mem_append, Option.mem_toList] at hb
      rw [List.flatMap_cons, ← List.append_assoc]
      rcases hb with hb | hb
      · have hle := (hf _ _ _ hb).2
        rw [Piece.newlines, ← lineAt_append] at hle
        exact Nat.le_trans hle (lineAt_mono _ _)
      · exact ih hb

theorem pairwise_found (before : List Char) (ps : List Piece) :
    (found f before ps).Pairwise (fun a b => line a ≤ line b) := by
  induction ps generalizing before with
  | nil => exact List.Pairwise.nil
  | cons p ps ih =>
      rw [found_cons, List.pairwise_append]
      refine ⟨?_, ih _, ?_⟩
      · cases f (lineAt before) p <;> simp
      · intro a ha b hb
        have hle := (hf _ _ _ (Option.mem_toList.mp ha)).2
        rw [Piece.newlines, ← lineAt_append] at hle
        exact Nat.le_trans hle (le_line_of_mem_found hf hb)

end Sorted

namespace Piece

theorem line_bounds_token? (l : Nat) (p : Piece) (t : Token) (h : p.token? l = some t) :
    l ≤ t.line ∧ t.line ≤ l + p.newlines := by
  obtain ⟨kind, -, rfl⟩ := Option.map_eq_some_iff.mp h
  exact ⟨Nat.le_refl _, Nat.le_add_right _ _⟩

theorem line_bounds_fault? (l : Nat) (p : Piece) (t : Fault) (h : p.fault? l = some t) :
    l ≤ t.line ∧ t.line ≤ l + p.newlines := by
  cases p with
  | stray c =>
      obtain rfl := Option.some.inj h
      exact ⟨Nat.le_refl _, Nat.le_add_right _ _⟩
  | unclosed body =>
      obtain rfl := Option.some.inj h
      exact ⟨Nat.le_add_right _ _, Nat.le_refl _⟩
  | blank | comment | symbol | quoted | number | word => simp [fault?] at h

end Piece

/-! ## The line of an open quote -/

/-- The line of a fault of the given cause, between the text before it and the whole
source. -/
def Cause.lineIn (before source : List Char) : Cause → Nat
  | .strayCharacter _ => 1 + Text.newlines before
  | .unclosedString => 1 + Text.newlines source

/-- An open quote takes in all that is left, so its line is that of the end. -/
theorem found_fault?_of_tiles {ps : List Piece} {s : List Char} (h : Tiles ps s)
    (before : List Char) :
    found Piece.fault? before ps
      = (placed before ps).filterMap fun (b, p) =>
          p.cause?.map fun cause => ⟨cause, cause.lineIn b (before ++ s)⟩ := by
  induction h generalizing before with
  | nil => rfl
  | @cons p ps rest hp hstop hps ih =>
      have hhead : p.fault? (lineAt before)
          = p.cause?.map fun cause =>
              ⟨cause, cause.lineIn before (before ++ (p.text ++ rest))⟩ := by
        cases p with
        | unclosed body =>
            -- nothing follows, so the source ends where the open quote does
            obtain rfl : rest = [] := hstop
            rw [List.append_nil]
            show some (Fault.mk _ (lineAt before + Text.newlines _)) = some (Fault.mk _ (lineAt _))
            rw [lineAt_append]
        | stray | blank | comment | symbol | quoted | number | word => rfl
      rw [found_cons, hhead, ih, placed, List.filterMap_cons, List.append_assoc]
      cases hc : p.cause? <;> simp [hc]

/-! ## The lines of a source -/

/-- Every token stands on the line of its first character, every stray character on
its own line, and an open quote and the end on the last line. -/
theorem analyze_lines (source : String) :
    (∀ before p, (before, p) ∈ placed [] (pieces source.toList) →
      before ++ p.text <+: source.toList) ∧
    (analyze source).tokens.map (fun t => (t.kind, t.lexeme, t.line))
      = (placed [] (pieces source.toList)).filterMap
          (fun (before, p) => p.kind?.map fun kind =>
            (kind, String.ofList p.text, 1 + Text.newlines before))
        ++ [(.eof, "", 1 + Text.newlines source.toList)] ∧
    (analyze source).faults
      = (placed [] (pieces source.toList)).filterMap
          (fun (before, p) => p.cause?.map fun cause =>
            ⟨cause, cause.lineIn before source.toList⟩) ∧
    (analyze source).tokens.Pairwise (fun a b => a.line ≤ b.line) ∧
    (analyze source).faults.Pairwise (fun a b => a.line ≤ b.line) := by
  have htiles := tiles_pieces source.toList
  have htext : [] ++ (pieces source.toList).flatMap Piece.text = source.toList :=
    htiles.flatMap_text
  rw [analyze_eq_found]
  refine ⟨?_, ?_, found_fault?_of_tiles htiles [], ?_,
    pairwise_found Piece.line_bounds_fault? [] _⟩
  · intro before p hmem
    exact htext ▸ prefix_of_mem_placed hmem
  · rw [List.map_append, found, List.map_filterMap]
    congr 1
    congr 1
    ext ⟨b, p⟩ : 1
    exact p.map_token? _ _
  · rw [List.pairwise_append]
    refine ⟨pairwise_found Piece.line_bounds_token? [] _, List.pairwise_singleton _ _, ?_⟩
    intro a ha b hb
    obtain rfl := List.mem_singleton.mp hb
    have hle := line_le_of_mem_found Piece.line_bounds_token? ha
    rwa [htext] at hle

end LoxLexis
