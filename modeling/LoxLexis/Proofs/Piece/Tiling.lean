import LoxLexis.Proofs.Piece.Boundary

/-!
# Texts tiled by pieces

Pieces tile a text if they make it up and each is sound and stops at the text after
it. `tiles_iff`: a text is tiled in one way only, by the pieces it falls into. To
find the pieces of a text it is therefore enough to tile it, and every fact about
pieces and what follows them is an induction on a tiling.
-/

namespace LoxLexis

/-- The pieces make up the text, each sound and stopping at what follows it. -/
inductive Tiles : List Piece → List Char → Prop where
  | nil : Tiles [] []
  | cons {p : Piece} {ps : List Piece} {rest : List Char} :
      p.Sound → p.StopsAt rest → Tiles ps rest → Tiles (p :: ps) (p.text ++ rest)

namespace Tiles

variable {ps qs : List Piece} {s : List Char}

theorem flatMap_text (h : Tiles ps s) : ps.flatMap Piece.text = s := by
  induction h with
  | nil => rfl
  | cons _ _ _ ih => rw [List.flatMap_cons, ih]

theorem sound (h : Tiles ps s) : ∀ p ∈ ps, p.Sound := by
  induction h with
  | nil => simp
  | cons hp _ _ ih =>
      intro q hq
      rcases List.mem_cons.mp hq with rfl | hq
      · exact hp
      · exact ih q hq

/-- Without its first pieces, a tiling tiles what follows them. -/
theorem of_append (h : Tiles (ps ++ qs) s) : Tiles qs (qs.flatMap Piece.text) := by
  induction ps generalizing s with
  | nil => exact h.flatMap_text.symm ▸ h
  | cons p ps ih =>
      cases h with
      | cons _ _ hps => exact ih hps

/-- Each piece of a tiling is sound and stops at the pieces after it. -/
theorem split {p : Piece} (h : Tiles (ps ++ p :: qs) s) :
    p.Sound ∧ p.StopsAt (qs.flatMap Piece.text) := by
  have htail := h.of_append
  generalize (p :: qs).flatMap Piece.text = t at htail
  cases htail with
  | cons hp hstop hqs => exact ⟨hp, hqs.flatMap_text ▸ hstop⟩

theorem pieces_eq (h : Tiles ps s) : pieces s = ps := by
  induction h with
  | nil => exact pieces_nil
  | @cons p ps rest hp hstop _ ih =>
      obtain ⟨c, w, htext⟩ := List.exists_cons_of_ne_nil (Piece.text_ne_nil hp)
      have hcut : Piece.cut c (w ++ rest) = (p, rest) :=
        Piece.cut_of_sound hp hstop (by rw [htext, List.cons_append])
      rw [htext, List.cons_append, pieces_cons, hcut, ih]

end Tiles

theorem tiles_pieces (s : List Char) : Tiles (pieces s) s := by
  match s with
  | [] =>
      rw [pieces_nil]
      exact .nil
  | c :: rest =>
      obtain ⟨hp, hstop⟩ := Piece.sound_and_stopsAt_cut c rest
      have h := Tiles.cons hp hstop (tiles_pieces (Piece.cut c rest).2)
      rw [Piece.text_cut_append] at h
      rwa [pieces_cons]
termination_by s.length
decreasing_by exact Nat.lt_succ_of_le (Piece.cut_length c rest)

/-- The pieces of a text are the one way to tile it. -/
theorem tiles_iff {ps : List Piece} {s : List Char} : Tiles ps s ↔ pieces s = ps := by
  constructor
  · exact Tiles.pieces_eq
  · rintro rfl
    exact tiles_pieces s

theorem sound_of_mem_pieces {s : List Char} {p : Piece} (hp : p ∈ pieces s) : p.Sound :=
  (tiles_pieces s).sound p hp

theorem pieces_text_append {p : Piece} (hp : p.Sound) {rest : List Char}
    (hstop : p.StopsAt rest) : pieces (p.text ++ rest) = p :: pieces rest :=
  (Tiles.cons hp hstop (tiles_pieces rest)).pieces_eq

/-- A piece alone falls into itself. -/
theorem pieces_text {p : Piece} (hp : p.Sound) : pieces p.text = [p] := by
  have h := Tiles.cons hp p.stopsAt_nil .nil
  rw [List.append_nil] at h
  exact h.pieces_eq

end LoxLexis
