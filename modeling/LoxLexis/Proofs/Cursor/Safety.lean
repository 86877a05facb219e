import LoxLexis.Proofs.Cursor.Turn
import LoxLexis.Proofs.TokenData

/-!
# A scan makes progress and stays in its text

Each turn of the main loop goes past one piece, which has at least one character. So the offsets of
the states that the loop reaches are boundaries in the text (`Reached.exists_at`), the loop ends
(`Reached.run_loop`), and no slice on the way is out of range or cuts a character in two
(`cursor_safe`).
-/

namespace LoxLexis

/-! ## How much can be found -/

theorem length_pieces_le (s : List Char) : (pieces s).length ≤ s.length := by
  match s with
  | [] => simp
  | c :: rest =>
      have hcut := Piece.cut_length c rest
      have hrest := length_pieces_le (Piece.cut c rest).2
      rw [pieces_cons, List.length_cons, List.length_cons]
      omega
termination_by s.length
decreasing_by exact Nat.lt_succ_of_le (Piece.cut_length c rest)

theorem length_findings (line : Nat) (ps : List Piece) : (findings line ps).length = ps.length := by
  induction ps generalizing line with
  | nil => rfl
  | cons p ps ih => rw [findings, List.length_cons, ih, List.length_cons]

/-- No finding is both a token and a fault. -/
theorem Finding.length_filterMap_add_le (found : List Finding) :
    (found.filterMap token?).length + (found.filterMap fault?).length ≤ found.length := by
  induction found with
  | nil => exact Nat.le_refl 0
  | cons f found ih =>
      cases f <;> simp only [List.filterMap_cons, token?, fault?, List.length_cons] <;> omega

/-- Each token but the last, and each fault, has a character of its own. -/
theorem length_tokens_add_length_faults_le (source : String) :
    (analyze source).tokens.length + (analyze source).faults.length ≤ source.length + 1 := by
  have hfound := Finding.length_filterMap_add_le (findings 1 (pieces source.toList))
  rw [length_findings] at hfound
  have hpieces := length_pieces_le source.toList
  rw [String.length_toList] at hpieces
  simp only [analyze_eq, List.length_append, List.length_singleton]
  omega

/-! ## States on the way -/

variable {σ : Type} {source : String} {report : σ → Fault → σ} {kept : σ} {s t : Cursor σ}
  {before after rest : List Char} {c : Char}

namespace Cursor

/-- Both offsets are in the text, in order and on boundaries. -/
structure Within (source : String) (s : Cursor σ) : Prop where
  start_le : s.start ≤ s.current
  current_le : s.current ≤ source.utf8ByteSize
  start_isBoundary : Text.IsBoundary source s.start
  current_isBoundary : Text.IsBoundary source s.current

/-- A turn from one state to another has found a token, a fault or neither. A token is made of what
the turn has read, and a string of that without its quotes. -/
structure Turned (s : Cursor σ) (report : σ → Fault → σ) (source : String)
    (t : Cursor σ) : Prop where
  start_eq : t.start = s.current
  current_lt : s.current < t.current
  current_le : t.current ≤ source.utf8ByteSize
  found :
    (∃ token, t.tokens = s.tokens.push token ∧ t.kept = s.kept ∧
      Text.slice source t.start t.current = Part.some token.lexeme ∧
      ∀ value, token.literal = some (.string value) →
        Text.slice source (t.start + 1) (t.current - 1) = Part.some value) ∨
    (∃ f, t.tokens = s.tokens ∧ t.kept = report s.kept f) ∨
    t.tokens = s.tokens ∧ t.kept = s.kept

theorem At.past (report : σ → Fault → σ) (h : s.At source before (c :: rest)) :
    (s.past report (Piece.cut c rest).1).At source
      (before ++ (Piece.cut c rest).1.text) (Piece.cut c rest).2 := by
  refine ⟨by rw [h.toList_eq, List.append_assoc, Piece.text_cut_append], ?_⟩
  rw [Text.bytes_append, ← h.current_eq]
  rfl

theorem turned_past (h : s.At source before (c :: rest)) :
    s.Turned report source (s.past report (Piece.cut c rest).1) := by
  have hpast := h.past report
  have hne := Piece.text_ne_nil (Piece.sound_and_stopsAt_cut c rest).1
  have hat : s.At source before ((Piece.cut c rest).1.text ++ (Piece.cut c rest).2) := by
    rwa [Piece.text_cut_append]
  generalize (Piece.cut c rest).1 = p at *
  have hslice := Text.slice_eq_some (hat.toList_eq.trans (List.append_assoc ..).symm)
  rw [← h.current_eq] at hslice
  constructor
  case start_eq => rfl
  case current_lt => exact Nat.lt_add_of_pos_right (Text.bytes_pos hne)
  case current_le =>
    rw [hpast.size_eq]
    exact Nat.le_add_right ..
  case found =>
    cases hfinding : p.finding s.line with
    | nothing =>
        rw [past_of_nothing hfinding]
        exact Or.inr (Or.inr ⟨rfl, rfl⟩)
    | fault f =>
        rw [past_of_fault hfinding]
        exact Or.inr (Or.inl ⟨f, rfl, rfl⟩)
    | token token =>
        have htoken : p.token? s.line = some token := by
          rw [← Piece.token?_finding, hfinding]
          rfl
        obtain ⟨-, hlexeme, hliteral, -⟩ := Piece.token?_eq_some_iff.mp htoken
        rw [past_of_token hfinding]
        refine Or.inl ⟨token, rfl, rfl, ?_, fun value hvalue => ?_⟩
        · rw [hlexeme]
          exact hslice
        · obtain ⟨body, rfl, rfl⟩ : ∃ body, p = .quoted body ∧ String.ofList body = value := by
            rw [hliteral] at hvalue
            cases p <;> simp_all [Piece.literal?]
          exact Scanner.slice_body hat

/-- What the states that the loop reaches have in common: the text is in three parts, and the
offsets are where they meet. -/
theorem Reached.exists_at (h : Reached report kept source s) :
    ∃ before w after, s.At source (before ++ w) after ∧ s.start = Text.bytes before := by
  induction h with
  | initial => exact ⟨[], [], source.toList, .initial kept source, rfl⟩
  | @turn s t _ hlt hrun ih =>
      obtain ⟨before, w, after, hat, -⟩ := ih
      obtain ⟨c, rest, rfl⟩ := List.exists_cons_of_ne_nil (hat.current_lt_iff.mp hlt)
      rw [Scanner.run_turn report hat] at hrun
      obtain rfl : s.past report (Piece.cut c rest).1 = t := by simpa using hrun
      exact ⟨before ++ w, _, _, hat.past report, hat.current_eq⟩

theorem Reached.within (h : Reached report kept source s) : Within source s := by
  obtain ⟨before, w, after, hat, hstart⟩ := h.exists_at
  constructor
  case start_le =>
    rw [hstart, hat.current_eq, Text.bytes_append]
    exact Nat.le_add_right ..
  case current_le =>
    rw [hat.size_eq]
    exact Nat.le_add_right ..
  case start_isBoundary =>
    have hsource : source.toList = before ++ (w ++ after) := by
      rw [hat.toList_eq, List.append_assoc]
    exact Text.isBoundary_iff.mpr ⟨_, _, hsource, hstart⟩
  case current_isBoundary => exact Text.isBoundary_iff.mpr ⟨_, _, hat.toList_eq, hat.current_eq⟩

/-! ## The whole loop -/

theorem toProgress_foldl_past (report : σ → Fault → σ) (ps : List Piece) (s : Cursor σ) :
    (ps.foldl (past report) s).toProgress = ps.foldl (Progress.step report) s.toProgress := by
  induction ps generalizing s with
  | nil => rfl
  | cons p ps ih =>
      rw [List.foldl_cons, List.foldl_cons, ih]
      rfl

/-- The loop goes past the pieces one after the other, and then the text is at its end. -/
theorem Reached.run_loop {s : Cursor σ} {before after : List Char}
    (hs : Reached report kept source s) (h : s.At source before after) :
    let t := (pieces after).foldl (past report) s
    (Scanner.loop source report).run s = Part.some ((), t) ∧ Reached report kept source t ∧
      t.current = source.utf8ByteSize := by
  have hend := Scanner.run_atEnd h
  match after with
  | [] =>
      rw [pieces_nil]
      refine ⟨Scanner.run_loopWhile_of_false ?_, hs, ?_⟩
      · simp [hend]
      · rw [h.size_eq]
        rfl
  | c :: rest =>
      have hturn := Scanner.run_turn report h
      have hlt : s.current < source.utf8ByteSize := h.current_lt_iff.mpr (List.cons_ne_nil c rest)
      obtain ⟨hrun, hlast⟩ := Reached.run_loop (.turn hs hlt hturn) (h.past report)
      rw [pieces_cons]
      refine ⟨?_, hlast⟩
      rw [List.foldl_cons, ← hrun]
      exact Scanner.run_loopWhile_of_true (by simp [hend]) hturn
termination_by after.length
decreasing_by exact Nat.lt_succ_of_le (Piece.cut_length c rest)

end Cursor

/-! ## Main result -/

/-- A turn has an outcome, so all its slices can be taken, from each state that the main loop
reaches with text ahead. In the last state there is none, and what has been found is what `scan`
gives. -/
theorem cursor_safe (report : σ → Fault → σ) (kept : σ) (source : String) :
    (∀ s, Cursor.Reached report kept source s → s.Within source ∧
      (s.current < source.utf8ByteSize →
        ∃ t, (Scanner.turn source report).run s = Part.some ((), t) ∧ s.Turned report source t)) ∧
    (∃ s, Cursor.Reached report kept source s ∧ s.current = source.utf8ByteSize ∧
      (Scanner.loop source report).run (.initial kept) = Part.some ((), s)) ∧
    scanInPlace report kept source = Part.some (scan report kept source) ∧
    (analyze source).tokens.length + (analyze source).faults.length ≤ source.length + 1 := by
  have hinitial := Cursor.At.initial kept source
  have hstart : Cursor.Reached report kept source (.initial kept) := .initial
  obtain ⟨hrun, hreached, hend⟩ := hstart.run_loop hinitial
  refine ⟨fun s hs => ⟨hs.within, fun hlt => ?_⟩, ⟨_, hreached, hend, hrun⟩, ?_, ?_⟩
  · obtain ⟨before, w, after, hat, -⟩ := hs.exists_at
    obtain ⟨c, rest, rfl⟩ := List.exists_cons_of_ne_nil (hat.current_lt_iff.mp hlt)
    exact ⟨_, Scanner.run_turn report hat, Cursor.turned_past hat⟩
  · have hscan := Cursor.toProgress_foldl_past report (pieces source.toList) (.initial kept)
    simp only [scanInPlace, hrun, Part.bind_eq_bind, Part.bind_some, hscan]
    rfl
  · exact length_tokens_add_length_faults_le source

/-- A string with a null character in it, and then a character of two bytes that starts nothing. -/
theorem cursor_safe_past_null :
    let source := "\"\x00\"é"
    let report : List Fault → Fault → List Fault := fun kept f => kept ++ [f]
    ∃ s t, Cursor.Reached report [] source s ∧ s.start = 0 ∧ s.current = 3 ∧ s.Within source ∧
      (Scanner.turn source report).run s = Part.some ((), t) ∧ s.Turned report source t ∧
      t.current = 5 ∧ t.kept = [⟨.strayCharacter 'é', 1⟩] ∧ source.utf8ByteSize = 5 := by
  intro source report
  have hinitial : (Cursor.initial ([] : List Fault)).At source [] ['"', '\x00', '"', 'é'] :=
    ⟨by decide, rfl⟩
  have hfirst := Scanner.run_turn report hinitial
  let s := (Cursor.initial ([] : List Fault)).past report (.quoted ['\x00'])
  have hat : s.At source ['"', '\x00', '"'] ['é'] := hinitial.past report
  have hreached : Cursor.Reached report [] source s := .turn .initial (by decide) hfirst
  obtain ⟨hwithin, hturn⟩ := (cursor_safe report [] source).1 s hreached
  obtain ⟨t, hrun, hturned⟩ := hturn (by decide)
  have hsecond := (Scanner.run_turn report hat).symm.trans hrun
  obtain rfl : s.past report (.stray 'é') = t := congrArg Prod.snd (Part.some_inj.mp hsecond)
  exact ⟨s, _, hreached, rfl, rfl, hwithin, hrun, hturned, rfl, rfl, rfl⟩

end LoxLexis
