import LoxLexis.Proofs.Piece.Placement

/-!
# The faults of a source, character by character

`Mode.faults` finds the faults of a source without tokens: it reads one character at
a time and knows only whether it is in code, in a comment or in a string.
A scan reports the same faults.

Both read the same text, but the automaton sees characters where the scan sees
pieces. `faults_text` closes the gap: read in code, a piece leaves the automaton in
code and makes it emit just the fault that the piece is.
-/

namespace LoxLexis

/-! ## The automaton -/

inductive Mode where
  | code
  | comment
  | string
deriving DecidableEq

/-- The characters that are no fault outside strings and comments, quotes apart. -/
def isAllowed (c : Char) : Bool :=
  c.isAlpha || c.isDigit ||
    ['_', '(', ')', '{', '}', ',', '.', '-', '+', ';', '*', '/', '!', '=', '<', '>',
      ' ', '\r', '\t', '\n'].contains c

/-- The faults that the automaton emits from a mode, with the characters already
read and those still to come. -/
def Mode.faults (read : List Char) : Mode → List Char → List Fault
  | .string, [] => [⟨.unclosedString, 1 + Text.newlines read⟩]
  | .code, [] => []
  | .comment, [] => []
  | .code, '/' :: '/' :: rest => Mode.faults (read ++ ['/', '/']) .comment rest
  | .code, c :: rest =>
      if c = '"' then Mode.faults (read ++ [c]) .string rest
      else if isAllowed c then Mode.faults (read ++ [c]) .code rest
      else
        ⟨.strayCharacter c, 1 + Text.newlines read⟩ :: Mode.faults (read ++ [c]) .code rest
  | .comment, c :: rest =>
      Mode.faults (read ++ [c]) (if c = '\n' then .code else .comment) rest
  | .string, c :: rest =>
      Mode.faults (read ++ [c]) (if c = '"' then .code else .string) rest

/-! ## Single steps and runs in one mode -/

namespace Mode

variable {read w rest : List Char}

theorem faults_code_slashes (read rest : List Char) :
    faults read .code ('/' :: '/' :: rest) = faults (read ++ ['/', '/']) .comment rest := by
  rw [faults]

theorem faults_code_cons {c : Char} (h : c = '/' → rest.head? ≠ some '/') :
    faults read .code (c :: rest)
      = if c = '"' then faults (read ++ [c]) .string rest
        else if isAllowed c then faults (read ++ [c]) .code rest
        else ⟨.strayCharacter c, 1 + Text.newlines read⟩ :: faults (read ++ [c]) .code rest := by
  rw [faults]
  rintro after rfl rfl
  exact h rfl rfl

theorem faults_comment_cons (read : List Char) (c : Char) (rest : List Char) :
    faults read .comment (c :: rest)
      = faults (read ++ [c]) (if c = '\n' then .code else .comment) rest := by
  rw [faults]

theorem faults_string_cons (read : List Char) (c : Char) (rest : List Char) :
    faults read .string (c :: rest)
      = faults (read ++ [c]) (if c = '"' then .code else .string) rest := by
  rw [faults]

theorem faults_allowed (hw : ∀ c ∈ w, isAllowed c = true ∧ c ≠ '/') :
    faults read .code (w ++ rest) = faults (read ++ w) .code rest := by
  induction w generalizing read with
  | nil => rw [List.append_nil, List.nil_append]
  | cons c w ih =>
      obtain ⟨hc, hslash⟩ := hw c List.mem_cons_self
      have hq : c ≠ '"' := by
        rintro rfl
        exact absurd hc (by decide)
      rw [List.cons_append, faults_code_cons (fun h => absurd h hslash), if_neg hq, if_pos hc,
        ih fun x hx => hw x (List.mem_cons_of_mem _ hx), List.append_assoc, List.singleton_append]

theorem faults_string (hw : '"' ∉ w) :
    faults read .string (w ++ rest) = faults (read ++ w) .string rest := by
  induction w generalizing read with
  | nil => rw [List.append_nil, List.nil_append]
  | cons c w ih =>
      rw [List.mem_cons, not_or] at hw
      rw [List.cons_append, faults_string_cons, if_neg (Ne.symm hw.1), ih hw.2,
        List.append_assoc, List.singleton_append]

theorem faults_comment (hw : '\n' ∉ w) :
    faults read .comment (w ++ rest) = faults (read ++ w) .comment rest := by
  induction w generalizing read with
  | nil => rw [List.append_nil, List.nil_append]
  | cons c w ih =>
      rw [List.mem_cons, not_or] at hw
      rw [List.cons_append, faults_comment_cons, if_neg (Ne.symm hw.1), ih hw.2,
        List.append_assoc, List.singleton_append]

/-- Before a line feed or the end, a comment and code are one. -/
theorem faults_comment_eq_code (hrest : ∀ c ∈ rest.head?, c = '\n') :
    faults read .comment rest = faults read .code rest := by
  cases rest with
  | nil => rfl
  | cons c rest =>
      obtain rfl := hrest c rfl
      have hslash : '\n' = '/' → rest.head? ≠ some '/' := fun h => absurd h (by decide)
      rw [faults_comment_cons, if_pos rfl, faults_code_cons hslash, if_neg (by decide),
        if_pos (by decide)]

end Mode

/-! ## Allowed characters -/

theorem isAllowed_of_isWordChar {c : Char} (h : isWordChar c = true) :
    isAllowed c = true ∧ c ≠ '/' := by
  constructor
  · simp only [isWordChar, isWordStart, Bool.or_eq_true, beq_iff_eq] at h
    rcases h with (h | rfl) | h
    · simp [isAllowed, h]
    · decide
    · simp [isAllowed, h]
  · rintro rfl
    exact absurd h (by decide)

theorem isAllowed_of_isDigit {c : Char} (h : c.isDigit = true) :
    isAllowed c = true ∧ c ≠ '/' :=
  isAllowed_of_isWordChar (by simp [isWordChar, h])

theorem isAllowed_of_isBlank {c : Char} (h : isBlank c = true) :
    isAllowed c = true ∧ c ≠ '/' := by
  rw [isBlank_iff] at h
  rcases h with rfl | rfl | rfl | rfl <;> decide

theorem Numeral.isAllowed_text {n : Numeral} (hn : n.Sound) :
    ∀ c ∈ n.text, isAllowed c = true ∧ c ≠ '/' := by
  intro c hc
  rcases mem_text hn hc with hc | rfl
  · exact isAllowed_of_isDigit hc
  · decide

theorem Symbol.isAllowed_spelling {s : Symbol} (hs : s ≠ .slash) :
    ∀ c ∈ s.spelling, isAllowed c = true ∧ c ≠ '/' := by
  have htable : s.spelling.all (fun c => isAllowed c && c != '/') = true := by
    cases s <;> first | exact absurd rfl hs | rfl
  intro c hc
  simpa using List.all_eq_true.mp htable c hc

theorem StartsNothing.isAllowed_eq_false {c : Char} (hc : StartsNothing c) :
    isAllowed c = false := by
  have htable : ['_', '(', ')', '{', '}', ',', '.', '-', '+', ';', '*', '/', '!', '=',
      '<', '>', ' ', '\r', '\t', '\n'].all
      (fun x => isBlank x || isWordStart x || (Symbol.single? x).isSome) = true := by decide
  rw [← Bool.not_eq_true]
  intro h
  simp only [isAllowed, Bool.or_eq_true, List.contains_iff_mem] at h
  rcases h with (h | h) | h
  · exact absurd hc.word (by simp [isWordStart, h])
  · exact absurd hc.digit (by simp [h])
  · simpa [hc.blank, hc.word, hc.symbol] using List.all_eq_true.mp htable c h

/-! ## Pieces -/

/-- Read in code, a sound piece that stops at the rest leaves the automaton in code
and makes it emit the fault that the piece is, if it is one. -/
theorem Mode.faults_text {p : Piece} (hp : p.Sound) {rest : List Char}
    (hstop : p.StopsAt rest) (read : List Char) :
    faults read .code (p.text ++ rest)
      = (p.fault? (lineAt read)).toList ++ faults (read ++ p.text) .code rest := by
  have hquote : ∀ s : List Char, '"' = '/' → s.head? ≠ some '/' := by
    intro s h
    exact absurd h (by decide)
  cases p with
  | blank c => exact faults_allowed (List.forall_mem_singleton.mpr (isAllowed_of_isBlank hp))
  | comment body =>
      show faults read .code ('/' :: '/' :: (body ++ rest)) = _
      -- the line feed that ends a comment is code for the scan
      rw [faults_code_slashes, faults_comment hp, faults_comment_eq_code hstop,
        List.append_assoc]
      rfl
  | symbol s =>
      by_cases hs : s = .slash
      · subst hs
        have hr : rest.head? ≠ some '/' := fun h => (hstop '/' h).2 rfl rfl
        show faults read .code ('/' :: rest) = _
        rw [faults_code_cons (fun _ => hr), if_neg (by decide), if_pos (by decide)]
        rfl
      · exact faults_allowed (Symbol.isAllowed_spelling hs)
  | quoted body =>
      show faults read .code ('"' :: (body ++ ['"'] ++ rest)) = _
      rw [faults_code_cons (hquote _), if_pos rfl, List.append_assoc, faults_string hp,
        List.singleton_append, faults_string_cons, if_pos rfl, List.append_assoc,
        List.append_assoc]
      rfl
  | number n => exact faults_allowed (Numeral.isAllowed_text hp)
  | word letters =>
      obtain ⟨c, cs, rfl, hstart, hcs⟩ := hp
      apply faults_allowed
      intro x hx
      rcases List.mem_cons.mp hx with rfl | hx
      · exact isAllowed_of_isWordChar (by simp [isWordChar, hstart])
      · exact isAllowed_of_isWordChar (hcs x hx)
  | stray c =>
      -- a slash is allowed, so the automaton cannot look further here
      have hslash : c ≠ '/' := by
        rintro rfl
        exact absurd hp.isAllowed_eq_false (by decide)
      show faults read .code (c :: rest) = _
      rw [faults_code_cons (fun h => absurd h hslash), if_neg hp.quote,
        if_neg (by simp [hp.isAllowed_eq_false])]
      rfl
  | unclosed body =>
      obtain rfl : rest = [] := hstop
      rw [List.append_nil]
      show faults read .code ('"' :: body) = _
      rw [faults_code_cons (hquote _), if_pos rfl]
      have hend : faults (read ++ ['"']) .string (body ++ []) = _ := faults_string hp
      rw [List.append_nil] at hend
      rw [hend, faults, List.append_assoc, List.singleton_append]
      show [Fault.mk _ (lineAt _)] = [Fault.mk _ (lineAt read + Text.newlines _)]
      rw [lineAt_append]
      rfl

theorem Mode.faults_of_tiles {ps : List Piece} {s : List Char} (h : Tiles ps s)
    (read : List Char) : faults read .code s = found Piece.fault? read ps := by
  induction h generalizing read with
  | nil => rfl
  | cons hp hstop _ ih => rw [faults_text hp hstop, found_cons, ih]

/-! ## The faults of a source -/

/-- Only the last piece of a text can be an open quote. -/
theorem cause_ne_of_mem_dropLast {ps : List Piece} {s : List Char} (h : Tiles ps s)
    (before : List Char) :
    ∀ f ∈ (found Piece.fault? before ps).dropLast, f.cause ≠ .unclosedString := by
  induction h generalizing before with
  | nil => simp
  | @cons p ps rest hp hstop hps ih =>
      rw [found_cons]
      intro f hf
      cases p with
      | unclosed body =>
          -- nothing is left after an open quote
          obtain rfl : rest = [] := hstop
          obtain rfl : ps = [] := hps.pieces_eq.symm.trans pieces_nil
          simp [Piece.fault?] at hf
      | stray c =>
          rw [Piece.fault?, Option.toList_some, List.singleton_append] at hf
          by_cases hnil : found Piece.fault? (before ++ (Piece.stray c).text) ps = []
          · simp [hnil] at hf
          · rw [List.dropLast_cons_of_ne_nil hnil, List.mem_cons] at hf
            rcases hf with rfl | hf
            · exact Cause.noConfusion
            · exact ih _ f hf
      | blank | comment | symbol | quoted | number | word => exact ih _ f hf

/-- A scan reports what the automaton emits, and an open quote at most once and last. -/
theorem faults_eq_automaton (source : String) :
    (analyze source).faults = Mode.faults [] .code source.toList ∧
    (∀ f ∈ (analyze source).faults.dropLast, f.cause ≠ .unclosedString) ∧
    ((analyze source).faults = [] ↔ Mode.faults [] .code source.toList = []) := by
  have htiles := tiles_pieces source.toList
  have heq : (analyze source).faults = Mode.faults [] .code source.toList := by
    rw [analyze_eq_found, Mode.faults_of_tiles htiles]
  refine ⟨heq, ?_, by rw [heq]⟩
  rw [analyze_eq_found]
  exact cause_ne_of_mem_dropLast htiles []

end LoxLexis
