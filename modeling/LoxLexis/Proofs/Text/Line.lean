import LoxLexis.Proofs.Piece.Boundary
import LoxLexis.Text.Line
import Mathlib.Data.List.Basic

/-!
# A text and its lines

A text is one line, or a line, a line feed and a text again. `lines_induction` is the
induction that goes with this view, and each way to cut a text into lines has one
equation for either case. A trimmed text is what stands between the white space at both
ends (`trimmed_trim`).
-/

namespace LoxLexis.Text

/-! ## The first line and the rest -/

/-- A text is one line, or a line, a line feed and more. -/
theorem eq_line_or_append (s : List Char) :
    '\n' ∉ s ∨ ∃ line rest, '\n' ∉ line ∧ s = line ++ '\n' :: rest := by
  by_cases h : '\n' ∈ s
  · obtain ⟨line, rest, hs, hline⟩ := List.eq_append_cons_of_mem h
    exact Or.inr ⟨line, rest, hline, hs⟩
  · exact Or.inl h

/-- Induction on the lines of a text, from the last to the first. -/
@[elab_as_elim]
theorem lines_induction {motive : List Char → Prop}
    (last : ∀ line, '\n' ∉ line → motive line)
    (feed : ∀ line rest, '\n' ∉ line → motive rest → motive (line ++ '\n' :: rest))
    (s : List Char) : motive s := by
  rcases eq_line_or_append s with hs | ⟨line, rest, hline, hs⟩
  · exact last s hs
  · have hlt : rest.length < s.length := by
      rw [hs, List.length_append, List.length_cons]
      omega
    rw [hs]
    exact feed line rest hline (lines_induction last feed rest)
termination_by s.length

section FirstLine

variable {line : List Char} (hline : '\n' ∉ line) (rest : List Char)

include hline

theorem newlines_line : newlines line = 0 :=
  List.count_eq_zero_of_not_mem hline

theorem newlines_line_append : newlines (line ++ '\n' :: rest) = newlines rest + 1 := by
  rw [newlines_append, newlines_line hline, Nat.zero_add]
  exact List.count_cons_self

theorem ne_feed_of_mem_line : ∀ c ∈ line, (c != '\n') = true := by
  intro c hc
  rw [bne_iff_ne]
  rintro rfl
  exact hline hc

theorem firstLine_append : firstLine (line ++ rest) = line ++ firstLine rest :=
  List.takeWhile_append_of_pos (ne_feed_of_mem_line hline)

theorem firstLine_line : firstLine line = line :=
  List.takeWhile_eq_self_iff.mpr (ne_feed_of_mem_line hline)

theorem firstLine_line_append : firstLine (line ++ '\n' :: rest) = line :=
  takeWhile_append_of_stop (ne_feed_of_mem_line hline) (by simp)

theorem afterFirstLine?_line : afterFirstLine? line = none := by
  rw [afterFirstLine?, List.dropWhile_eq_nil_iff.mpr (ne_feed_of_mem_line hline)]

theorem afterFirstLine?_line_append : afterFirstLine? (line ++ '\n' :: rest) = some rest := by
  have hdrop : (line ++ '\n' :: rest).dropWhile (· != '\n') = '\n' :: rest :=
    dropWhile_append_of_stop (ne_feed_of_mem_line hline) (by simp)
  rw [afterFirstLine?, hdrop]

end FirstLine

/-! ## Lines by their numbers -/

/-- The lines of a text are what stands between its line feeds. -/
theorem lineAfter?_eq_getElem? (k : Nat) (s : List Char) :
    lineAfter? k s = (s.splitOn '\n')[k]? := by
  induction s using lines_induction generalizing k with
  | last line hline =>
      rw [List.splitOn_eq_singleton hline]
      cases k with
      | zero => exact congrArg some (firstLine_line hline)
      | succ k =>
          rw [lineAfter?, afterFirstLine?_line hline]
          rfl
  | feed line rest hline ih =>
      rw [List.splitOn_append_cons_self_of_not_mem hline]
      cases k with
      | zero => exact congrArg some (firstLine_line_append hline rest)
      | succ k =>
          rw [lineAfter?, afterFirstLine?_line_append hline, List.getElem?_cons_succ]
          exact ih k

theorem length_splitOn (s : List Char) : (s.splitOn '\n').length = 1 + newlines s := by
  induction s using lines_induction with
  | last line hline =>
      rw [List.splitOn_eq_singleton hline, newlines_line hline]
      rfl
  | feed line rest hline ih =>
      rw [List.splitOn_append_cons_self_of_not_mem hline, List.length_cons, ih,
        newlines_line_append hline, Nat.add_assoc]

/-- The lines with the numbers from one to the number of lines, and no others. -/
theorem isSome_line?_iff {s : List Char} {n : Nat} :
    (line? s n).isSome = true ↔ 1 ≤ n ∧ n ≤ 1 + newlines s := by
  cases n with
  | zero => simp [line?]
  | succ k =>
      rw [line?, Option.isSome_map, lineAfter?_eq_getElem?, isSome_getElem?, length_splitOn]
      omega

/-- The line that a place is on goes on with what stands there. -/
theorem exists_lineAfter?_newlines (before s : List Char) :
    ∃ front, lineAfter? (newlines before) (before ++ s) = some (front ++ firstLine s) := by
  induction before using lines_induction with
  | last line hline =>
      refine ⟨line, ?_⟩
      rw [newlines_line hline, lineAfter?, firstLine_append hline]
  | feed line rest hline ih =>
      obtain ⟨front, hfront⟩ := ih
      refine ⟨front, ?_⟩
      rw [newlines_line_append hline, List.append_assoc, List.cons_append, lineAfter?,
        afterFirstLine?_line_append hline]
      exact hfront

/-! ## What is shown of a line -/

theorem feed_not_mem_dropReturn {s : List Char} (h : '\n' ∉ s) : '\n' ∉ dropReturn s := by
  unfold dropReturn
  split
  · exact fun hmem => h (s.dropLast_sublist.mem hmem)
  · exact h

theorem feed_not_mem_of_lineAfter? {k : Nat} {s line : List Char}
    (h : lineAfter? k s = some line) : '\n' ∉ line := by
  induction k generalizing s with
  | zero =>
      obtain rfl := Option.some.inj h
      exact fun hmem => absurd (List.mem_takeWhile_imp hmem) (by simp)
  | succ k ih =>
      obtain ⟨rest, -, hrest⟩ := Option.bind_eq_some_iff.mp h
      exact ih hrest

theorem feed_not_mem_of_line? {n : Nat} {s line : List Char} (h : line? s n = some line) :
    '\n' ∉ line := by
  cases n with
  | zero => cases h
  | succ k =>
      obtain ⟨whole, hwhole, rfl⟩ := Option.map_eq_some_iff.mp h
      exact feed_not_mem_dropReturn (feed_not_mem_of_lineAfter? hwhole)

theorem dropReturn_concat (s : List Char) : dropReturn (s ++ ['\r']) = s := by
  rw [dropReturn, if_pos List.getLast?_concat, List.dropLast_concat]

/-- All of a line, but for one carriage return at its end. -/
def Shown (line shown : List Char) : Prop :=
  line = shown ++ ['\r'] ∨ line = shown ∧ line.getLast? ≠ some '\r'

theorem shown_dropReturn (line : List Char) : Shown line (dropReturn line) := by
  unfold dropReturn
  split
  · rename_i hlast
    obtain ⟨v, rfl⟩ := List.getLast?_eq_some_iff.mp hlast
    exact Or.inl (by rw [List.dropLast_concat])
  · rename_i hlast
    exact Or.inr ⟨rfl, hlast⟩

/-- A part of a line is shown unless it ends with a carriage return. -/
theorem infix_dropReturn {w line : List Char} (h : w <:+: line)
    (hlast : w.getLast? ≠ some '\r') : w <:+: dropReturn line := by
  rcases shown_dropReturn line with hline | ⟨hline, -⟩
  · rw [hline] at h
    rcases List.infix_concat_iff.mp h with hsuffix | hinfix
    · rcases List.suffix_concat_iff.mp hsuffix with rfl | ⟨v, rfl, -⟩
      · exact List.nil_infix
      · exact absurd List.getLast?_concat hlast
    · exact hinfix
  · rwa [← hline]

/-- What is shown of the end of a line is shown of the line. -/
theorem dropReturn_infix (front line : List Char) :
    dropReturn line <:+: dropReturn (front ++ line) := by
  rcases shown_dropReturn line with hline | ⟨hline, hlast⟩
  · have hwhole : front ++ line = front ++ dropReturn line ++ ['\r'] := by
      rw [List.append_assoc, ← hline]
    rw [hwhole, dropReturn_concat]
    exact (List.suffix_append _ _).isInfix
  · rw [← hline]
    exact infix_dropReturn (List.suffix_append front line).isInfix hlast

/-! ## Lines as they are read -/

/-- A sequence falls into lines: each ends with a feed and has no other, and only the last
may be without. -/
structure SplitsAfter {α : Type} (feed : α) (s : List α) (lines : List (List α)) : Prop where
  flatten : lines.flatten = s
  ne_nil : ∀ line ∈ lines, line ≠ []
  feed_not_mem_dropLast : ∀ line ∈ lines, feed ∉ line.dropLast
  getLast?_eq_feed : ∀ line ∈ lines.dropLast, line.getLast? = some feed

theorem SplitsAfter.tail {α : Type} {feed : α} {line s : List α} {lines : List (List α)}
    (h : SplitsAfter feed s (line :: lines)) : SplitsAfter feed lines.flatten lines := by
  refine ⟨rfl, (List.forall_mem_cons.mp h.ne_nil).2,
    (List.forall_mem_cons.mp h.feed_not_mem_dropLast).2, fun l hl => h.getLast?_eq_feed l ?_⟩
  cases lines with
  | nil => exact absurd hl List.not_mem_nil
  | cons first lines => exact List.mem_cons_of_mem line hl

section SplitAfter

variable {α : Type} [BEq α] [LawfulBEq α] {feed : α}

theorem consLine_of_ne {a : α} (h : a ≠ feed) (line : List α) (rest : List (List α)) :
    consLine feed a [] = [[a]] ∧ consLine feed a (line :: rest) = (a :: line) :: rest := by
  have hne : ¬ (a == feed) = true := by simpa using h
  exact ⟨if_neg hne, if_neg hne⟩

variable {line : List α} (hline : feed ∉ line)

include hline

theorem splitAfter_line : splitAfter feed line = if line = [] then [] else [line] := by
  induction line with
  | nil => rfl
  | cons a line ih =>
      rw [List.mem_cons, not_or] at hline
      obtain ⟨hnil, hcons⟩ := consLine_of_ne (Ne.symm hline.1) line []
      rw [splitAfter, List.foldr_cons, ← splitAfter, ih hline.2, if_neg (List.cons_ne_nil a line)]
      split
      · rename_i hempty
        rw [hnil, hempty]
      · exact hcons

theorem splitAfter_line_append (rest : List α) :
    splitAfter feed (line ++ feed :: rest) = (line ++ [feed]) :: splitAfter feed rest := by
  induction line with
  | nil => exact if_pos (beq_self_eq_true feed)
  | cons a line ih =>
      rw [List.mem_cons, not_or] at hline
      rw [List.cons_append, splitAfter, List.foldr_cons, ← splitAfter, ih hline.2]
      exact (consLine_of_ne (Ne.symm hline.1) _ _).2

omit hline

theorem splitsAfter_consLine {s : List α} {lines : List (List α)}
    (h : SplitsAfter feed s lines) (a : α) :
    SplitsAfter feed (a :: s) (consLine feed a lines) := by
  by_cases ha : a = feed
  · subst ha
    have hcons : consLine a a lines = [a] :: lines := if_pos (beq_self_eq_true a)
    rw [hcons]
    constructor
    · rw [List.flatten_cons, h.flatten]
      rfl
    · exact List.forall_mem_cons.mpr ⟨List.cons_ne_nil a [], h.ne_nil⟩
    · exact List.forall_mem_cons.mpr ⟨List.not_mem_nil, h.feed_not_mem_dropLast⟩
    · cases lines with
      | nil => simp
      | cons line lines => exact List.forall_mem_cons.mpr ⟨rfl, h.getLast?_eq_feed⟩
  · cases lines with
    | nil =>
        obtain rfl : s = [] := h.flatten.symm
        rw [(consLine_of_ne ha [] []).1]
        exact ⟨rfl, by simp, by simp, by simp⟩
    | cons line lines =>
        obtain ⟨hline, hne⟩ := List.forall_mem_cons.mp h.ne_nil
        obtain ⟨hlast, hlasts⟩ := List.forall_mem_cons.mp h.feed_not_mem_dropLast
        rw [(consLine_of_ne ha line lines).2]
        constructor
        · rw [← h.flatten]
          rfl
        · exact List.forall_mem_cons.mpr ⟨List.cons_ne_nil a line, hne⟩
        · refine List.forall_mem_cons.mpr ⟨?_, hlasts⟩
          rw [List.dropLast_cons_of_ne_nil hline, List.mem_cons, not_or]
          exact ⟨Ne.symm ha, hlast⟩
        · cases lines with
          | nil => simp
          | cons next lines =>
              obtain ⟨hfeed, hfeeds⟩ := List.forall_mem_cons.mp h.getLast?_eq_feed
              refine List.forall_mem_cons.mpr ⟨?_, hfeeds⟩
              rw [List.getLast?_cons_of_ne_nil hline, hfeed]

/-- A sequence falls into lines in one way only. -/
theorem splitsAfter_iff {s : List α} {lines : List (List α)} :
    SplitsAfter feed s lines ↔ splitAfter feed s = lines := by
  constructor
  · intro h
    induction lines generalizing s with
    | nil =>
        obtain rfl : s = [] := h.flatten.symm
        rfl
    | cons line lines ih =>
        have hdrop := (List.forall_mem_cons.mp h.feed_not_mem_dropLast).1
        rw [← h.flatten, List.flatten_cons]
        by_cases hlast : line.getLast? = some feed
        · obtain ⟨body, rfl⟩ := List.getLast?_eq_some_iff.mp hlast
          rw [List.dropLast_concat] at hdrop
          rw [List.append_assoc, List.singleton_append, splitAfter_line_append hdrop, ih h.tail]
        · -- only the last line is without a feed
          obtain rfl : lines = [] := by
            cases lines with
            | nil => rfl
            | cons next lines =>
                exact absurd (h.getLast?_eq_feed line List.mem_cons_self) hlast
          have hne := h.ne_nil line List.mem_cons_self
          have hfeed : feed ∉ line := by
            intro hmem
            rw [← List.dropLast_concat_getLast hne, List.mem_append, List.mem_singleton] at hmem
            rcases hmem with hmem | hmem
            · exact hdrop hmem
            · exact hlast (by rw [List.getLast?_eq_some_getLast hne, hmem])
          rw [List.flatten_nil, List.append_nil, splitAfter_line hfeed, if_neg hne]
  · rintro rfl
    induction s with
    | nil => exact ⟨rfl, by simp [splitAfter], by simp [splitAfter], by simp [splitAfter]⟩
    | cons a s ih => exact splitsAfter_consLine ih a

end SplitAfter

/-- The lines of a text as they are read, each with the line feed that ends it. -/
def lines (text : String) : List String :=
  (splitAfter '\n' text.toList).map String.ofList

/-- What is read is a line, with the line feed that ends it unless it is the last. -/
theorem eq_line_of_mem_splitAfter {s read : List Char} (h : read ∈ splitAfter '\n' s) :
    ∃ line, '\n' ∉ line ∧ (read = line ∨ read = line ++ ['\n']) := by
  induction s using lines_induction with
  | last line hline =>
      rw [splitAfter_line hline] at h
      split at h
      · exact absurd h List.not_mem_nil
      · exact ⟨line, hline, Or.inl (List.mem_singleton.mp h)⟩
  | feed line rest hline ih =>
      rw [splitAfter_line_append hline] at h
      rcases List.mem_cons.mp h with rfl | h
      · exact ⟨line, hline, Or.inr rfl⟩
      · exact ih h

/-! ## Trimming -/

/-- Nothing but white space is taken off, and as much of it as there is. -/
structure Trimmed (s shown : List Char) : Prop where
  parts : ∃ front back, s = front ++ shown ++ back ∧
    (∀ c ∈ front, isWhite c = true) ∧ ∀ c ∈ back, isWhite c = true
  head? : ∀ c ∈ shown.head?, isWhite c = false
  getLast? : ∀ c ∈ shown.getLast?, isWhite c = false

theorem Trimmed.mem_of_isWhite_eq_false {s shown : List Char} (h : Trimmed s shown) {c : Char}
    (hc : c ∈ s) (hwhite : isWhite c = false) : c ∈ shown := by
  obtain ⟨front, back, hs, hfront, hback⟩ := h.parts
  rw [hs, List.mem_append, List.mem_append] at hc
  rcases hc with (hc | hc) | hc
  · exact absurd (hfront c hc) (by simp [hwhite])
  · exact hc
  · exact absurd (hback c hc) (by simp [hwhite])

/-- The white space at the end comes off after that in front. -/
theorem trim_append (s : List Char) :
    trim s ++ ((s.dropWhile isWhite).reverse.takeWhile isWhite).reverse = s.dropWhile isWhite := by
  rw [trim, ← List.reverse_append, List.takeWhile_append_dropWhile, List.reverse_reverse]

theorem trimmed_trim (s : List Char) : Trimmed s (trim s) := by
  constructor
  case parts =>
    refine ⟨s.takeWhile isWhite, ((s.dropWhile isWhite).reverse.takeWhile isWhite).reverse,
      ?_, ?_, ?_⟩
    · rw [List.append_assoc, trim_append, List.takeWhile_append_dropWhile]
    · exact fun c hc => List.mem_takeWhile_imp hc
    · exact fun c hc => List.mem_takeWhile_imp (List.mem_reverse.mp hc)
  case head? =>
    intro c hc
    apply head_dropWhile_eq_false isWhite s c
    rw [← trim_append]
    exact List.mem_head?_append_of_mem_head? hc
  case getLast? =>
    intro c hc
    rw [trim, List.getLast?_reverse] at hc
    exact head_dropWhile_eq_false isWhite _ c hc

theorem trim_concat_white {c : Char} (hc : isWhite c = true) (s : List Char) :
    trim (s ++ [c]) = trim s := by
  unfold trim
  rw [List.dropWhile_append]
  split
  · rename_i hnil
    rw [List.isEmpty_iff.mp hnil, List.dropWhile_cons_of_pos hc]
    rfl
  · rw [List.reverse_append, List.reverse_singleton, List.singleton_append,
      List.dropWhile_cons_of_pos hc]

theorem trim_dropReturn (s : List Char) : trim (dropReturn s) = trim s := by
  unfold dropReturn
  split
  · rename_i hlast
    obtain ⟨v, rfl⟩ := List.getLast?_eq_some_iff.mp hlast
    rw [List.dropLast_concat, trim_concat_white (by decide)]
  · rfl

end LoxLexis.Text
