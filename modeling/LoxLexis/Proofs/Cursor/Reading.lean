import LoxLexis.Proofs.Cursor.Machine
import LoxLexis.Proofs.Text.Line

/-!
# Reading by byte offsets

What the parts of a turn do is told by the text on both sides of the offset they start from
(`Cursor.At`). They read what is next or stop, and the states in between are those that a turn
passes when it has read a part of the text ahead of it (`Cursor.read`).

* `run_loopWhile`: a loop that tests the next character reads a run of characters.
* `run_pushToken`: a token is made of what the turn has read.
-/

namespace LoxLexis

variable {σ : Type} {source : String} {report : σ → Fault → σ} {s : Cursor σ}
  {before w after : List Char} {c : Char}

/-! ## Where a cursor is -/

namespace Cursor

/-- The first part of the text has been read, and the second has not. -/
structure At (source : String) (s : Cursor σ) (before after : List Char) : Prop where
  toList_eq : source.toList = before ++ after
  current_eq : s.current = Text.bytes before

/-- Goes past a text and counts its lines. -/
def read (s : Cursor σ) (w : List Char) : Cursor σ :=
  { s with line := s.line + Text.newlines w, current := s.current + Text.bytes w }

@[simp] theorem read_nil (s : Cursor σ) : s.read [] = s := rfl

theorem read_read (s : Cursor σ) (v w : List Char) : (s.read v).read w = s.read (v ++ w) := by
  simp [read, Nat.add_assoc]

theorem read_of_feed_not_mem (h : '\n' ∉ w) :
    s.read w = { s with current := s.current + Text.bytes w } := by
  simp [read, Text.newlines_line h]

theorem read_of_ne_feed (s : Cursor σ) (hc : c ≠ '\n') :
    s.read [c] = { s with current := s.current + c.utf8Size } := by
  have hmem : '\n' ∉ [c] := by simpa using hc.symm
  rw [read_of_feed_not_mem hmem, Text.bytes_cons, Text.bytes_nil, Nat.add_zero]

theorem line_read_of_feed_not_mem (h : '\n' ∉ w) : (s.read w).line = s.line := by
  rw [read_of_feed_not_mem h]

namespace At

theorem initial (kept : σ) (source : String) : At source (.initial kept) [] source.toList :=
  ⟨rfl, rfl⟩

theorem begin (h : s.At source before after) : s.begin.At source before after :=
  ⟨h.toList_eq, h.current_eq⟩

theorem read (h : s.At source before (w ++ after)) : (s.read w).At source (before ++ w) after := by
  refine ⟨by rw [h.toList_eq, List.append_assoc], ?_⟩
  rw [Text.bytes_append, ← h.current_eq]
  rfl

theorem size_eq (h : s.At source before after) :
    source.utf8ByteSize = s.current + Text.bytes after := by
  rw [← Text.bytes_toList, h.toList_eq, Text.bytes_append, h.current_eq]

theorem current_lt_iff (h : s.At source before after) :
    s.current < source.utf8ByteSize ↔ after ≠ [] := by
  rw [h.size_eq]
  constructor
  · rintro hlt rfl
    simp at hlt
  · intro hne
    have hpos := Text.bytes_pos hne
    omega

end At

end Cursor

/-! ## Single characters -/

namespace Scanner

open Cursor

theorem run_atEnd (h : s.At source before after) :
    (atEnd source).run s = Part.some (decide (after = []), s) := by
  have hiff : source.utf8ByteSize ≤ s.current ↔ after = [] := by
    rw [← Nat.not_lt, h.current_lt_iff, not_not]
  simp [atEnd, hiff]

theorem run_ahead (h : s.At source before after) : (ahead source).run s = Part.some (after, s) := by
  have hslice := Text.slice_eq_some (h.toList_eq.trans (List.append_nil _).symm)
  rw [← h.current_eq, ← h.size_eq] at hslice
  simp [ahead, hslice]

theorem run_peek (h : s.At source before after) :
    (peek source).run s = Part.some (after.head?.getD '\x00', s) := by
  simp [peek, run_ahead h]

theorem run_peekNext (h : s.At source before after) :
    (peekNext source).run s = Part.some (after.tail.head?.getD '\x00', s) := by
  simp [peekNext, run_ahead h]

theorem run_advance (h : s.At source before (c :: after)) :
    (advance source).run s = Part.some (c, { s with current := s.current + c.utf8Size }) := by
  simp [advance, run_ahead h]

theorem run_skip (h : s.At source before (c :: after)) :
    (skip source).run s = Part.some ((), { s with current := s.current + c.utf8Size }) := by
  simp [skip, run_advance h]

theorem run_takeIf_of_eq (h : s.At source before (c :: after)) (hc : c ≠ '\n') :
    (takeIf source c).run s = Part.some (true, s.read [c]) := by
  rw [read_of_ne_feed s hc]
  simp [takeIf, run_atEnd h, run_peek h]

/-- At the end nothing is expected, though the end looks like a null character. -/
theorem run_takeIf_of_ne (h : s.At source before after) (hc : after.head? ≠ some c) :
    (takeIf source c).run s = Part.some (false, s) := by
  cases after with
  | nil => simp [takeIf, run_atEnd h]
  | cons d after =>
      have hd : d ≠ c := by simpa using hc
      simp [takeIf, run_atEnd h, run_peek h, hd]

/-! ## Runs of characters -/

theorem run_loopWhile_of_false {test : Scanner σ Bool} {body : Scanner σ Unit}
    (htest : test.run s = Part.some (false, s)) : (loopWhile test body).run s = Part.some ((), s) := by
  refine Part.eq_some_iff.mpr (PFun.fix_stop ?_)
  simp [htest]

theorem run_loopWhile_of_true {test : Scanner σ Bool} {body : Scanner σ Unit} {t : Cursor σ}
    (htest : test.run s = Part.some (true, s)) (hbody : body.run s = Part.some ((), t)) :
    (loopWhile test body).run s = (loopWhile test body).run t := by
  refine PFun.fix_fwd_eq ?_
  simp [htest, hbody]

/-- A loop that tests the next character and reads it. It stops at the end of the text. -/
theorem run_loopWhile {p : Char → Bool} {test : Scanner σ Bool} {body : Scanner σ Unit}
    (htest : ∀ (s : Cursor σ) before after, s.At source before after →
      test.run s = Part.some (after.head?.any p, s))
    (hbody : ∀ (s : Cursor σ) before c after, s.At source before (c :: after) → p c = true →
      body.run s = Part.some ((), s.read [c]))
    (h : s.At source before after) :
    (loopWhile test body).run s = Part.some ((), s.read (after.takeWhile p)) := by
  induction after generalizing s before with
  | nil => exact run_loopWhile_of_false (htest s _ _ h)
  | cons c after ih =>
      have hrun := htest s _ _ h
      rw [List.head?_cons, Option.any_some] at hrun
      cases hc : p c with
      | false =>
          rw [hc] at hrun
          rw [run_loopWhile_of_false hrun, List.takeWhile_cons_of_neg (by simp [hc]), read_nil]
      | true =>
          rw [hc] at hrun
          have hnext : (s.read [c]).At source (before ++ [c]) after := h.read
          rw [run_loopWhile_of_true hrun (hbody s _ _ _ h hc), ih hnext, read_read,
            List.takeWhile_cons_of_pos hc, List.singleton_append]

theorem run_takeWhile {p : Char → Bool} (hnull : p '\x00' = false) (hfeed : p '\n' = false)
    (h : s.At source before after) :
    (takeWhile source p).run s = Part.some ((), s.read (after.takeWhile p)) := by
  refine run_loopWhile ?_ ?_ h
  case refine_1 =>
    intro s before after h
    cases after <;> simp [run_peek h, hnull]
  case refine_2 =>
    intro s before c after h hc
    have hne : c ≠ '\n' := by
      rintro rfl
      exact absurd hc (by simp [hfeed])
    rw [run_skip h, read_of_ne_feed s hne]

theorem run_comment (h : s.At source before after) :
    (comment source).run s = Part.some ((), s.read (after.takeWhile (· != '\n'))) := by
  refine run_loopWhile ?_ ?_ h
  case refine_1 =>
    intro s before after h
    cases after <;> simp [run_peek h, run_atEnd h]
  case refine_2 =>
    intro s before c after h hc
    rw [run_skip h, read_of_ne_feed s (by simpa using hc)]

theorem run_stringBody (h : s.At source before after) :
    (stringBody source).run s = Part.some ((), s.read (after.takeWhile (· != '"'))) := by
  refine run_loopWhile ?_ ?_ h
  case refine_1 =>
    intro s before after h
    cases after <;> simp [run_peek h, run_atEnd h]
  case refine_2 =>
    intro s before c after h _
    by_cases hc : c = '\n'
    · subst hc
      have hfeed : ({ s with line := s.line + 1 } : Cursor σ).At source before ('\n' :: after) :=
        ⟨h.toList_eq, h.current_eq⟩
      simp [run_peek h, feed, run_skip hfeed, Cursor.read, Text.newlines]
    · simp [run_peek h, hc, run_skip h, read_of_ne_feed s hc]

/-! ## Tokens -/

theorem run_lexeme (h : s.At source before (w ++ after)) :
    (lexeme source).run (s.begin.read w) = Part.some (String.ofList w, s.begin.read w) := by
  have hslice := Text.slice_eq_some (h.toList_eq.trans (List.append_assoc ..).symm)
  rw [← h.current_eq] at hslice
  simp [lexeme, Cursor.begin, Cursor.read, hslice]

theorem run_pushToken (h : s.At source before (w ++ after)) (kind : Kind)
    (literal : Option Literal) (line : Nat) :
    (pushToken source kind literal line).run (s.begin.read w)
      = Part.some ((), { s.begin.read w with
          tokens := s.tokens.push ⟨kind, String.ofList w, literal, line⟩ }) := by
  simp only [pushToken, StateT.run_bind, run_lexeme h, Part.bind_eq_bind, Part.bind_some]
  rfl

theorem run_addToken (h : s.At source before (w ++ after)) (hw : '\n' ∉ w) (kind : Kind) :
    (addToken source kind).run (s.begin.read w)
      = Part.some ((), { s.begin.read w with
          tokens := s.tokens.push ⟨kind, String.ofList w, none, s.line⟩ }) := by
  have hline : (s.begin.read w).line = s.line := line_read_of_feed_not_mem hw
  simp [addToken, run_pushToken h, hline]

end Scanner

end LoxLexis
