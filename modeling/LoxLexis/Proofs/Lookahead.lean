import LoxLexis.Proofs.Piece.Joining
import Mathlib.Data.List.DropRight

/-!
# Bounded lookahead

A scan decides where a piece ends by the character behind it, and for a whole number by
two. So whatever text is added behind a source, only its last piece can change, or its
last two if these are a whole number and the point behind it (`Unsettled`). All tokens
and faults before them are found again, on the same lines (`prefix_analyze_append`).
-/

namespace LoxLexis

def Cause.isStray : Cause → Bool
  | .strayCharacter _ => true
  | .unclosedString => false

/-! ## What more text can change -/

/-- The pieces at the end of a text that another text behind it may still change. A stray
character is never among them. -/
inductive Unsettled : List Piece → Prop
  | nothing : Unsettled []
  | last {p : Piece} : (∀ c, p ≠ .stray c) → Unsettled [p]
  | point {n : Numeral} : n.fraction = [] → Unsettled [.number n, .symbol .dot]

namespace Piece

theorem stopsAt_append_of_ne_nil {p : Piece} {rest : List Char} (h : p.StopsAt rest)
    (hne : rest ≠ []) (hpoint : ∀ n, p = number n → n.fraction = [] → rest ≠ ['.'])
    (more : List Char) : p.StopsAt (rest ++ more) := by
  obtain ⟨c, rest, rfl⟩ := List.exists_cons_of_ne_nil hne
  cases p with
  | number n =>
      refine ⟨h.head, ?_⟩
      intro d after hf heq
      obtain ⟨hc, heq⟩ := List.cons.inj heq
      cases rest with
      | nil => exact absurd (congrArg (fun c => [c]) hc) (hpoint n rfl hf)
      | cons e rest =>
          obtain ⟨rfl, -⟩ := List.cons.inj heq
          exact h.point e rest hf (congrArg (· :: e :: rest) hc)
  | unclosed body => exact absurd h hne
  | comment | symbol | word => exact h
  | blank | quoted | stray => trivial

end Piece

/-- The pieces stay in front of the text, whatever follows, and none is an open quote. -/
structure Settled (front : List Piece) (s : List Char) : Prop where
  stays : ∀ more, front <+: pieces (s ++ more)
  closed : ∀ p ∈ front, p.cause? ≠ some .unclosedString

theorem Settled.nil (s : List Char) : Settled [] s :=
  ⟨fun _ => List.nil_prefix, by simp⟩

theorem Settled.cons {p : Piece} {front : List Piece} {rest : List Char} (hp : p.Sound)
    (hstops : ∀ more, p.StopsAt (rest ++ more)) (h : Settled front rest) :
    Settled (p :: front) (p.text ++ rest) := by
  constructor
  · intro more
    rw [List.append_assoc, pieces_text_append hp (hstops more)]
    exact (List.prefix_cons_inj p).mpr (h.stays more)
  · refine List.forall_mem_cons.mpr ⟨fun hopen => ?_, h.closed⟩
    obtain ⟨body, rfl⟩ := Piece.cause?_eq_unclosedString_iff.mp hopen
    -- an open quote stops at the end only
    exact absurd (hstops ['"']) (by simp [Piece.StopsAt])

/-- The induction adds a piece in front of the rest: it is settled too unless it is the
last, or a whole number with nothing but a point behind it. -/
theorem Tiles.exists_settled {ps : List Piece} {s : List Char} (h : Tiles ps s) :
    ∃ front back, ps = front ++ back ∧ Settled front s ∧ Unsettled back := by
  induction h with
  | nil => exact ⟨[], [], rfl, .nil [], .nothing⟩
  | @cons p ps rest hp hstop hps ih =>
      have hkeep (hstops : ∀ more, p.StopsAt (rest ++ more)) :
          ∃ front back, p :: ps = front ++ back ∧ Settled front (p.text ++ rest) ∧
            Unsettled back := by
        obtain ⟨front, back, rfl, hfront, hback⟩ := ih
        exact ⟨p :: front, back, rfl, hfront.cons hp hstops, hback⟩
      by_cases hne : rest = []
      · subst hne
        obtain rfl : ps = [] := hps.pieces_eq.symm.trans pieces_nil
        by_cases hstray : ∃ c, p = .stray c
        · obtain ⟨c, rfl⟩ := hstray
          exact hkeep fun _ => trivial
        · exact ⟨[], [p], rfl, .nil _, .last (not_exists.mp hstray)⟩
      · by_cases hpoint : ∃ n, p = .number n ∧ n.fraction = [] ∧ rest = ['.']
        · obtain ⟨n, rfl, hf, rfl⟩ := hpoint
          have hdot : pieces ['.'] = [.symbol .dot] := pieces_text (p := .symbol .dot) trivial
          obtain rfl : ps = [.symbol .dot] := hps.pieces_eq.symm.trans hdot
          exact ⟨[], _, rfl, .nil _, .point hf⟩
        · refine hkeep (Piece.stopsAt_append_of_ne_nil hstop hne ?_)
          exact fun n hn hf hrest => hpoint ⟨n, hn, hf, hrest⟩

theorem Settled.filter_isStray_found {front : List Piece} {s : List Char}
    (h : Settled front s) (before : List Char) :
    (found Piece.fault? before front).filter (·.cause.isStray) = found Piece.fault? before front := by
  rw [List.filter_eq_self]
  intro f hf
  obtain ⟨b, p, hp, hfault⟩ := mem_found Piece.fault? hf
  have hcause : p.cause? = some f.cause := by
    rw [← p.map_cause_fault? (lineAt b), hfault, Option.map_some]
  have hclosed := h.closed p hp
  rw [hcause] at hclosed
  cases hf : f.cause with
  | strayCharacter c => rfl
  | unclosedString => exact absurd (congrArg some hf) hclosed

namespace Unsettled

variable {back : List Piece} (h : Unsettled back)

include h

theorem length_le : back.length ≤ 2 := by
  cases h with
  | nothing => exact Nat.zero_le 2
  | last => exact Nat.le_succ 1
  | point => exact Nat.le_refl 2

theorem length_le_one {front : List Piece} {s : List Char}
    (hs : (front ++ back).flatMap Piece.text = s) (hlast : s.getLast? ≠ some '.') :
    back.length ≤ 1 := by
  cases h with
  | nothing => exact Nat.zero_le 1
  | last => exact Nat.le_refl 1
  | @point n hf =>
      refine absurd ?_ hlast
      rw [← hs, List.flatMap_append]
      simp [Piece.text, Symbol.spelling]

theorem filter_isStray_found (before : List Char) :
    (found Piece.fault? before back).filter (·.cause.isStray) = [] := by
  cases h with
  | nothing => rfl
  | last hstray =>
      rename_i p
      cases p with
      | stray c => exact absurd rfl (hstray c)
      | unclosed body => rfl
      | blank | comment | symbol | quoted | number | word => rfl
  | point => rfl

end Unsettled

/-! ## Main result -/

theorem length_found_le {β : Type} (f : Nat → Piece → Option β) (before : List Char)
    (ps : List Piece) : (found f before ps).length ≤ ps.length := by
  calc (found f before ps).length ≤ (placed before ps).length := List.length_filterMap_le _ _
    _ = ps.length := by rw [← List.length_map Prod.snd, map_snd_placed]

theorem prefix_found {β : Type} (f : Nat → Piece → Option β) (before : List Char)
    {ps qs : List Piece} (h : ps <+: qs) : found f before ps <+: found f before qs := by
  obtain ⟨rs, rfl⟩ := h
  rw [found_append]
  exact List.prefix_append _ _

/-- All but the last elements, if those are no more than `k`, are the first of a list that
begins with the front. -/
theorem rdrop_prefix_of_length_le {α : Type} {front back whole : List α} {k : Nat}
    (hback : back.length ≤ k) (hfront : front <+: whole) :
    (front ++ back).rdrop k <+: whole := by
  rw [List.rdrop, List.take_append_of_le_length (by rw [List.length_append]; omega)]
  exact (List.take_prefix _ _).trans hfront

/-- Text behind a source changes its last token at most, or the last two if the source
ends with a point; and no stray character. -/
theorem prefix_analyze_append (source more : String) :
    ((analyze source).tokens.filter fun t => !t.isEof).rdrop 2
      <+: (analyze (source ++ more)).tokens ∧
    (source.toList.getLast? ≠ some '.' →
      ((analyze source).tokens.filter fun t => !t.isEof).rdrop 1
        <+: (analyze (source ++ more)).tokens) ∧
    (analyze source).faults.filter (·.cause.isStray) <+: (analyze (source ++ more)).faults := by
  obtain ⟨front, back, hps, hfront, hback⟩ := (tiles_pieces source.toList).exists_settled
  have hts : (analyze source).tokens.filter (fun t => !t.isEof)
      = found Piece.token? [] front ++ found Piece.token? (front.flatMap Piece.text) back := by
    rw [filter_isEof_tokens, hps, found_append, List.nil_append]
  have hstays : front <+: pieces (source ++ more).toList := by
    rw [String.toList_append]
    exact hfront.stays more.toList
  have htokens : found Piece.token? [] front <+: (analyze (source ++ more)).tokens := by
    rw [analyze_eq_found]
    exact (prefix_found Piece.token? [] hstays).trans (List.prefix_append _ _)
  refine ⟨?_, fun hlast => ?_, ?_⟩
  · rw [hts]
    exact rdrop_prefix_of_length_le ((length_found_le _ _ _).trans hback.length_le) htokens
  · have hone : back.length ≤ 1 :=
      hback.length_le_one (hps ▸ flatMap_text_pieces source.toList) hlast
    rw [hts]
    exact rdrop_prefix_of_length_le ((length_found_le _ _ _).trans hone) htokens
  · have hfaults (s : String) :
        (analyze s).faults = found Piece.fault? [] (pieces s.toList) := by
      rw [analyze_eq_found]
    rw [hfaults, hfaults, hps, found_append, List.filter_append, hfront.filter_isStray_found,
      hback.filter_isStray_found, List.append_nil]
    exact prefix_found Piece.fault? [] hstays

/-- The number goes on behind its point; what is before it stays. -/
theorem prefix_analyze_append_number :
    "@\na=1".toList.getLast? ≠ some '.' ∧
    [⟨.identifier, "a", none, 2⟩, ⟨.symbol .equal, "=", none, 2⟩]
      <+: (analyze ("@\na=1" ++ ".5")).tokens ∧
    [⟨.strayCharacter '@', 1⟩] <+: (analyze ("@\na=1" ++ ".5")).faults := by
  have hlast : "@\na=1".toList.getLast? ≠ some '.' := by decide
  obtain ⟨-, htokens, hfaults⟩ := prefix_analyze_append "@\na=1" ".5"
  have hfront : ((analyze "@\na=1").tokens.filter fun t => !t.isEof).rdrop 1
      = [⟨.identifier, "a", none, 2⟩, ⟨.symbol .equal, "=", none, 2⟩] := by decide +kernel
  have hstray : (analyze "@\na=1").faults.filter (·.cause.isStray)
      = [⟨.strayCharacter '@', 1⟩] := by decide +kernel
  have hprefix := htokens hlast
  rw [hfront] at hprefix
  rw [hstray] at hfaults
  exact ⟨hlast, hprefix, hfaults⟩

end LoxLexis
