import LoxLexis.Piece.Basic
import Mathlib.Data.List.TakeWhile

/-!
# Where a piece ends

Two conditions say which piece stands at the front of a text, and where it ends,
without mention of how it is found:

* `Sound`: the characters of the piece are ones that a piece of its sort may have;
* `StopsAt`: what follows the piece does not belong to it. One character decides
  this, or two if the piece is a numeral without a fraction.

`cut_of_sound` and `sound_and_stopsAt_cut` are the two directions of one statement:
`cut` gives the one sound piece that stops at what is left. Everything else about
`cut` is read off it.
-/

namespace LoxLexis

/-! ## Runs of characters -/

section Runs

variable {α : Type} {p : α → Bool} {w rest : List α}

theorem takeWhile_append_of_stop (hw : ∀ x ∈ w, p x = true)
    (hr : ∀ x ∈ rest.head?, p x = false) : (w ++ rest).takeWhile p = w := by
  rw [List.takeWhile_append_of_pos hw]
  cases rest with
  | nil => simp
  | cons a as =>
      have ha : p a = false := hr a (by simp)
      rw [List.takeWhile_cons_of_neg (by simp [ha]), List.append_nil]

theorem dropWhile_append_of_stop (hw : ∀ x ∈ w, p x = true)
    (hr : ∀ x ∈ rest.head?, p x = false) : (w ++ rest).dropWhile p = rest := by
  rw [List.dropWhile_append_of_pos hw]
  cases rest with
  | nil => rfl
  | cons a as =>
      have ha : p a = false := hr a (by simp)
      rw [List.dropWhile_cons_of_neg (by simp [ha])]

theorem head_dropWhile_eq_false (p : α → Bool) (s : List α) :
    ∀ x ∈ (s.dropWhile p).head?, p x = false := by
  intro x hx
  have h := List.head?_dropWhile_not p s
  rw [Option.mem_def] at hx
  rw [hx] at h
  simpa using h

/-- What stands before the first occurrence of an element, and what stands after it. -/
theorem append_cons_inj_of_not_mem {a : α} {v w r s : List α} (hv : a ∉ v) (hw : a ∉ w)
    (h : v ++ a :: r = w ++ a :: s) : v = w ∧ r = s := by
  rcases List.append_eq_append_iff.mp h with ⟨u, rfl, hu⟩ | ⟨u, rfl, hu⟩
  · cases u with
    | nil => exact ⟨(List.append_nil v).symm, (List.cons.inj hu).2⟩
    | cons b u =>
        obtain ⟨rfl, -⟩ := List.cons.inj hu
        exact absurd (by simp) hw
  · cases u with
    | nil => exact ⟨List.append_nil w, (List.cons.inj hu).2.symm⟩
    | cons b u =>
        obtain ⟨rfl, -⟩ := List.cons.inj hu
        exact absurd (by simp) hv

/-- What stands after the last occurrence of an element, and what stands before it. -/
theorem append_cons_inj_of_not_mem_right {a : α} {v w r s : List α} (hr : a ∉ r) (hs : a ∉ s)
    (h : v ++ a :: r = w ++ a :: s) : v = w ∧ r = s := by
  have hback : r.reverse ++ a :: v.reverse = s.reverse ++ a :: w.reverse := by
    simpa using congrArg List.reverse h
  obtain ⟨hafter, hbefore⟩ := append_cons_inj_of_not_mem (by simpa using hr) (by simpa using hs)
    hback
  exact ⟨List.reverse_inj.mp hbefore, List.reverse_inj.mp hafter⟩

end Runs

/-! ## Numerals -/

namespace Numeral

/-- Digits on both sides of the point, at least one of them before it. -/
structure Sound (n : Numeral) : Prop where
  whole_ne_nil : n.whole ≠ []
  whole_isDigit : ∀ d ∈ n.whole, d.isDigit = true
  fraction_isDigit : ∀ d ∈ n.fraction, d.isDigit = true

/-- No digit follows, and no point with a digit after it if there is no fraction
yet. -/
structure StopsAt (n : Numeral) (rest : List Char) : Prop where
  head : ∀ c ∈ rest.head?, c.isDigit = false
  point : ∀ d after, n.fraction = [] → rest = '.' :: d :: after → d.isDigit = false

theorem sound_cut {c : Char} (hc : c.isDigit = true) (rest : List Char) :
    (cut (c :: rest)).1.Sound := by
  have hne : (c :: rest).takeWhile Char.isDigit ≠ [] := by
    rw [List.takeWhile_cons_of_pos hc]
    exact List.cons_ne_nil _ _
  have hw : ∀ d ∈ (c :: rest).takeWhile Char.isDigit, d.isDigit = true :=
    fun d hd => List.mem_takeWhile_imp hd
  unfold cut
  split
  · rename_i after h
    dsimp only
    split
    · exact ⟨hne, hw, by simp⟩
    · exact ⟨hne, hw, fun d hd => List.mem_takeWhile_imp hd⟩
  · exact ⟨hne, hw, by simp⟩

theorem stopsAt_cut (s : List Char) : (cut s).1.StopsAt (cut s).2 := by
  unfold cut
  split
  · rename_i after h
    dsimp only
    split
    · rename_i hf
      -- the point stays outside because no digit follows it
      refine ⟨by simp, ?_⟩
      rintro d after' - heq
      obtain ⟨-, rfl⟩ := List.cons.inj heq
      by_contra hd
      rw [List.takeWhile_cons_of_pos (by simpa using hd)] at hf
      exact List.cons_ne_nil _ _ hf
    · rename_i hf
      exact ⟨head_dropWhile_eq_false _ _, fun _ _ h0 _ => absurd h0 hf⟩
  · rename_i hpoint
    refine ⟨head_dropWhile_eq_false _ _, ?_⟩
    intro d after _ heq
    exact absurd heq (hpoint _)

theorem text_eq_cons {n : Numeral} (hn : n.Sound) :
    ∃ d w, n.text = d :: w ∧ d.isDigit = true := by
  obtain ⟨d, ds, hds⟩ := List.exists_cons_of_ne_nil hn.whole_ne_nil
  have hd : d.isDigit = true := hn.whole_isDigit d (by simp [hds])
  unfold text
  split
  · exact ⟨d, ds, hds, hd⟩
  · exact ⟨d, ds ++ '.' :: n.fraction, by rw [hds, List.cons_append], hd⟩

theorem mem_text {n : Numeral} (hn : n.Sound) {c : Char} (hc : c ∈ n.text) :
    c.isDigit = true ∨ c = '.' := by
  unfold text at hc
  split at hc
  · exact Or.inl (hn.whole_isDigit c hc)
  · rw [List.mem_append, List.mem_cons] at hc
    rcases hc with hc | hc | hc
    · exact Or.inl (hn.whole_isDigit c hc)
    · exact Or.inr hc
    · exact Or.inl (hn.fraction_isDigit c hc)

/-- `cut` gives back a sound numeral that stops at what follows. -/
theorem cut_text_append {n : Numeral} {rest : List Char} (hn : n.Sound)
    (hr : n.StopsAt rest) : cut (n.text ++ rest) = (n, rest) := by
  obtain ⟨whole, fraction⟩ := n
  have hpoint : ('.').isDigit = false := by decide
  by_cases hf : fraction = []
  · subst hf
    have htake := takeWhile_append_of_stop hn.whole_isDigit hr.head
    have hdrop := dropWhile_append_of_stop hn.whole_isDigit hr.head
    simp only [cut, text, if_true, htake, hdrop]
    split
    · -- a point follows, but no digit behind it
      rename_i after
      have hstop : after.takeWhile Char.isDigit = [] := by
        cases after with
        | nil => rfl
        | cons d after =>
            have hd := hr.point d after rfl rfl
            rw [List.takeWhile_cons_of_neg (by simp [hd])]
      simp [hstop]
    · rfl
  · have hstop : ∀ x ∈ ('.' :: (fraction ++ rest)).head?, x.isDigit = false := by
      simp [hpoint]
    have htake := takeWhile_append_of_stop hn.whole_isDigit hstop
    have hdrop := dropWhile_append_of_stop hn.whole_isDigit hstop
    have hfraction := takeWhile_append_of_stop hn.fraction_isDigit hr.head
    have hafter := dropWhile_append_of_stop hn.fraction_isDigit hr.head
    simp only at hf htake hdrop hfraction hafter
    simp [cut, text, hf, htake, hdrop, hfraction, hafter]

theorem cut_text {n : Numeral} (hn : n.Sound) : cut n.text = (n, []) := by
  have hstop : n.StopsAt [] := ⟨by simp, by simp⟩
  simpa using cut_text_append hn hstop

theorem eq_of_text_eq {n m : Numeral} (hn : n.Sound) (hm : m.Sound)
    (h : n.text = m.text) : n = m := by
  have hcut := cut_text hn
  rw [h, cut_text hm] at hcut
  exact (congrArg Prod.fst hcut).symm

end Numeral

/-! ## Classes of characters -/

theorem isBlank_iff {c : Char} :
    isBlank c = true ↔ c = ' ' ∨ c = '\r' ∨ c = '\t' ∨ c = '\n' := by
  simp [isBlank, or_assoc]

theorem isBlank_eq_false_of_isDigit {c : Char} (h : c.isDigit = true) :
    isBlank c = false := by
  rw [← Bool.not_eq_true, isBlank_iff]
  rintro (rfl | rfl | rfl | rfl) <;> exact absurd h (by decide)

theorem isBlank_eq_false_of_isWordStart {c : Char} (h : isWordStart c = true) :
    isBlank c = false := by
  rw [← Bool.not_eq_true, isBlank_iff]
  rintro (rfl | rfl | rfl | rfl) <;> exact absurd h (by decide)

theorem isBlank_eq_false_of_isWordChar {c : Char} (h : isWordChar c = true) :
    isBlank c = false := by
  rcases Bool.or_eq_true_iff.mp h with h | h
  · exact isBlank_eq_false_of_isWordStart h
  · exact isBlank_eq_false_of_isDigit h

theorem isDigit_eq_false_of_isWordStart {c : Char} (h : isWordStart c = true) :
    c.isDigit = false := by
  simp only [isWordStart, Bool.or_eq_true, beq_iff_eq] at h
  rcases h with h | rfl
  · rw [← Bool.not_eq_true]
    intro hd
    -- both ranges of letters lie above the digits
    have hletter : 'A'.val ≤ c.val ∨ 'a'.val ≤ c.val := by
      rcases Bool.or_eq_true_iff.mp h with h | h
      · exact Or.inl (of_decide_eq_true h).1
      · exact Or.inr (of_decide_eq_true (Bool.and_eq_true_iff.mp h).1)
    have hdigit : c.val ≤ '9'.val := of_decide_eq_true (Bool.and_eq_true_iff.mp hd).2
    rcases hletter with h | h <;> exact absurd (UInt32.le_trans h hdigit) (by decide)
  · decide

/-- No sort of piece but a stray character begins with such a character. -/
structure StartsNothing (c : Char) : Prop where
  blank : isBlank c = false
  quote : c ≠ '"'
  digit : c.isDigit = false
  word : isWordStart c = false
  symbol : Symbol.single? c = none

namespace Symbol

/-- Every symbol is one character, or such a symbol with an equals sign. -/
theorem spelling_cases (s : Symbol) :
    (∃ c, s.spelling = [c]) ∨
      ∃ (t : Symbol) (c : Char), t.spelling = [c] ∧ t.withEqual? = some s := by
  cases s
  case bangEqual => exact Or.inr ⟨bang, '!', rfl, rfl⟩
  case equalEqual => exact Or.inr ⟨equal, '=', rfl, rfl⟩
  case greaterEqual => exact Or.inr ⟨greater, '>', rfl, rfl⟩
  case lessEqual => exact Or.inr ⟨less, '<', rfl, rfl⟩
  all_goals exact Or.inl ⟨_, rfl⟩

/-- The first character of a symbol starts neither a blank, a quoted text, a
numeral nor a word. -/
theorem spelling_head {s : Symbol} {c : Char} {w : List Char}
    (h : s.spelling = c :: w) :
    isBlank c = false ∧ c ≠ '"' ∧ c.isDigit = false ∧ isWordStart c = false := by
  cases s <;> obtain ⟨rfl, -⟩ := List.cons.inj h <;> decide

theorem eq_slash_of_spelling {s : Symbol} (h : s.spelling = ['/']) : s = slash := by
  cases s <;> first | rfl | simp [spelling] at h

end Symbol

/-! ## Pieces -/

namespace Piece

/-- The characters of the piece are ones that a piece of its sort may have. -/
def Sound : Piece → Prop
  | blank c => isBlank c = true
  | comment body => '\n' ∉ body
  | symbol _ => True
  | quoted body => '"' ∉ body
  | number n => n.Sound
  | word letters =>
      ∃ c cs, letters = c :: cs ∧ isWordStart c = true ∧ ∀ x ∈ cs, isWordChar x = true
  | stray c => StartsNothing c
  | unclosed body => '"' ∉ body

/-- What follows does not belong to the piece. -/
def StopsAt : Piece → List Char → Prop
  | comment _, rest => ∀ c ∈ rest.head?, c = '\n'
  | symbol s, rest =>
      ∀ c ∈ rest.head?, (c = '=' → s.withEqual? = none) ∧ (c = '/' → s ≠ .slash)
  | number n, rest => n.StopsAt rest
  | word _, rest => ∀ c ∈ rest.head?, isWordChar c = false
  | unclosed _, rest => rest = []
  | _, _ => True

theorem text_ne_nil {p : Piece} (hp : p.Sound) : p.text ≠ [] := by
  cases p with
  | symbol s => cases s <;> exact List.cons_ne_nil _ _
  | number n =>
      obtain ⟨d, w, hn, -⟩ := Numeral.text_eq_cons hp
      rw [text, hn]
      exact List.cons_ne_nil _ _
  | word letters =>
      obtain ⟨c, cs, rfl, -⟩ := hp
      exact List.cons_ne_nil _ _
  | blank | comment | quoted | stray | unclosed => exact List.cons_ne_nil _ _

/-- Symbols, numerals, words and stray characters hold no blank. -/
theorem eq_of_isBlank_mem_text {p : Piece} (hp : p.Sound) {c : Char} (hc : isBlank c = true)
    (hmem : c ∈ p.text) :
    p = blank c ∨ (∃ body, p = comment body) ∨ (∃ body, p = quoted body) ∨
      ∃ body, p = unclosed body := by
  cases p with
  | blank d => exact Or.inl (congrArg blank (List.mem_singleton.mp hmem).symm)
  | comment body => exact Or.inr (Or.inl ⟨body, rfl⟩)
  | quoted body => exact Or.inr (Or.inr (Or.inl ⟨body, rfl⟩))
  | unclosed body => exact Or.inr (Or.inr (Or.inr ⟨body, rfl⟩))
  | symbol s =>
      have htable : s.spelling.all (fun d => !isBlank d) = true := by cases s <;> rfl
      exact absurd hc (by simpa using List.all_eq_true.mp htable c hmem)
  | number n =>
      rcases Numeral.mem_text hp hmem with hd | rfl
      · exact absurd hc (by simp [isBlank_eq_false_of_isDigit hd])
      · exact absurd hc (by decide)
  | word letters =>
      obtain ⟨d, ds, rfl, hstart, hds⟩ := hp
      rcases List.mem_cons.mp hmem with rfl | hmem
      · exact absurd hc (by simp [isBlank_eq_false_of_isWordStart hstart])
      · exact absurd hc (by simp [isBlank_eq_false_of_isWordChar (hds c hmem)])
  | stray d =>
      obtain rfl := List.mem_singleton.mp hmem
      exact absurd hc (by simp [hp.blank])

/-- Every piece stops at the end of the text. -/
theorem stopsAt_nil (p : Piece) : p.StopsAt [] := by
  cases p with
  | number n => exact ⟨by simp, by simp⟩
  | comment | symbol | word => simp [StopsAt]
  | blank | quoted | stray => trivial
  | unclosed => rfl

/-! ### One equation for each way to begin -/

theorem cut_of_isBlank {c : Char} (h : isBlank c = true) (rest : List Char) :
    cut c rest = (blank c, rest) := by
  unfold cut
  rw [if_pos h]

theorem cut_quote (rest : List Char) : cut '"' rest = cutQuoted rest := by
  unfold cut
  rw [if_neg (by decide), if_pos rfl]

theorem cut_of_isDigit {c : Char} (h : c.isDigit = true) (rest : List Char) :
    cut c rest = (number (Numeral.cut (c :: rest)).1, (Numeral.cut (c :: rest)).2) := by
  have hq : c ≠ '"' := by
    rintro rfl
    exact absurd h (by decide)
  unfold cut
  rw [if_neg (by simp [isBlank_eq_false_of_isDigit h]), if_neg hq, if_pos h]

theorem cut_of_isWordStart {c : Char} (h : isWordStart c = true) (rest : List Char) :
    cut c rest = (word (c :: rest.takeWhile isWordChar), rest.dropWhile isWordChar) := by
  have hq : c ≠ '"' := by
    rintro rfl
    exact absurd h (by decide)
  unfold cut
  rw [if_neg (by simp [isBlank_eq_false_of_isWordStart h]), if_neg hq,
    if_neg (by simp [isDigit_eq_false_of_isWordStart h]), if_pos h]

theorem cut_slash_slash (after : List Char) :
    cut '/' ('/' :: after)
      = (comment (after.takeWhile (· != '\n')), after.dropWhile (· != '\n')) := by
  unfold cut
  rw [if_neg (by decide), if_neg (by decide), if_neg (by decide), if_neg (by decide)]
  rfl

theorem cut_of_symbol {s : Symbol} {c : Char} (hs : s.spelling = [c]) {rest : List Char}
    (hr : s = .slash → rest.head? ≠ some '/') : cut c rest = cutSymbol s rest := by
  obtain ⟨hb, hq, hd, hw⟩ := Symbol.spelling_head hs
  unfold cut
  rw [if_neg (by simp [hb]), if_neg hq, if_neg (by simp [hd]), if_neg (by simp [hw])]
  split
  · -- two slashes, which the hypothesis on the rest rules out
    exact absurd rfl (hr (Symbol.eq_slash_of_spelling hs))
  · simp [Symbol.single?_eq_some_iff.2 hs]

theorem cut_of_startsNothing {c : Char} (h : StartsNothing c) (rest : List Char) :
    cut c rest = (stray c, rest) := by
  unfold cut
  rw [if_neg (by simp [h.blank]), if_neg h.quote, if_neg (by simp [h.digit]),
    if_neg (by simp [h.word])]
  split
  · exact absurd (h.symbol.symm.trans (Symbol.single?_eq_some_iff.2 rfl))
      (Option.some_ne_none Symbol.slash).symm
  · simp [h.symbol]

/-! ### What is cut off is sound and ends where it should -/

theorem sound_cutQuoted (rest : List Char) : (cutQuoted rest).1.Sound := by
  unfold cutQuoted
  split
  · rename_i h
    rw [List.dropWhile_eq_nil_iff] at h
    intro hq
    exact absurd (h '"' hq) (by simp)
  · intro hq
    exact absurd (List.mem_takeWhile_imp hq) (by simp)

theorem stopsAt_cutQuoted (rest : List Char) :
    (cutQuoted rest).1.StopsAt (cutQuoted rest).2 := by
  unfold cutQuoted
  split
  · rfl
  · trivial

theorem sound_cutSymbol (s : Symbol) (rest : List Char) : (cutSymbol s rest).1.Sound := by
  unfold cutSymbol
  split <;> trivial

theorem stopsAt_cutSymbol {s : Symbol} {rest : List Char}
    (hr : s = .slash → rest.head? ≠ some '/') :
    (cutSymbol s rest).1.StopsAt (cutSymbol s rest).2 := by
  unfold cutSymbol
  split
  · rename_i longer after h
    -- a symbol of two characters goes on with nothing
    intro c _
    cases s <;> cases h <;> exact ⟨fun _ => rfl, fun _ => by decide⟩
  · rename_i hlonger
    intro c hc
    constructor
    · rintro rfl
      obtain ⟨after, rfl⟩ := List.head?_eq_some_iff.mp hc
      rw [Option.eq_none_iff_forall_ne_some]
      intro longer h
      exact hlonger longer after h rfl
    · rintro rfl h
      exact hr h hc

/-- The cases follow the order in which `cut` tries the sorts of pieces. -/
theorem sound_and_stopsAt_cut (c : Char) (rest : List Char) :
    (cut c rest).1.Sound ∧ (cut c rest).1.StopsAt (cut c rest).2 := by
  by_cases hb : isBlank c = true
  · rw [cut_of_isBlank hb]
    exact ⟨hb, trivial⟩
  by_cases hq : c = '"'
  · subst hq
    rw [cut_quote]
    exact ⟨sound_cutQuoted rest, stopsAt_cutQuoted rest⟩
  by_cases hd : c.isDigit = true
  · rw [cut_of_isDigit hd]
    exact ⟨Numeral.sound_cut hd rest, Numeral.stopsAt_cut (c :: rest)⟩
  by_cases hw : isWordStart c = true
  · rw [cut_of_isWordStart hw]
    exact ⟨⟨c, _, rfl, hw, fun x hx => List.mem_takeWhile_imp hx⟩,
      head_dropWhile_eq_false isWordChar rest⟩
  by_cases hslash : c = '/' ∧ rest.head? = some '/'
  · obtain ⟨rfl, hr⟩ := hslash
    obtain ⟨after, rfl⟩ := List.head?_eq_some_iff.mp hr
    rw [cut_slash_slash]
    refine ⟨fun hn => absurd (List.mem_takeWhile_imp hn) (by simp), ?_⟩
    intro x hx
    simpa using head_dropWhile_eq_false (· != '\n') after x hx
  cases hs : Symbol.single? c with
  | some s =>
      have hspell := Symbol.single?_eq_some_iff.1 hs
      have hr : s = .slash → rest.head? ≠ some '/' := by
        rintro rfl h
        exact hslash ⟨(List.cons.inj hspell).1.symm, h⟩
      rw [cut_of_symbol hspell hr]
      exact ⟨sound_cutSymbol s rest, stopsAt_cutSymbol hr⟩
  | none =>
      have hc : StartsNothing c :=
        ⟨by simpa using hb, hq, by simpa using hd, by simpa using hw, hs⟩
      rw [cut_of_startsNothing hc]
      exact ⟨hc, trivial⟩

/-! ### A sound piece is cut off where it stops -/

theorem cutQuoted_append {body : List Char} (h : '"' ∉ body) (after : List Char) :
    cutQuoted (body ++ '"' :: after) = (quoted body, after) := by
  have hb : ∀ x ∈ body, (x != '"') = true := by
    intro x hx
    rw [bne_iff_ne]
    rintro rfl
    exact h hx
  have hr : ∀ x ∈ ('"' :: after).head?, (x != '"') = false := by simp
  simp [cutQuoted, takeWhile_append_of_stop hb hr, dropWhile_append_of_stop hb hr]

theorem cutQuoted_unclosed {body : List Char} (h : '"' ∉ body) :
    cutQuoted body = (unclosed body, []) := by
  have hb : body.dropWhile (· != '"') = [] := by
    rw [List.dropWhile_eq_nil_iff]
    intro x hx
    rw [bne_iff_ne]
    rintro rfl
    exact h hx
  simp [cutQuoted, hb]

theorem cutSymbol_of_stopsAt {s : Symbol} {after : List Char}
    (h : (symbol s).StopsAt after) : cutSymbol s after = (symbol s, after) := by
  unfold cutSymbol
  split
  · rename_i longer after hlonger
    have hnone := (h '=' rfl).1 rfl
    rw [hnone] at hlonger
    exact absurd hlonger (Option.some_ne_none longer).symm
  · rfl

/-- A text that is a sound piece and a rest at which the piece stops is cut
there. -/
theorem cut_of_sound {p : Piece} (hp : p.Sound) {after : List Char}
    (hstop : p.StopsAt after) {c : Char} {rest : List Char}
    (htext : c :: rest = p.text ++ after) : cut c rest = (p, after) := by
  cases p with
  | blank b =>
      obtain ⟨rfl, rfl⟩ := List.cons.inj htext
      exact cut_of_isBlank hp _
  | comment body =>
      obtain ⟨rfl, hrest⟩ := List.cons.inj htext
      have hb : ∀ x ∈ body, (x != '\n') = true := by
        intro x hx
        rw [bne_iff_ne]
        rintro rfl
        exact hp hx
      have hr : ∀ x ∈ after.head?, (x != '\n') = false := by
        intro x hx
        simp [hstop x hx]
      rw [hrest]
      show cut '/' ('/' :: (body ++ after)) = _
      rw [cut_slash_slash, takeWhile_append_of_stop hb hr, dropWhile_append_of_stop hb hr]
  | symbol s =>
      rcases Symbol.spelling_cases s with ⟨d, hd⟩ | ⟨t, d, ht, hlonger⟩
      · rw [text, hd] at htext
        obtain ⟨rfl, hrest⟩ := List.cons.inj htext
        have hr : s = .slash → after.head? ≠ some '/' := by
          rintro rfl h
          exact (hstop '/' h).2 rfl rfl
        rw [hrest]
        show cut c after = _
        rw [cut_of_symbol hd hr, cutSymbol_of_stopsAt hstop]
      · rw [text, Symbol.spelling_of_withEqual? hlonger, ht] at htext
        obtain ⟨rfl, hrest⟩ := List.cons.inj htext
        rw [hrest]
        show cut c ('=' :: after) = _
        rw [cut_of_symbol ht (by simp)]
        simp [cutSymbol, hlonger]
  | quoted body =>
      have h : c :: rest = '"' :: (body ++ '"' :: after) := by simpa [text] using htext
      obtain ⟨rfl, rfl⟩ := List.cons.inj h
      rw [cut_quote, cutQuoted_append hp]
  | number n =>
      obtain ⟨d, w, hn, hd⟩ := Numeral.text_eq_cons hp
      obtain ⟨rfl, -⟩ := List.cons.inj (htext.trans (congrArg (· ++ after) hn))
      rw [cut_of_isDigit hd, htext, text, Numeral.cut_text_append hp hstop]
  | word letters =>
      obtain ⟨d, ds, rfl, hd, hds⟩ := hp
      obtain ⟨rfl, hrest⟩ := List.cons.inj htext
      have htake := takeWhile_append_of_stop hds hstop
      have hdrop := dropWhile_append_of_stop hds hstop
      rw [hrest, cut_of_isWordStart hd]
      exact Prod.ext (congrArg (fun ds => word (c :: ds)) htake) hdrop
  | stray d =>
      obtain ⟨rfl, rfl⟩ := List.cons.inj htext
      exact cut_of_startsNothing hp _
  | unclosed body =>
      obtain rfl : after = [] := hstop
      obtain ⟨rfl, hrest⟩ := List.cons.inj (htext.trans (List.append_nil _))
      rw [hrest, cut_quote, cutQuoted_unclosed hp]

/-- A text begins with one sound piece only that stops at the rest. -/
theorem eq_of_text_append_eq {p q : Piece} {rest after : List Char}
    (hp : p.Sound) (hpstop : p.StopsAt rest) (hq : q.Sound) (hqstop : q.StopsAt after)
    (h : p.text ++ rest = q.text ++ after) : p = q ∧ rest = after := by
  obtain ⟨c, w, htext⟩ := List.exists_cons_of_ne_nil (text_ne_nil hp)
  have h1 : c :: (w ++ rest) = p.text ++ rest := by rw [htext, List.cons_append]
  have hcut := cut_of_sound hp hpstop h1
  rw [cut_of_sound hq hqstop (h1.trans h)] at hcut
  exact ⟨(congrArg Prod.fst hcut).symm, (congrArg Prod.snd hcut).symm⟩

end Piece

end LoxLexis
