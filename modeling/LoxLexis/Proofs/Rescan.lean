import LoxLexis.Proofs.Piece.Placement

/-!
# Scanning what was written out

Tokens written out with blanks between them scan as the same tokens.

A lone token is one whose spelling scans, alone, as just that token. All tokens of a
scan are lone (`lone_iff`), and lone tokens may be laid out one after the other with
anything between them that starts with a blank and holds only blanks and whole
comments: the pieces of such a text are those that were put in, since a blank ends
every token.
-/

namespace LoxLexis

/-! ## Lone tokens -/

/-- Alone, the spelling of the token scans without fault as the token. -/
def Lone (t : Token) : Prop :=
  t.lexeme ≠ "" ∧ (analyze t.lexeme).faults = [] ∧
    ∃ line, (analyze t.lexeme).tokens = [t, .eof line]

/-- Blanks and whole comments in any order. -/
inductive Filler : List Char → Prop where
  | nil : Filler []
  | blank {c : Char} {rest : List Char} :
      c ∈ [' ', '\t', '\r', '\n'] → Filler rest → Filler (c :: rest)
  | comment {body rest : List Char} :
      '\n' ∉ body → Filler rest → Filler ('/' :: '/' :: body ++ '\n' :: rest)

/-- What may stand after a token: a blank, and then blanks and whole comments. -/
def Separator (s : String) : Prop :=
  ∃ c rest, c ∈ [' ', '\t', '\r', '\n'] ∧ Filler rest ∧ s.toList = c :: rest

/-- The spellings of tokens, each with a separator after it. -/
def layOut : List (Token × String) → String
  | [] => ""
  | (t, separator) :: rest => t.lexeme ++ separator ++ layOut rest

/-- A piece that makes up the whole text is the only one. -/
theorem eq_singleton_of_flatMap_text {ps : List Piece} (hps : ∀ p ∈ ps, p.Sound)
    {p : Piece} (hp : p ∈ ps) (htext : ps.flatMap Piece.text = p.text) : ps = [p] := by
  obtain ⟨before, after, rfl⟩ := List.append_of_mem hp
  have hnil : ∀ qs : List Piece, (∀ q ∈ qs, q.Sound) → (qs.flatMap Piece.text).length = 0 →
      qs = [] := by
    intro qs hqs hlen
    cases qs with
    | nil => rfl
    | cons q qs =>
        have hq := Piece.text_ne_nil (hqs q List.mem_cons_self)
        rw [List.flatMap_cons, List.length_append] at hlen
        exact absurd (List.eq_nil_of_length_eq_zero (by omega)) hq
  -- no piece is empty, so what stands beside one as long as the text is no piece
  have hlen := congrArg List.length htext
  rw [List.flatMap_append, List.flatMap_cons, List.length_append, List.length_append] at hlen
  have hbefore := hnil before (fun q hq => hps q (by simp [hq])) (by omega)
  have hafter := hnil after (fun q hq => hps q (by simp [hq])) (by omega)
  rw [hbefore, hafter, List.nil_append]

/-- The lone tokens are the sound pieces that are tokens, on the first line. -/
theorem lone_iff {t : Token} : Lone t ↔ ∃ p : Piece, p.Sound ∧ p.token? 1 = some t := by
  constructor
  · rintro ⟨-, -, line, htokens⟩
    have htiles := tiles_pieces t.lexeme.toList
    rw [analyze_eq_found] at htokens
    have hfound : found Piece.token? [] (pieces t.lexeme.toList) = [t] :=
      (List.append_inj' (htokens.trans (List.append_cons [] t [_])) rfl).1
    obtain ⟨b, p, hmem, hp⟩ := mem_found Piece.token? (hfound ▸ List.mem_singleton_self t)
    have htext : p.text = t.lexeme.toList := by
      rw [(Piece.token?_eq_some_iff.mp hp).2.1, String.toList_ofList]
    have hsingle := eq_singleton_of_flatMap_text htiles.sound hmem
      (htiles.flatMap_text.trans htext.symm)
    rw [hsingle, found_cons, found_nil, List.append_nil] at hfound
    exact ⟨p, htiles.sound p hmem, Option.toList_eq_singleton_iff.mp hfound⟩
  · rintro ⟨p, hp, ht⟩
    obtain ⟨hkind, hlexeme, -, -⟩ := Piece.token?_eq_some_iff.mp ht
    have hfault : p.fault? 1 = none := Piece.fault?_eq_none_of_kind? (by simp [hkind]) 1
    rw [Lone, hlexeme, analyze_text hp, ht, hfault]
    refine ⟨?_, rfl, _, rfl⟩
    intro hempty
    have hnil := congrArg String.toList hempty
    rw [String.toList_ofList] at hnil
    exact Piece.text_ne_nil hp hnil

/-- Every token of a scan but the end is lone, once it is moved to the first line. -/
theorem lone_of_mem_tokens {source : String} {t : Token}
    (ht : t ∈ (analyze source).tokens) (heof : t.isEof = false) :
    Lone { t with line := 1 } := by
  rw [analyze_eq_found, List.mem_append, List.mem_singleton] at ht
  rcases ht with ht | rfl
  · obtain ⟨b, p, hmem, hp⟩ := mem_found Piece.token? ht
    obtain ⟨hkind, hlexeme, hliteral, -⟩ := Piece.token?_eq_some_iff.mp hp
    have hsound := sound_of_mem_pieces hmem
    exact lone_iff.mpr
      ⟨p, hsound, Piece.token?_eq_some_iff.mpr ⟨hkind, hlexeme, hliteral, rfl⟩⟩
  · simp [Token.isEof, Token.eof] at heof

/-! ## Laying out -/

theorem isBlank_of_mem {c : Char} (hc : c ∈ [' ', '\t', '\r', '\n']) : isBlank c = true := by
  simp only [List.mem_cons, List.not_mem_nil, or_false] at hc
  rcases hc with rfl | rfl | rfl | rfl <;> rfl

/-- A filler before a tiled text adds only pieces that are neither token nor
fault. -/
theorem tiles_filler {s : List Char} (hs : Filler s) {ps : List Piece} {rest : List Char}
    (hps : Tiles ps rest) :
    ∃ qs, Tiles (qs ++ ps) (s ++ rest) ∧ ∀ q ∈ qs, q.kind? = none ∧ q.cause? = none := by
  induction hs with
  | nil => exact ⟨[], hps, by simp⟩
  | @blank c s hc _ ih =>
      obtain ⟨qs, htiles, hqs⟩ := ih
      refine ⟨.blank c :: qs, .cons (isBlank_of_mem hc) trivial htiles, ?_⟩
      exact List.forall_mem_cons.mpr ⟨⟨rfl, rfl⟩, hqs⟩
  | @comment body s hbody _ ih =>
      obtain ⟨qs, htiles, hqs⟩ := ih
      have hfeed : Tiles (.blank '\n' :: (qs ++ ps)) ('\n' :: (s ++ rest)) :=
        .cons (p := .blank '\n') rfl trivial htiles
      have hcomment := Tiles.cons (p := .comment body) hbody (by simp [Piece.StopsAt]) hfeed
      refine ⟨.comment body :: .blank '\n' :: qs, ?_, ?_⟩
      · simpa [Piece.text] using hcomment
      · exact List.forall_mem_cons.mpr ⟨⟨rfl, rfl⟩, List.forall_mem_cons.mpr ⟨⟨rfl, rfl⟩, hqs⟩⟩

theorem found_token?_eq_nil {qs : List Piece} (hqs : ∀ q ∈ qs, q.kind? = none)
    (before : List Char) : found Piece.token? before qs = [] := by
  rw [List.eq_nil_iff_forall_not_mem]
  intro t ht
  obtain ⟨b, q, hq, hsome⟩ := mem_found Piece.token? ht
  rw [Piece.token?_eq_some_iff, hqs q hq] at hsome
  exact Option.some_ne_none _ hsome.1.symm

theorem found_fault?_eq_nil {qs : List Piece} (hqs : qs.filterMap Piece.cause? = [])
    (before : List Char) : found Piece.fault? before qs = [] := by
  have hmap := map_found Piece.fault? Piece.map_cause_fault? before qs
  rw [hqs] at hmap
  exact List.map_eq_nil_iff.mp hmap

/-- The tokens of a layout, each on the line after the line feeds before it. -/
def laidOut (before : List Char) : List (Token × String) → List Token
  | [] => []
  | (t, separator) :: rest =>
      { t with line := lineAt before }
        :: laidOut (before ++ t.lexeme.toList ++ separator.toList) rest

theorem tiles_layOut {items : List (Token × String)}
    (h : ∀ i ∈ items, Lone i.1 ∧ Separator i.2) :
    ∃ ps, Tiles ps (layOut items).toList ∧
      ∀ before, found Piece.token? before ps = laidOut before items ∧
        found Piece.fault? before ps = [] := by
  induction items with
  | nil => exact ⟨[], .nil, fun _ => ⟨rfl, rfl⟩⟩
  | cons item items ih =>
      obtain ⟨t, separator⟩ := item
      obtain ⟨⟨hlone, hsep⟩, hitems⟩ := List.forall_mem_cons.mp h
      obtain ⟨ps, hps, hfound⟩ := ih hitems
      obtain ⟨p, hp, ht⟩ := lone_iff.mp hlone
      obtain ⟨c, s, hc, hs, hcons⟩ := hsep
      obtain ⟨qs, hqs, hsilent⟩ := tiles_filler (.blank hc hs) hps
      obtain ⟨hkind, hlexeme, hliteral, -⟩ := Piece.token?_eq_some_iff.mp ht
      rw [← hcons] at hqs
      have hkind' : p.kind? ≠ none := by simp [hkind]
      have hstop : p.StopsAt (separator.toList ++ (layOut items).toList) := by
        apply Piece.stopsAt_of_isBlank hkind'
        intro x hx
        rw [hcons, List.cons_append, List.head?_cons] at hx
        obtain rfl := Option.some.inj hx
        exact isBlank_of_mem hc
      refine ⟨p :: (qs ++ ps), ?_, ?_⟩
      · have htiles := Tiles.cons hp hstop hqs
        rw [layOut, hlexeme]
        simpa [String.toList_append] using htiles
      · intro before
        -- the pieces of the separator add line feeds and nothing else
        have hsilentText : qs.flatMap Piece.text = separator.toList := by
          have htext := hqs.flatMap_text
          rw [List.flatMap_append, hps.flatMap_text] at htext
          exact List.append_cancel_right htext
        have hquiet : qs.filterMap Piece.cause? = [] :=
          List.filterMap_eq_nil_iff.mpr fun q hq => (hsilent q hq).2
        have hline : p.token? (lineAt before) = some { t with line := lineAt before } :=
          Piece.token?_eq_some_iff.mpr ⟨hkind, hlexeme, hliteral, rfl⟩
        rw [found_cons, found_cons, found_append, found_append, hsilentText, hline,
          Piece.fault?_eq_none_of_kind? hkind',
          found_token?_eq_nil (fun q hq => (hsilent q hq).1),
          found_fault?_eq_nil hquiet, laidOut, hlexeme,
          String.toList_ofList]
        refine ⟨?_, (hfound _).2⟩
        rw [(hfound _).1]
        rfl

theorem length_laidOut (before : List Char) (items : List (Token × String)) :
    (laidOut before items).length = items.length := by
  induction items generalizing before with
  | nil => rfl
  | cons item items ih => rw [laidOut, List.length_cons, List.length_cons, ih]

theorem getElem?_laidOut (before : List Char) (items : List (Token × String)) (t : Token)
    (separator : String) (after : List (Token × String)) :
    (laidOut before (items ++ (t, separator) :: after))[items.length]?
      = some { t with line := lineAt (before ++ (layOut items).toList) } := by
  induction items generalizing before with
  | nil => simp [laidOut, layOut]
  | cons item items ih =>
      rw [List.cons_append, laidOut, List.length_cons, List.getElem?_cons_succ, ih, layOut]
      simp [String.toList_append]

/-! ## Spaces between the tokens of a scan -/

/-- What a token is wherever it stands. -/
def Piece.content? (p : Piece) : Option (Kind × String × Option Literal) :=
  p.kind?.map fun kind => (kind, String.ofList p.text, p.literal?)

theorem Piece.map_content_token? (line : Nat) (p : Piece) :
    (p.token? line).map (fun t => (t.kind, t.lexeme, t.literal)) = p.content? :=
  p.map_token? _ line

/-- Token pieces with one space between them tile the text that they spell. -/
theorem tiles_intersperse {ps : List Piece} (h : ∀ p ∈ ps, p.Sound ∧ p.kind? ≠ none) :
    Tiles (ps.intersperse (.blank ' ')) ([' '].intercalate (ps.map Piece.text)) := by
  induction ps with
  | nil => exact .nil
  | cons p ps ih =>
      obtain ⟨⟨hp, hkind⟩, hps⟩ := List.forall_mem_cons.mp h
      cases ps with
      | nil =>
          have hlast := Tiles.cons hp p.stopsAt_nil .nil
          rw [List.append_nil] at hlast
          rwa [List.map_singleton, List.intercalate_singleton]
      | cons q ps =>
          have hstop : ∀ rest, p.StopsAt (' ' :: rest) := by
            intro rest
            apply Piece.stopsAt_of_isBlank hkind
            rintro c ⟨⟩
            rfl
          have htail : Tiles _ (' ' :: _) := .cons (p := .blank ' ') rfl trivial (ih hps)
          rw [List.map_cons, List.map_cons, List.intercalate_cons_cons, List.append_assoc]
          exact .cons hp (hstop _) htail

theorem filterMap_intersperse {α β : Type} {f : α → Option β} {x : α} (hx : f x = none)
    (xs : List α) : (xs.intersperse x).filterMap f = xs.filterMap f := by
  induction xs with
  | nil => rfl
  | cons a xs ih =>
      cases xs with
      | nil => rfl
      | cons b xs =>
          rw [List.intersperse_cons_cons, List.filterMap_cons, List.filterMap_cons, hx, ih,
            List.filterMap_cons (a := a)]

/-- The pieces of a source that are tokens. -/
def tokenPieces (source : String) : List Piece :=
  (pieces source.toList).filter (·.kind?.isSome)

theorem kind?_ne_none_of_mem_tokenPieces {source : String} {p : Piece}
    (hp : p ∈ tokenPieces source) : p.kind? ≠ none := by
  have hsome := (List.mem_filter.mp hp).2
  exact Option.isSome_iff_ne_none.mp hsome

/-- The tokens of a scan but for their lines, read off the pieces that are tokens. -/
theorem map_content_tokens (source : String) :
    (found Piece.token? [] (pieces source.toList)).map
        (fun t => (t.kind, t.lexeme, t.literal))
      = (tokenPieces source).filterMap Piece.content? := by
  rw [map_found Piece.token? Piece.map_content_token?, tokenPieces, List.filterMap_filter]
  congr 1
  ext p : 1
  cases hp : p.kind? <;> simp [Piece.content?, hp]

theorem map_lexeme_tokens (source : String) :
    ((analyze source).tokens.filter (fun t => !t.isEof)).map Token.lexeme
      = (tokenPieces source).map fun p => String.ofList p.text := by
  have hcontent := congrArg (List.map (·.2.1)) (map_content_tokens source)
  rw [List.map_map] at hcontent
  rw [filter_isEof_tokens]
  apply hcontent.trans
  have hall : ∀ p ∈ tokenPieces source, p.kind? ≠ none :=
    fun p hp => kind?_ne_none_of_mem_tokenPieces hp
  generalize tokenPieces source = ps at hall
  induction ps with
  | nil => rfl
  | cons p ps ih =>
      obtain ⟨hp, hps⟩ := List.forall_mem_cons.mp hall
      obtain ⟨kind, hkind⟩ := Option.ne_none_iff_exists'.mp hp
      have hpiece : p.content? = some (kind, String.ofList p.text, p.literal?) := by
        rw [Piece.content?, hkind]
        rfl
      rw [List.filterMap_cons_some hpiece, List.map_cons, List.map_cons, ih hps]

/-- Joined by spaces, the lexemes of a scan are tiled by its token pieces. -/
theorem tiles_join (source : String) :
    Tiles ((tokenPieces source).intersperse (.blank ' '))
      (" ".intercalate (((analyze source).tokens.filter (fun t => !t.isEof)).map
        Token.lexeme)).toList := by
  have htext : ((tokenPieces source).map fun p => String.ofList p.text).map String.toList
      = (tokenPieces source).map Piece.text := by
    simp
  rw [map_lexeme_tokens, String.toList_intercalate, htext]
  apply tiles_intersperse
  intro p hp
  exact ⟨sound_of_mem_pieces (List.mem_filter.mp hp).1, kind?_ne_none_of_mem_tokenPieces hp⟩

/-! ## Writing out and scanning again -/

theorem analyze_layOut {items : List (Token × String)}
    (h : ∀ i ∈ items, Lone i.1 ∧ Separator i.2) :
    analyze (layOut items)
      = ⟨laidOut [] items ++ [.eof (lineAt (layOut items).toList)], []⟩ := by
  obtain ⟨ps, hps, hfound⟩ := tiles_layOut h
  rw [analyze_of_tiles hps, (hfound []).1, (hfound []).2]

/-- Every token of a scan is lone. Lone tokens that are laid out scan as themselves, each
on the line where it was put, and so do the tokens of a source joined by spaces. -/
theorem tokens_survive_rescan :
    (∀ source, ∀ t ∈ (analyze source).tokens, t.isEof = false →
      Lone { t with line := 1 }) ∧
    (∀ items : List (Token × String), (∀ i ∈ items, Lone i.1 ∧ Separator i.2) →
      (analyze (layOut items)).faults = [] ∧
      (analyze (layOut items)).tokens.length = items.length + 1 ∧
      (∀ before t separator after, items = before ++ (t, separator) :: after →
        (analyze (layOut items)).tokens[before.length]?
          = some { t with line := 1 + Text.newlines (layOut before).toList }) ∧
      (analyze (layOut items)).tokens.getLast?
        = some (.eof (1 + Text.newlines (layOut items).toList))) ∧
    (∀ source,
      let lexemes := ((analyze source).tokens.filter (fun t => !t.isEof)).map Token.lexeme
      let again := analyze (" ".intercalate lexemes)
      again.faults = [] ∧
      again.tokens.map (fun t => (t.kind, t.lexeme, t.literal))
        = (analyze source).tokens.map (fun t => (t.kind, t.lexeme, t.literal))) := by
  refine ⟨?_, ?_, ?_⟩
  · intro source t ht heof
    exact lone_of_mem_tokens ht heof
  · intro items h
    rw [analyze_layOut h]
    refine ⟨rfl, ?_, ?_, List.getLast?_concat⟩
    · rw [List.length_append, length_laidOut]
      rfl
    · intro before t separator after hsplit
      have hget := getElem?_laidOut [] before t separator after
      rw [← hsplit] at hget
      show (laidOut [] items ++ _)[before.length]? = _
      rw [List.getElem?_append_left (List.getElem?_eq_some_iff.mp hget).1]
      exact hget
  · intro source lexemes again
    have hagain : again = _ := analyze_of_tiles (tiles_join source)
    rw [hagain]
    constructor
    · apply found_fault?_eq_nil
      rw [filterMap_intersperse rfl, List.filterMap_eq_nil_iff]
      intro p hp
      rw [← p.map_cause_fault? 1,
        Piece.fault?_eq_none_of_kind? (kind?_ne_none_of_mem_tokenPieces hp)]
      rfl
    · rw [analyze_eq_found, List.map_append, List.map_append, map_content_tokens,
        map_found Piece.token? Piece.map_content_token?, filterMap_intersperse rfl]
      rfl

theorem tokens_survive_rescan_slashes :
    (Lone ⟨.symbol .slash, "/", none, 1⟩ ∧ Separator " // over\n" ∧ Separator "\t") ∧
    (analyze "/ // over\n/\t").tokens[1]? = some ⟨.symbol .slash, "/", none, 2⟩ := by
  have hlone : Lone ⟨.symbol .slash, "/", none, 1⟩ :=
    lone_iff.mpr ⟨.symbol .slash, trivial, rfl⟩
  have hnote : Separator " // over\n" := by
    refine ⟨' ', "// over\n".toList, by decide, ?_, rfl⟩
    show Filler ('/' :: '/' :: " over".toList ++ '\n' :: [])
    exact .comment (by decide) .nil
  have htab : Separator "\t" := ⟨'\t', [], by decide, .nil, rfl⟩
  refine ⟨⟨hlone, hnote, htab⟩, ?_⟩
  have hitems := tokens_survive_rescan.2.1
    [(⟨.symbol .slash, "/", none, 1⟩, " // over\n"), (⟨.symbol .slash, "/", none, 1⟩, "\t")]
    (by simp [hlone, hnote, htab])
  exact hitems.2.2.1 [_] _ _ [] rfl

end LoxLexis
