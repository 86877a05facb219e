import LoxLexis.Proofs.FaultAutomaton

/-!
# Admissible texts

A text is admissible if each of its strings is closed, and all its characters outside strings
and comments are allowed there. Where a character is can be told from the characters before
it: `Region.after` takes them one by one, and knows neither pieces nor what comes next.

A scan finds nothing wrong with the admissible texts, and something with all others
(`faults_eq_nil_iff_admits`).
-/

namespace LoxLexis

/-! ## Regions -/

/-- What a place in a text is part of. -/
inductive Region where
  | code
  /-- Code too, but a second slash starts a comment. -/
  | slash
  | comment
  | string

namespace Region

def step : Region → Char → Region
  | comment, c => if c = '\n' then code else comment
  | string, c => if c = '"' then code else string
  | slash, '/' => comment
  | _, c => if c = '"' then string else if c = '/' then slash else code

/-- The region that is reached from another by reading a text. -/
def after (region : Region) (read : List Char) : Region :=
  read.foldl step region

/-- Outside strings and comments. -/
def IsCode (region : Region) : Prop :=
  region = code ∨ region = slash

/-- The text goes on well from the region: in code it has only characters that are allowed,
and quotes, which start strings; and no string is open at its end. -/
structure Admits (region : Region) (s : List Char) : Prop where
  allowed : ∀ before c rest, s = before ++ c :: rest → (region.after before).IsCode →
    c = '"' ∨ isAllowed c = true
  closed : region.after s ≠ string

/-! ## Reading on -/

variable {region : Region} {s : List Char}

theorem admits_nil : region.Admits [] ↔ region ≠ string := by
  constructor
  · exact fun h => h.closed
  · intro h
    refine ⟨fun before c rest hs => ?_, h⟩
    exact absurd hs.symm (List.append_ne_nil_of_right_ne_nil before (List.cons_ne_nil c rest))

theorem admits_cons {c : Char} :
    region.Admits (c :: s)
      ↔ (region.IsCode → c = '"' ∨ isAllowed c = true) ∧ (region.step c).Admits s := by
  constructor
  · intro h
    refine ⟨h.allowed [] c s rfl, fun before d rest hs => ?_, h.closed⟩
    exact h.allowed (c :: before) d rest (by rw [hs, List.cons_append])
  · rintro ⟨hfirst, hrest⟩
    refine ⟨fun before d rest hs => ?_, hrest.closed⟩
    cases before with
    | nil =>
        obtain ⟨rfl, -⟩ := List.cons.inj hs
        exact hfirst
    | cons b before =>
        obtain ⟨rfl, htail⟩ := List.cons.inj hs
        exact hrest.allowed before d rest htail

/-- A slash that is not followed by another is code. -/
theorem slash_admits_iff (h : s.head? ≠ some '/') : slash.Admits s ↔ code.Admits s := by
  cases s with
  | nil => simp [admits_nil]
  | cons c s =>
      have hne : c ≠ '/' := by
        rintro rfl
        exact h rfl
      have hstep : slash.step c = code.step c := by
        unfold step
        split <;> simp_all
      rw [admits_cons, admits_cons, hstep]
      simp [IsCode]

/-- Code goes on behind a character that opens neither a string nor a comment. -/
theorem step_code_admits_iff {c : Char} (hquote : c ≠ '"') (hslash : c = '/' → s.head? ≠ some '/') :
    (code.step c).Admits s ↔ code.Admits s := by
  show (if c = '"' then string else if c = '/' then slash else code).Admits s ↔ _
  rw [if_neg hquote]
  split
  · rename_i hc
    exact slash_admits_iff (hslash hc)
  · rfl

end Region

/-! ## The automaton -/

def Mode.region : Mode → Region
  | .code => .code
  | .comment => .comment
  | .string => .string

/-- The automaton emits nothing on what its region admits, and something on all else. -/
theorem Mode.faults_eq_nil_iff (read : List Char) (mode : Mode) (s : List Char) :
    Mode.faults read mode s = [] ↔ mode.region.Admits s := by
  have hslash {c : Char} {rest : List Char}
      (h : ∀ after, c = '/' → rest = '/' :: after → False) : c = '/' → rest.head? ≠ some '/' := by
    intro hc hhead
    obtain ⟨after, hafter⟩ := List.head?_eq_some_iff.mp hhead
    exact h after hc hafter
  fun_induction Mode.faults read mode s with
  | case1 read => simp [region, Region.admits_nil]
  | case2 read => simp [region, Region.admits_nil]
  | case3 read => simp [region, Region.admits_nil]
  | case4 read rest ih =>
      -- both slashes of a comment are allowed
      have hallowed : isAllowed '/' = true := by decide
      refine ih.trans ?_
      rw [region, region, Region.admits_cons, Region.admits_cons]
      simp [hallowed, Region.step]
  | case5 read rest hstart ih =>
      refine ih.trans ?_
      rw [region, region, Region.admits_cons]
      simp [Region.step]
  | case6 read c rest hstart hquote hc ih =>
      refine ih.trans ?_
      rw [region, Region.admits_cons, Region.step_code_admits_iff hquote (hslash hstart)]
      simp [hc]
  | case7 read c rest hstart hquote hc ih =>
      rw [region, Region.admits_cons]
      simp [Region.IsCode, hquote, hc]
  | case8 read c rest ih =>
      have hregion : (if c = '\n' then code else comment).region = Region.comment.step c :=
        apply_ite region _ _ _
      refine ih.trans ?_
      rw [hregion, region, Region.admits_cons]
      simp [Region.IsCode]
  | case9 read c rest ih =>
      have hregion : (if c = '"' then code else string).region = Region.string.step c :=
        apply_ite region _ _ _
      refine ih.trans ?_
      rw [hregion, region, Region.admits_cons]
      simp [Region.IsCode]

/-- Nothing is wrong with a text if and only if it is admissible, as code from its start. -/
theorem faults_eq_nil_iff_admits (text : String) :
    (analyze text).faults = [] ↔ Region.code.Admits text.toList := by
  rw [analyze_eq_found, ← Mode.faults_of_tiles (tiles_pieces text.toList)]
  exact Mode.faults_eq_nil_iff [] .code text.toList

end LoxLexis
