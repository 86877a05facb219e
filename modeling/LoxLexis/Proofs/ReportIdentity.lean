import LoxLexis.Proofs.ReportLayout

/-!
# Reports tell faults apart

Two faults never have the same report, whatever their sources and the names of the files
(`report_injective`). Neither the source line nor the name of the file is escaped, and the
name may hold line feeds. But they stand between the first line of a report and the last, and
these two are made from the fault alone: the first tells the cause, the last the line.
-/

namespace LoxLexis

/-! ## The two ends of a report -/

namespace Fault

/-- A report from its first line to its last, with whatever it shows between them. -/
theorem exists_toList_report (f : Fault) (source file : String) :
    ∃ middle, (f.report source file).toList
      = f.headline.toList ++ '\n' :: (middle ++ '\n' :: f.text.toList ++ ['\n']) := by
  refine ⟨("-> " ++ file).toList ++ '\n' :: (f.gutter.toList
    ++ (((f.shown? source).map f.numbered).toList.flatMap fun row => '\n' :: row.toList)), ?_⟩
  rw [report, reportLines_eq, rows]
  cases f.shown? source <;> simp [String.toList_append]

theorem feed_not_mem_headline (f : Fault) : '\n' ∉ f.headline.toList :=
  fun hmem => absurd (f.isPrintableAscii_headline '\n' hmem) (by decide)

theorem feed_not_mem_text (f : Fault) : '\n' ∉ f.text.toList := by
  have hnumber : '\n' ∉ f.lineNumber := f.not_mem_lineNumber (by decide)
  simp [toList_text, hnumber, feed_not_mem_message]

/-- What stands between the two ends has no influence on them. -/
theorem headline_text_eq_of_report_eq {f g : Fault} {source₁ source₂ file₁ file₂ : String}
    (h : f.report source₁ file₁ = g.report source₂ file₂) :
    f.headline = g.headline ∧ f.text = g.text := by
  obtain ⟨middle₁, h₁⟩ := f.exists_toList_report source₁ file₁
  obtain ⟨middle₂, h₂⟩ := g.exists_toList_report source₂ file₂
  rw [h, h₂] at h₁
  obtain ⟨hheadline, hafter⟩ := append_cons_inj_of_not_mem g.feed_not_mem_headline
    f.feed_not_mem_headline h₁
  obtain ⟨-, htext⟩ := append_cons_inj_of_not_mem_right g.feed_not_mem_text f.feed_not_mem_text
    (List.append_cancel_right hafter)
  exact ⟨(String.toList_inj.mp hheadline).symm, (String.toList_inj.mp htext).symm⟩

end Fault

/-! ## The first line -/

namespace Cause

/-- The same words stand around the escape of every character, and no quote starts the other
tip. -/
theorem tip_injective : Function.Injective tip := by
  have hne : ∀ c, (strayCharacter c).tip ≠ unclosedString.tip := by
    intro c h
    have hfirst := congrArg (fun s : String => s.toList.head?) (Option.some.inj h)
    simp [String.toList_append] at hfirst
  intro a b h
  cases a with
  | strayCharacter c =>
      cases b with
      | strayCharacter d =>
          have hlist := congrArg String.toList (Option.some.inj h)
          simp only [String.toList_append, String.toList_ofList] at hlist
          have hescape := List.append_cancel_left (List.append_cancel_right hlist)
          rw [Text.escape_injective hescape]
      | unclosedString => exact absurd h (hne c)
  | unclosedString =>
      cases b with
      | strayCharacter d => exact absurd h.symm (hne d)
      | unclosedString => rfl

theorem space_not_mem_name (cause : Cause) : ' ' ∉ cause.name.toList := by
  cases cause with
  | strayCharacter c =>
      show ' ' ∉ "UnexpectedCharacter".toList
      decide
  | unclosedString => decide

theorem isPrintableAscii_of_mem_tip {cause : Cause} {tip : String} (h : cause.tip = some tip) :
    ∀ c ∈ tip.toList, Text.isPrintableAscii c = true := by
  obtain ⟨shown, hshown, hheadline⟩ := Fault.exists_headline_eq ⟨cause, 1⟩
  obtain rfl : tip = shown := Option.some.inj (h.symm.trans hshown)
  intro c hc
  apply Fault.isPrintableAscii_headline ⟨cause, 1⟩
  rw [hheadline]
  simp [String.toList_append, hc]

end Cause

namespace Fault

/-- The tip stands behind the name, which ends at a space. -/
theorem cause_eq_of_headline_eq {f g : Fault} (h : f.headline = g.headline) :
    f.cause = g.cause := by
  obtain ⟨tip₁, htip₁, h₁⟩ := f.exists_headline_eq
  obtain ⟨tip₂, htip₂, h₂⟩ := g.exists_headline_eq
  have hlist := congrArg String.toList ((h₁.symm.trans h).trans h₂)
  simp only [String.toList_append, List.append_assoc] at hlist
  obtain ⟨-, hafter⟩ := append_cons_inj_of_not_mem f.cause.space_not_mem_name
    g.cause.space_not_mem_name (List.append_cancel_left hlist)
  have htip : tip₁.toList = tip₂.toList :=
    List.append_cancel_right (List.append_cancel_left hafter)
  apply Cause.tip_injective
  rw [htip₁, htip₂, String.toList_inj.mp htip]

/-! ## The last line -/

/-- The number ends at the first bracket. -/
theorem line_eq_of_text_eq {f g : Fault} (h : f.text = g.text) : f.line = g.line := by
  have hlist := congrArg String.toList h
  simp only [toList_text, List.append_assoc] at hlist
  obtain ⟨hnumber, -⟩ := append_cons_inj_of_not_mem (f.not_mem_lineNumber (by decide))
    (g.not_mem_lineNumber (by decide)) (List.append_cancel_left hlist)
  exact Text.toDigits_inj (by decide) (by decide) hnumber

/-! ## Main result -/

/-- The report tells the fault. -/
theorem eq_of_report_eq {f g : Fault} {source₁ source₂ file₁ file₂ : String}
    (h : f.report source₁ file₁ = g.report source₂ file₂) : f = g := by
  obtain ⟨hheadline, htext⟩ := headline_text_eq_of_report_eq h
  obtain ⟨cause₁, line₁⟩ := f
  obtain ⟨cause₂, line₂⟩ := g
  obtain rfl : cause₁ = cause₂ := cause_eq_of_headline_eq hheadline
  obtain rfl : line₁ = line₂ := line_eq_of_text_eq htext
  rfl

end Fault

/-- No source and no name of a file makes the report on one fault read as that on another;
and every character has a tip of its own, in printable ASCII. -/
theorem report_injective :
    (∀ (f g : Fault) (source₁ source₂ file₁ file₂ : String),
      f.report source₁ file₁ = g.report source₂ file₂ → f = g) ∧
    ∀ c, ∃ tip, (Cause.strayCharacter c).tip = some tip ∧
      (∀ d, (Cause.strayCharacter d).tip = some tip ↔ d = c) ∧
      ∀ d ∈ tip.toList, 0x20 ≤ d.toNat ∧ d.toNat ≤ 0x7E := by
  refine ⟨fun _ _ _ _ _ _ h => Fault.eq_of_report_eq h, fun c => ?_⟩
  obtain ⟨tip, htip⟩ : ∃ tip, (Cause.strayCharacter c).tip = some tip := ⟨_, rfl⟩
  refine ⟨tip, htip, fun d => ?_, fun d hd => ?_⟩
  · rw [← htip, Cause.tip_injective.eq_iff, Cause.strayCharacter.injEq]
  · simpa [Text.isPrintableAscii] using Cause.isPrintableAscii_of_mem_tip htip d hd

/-- The name of the file ends like a report on another fault, and the two sources differ in
what is not shown of them. A line feed is not taken for the letter it is escaped with. -/
theorem report_injective_forged :
    let file := "a.lox\n  |\n[line 9] Error: Unterminated string."
    let f : Fault := ⟨.strayCharacter '@', 2⟩
    (∃ g ∈ (analyze "#\n\t@ \r\n").faults,
      g.report "#\n\t@ \r\n" file = f.report "\n@" file ∧ g = f) ∧
    ∀ source₁ source₂ file₁ file₂,
      (⟨.strayCharacter '\n', 1⟩ : Fault).report source₁ file₁
        ≠ (⟨.strayCharacter 'n', 1⟩ : Fault).report source₂ file₂ := by
  intro file f
  have hreport : (⟨.strayCharacter '@', 2⟩ : Fault).report "#\n\t@ \r\n" file
      = f.report "\n@" file := by decide +kernel
  refine ⟨⟨_, by decide +kernel, hreport, report_injective.1 _ _ _ _ _ _ hreport⟩, ?_⟩
  intro source₁ source₂ file₁ file₂ h
  exact absurd (report_injective.1 _ _ _ _ _ _ h) (by decide)

end LoxLexis
