import LoxLexis.Diagnostic.Log
import Mathlib.Data.List.DropRight

/-!
# What a reporter is told

A scan never asks its reporter anything. So its tokens are the same whoever listens, and
the reporter is told the faults that `analyze` collects, each once and in order
(`scan_eq_analyze`).

A log is a reporter that keeps what it is told. What it holds in the course of a session
is told by a plain account of the actions, which scans each source by itself: the faults
of all actions since the log was last cleared (`faults_after`).
-/

namespace LoxLexis

/-! ## Any reporter -/

theorem scan_eq_analyze {σ : Type} (report : σ → Fault → σ) (kept : σ) (source : String) :
    scan report kept source
      = ((analyze source).tokens, (analyze source).faults.foldl report kept) := by
  rw [scan_eq, analyze_eq]

/-- Scans with one reporter know nothing of each other. -/
theorem scanEach_eq_analyze {σ : Type} (report : σ → Fault → σ) (kept : σ)
    (sources : List String) :
    scanEach report kept sources
      = (sources.map fun source => (analyze source).tokens,
        (sources.flatMap fun source => (analyze source).faults).foldl report kept) := by
  induction sources generalizing kept with
  | nil => rfl
  | cons source rest ih =>
      rw [List.flatMap_cons, List.foldl_append, List.map_cons]
      simp only [scanEach, scan_eq_analyze, ih]

/-- A procedure is called with the line and the message of each fault. -/
theorem foldl_tell {σ : Type} (call : σ → Nat → String → σ) (kept : σ) (faults : List Fault) :
    faults.foldl (Fault.tell call) kept
      = (faults.map fun f => (f.line, f.cause.message)).foldl
          (fun kept said => call kept said.1 said.2) kept := by
  rw [List.foldl_map]
  rfl

namespace Log

theorem faults_foldl_report (log : Log) (faults : List Fault) :
    (faults.foldl report log).faults.toList = log.faults.toList ++ faults := by
  induction faults generalizing log with
  | nil => rw [List.foldl_nil, List.append_nil]
  | cons f faults ih =>
      rw [List.foldl_cons, ih, report, Array.toList_push, List.append_assoc]
      rfl

theorem faults_scan (log : Log) (source : String) :
    (scan report log source).2.faults.toList
      = log.faults.toList ++ (analyze source).faults := by
  rw [scan_eq_analyze, faults_foldl_report]

/-! ## The account of a session -/

namespace Action

def isClear : Action → Bool
  | clear => true
  | scan _ | report _ | render _ _ _ | compare _ _ => false

/-- The faults that an action reports. Those of a source are its own, and so are their
lines. -/
def faults : Action → List Fault
  | scan source => (analyze source).faults
  | report f => [f]
  | clear | render _ _ _ | compare _ _ => []

end Action

/-- All that was reported since the log was last cleared. What was held at the start
counts if it never was. -/
def heldAfter (held : List Fault) (actions : List Action) : List Fault :=
  (if actions.any Action.isClear then [] else held)
    ++ (actions.rtakeWhile fun a => !a.isClear).flatMap Action.faults

theorem heldAfter_nil (held : List Fault) : heldAfter held [] = held := by
  simp [heldAfter]

theorem heldAfter_concat (held : List Fault) (actions : List Action) (a : Action) :
    heldAfter held (actions ++ [a])
      = if a.isClear then [] else heldAfter held actions ++ a.faults := by
  unfold heldAfter
  rw [List.rtakeWhile_concat, List.any_append]
  cases h : a.isClear with
  | true => simp [h]
  | false => simp [h, List.flatMap_append]

/-! ## One action, then all -/

theorem perform_render (log : Log) (index : Nat) (source file : String) :
    (log.perform (.render index source file)).2 = log := by
  rw [perform]
  cases log.faults[index]? <;> rfl

theorem perform_compare (log : Log) (first second : Nat) :
    (log.perform (.compare first second)).2 = log := by
  rw [perform]
  cases log.faults[first]? <;> cases log.faults[second]? <;> rfl

/-- What one action does to a log. -/
theorem faults_perform (log : Log) (a : Action) :
    (log.perform a).2.faults.toList
      = if a.isClear then [] else log.faults.toList ++ a.faults := by
  cases a with
  | scan source => exact faults_scan log source
  | report f => exact Array.toList_push
  | clear => rfl
  | render index source file =>
      rw [perform_render, Action.faults, List.append_nil]
      rfl
  | compare first second =>
      rw [perform_compare, Action.faults, List.append_nil]
      rfl

/-- The log after some actions. -/
def after (log : Log) (actions : List Action) : Log :=
  actions.foldl (fun log a => (log.perform a).2) log

theorem after_concat (log : Log) (actions : List Action) (a : Action) :
    log.after (actions ++ [a]) = ((log.after actions).perform a).2 := by
  unfold after
  rw [List.foldl_append]
  rfl

theorem faults_after (log : Log) (actions : List Action) :
    (log.after actions).faults.toList = heldAfter log.faults.toList actions := by
  induction actions using List.reverseRecOn with
  | nil =>
      rw [heldAfter_nil]
      rfl
  | append_singleton actions a ih =>
      rw [after_concat, faults_perform, heldAfter_concat, ih]

/-- What each action of a session gives, by the log that the actions before it leave. -/
theorem performAll_append_cons (log : Log) (done : List Action) (a : Action)
    (rest : List Action) :
    (log.performAll (done ++ a :: rest))[done.length]? = some ((log.after done).perform a) := by
  induction done generalizing log with
  | nil => rfl
  | cons b done ih =>
      rw [List.cons_append, performAll, List.length_cons, List.getElem?_cons_succ, ih]
      rfl

end Log

/-! ## Main result -/

/-- Reporting is faithful: the tokens do not depend on the reporter, a log that held some
faults holds those of the source after them, a procedure is called once for each fault in
order, one reporter of many scans is told the faults of each source by itself; and in a
session the log holds, after every action, what was reported since it was last cleared,
while looking at it changes nothing. -/
theorem reporting_faithful :
    (∀ (σ : Type) (report : σ → Fault → σ) (kept : σ) (source : String),
      (scan report kept source).1 = (analyze source).tokens) ∧
    (∀ (log : Log) (source : String),
      (scan Log.report log source).2.faults.toList
        = log.faults.toList ++ (analyze source).faults) ∧
    (∀ (σ : Type) (call : σ → Nat → String → σ) (kept : σ) (source : String),
      (scan (Fault.tell call) kept source).2
        = ((analyze source).faults.map fun f => (f.line, f.cause.message)).foldl
            (fun kept said => call kept said.1 said.2) kept) ∧
    (∀ (σ : Type) (report : σ → Fault → σ) (kept : σ) (sources : List String),
      scanEach report kept sources
        = (sources.map fun source => (analyze source).tokens,
          (sources.flatMap fun source => (analyze source).faults).foldl report kept)) ∧
    (∀ (log : Log) (done : List Log.Action) (a : Log.Action) (rest : List Log.Action),
      (log.performAll (done ++ a :: rest))[done.length]?.map (fun step => step.2.faults.toList)
        = some (Log.heldAfter log.faults.toList (done ++ [a]))) ∧
    (∀ (log : Log) (done : List Log.Action) (source : String) (rest : List Log.Action),
      (log.performAll (done ++ .scan source :: rest))[done.length]?.map Prod.fst
        = some (.tokens (analyze source).tokens)) ∧
    (∀ (log : Log) (index : Nat) (source file : String),
      (log.perform (.render index source file)).2 = log) ∧
    (∀ (log : Log) (first second : Nat), (log.perform (.compare first second)).2 = log) := by
  refine ⟨?tokens, Log.faults_scan, ?calls, ?each, ?session, ?replies, Log.perform_render,
    Log.perform_compare⟩
  case tokens =>
    intro σ report kept source
    rw [scan_eq_analyze]
  case calls =>
    intro σ call kept source
    rw [scan_eq_analyze, foldl_tell]
  case each =>
    intro σ report kept sources
    exact scanEach_eq_analyze report kept sources
  case session =>
    intro log done a rest
    rw [Log.performAll_append_cons, ← Log.faults_after, Log.after_concat]
    rfl
  case replies =>
    intro log done source rest
    rw [Log.performAll_append_cons, Log.perform, scan_eq_analyze]
    rfl

end LoxLexis
