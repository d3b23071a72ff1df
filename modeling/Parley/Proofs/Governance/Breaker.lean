import Mathlib.Data.List.DropRight
import Parley.Proofs.Governance.Run

namespace Parley.Governance.Ledger

def Op.fails (tenant agent : String) : Op → Bool
  | .error t a => (tenant, agent) = (t, a)
  | _ => false

def Op.clears (tenant agent : String) : Op → Bool
  | .clear t a => (tenant, agent) = (t, a)
  | _ => false

def Op.concerns (tenant agent : String) (op : Op) : Bool :=
  op.fails tenant agent || op.clears tenant agent

/-- How many errors an agent made in a row: those since they were last cleared, or from the
start. -/
def errorsInRow (tenant agent : String) (ops : List Op) : Nat :=
  (ops.rtakeWhile fun op => !op.clears tenant agent).countP (Op.fails tenant agent)

variable {tenant agent : String} {ops more : List Op} {op : Op}

theorem errorsInRow_concat_of_clears (h : op.clears tenant agent = true) :
    errorsInRow tenant agent (ops ++ [op]) = 0 := by
  rw [errorsInRow, List.rtakeWhile_concat_neg _ _ _ (by simp [h])]
  rfl

theorem errorsInRow_concat (h : op.clears tenant agent = false) :
    errorsInRow tenant agent (ops ++ [op]) =
      errorsInRow tenant agent ops + if op.fails tenant agent then 1 else 0 := by
  rw [errorsInRow, List.rtakeWhile_concat_pos _ _ _ (by simp [h]), List.countP_append,
    List.countP_singleton]
  rfl

theorem errorsInRow_concat_of_not_concerns (h : op.concerns tenant agent = false) :
    errorsInRow tenant agent (ops ++ [op]) = errorsInRow tenant agent ops := by
  obtain ⟨hfails, hclears⟩ := Bool.or_eq_false_iff.mp h
  rw [errorsInRow_concat hclears, hfails]
  rfl

theorem errorsInRow_concat_congr
    (h : errorsInRow tenant agent ops = errorsInRow tenant agent more) (op : Op) :
    errorsInRow tenant agent (ops ++ [op]) = errorsInRow tenant agent (more ++ [op]) := by
  cases hclears : op.clears tenant agent with
  | false => rw [errorsInRow_concat hclears, errorsInRow_concat hclears, h]
  | true => rw [errorsInRow_concat_of_clears hclears, errorsInRow_concat_of_clears hclears]

theorem errorsInRow_filter (tenant agent : String) (ops : List Op) :
    errorsInRow tenant agent (ops.filter (Op.concerns tenant agent)) =
      errorsInRow tenant agent ops := by
  induction ops using List.reverseRecOn with
  | nil => rfl
  | append_singleton ops op ih =>
      rw [List.filter_append]
      cases hconcerns : op.concerns tenant agent with
      | false =>
          rw [List.filter_cons_of_neg (by simp [hconcerns]), List.filter_nil, List.append_nil, ih,
            errorsInRow_concat_of_not_concerns hconcerns]
      | true =>
          rw [List.filter_cons_of_pos hconcerns, List.filter_nil]
          exact errorsInRow_concat_congr ih op

theorem settle_errors (l : Ledger) (flagged : Bool) (id notes : String) :
    (l.settle flagged id notes).2.errors = l.errors := by
  obtain ⟨left, e, right, -, -, -, hsettle⟩ | ⟨-, hsettle⟩ := settle_cases l flagged id notes
  · rw [hsettle]
    rfl
  · rw [hsettle]

theorem record_errors (l : Ledger) (refusal : Option Error) (auditId : String)
    (time : Time.Instant) (c : Case) : (l.record refusal auditId time c).2.errors = l.errors := by
  simp only [record]
  split <;> rfl

theorem errorCount_of_errors {l l' : Ledger} (h : l'.errors = l.errors) (tenant agent : String) :
    l'.errorCount tenant agent = l.errorCount tenant agent := by
  rw [errorCount, h, errorCount]

theorem errorCount_step (l : Ledger) (op : Op) (tenant agent : String) :
    (l.step op).errorCount tenant agent =
      if op.clears tenant agent then 0
      else l.errorCount tenant agent + if op.fails tenant agent then 1 else 0 := by
  cases op with
  | record refusal auditId time c =>
      exact errorCount_of_errors (record_errors l refusal auditId time c) tenant agent
  | review id notes => exact errorCount_of_errors (settle_errors l false id notes) tenant agent
  | flag id notes => exact errorCount_of_errors (settle_errors l true id notes) tenant agent
  | error t a =>
      by_cases h : (tenant, agent) = (t, a)
      · obtain ⟨rfl, rfl⟩ := Prod.mk.inj h
        simp [step, recordError, errorCount, Table.find?_set, Op.clears, Op.fails]
      · simp [step, recordError, errorCount, Table.find?_set, Op.clears, Op.fails, h]
  | clear t a =>
      by_cases h : (tenant, agent) = (t, a)
      · simp [step, clearErrors, errorCount, Table.find?_erase, Op.clears, h]
      · simp [step, clearErrors, errorCount, Table.find?_erase, Op.clears, Op.fails, h]

theorem errorCount_run (config : Config) (trail : Option Audit.Trail) (ops : List Op)
    (tenant agent : String) :
    (run config trail ops).errorCount tenant agent = errorsInRow tenant agent ops := by
  induction ops using List.reverseRecOn with
  | nil => rfl
  | append_singleton ops op ih =>
      have hstep : run config trail (ops ++ [op]) = (run config trail ops).step op :=
        List.foldl_concat ..
      rw [hstep, errorCount_step, ih]
      cases hclears : op.clears tenant agent with
      | false => rw [errorsInRow_concat hclears, if_neg Bool.false_ne_true]
      | true => rw [errorsInRow_concat_of_clears hclears, if_pos rfl]

theorem recordError_run (config : Config) (trail : Option Audit.Trail) (ops : List Op)
    (tenant agent : String) : ((run config trail ops).recordError tenant agent).1 = true ↔
      config.maxErrors ≤ errorsInRow tenant agent (ops ++ [.error tenant agent]) := by
  have hfails : (Op.error tenant agent).fails tenant agent = true := decide_eq_true rfl
  rw [errorsInRow_concat rfl, hfails, ← errorCount_run config trail ops tenant agent, recordError,
    decide_eq_true_eq, run_config]
  rfl

/-- After every run an error of an agent says to suspend it just if it is at least the
`maxErrors`-th in a row, and the errors counted are those in a row. What was done about other
agents, or about decisions, does not matter: runs that deal alike with an agent answer alike. -/
theorem suspension_of_run (config : Config) (trail : Option Audit.Trail) (ops : List Op)
    (tenant agent : String) :
    let l := run config trail ops
    l.errorCount tenant agent = errorsInRow tenant agent ops ∧
    ((l.recordError tenant agent).1 = true ↔
      config.maxErrors ≤ errorsInRow tenant agent (ops ++ [.error tenant agent])) ∧
    ∀ trail' ops', ops'.filter (Op.concerns tenant agent) = ops.filter (Op.concerns tenant agent) →
      (run config trail' ops').errorCount tenant agent = l.errorCount tenant agent ∧
      ((run config trail' ops').recordError tenant agent).1 = (l.recordError tenant agent).1 := by
  intro l
  refine ⟨errorCount_run config trail ops tenant agent,
    recordError_run config trail ops tenant agent, ?_⟩
  intro trail' ops' halike
  have hrow : errorsInRow tenant agent ops' = errorsInRow tenant agent ops := by
    rw [← errorsInRow_filter, halike, errorsInRow_filter]
  refine ⟨?_, ?_⟩
  · rw [errorCount_run, errorCount_run, hrow]
  · rw [Bool.eq_iff_iff, recordError_run, recordError_run,
      errorsInRow_concat_congr hrow (.error tenant agent)]

/-- Agents whose names run together are told apart. -/
example : (run .standard none [.error "ab" "c", .error "a" "bc", .error "ab" "c"]).errorCount
    "a" "bc" = 1 := by decide

end Parley.Governance.Ledger
