import Mathlib.Data.List.Basic
import Parley.Governance.Ledger

namespace Parley.Governance.Ledger

open Time (Instant)

/-- What is done with a ledger. A refusal is one of the trail, where there is a trail. -/
inductive Op
  | record (refusal : Option Error) (auditId : String) (time : Instant) (c : Case)
  | review (id notes : String)
  | flag (id notes : String)
  | error (tenant agent : String)
  | clear (tenant agent : String)

def step (l : Ledger) : Op → Ledger
  | .record refusal auditId time c => (l.record refusal auditId time c).2
  | .review id notes => (l.markReviewed id notes).2
  | .flag id notes => (l.flag id notes).2
  | .error tenant agent => (l.recordError tenant agent).2
  | .clear tenant agent => l.clearErrors tenant agent

def run (config : Config) (trail : Option Audit.Trail) (ops : List Op) : Ledger :=
  ops.foldl step (new config trail)

def settle (l : Ledger) (flagged : Bool) (id notes : String) : Bool × Ledger :=
  if flagged then l.flag id notes else l.markReviewed id notes

def outcome (flagged : Bool) : Review := if flagged then .flagged else .reviewed

def noted (l : Ledger) (flagged : Bool) (tenant : String) : Table String Stats :=
  if flagged then
    l.stats.set tenant { l.statsOf tenant with flagged := (l.statsOf tenant).flagged + 1 }
  else l.stats

def settledAt (l : Ledger) (flagged : Bool) (notes : String) (left : List LogEntry) (e : LogEntry)
    (right : List LogEntry) : Ledger :=
  { l with log := left ++ review (outcome flagged) notes e :: right
           stats := l.noted flagged e.tenant }

variable {l : Ledger} {left right : List LogEntry} {e : LogEntry} {id : String}

theorem amend_append (change : LogEntry → LogEntry) (hleft : ∀ x ∈ left, x.id ≠ id)
    (he : e.id = id) : amend id change (left ++ e :: right) = left ++ change e :: right := by
  induction left with
  | nil => exact if_pos he
  | cons x left ih =>
      rw [List.forall_mem_cons] at hleft
      rw [List.cons_append, amend, if_neg hleft.1, ih hleft.2, List.cons_append]

theorem settle_first (hlog : l.log = left ++ e :: right) (hleft : ∀ x ∈ left, x.id ≠ e.id)
    (flagged : Bool) (notes : String) :
    l.settle flagged e.id notes = (true, l.settledAt flagged notes left e right) := by
  have hfind : l.find? e.id = some e := by
    rw [find?, hlog, List.find?_append, List.find?_eq_none.mpr (by simpa using hleft)]
    simp
  have hamend : amend e.id (review (outcome flagged) notes) (left ++ e :: right) =
      left ++ review (outcome flagged) notes e :: right :=
    amend_append _ hleft rfl
  rw [← hlog] at hamend
  rw [settledAt, ← hamend]
  cases flagged with
  | false =>
      change l.markReviewed e.id notes = _
      rw [markReviewed, hfind]
      rfl
  | true =>
      change l.flag e.id notes = _
      rw [flag, hfind]
      rfl

theorem settle_unknown (h : ∀ e ∈ l.log, e.id ≠ id) (flagged : Bool) (notes : String) :
    l.settle flagged id notes = (false, l) := by
  have hfind : l.find? id = none := by
    rw [find?, List.find?_eq_none]
    simpa using h
  cases flagged with
  | false =>
      change l.markReviewed id notes = _
      rw [markReviewed, hfind]
  | true =>
      change l.flag id notes = _
      rw [flag, hfind]

theorem exists_first (h : ∃ e ∈ l.log, e.id = id) : ∃ left e right,
    l.log = left ++ e :: right ∧ e.id = id ∧ ∀ x ∈ left, x.id ≠ id := by
  have hsome : (l.log.find? fun e => e.id = id).isSome := by
    rw [List.find?_isSome]
    simpa using h
  obtain ⟨e, he⟩ := Option.isSome_iff_exists.mp hsome
  obtain ⟨hid, left, right, hlog, hleft⟩ := List.find?_eq_some_iff_append.mp he
  exact ⟨left, e, right, hlog, by simpa using hid, by simpa using hleft⟩

theorem settle_cases (l : Ledger) (flagged : Bool) (id notes : String) :
    (∃ left e right, l.log = left ++ e :: right ∧ e.id = id ∧ (∀ x ∈ left, x.id ≠ e.id) ∧
      l.settle flagged id notes = (true, l.settledAt flagged notes left e right)) ∨
    (∀ e ∈ l.log, e.id ≠ id) ∧ l.settle flagged id notes = (false, l) := by
  by_cases h : ∃ e ∈ l.log, e.id = id
  · obtain ⟨left, e, right, hlog, rfl, hleft⟩ := exists_first h
    exact .inl ⟨left, e, right, hlog, rfl, hleft, settle_first hlog hleft flagged notes⟩
  · have hother : ∀ e ∈ l.log, e.id ≠ id := by simpa using h
    exact .inr ⟨hother, settle_unknown hother flagged notes⟩

/-- What an operation does with the log and the statistics. -/
inductive Change (l : Ledger) : Ledger → Prop
  | enter (e : LogEntry) {l' : Ledger} (hlog : l'.log = l.log ++ [e])
    (hstats : l'.stats = l.stats.set e.tenant ((l.statsOf e.tenant).add e)) : Change l l'
  | settle (flagged : Bool) (notes : String) {left right : List LogEntry} {e : LogEntry}
    (hlog : l.log = left ++ e :: right) (hleft : ∀ x ∈ left, x.id ≠ e.id) :
    Change l (l.settledAt flagged notes left e right)
  | keep {l' : Ledger} (hlog : l'.log = l.log) (hstats : l'.stats = l.stats) : Change l l'

theorem settle_change (l : Ledger) (flagged : Bool) (id notes : String) :
    Change l (l.settle flagged id notes).2 := by
  obtain ⟨left, e, right, hlog, -, hleft, hsettle⟩ | ⟨-, hsettle⟩ :=
    settle_cases l flagged id notes
  · rw [hsettle]
    exact .settle flagged notes hlog hleft
  · rw [hsettle]
    exact .keep rfl rfl

theorem record_change (l : Ledger) (refusal : Option Error) (auditId : String) (time : Instant)
    (c : Case) : Change l (l.record refusal auditId time c).2 := by
  simp only [record]
  split
  · exact .keep rfl rfl
  · exact .enter (c.entry time) rfl rfl
  · exact .enter (c.entry time) rfl rfl

theorem step_change (l : Ledger) (op : Op) : Change l (l.step op) := by
  cases op with
  | record refusal auditId time c => exact record_change l refusal auditId time c
  | review id notes => exact settle_change l false id notes
  | flag id notes => exact settle_change l true id notes
  | error tenant agent => exact .keep rfl rfl
  | clear tenant agent => exact .keep rfl rfl

theorem settle_config (l : Ledger) (flagged : Bool) (id notes : String) :
    (l.settle flagged id notes).2.config = l.config := by
  obtain ⟨left, e, right, -, -, -, hsettle⟩ | ⟨-, hsettle⟩ := settle_cases l flagged id notes
  · rw [hsettle]
    rfl
  · rw [hsettle]

theorem step_config (l : Ledger) (op : Op) : (l.step op).config = l.config := by
  cases op with
  | record refusal auditId time c =>
      simp only [step, record]
      split <;> rfl
  | review id notes => exact settle_config l false id notes
  | flag id notes => exact settle_config l true id notes
  | error tenant agent => rfl
  | clear tenant agent => rfl

/-- What holds at first, and whatever changes the log and the statistics, holds after every
run. -/
theorem run_induction {p : Ledger → Prop} (config : Config) (trail : Option Audit.Trail)
    (hnew : p (new config trail)) (hchange : ∀ l l', p l → Change l l' → p l') (ops : List Op) :
    p (run config trail ops) := by
  rw [run]
  generalize new config trail = l at hnew
  induction ops generalizing l with
  | nil => exact hnew
  | cons op ops ih => exact ih (l.step op) (hchange l _ hnew (step_change l op))

theorem run_config (config : Config) (trail : Option Audit.Trail) (ops : List Op) :
    (run config trail ops).config = config := by
  rw [run]
  have h : ∀ l : Ledger, (ops.foldl step l).config = l.config := by
    induction ops with
    | nil => exact fun _ => rfl
    | cons op ops ih => exact fun l => (ih (l.step op)).trans (step_config l op)
  exact h _

theorem statsOf_noted (l : Ledger) (flagged : Bool) (tenant other : String) :
    ((l.noted flagged tenant).find? other).getD Stats.empty =
      if flagged = true ∧ other = tenant then
        { l.statsOf other with flagged := (l.statsOf other).flagged + 1 }
      else l.statsOf other := by
  rw [noted]
  cases flagged with
  | false => rfl
  | true =>
      rw [if_pos rfl, Table.find?_set]
      by_cases h : other = tenant
      · rw [if_pos h, if_pos ⟨rfl, h⟩, h]
        rfl
      · rw [if_neg h, if_neg fun hand => h hand.2]
        rfl

/-- What holds of no decisions, and still when a decision is counted, flagged or reviewed, holds of
the statistics and the decisions of every tenant after every run. -/
theorem tenant_run {p : Stats → List LogEntry → Prop} (hempty : p Stats.empty [])
    (hadd : ∀ {s es}, p s es → ∀ e, p (s.add e) (es ++ [e]))
    (hflag : ∀ {s es}, p s es → ∀ n, p { s with flagged := n } es)
    (hreview : ∀ {s left e right}, p s (left ++ e :: right) → ∀ status notes,
      p s (left ++ review status notes e :: right))
    (config : Config) (trail : Option Audit.Trail) (ops : List Op) (tenant : String) :
    p ((run config trail ops).statsOf tenant) ((run config trail ops).ofTenant tenant) := by
  refine run_induction (p := fun l => p (l.statsOf tenant) (l.ofTenant tenant)) config trail hempty
    ?_ ops
  intro l l' h hchange
  cases hchange with
  | enter e hlog hstats =>
      rw [ofTenant] at h
      rw [statsOf, hstats, Table.find?_set, ofTenant, hlog, List.filter_append]
      by_cases ht : tenant = e.tenant
      · subst ht
        simpa using hadd h e
      · simpa [ht, Ne.symm ht, statsOf] using h
  | @settle flagged notes left right e hlog hleft =>
      have hlisted : p (l.statsOf tenant)
          ((l.settledAt flagged notes left e right).ofTenant tenant) := by
        rw [ofTenant, hlog, List.filter_append] at h
        rw [ofTenant, settledAt, List.filter_append]
        by_cases ht : e.tenant = tenant
        · simp only [List.filter_cons, decide_eq_true_eq, if_pos ht, review] at h ⊢
          exact hreview h _ notes
        · simpa only [List.filter_cons, decide_eq_true_eq, if_neg ht, review] using h
      rw [statsOf, settledAt, statsOf_noted]
      split
      · exact hflag hlisted _
      · exact hlisted
  | keep hlog hstats =>
      rw [statsOf, hstats, ofTenant, hlog]
      exact h

end Parley.Governance.Ledger
