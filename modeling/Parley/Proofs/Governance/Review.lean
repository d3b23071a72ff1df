import Mathlib.Data.List.Nodup
import Parley.Proofs.Governance.Run

namespace Parley.Governance

def LogEntry.Awaits (e : LogEntry) (tenant : String) : Prop :=
  e.tenant = tenant ∧ e.review = .pending

instance (tenant : String) : DecidablePred fun e : LogEntry => e.Awaits tenant :=
  fun _ => inferInstanceAs (Decidable (_ ∧ _))

namespace Ledger

def firsts (seen : List String) : List LogEntry → List LogEntry
  | [] => []
  | e :: rest => if e.id ∈ seen then firsts seen rest else e :: firsts (e.id :: seen) rest

/-- The entries whose id an earlier one has. -/
def repeats (seen : List String) : List LogEntry → List LogEntry
  | [] => []
  | e :: rest => if e.id ∈ seen then e :: repeats seen rest else repeats (e.id :: seen) rest

def settleAll (found : LogEntry → Bool × String) (l : Ledger) (es : List LogEntry) : Ledger :=
  es.foldl (fun l e => (l.settle (found e).1 e.id (found e).2).2) l

variable {l : Ledger} {left right es : List LogEntry} {e x : LogEntry} {seen : List String}
  {tenant : String}

theorem firsts_subset (seen : List String) (es : List LogEntry) : firsts seen es ⊆ es := by
  induction es generalizing seen with
  | nil => exact List.Subset.refl _
  | cons e es ih =>
      rw [firsts]
      split
      · exact List.subset_cons_of_subset e (ih seen)
      · exact List.cons_subset_cons e (ih _)

theorem not_mem_of_firsts (h : x ∈ firsts seen es) : x.id ∉ seen := by
  induction es generalizing seen with
  | nil => cases h
  | cons e es ih =>
      rw [firsts] at h
      split at h
      · exact ih h
      · rename_i he
        rcases List.mem_cons.mp h with rfl | h
        · exact he
        · exact fun hx => ih h (List.mem_cons_of_mem _ hx)

/-- Whatever holds of no first entry holds of the same repeats as of entries. -/
theorem filter_eq_repeats {p : LogEntry → Bool} (h : ∀ x ∈ firsts seen es, p x = false) :
    es.filter p = (repeats seen es).filter p := by
  induction es generalizing seen with
  | nil => rfl
  | cons e es ih =>
      rw [firsts] at h
      rw [repeats]
      split at h
      · rename_i he
        rw [if_pos he, List.filter_cons, List.filter_cons, ih h]
      · rename_i he
        rw [List.forall_mem_cons] at h
        rw [if_neg he, List.filter_cons_of_neg (by simp [h.1]), ih h.2]

theorem repeats_eq_nil (hn : (es.map LogEntry.id).Nodup) (hseen : ∀ e ∈ es, e.id ∉ seen) :
    repeats seen es = [] := by
  induction es generalizing seen with
  | nil => rfl
  | cons e es ih =>
      rw [List.map_cons, List.nodup_cons] at hn
      rw [List.forall_mem_cons] at hseen
      rw [repeats, if_neg hseen.1]
      refine ih hn.2 ?_
      intro x hx hmem
      rcases List.mem_cons.mp hmem with heq | hmem
      · exact hn.1 (heq ▸ List.mem_map_of_mem hx)
      · exact hseen.2 x hx hmem

theorem repeats_replace (hid : x.id = e.id) (hleft : ∀ y ∈ left, y.id ≠ e.id)
    (hseen : e.id ∉ seen) : repeats seen (left ++ x :: right) = repeats seen (left ++ e :: right) := by
  induction left generalizing seen with
  | nil =>
      simp only [List.nil_append, repeats, hid, if_neg hseen]
  | cons y left ih =>
      rw [List.forall_mem_cons] at hleft
      simp only [List.cons_append, repeats]
      split
      · rw [ih hleft.2 hseen]
      · refine ih hleft.2 ?_
        rw [List.mem_cons, not_or]
        exact ⟨Ne.symm hleft.1, hseen⟩

theorem mem_firsts_replace {y : LogEntry} (hid : x.id = e.id) (hleft : ∀ y ∈ left, y.id ≠ e.id)
    (hseen : e.id ∉ seen) (hy : y ∈ firsts seen (left ++ x :: right)) :
    y = x ∨ y ∈ firsts seen (left ++ e :: right) ∧ y.id ≠ e.id := by
  induction left generalizing seen with
  | nil =>
      simp only [List.nil_append, firsts, hid, if_neg hseen, List.mem_cons] at hy ⊢
      rcases hy with rfl | hy
      · exact .inl rfl
      · have hother := not_mem_of_firsts hy
        rw [List.mem_cons, not_or] at hother
        exact .inr ⟨.inr hy, hother.1⟩
  | cons z left ih =>
      rw [List.forall_mem_cons] at hleft
      rw [List.cons_append, firsts] at hy ⊢
      by_cases hz : z.id ∈ seen
      · rw [if_pos hz] at hy ⊢
        exact ih hleft.2 hseen hy
      · rw [if_neg hz] at hy ⊢
        rcases List.mem_cons.mp hy with rfl | hy
        · exact .inr ⟨List.mem_cons_self, hleft.1⟩
        · have hseen' : e.id ∉ z.id :: seen := by
            rw [List.mem_cons, not_or]
            exact ⟨Ne.symm hleft.1, hseen⟩
          exact (ih hleft.2 hseen' hy).imp_right fun h => ⟨List.mem_cons_of_mem _ h.1, h.2⟩

theorem review_outcome_ne_pending (flagged : Bool) (notes : String) (e : LogEntry) :
    (review (outcome flagged) notes e).review ≠ .pending := by
  cases flagged <;> nofun

theorem settle_repeats (l : Ledger) (flagged : Bool) (id notes : String) :
    repeats [] (l.settle flagged id notes).2.log = repeats [] l.log := by
  obtain ⟨left, e, right, hlog, -, hleft, hsettle⟩ | ⟨-, hsettle⟩ :=
    settle_cases l flagged id notes
  · rw [hsettle, hlog]
    exact repeats_replace rfl hleft List.not_mem_nil
  · rw [hsettle]

theorem mem_firsts_settle {flagged : Bool} {id notes : String}
    (hx : x ∈ firsts [] (l.settle flagged id notes).2.log) (hpending : x.review = .pending) :
    x ∈ firsts [] l.log ∧ x.id ≠ id := by
  obtain ⟨left, e, right, hlog, rfl, hleft, hsettle⟩ | ⟨hother, hsettle⟩ :=
    settle_cases l flagged id notes
  · rw [hsettle] at hx
    change x ∈ firsts [] (left ++ review (outcome flagged) notes e :: right) at hx
    rw [hlog]
    have hid : (review (outcome flagged) notes e).id = e.id := rfl
    rcases mem_firsts_replace hid hleft List.not_mem_nil hx with rfl | hx
    · exact absurd hpending (review_outcome_ne_pending flagged notes e)
    · exact hx
  · rw [hsettle] at hx
    exact ⟨hx, hother x (firsts_subset [] l.log hx)⟩

theorem settleAll_repeats (found : LogEntry → Bool × String) (l : Ledger) (es : List LogEntry) :
    repeats [] (l.settleAll found es).log = repeats [] l.log := by
  induction es generalizing l with
  | nil => rfl
  | cons e es ih => exact (ih _).trans (settle_repeats l _ e.id _)

theorem mem_firsts_settleAll {found : LogEntry → Bool × String}
    (hx : x ∈ firsts [] (l.settleAll found es).log) (hpending : x.review = .pending) :
    x ∈ firsts [] l.log ∧ ∀ e ∈ es, x.id ≠ e.id := by
  induction es generalizing l with
  | nil => exact ⟨hx, List.forall_mem_nil _⟩
  | cons e es ih =>
      obtain ⟨hfirst, hrest⟩ := ih hx
      obtain ⟨hfirst, hne⟩ := mem_firsts_settle hfirst hpending
      exact ⟨hfirst, List.forall_mem_cons.mpr ⟨hne, hrest⟩⟩

theorem pending_eq_filter (l : Ledger) (tenant : String) :
    l.pending tenant = l.log.filter fun e => e.Awaits tenant := by
  rw [pending, ofTenant, List.filter_filter]
  refine List.filter_congr fun e _ => ?_
  rw [← Bool.decide_and]
  exact decide_eq_decide.mpr and_comm

/-- Once all that waits was reviewed, what repeats an id still waits, and nothing else does. -/
theorem pending_settleAll (found : LogEntry → Bool × String) (l : Ledger) (tenant : String) :
    (l.settleAll found (l.pending tenant)).pending tenant =
      (repeats [] l.log).filter fun e => e.Awaits tenant := by
  rw [pending_eq_filter, ← settleAll_repeats found l (l.pending tenant)]
  refine filter_eq_repeats fun x hx => ?_
  rw [decide_eq_false_iff_not]
  intro hawaits
  obtain ⟨hfirst, hother⟩ := mem_firsts_settleAll hx hawaits.2
  refine hother x ?_ rfl
  rw [pending_eq_filter, List.mem_filter]
  exact ⟨firsts_subset [] l.log hfirst, decide_eq_true hawaits⟩

theorem pending_settledAt (hlog : l.log = left ++ e :: right) (flagged : Bool) (notes : String) :
    (l.pending tenant).length = ((l.settledAt flagged notes left e right).pending tenant).length +
      if e.Awaits tenant then 1 else 0 := by
  have hreviewed : ¬ (review (outcome flagged) notes e).Awaits tenant :=
    fun h => review_outcome_ne_pending flagged notes e h.2
  rw [pending_eq_filter, pending_eq_filter, ← List.countP_eq_length_filter,
    ← List.countP_eq_length_filter, hlog, settledAt, List.countP_append, List.countP_append,
    List.countP_cons, List.countP_cons, if_neg (mt of_decide_eq_true hreviewed)]
  simp only [decide_eq_true_eq]
  omega

theorem ofTenant_settledAt (hlog : l.log = left ++ e :: right) (flagged : Bool) (notes : String)
    {other : String} (hne : other ≠ e.tenant) :
    (l.settledAt flagged notes left e right).ofTenant other = l.ofTenant other := by
  have hreviewed : (review (outcome flagged) notes e).tenant ≠ other := Ne.symm hne
  simp only [ofTenant, settledAt, hlog, List.filter_append, List.filter_cons,
    decide_eq_false hreviewed, decide_eq_false (Ne.symm hne)]
  rfl

theorem mem_pending : e ∈ l.pending tenant ↔ e ∈ l.log ∧ e.Awaits tenant := by
  rw [pending_eq_filter, List.mem_filter, decide_eq_true_eq]

def Op.ids : Op → List String
  | .record _ _ _ c => [c.id]
  | .review .. | .flag .. | .error .. | .clear .. => []

theorem settle_ids (l : Ledger) (flagged : Bool) (id notes : String) :
    (l.settle flagged id notes).2.log.map LogEntry.id = l.log.map LogEntry.id := by
  obtain ⟨left, e, right, hlog, -, -, hsettle⟩ | ⟨-, hsettle⟩ := settle_cases l flagged id notes
  · rw [hsettle, hlog, settledAt, List.map_append, List.map_append]
    rfl
  · rw [hsettle]

theorem step_ids (l : Ledger) (op : Op) :
    ((l.step op).log.map LogEntry.id).Sublist (l.log.map LogEntry.id ++ op.ids) := by
  cases op with
  | record refusal auditId time c =>
      have hentered : (l.enter (c.entry time)).log.map LogEntry.id =
          l.log.map LogEntry.id ++ [c.id] := List.map_append
      simp only [step, record, Op.ids]
      split
      · exact List.sublist_append_left _ _
      · exact hentered ▸ List.Sublist.refl _
      · exact hentered ▸ List.Sublist.refl _
  | review id notes =>
      rw [Op.ids, List.append_nil]
      exact settle_ids l false id notes ▸ List.Sublist.refl _
  | flag id notes =>
      rw [Op.ids, List.append_nil]
      exact settle_ids l true id notes ▸ List.Sublist.refl _
  | error tenant agent =>
      rw [Op.ids, List.append_nil]
      exact List.Sublist.refl _
  | clear tenant agent =>
      rw [Op.ids, List.append_nil]
      exact List.Sublist.refl _

theorem run_ids (config : Config) (trail : Option Audit.Trail) (ops : List Op) :
    ((run config trail ops).log.map LogEntry.id).Sublist (ops.flatMap Op.ids) := by
  have h : ∀ l : Ledger, ((ops.foldl step l).log.map LogEntry.id).Sublist
      (l.log.map LogEntry.id ++ ops.flatMap Op.ids) := by
    induction ops with
    | nil => exact fun l => List.sublist_append_left _ _
    | cons op ops ih =>
        intro l
        rw [List.flatMap_cons, ← List.append_assoc]
        exact (ih (l.step op)).trans ((step_ids l op).append_right _)
  exact h (new config trail)

/-- After every run a review that names an entry which waits reaches the first entry of that id,
whoever's it is and however it stands: that entry alone changes, and the statistics of its tenant
alone. Going through all that waits leaves what repeats an id. Where no id was used twice, the
entry reached is the one that was named, and nothing is left. -/
theorem pending_review_reaches_first (config : Config) (trail : Option Audit.Trail) (ops : List Op)
    (tenant : String) :
    let l := run config trail ops
    (∀ e ∈ l.pending tenant, ∀ flagged notes, ∃ left first right,
      l.log = left ++ first :: right ∧ first.id = e.id ∧ (∀ x ∈ left, x.id ≠ e.id) ∧
      ((ops.flatMap Op.ids).Nodup → first = e) ∧
      (l.settle flagged e.id notes).1 = true ∧
      (l.settle flagged e.id notes).2.log = left ++ review (outcome flagged) notes first :: right ∧
      (l.pending tenant).length = ((l.settle flagged e.id notes).2.pending tenant).length +
        (if first.Awaits tenant then 1 else 0) ∧
      (∀ other, other ≠ first.tenant →
        (l.settle flagged e.id notes).2.ofTenant other = l.ofTenant other) ∧
      ∀ other, (l.settle flagged e.id notes).2.statsOf other =
        if flagged = true ∧ other = first.tenant then
          { l.statsOf other with flagged := (l.statsOf other).flagged + 1 }
        else l.statsOf other) ∧
    ∀ found,
      (l.settleAll found (l.pending tenant)).pending tenant =
        ((repeats [] l.log).filter fun e => e.Awaits tenant) ∧
      ((ops.flatMap Op.ids).Nodup → (l.settleAll found (l.pending tenant)).pending tenant = []) := by
  intro l
  have hids : (ops.flatMap Op.ids).Nodup → (l.log.map LogEntry.id).Nodup :=
    (run_ids config trail ops).nodup
  refine ⟨?_, ?_⟩
  · intro e he flagged notes
    have hmem : e ∈ l.log := (mem_pending.mp he).1
    obtain ⟨left, first, right, hlog, hid, hleft⟩ := exists_first ⟨e, hmem, rfl⟩
    have hfirst : first ∈ l.log := by
      rw [hlog]
      exact List.mem_append_right _ List.mem_cons_self
    have hsettle : l.settle flagged e.id notes = (true, l.settledAt flagged notes left first right) :=
      hid ▸ settle_first hlog (fun x hx => hid ▸ hleft x hx) flagged notes
    refine ⟨left, first, right, hlog, hid, hleft, ?_, ?_⟩
    · exact fun hn => List.inj_on_of_nodup_map (hids hn) hfirst hmem hid
    · rw [hsettle]
      exact ⟨rfl, rfl, pending_settledAt hlog flagged notes,
        fun other hne => ofTenant_settledAt hlog flagged notes hne,
        fun other => statsOf_noted l flagged first.tenant other⟩
  · intro found
    refine ⟨pending_settleAll found l tenant, fun hn => ?_⟩
    rw [pending_settleAll, repeats_eq_nil (hids hn) fun e _ => List.not_mem_nil, List.filter_nil]

def refusedDecision : Policy.Decision :=
  ⟨false, Policy.Objection.auditMode.text, .audit, .high, 0.9, some .auditMode⟩

def sharedCase (tenant : String) : Case := ⟨"d-1", tenant, "agent", refusedDecision, [], []⟩

def sharedOps : List Op :=
  [.record none "" ⟨0, 0, 0⟩ (sharedCase "auditor"), .review "d-1" "ok",
    .record none "" ⟨0, 0, 0⟩ (sharedCase "auditee")]

theorem shared_pending :
    (sharedCase "auditee").entry ⟨0, 0, 0⟩ ∈
      (run .standard none sharedOps).pending "auditee" :=
  List.mem_singleton_self _

theorem pending_review_reaches_first_shared :
    (sharedCase "auditee").entry ⟨0, 0, 0⟩ ∈
      (run .standard none sharedOps).pending "auditee" ∧
    ((run .standard none sharedOps).settle true "d-1" "").1 = true ∧
    ((sharedOps.take 1).flatMap Op.ids).Nodup ∧
    ((run .standard none (sharedOps.take 1)).settleAll (fun _ => (true, ""))
      ((run .standard none (sharedOps.take 1)).pending "auditor")).pending "auditor" = [] := by
  have hn : ((sharedOps.take 1).flatMap Op.ids).Nodup := List.nodup_singleton _
  refine ⟨shared_pending, ?_, hn, ?_⟩
  · obtain ⟨hreview, -⟩ := pending_review_reaches_first .standard none sharedOps "auditee"
    obtain ⟨left, first, right, -, -, -, -, hfound, -⟩ := hreview _ shared_pending true ""
    exact hfound
  · obtain ⟨-, hall⟩ := pending_review_reaches_first .standard none (sharedOps.take 1) "auditor"
    exact (hall _).2 hn

/-- A review need not reach the entry that was named: what waits stays, and it is another tenant's
entry and statistics that change. -/
theorem pending_review_elsewhere :
    (sharedCase "auditee").entry ⟨0, 0, 0⟩ ∈
      (run .standard none sharedOps).pending "auditee" ∧
    ((run .standard none sharedOps).settle true "d-1" "").1 = true ∧
    (((run .standard none sharedOps).settle true "d-1" "").2.pending "auditee").length = 1 ∧
    ((run .standard none sharedOps).ofTenant "auditor").map LogEntry.review = [.reviewed] ∧
    (((run .standard none sharedOps).settle true "d-1" "").2.ofTenant "auditor").map
      LogEntry.review = [.flagged] ∧
    ((run .standard none sharedOps).statsOf "auditor").flagged = 0 ∧
    (((run .standard none sharedOps).settle true "d-1" "").2.statsOf "auditor").flagged = 1 :=
  ⟨shared_pending, rfl, rfl, rfl, rfl, rfl, rfl⟩

end Ledger

end Parley.Governance
