import Parley.Proofs.Audit.Tamper

namespace Parley

namespace Chain

variable {start : String} {values : List Json} {expected : List String}

theorem matchesFrom_iff :
    matchesFrom start values expected = true ↔ expected = hashes ⟨start⟩ values := by
  induction values generalizing start expected with
  | nil => cases expected <;> simp [matchesFrom, hashes]
  | cons v values ih =>
      cases expected with
      | nil => simp [matchesFrom, hashes]
      | cons h expected =>
          rw [matchesFrom, Bool.and_eq_true, decide_eq_true_eq, ih, hashes, List.cons.injEq,
            eq_comm (a := h)]
          rfl

theorem length_hashes (c : Chain) (values : List Json) : (c.hashes values).length = values.length := by
  induction values generalizing c with
  | nil => rfl
  | cons v values ih => rw [hashes, List.length_cons, List.length_cons, ih]

end Chain

namespace Audit.Entry

def Linked (start : String) (es : List Entry) : Prop :=
  ∀ before e after, es = before ++ e :: after → e.previousHash = lastHash start before

variable {start : String} {e : Entry} {es : List Entry}

theorem linked_cons : Linked start (e :: es) ↔ e.previousHash = start ∧ Linked e.hash es := by
  constructor
  · intro h
    refine ⟨h [] e es rfl, ?_⟩
    rintro before f after rfl
    exact (h (e :: before) f after rfl).trans (lastHash_cons start e before)
  · rintro ⟨hfirst, hrest⟩ before f after hes
    cases before with
    | nil =>
        obtain ⟨rfl, -⟩ := List.cons.inj hes
        exact hfirst
    | cons e' before =>
        obtain ⟨rfl, htail⟩ := List.cons.inj hes
        exact (hrest before f after htail).trans (lastHash_cons start e before).symm

/-- Entries are checked with the hashes they bear, which are those computed as long as the check
goes on. -/
theorem verify_iff_linked : verify start es = true ↔
    Chain.matchesFrom start (es.map hashable) (es.map hash) = true ∧ Linked start es := by
  induction es generalizing start with
  | nil => exact ⟨fun _ => ⟨rfl, fun before _ _ h => by cases before <;> cases h⟩, fun _ => rfl⟩
  | cons e es ih =>
      rw [verify_cons, ih, linked_cons, List.map_cons, List.map_cons, Chain.matchesFrom,
        Bool.and_eq_true, decide_eq_true_eq]
      constructor
      · rintro ⟨hprevious, hhash, hmatch, hlinked⟩
        rw [← hhash]
        exact ⟨⟨rfl, hmatch⟩, hprevious, hlinked⟩
      · rintro ⟨⟨hhash, hmatch⟩, hprevious, hlinked⟩
        rw [hhash] at hmatch
        exact ⟨hprevious, hhash.symm, hmatch, hlinked⟩

/-- Hashes pass just if a new chain writes them; entries pass just if their hashes do and each
names the one before; and entries in two parts pass just if each part does, the second from where
the first ends. -/
theorem verifiers_agree :
    (∀ (values : List Json) (expected : List String),
      (Chain.verify values expected = true ↔ expected = Chain.start.hashes values) ∧
      (expected.length ≠ values.length → Chain.verify values expected = false)) ∧
    (∀ es : List Entry, verify Chain.genesis es = true ↔
      Chain.verify (es.map hashable) (es.map hash) = true ∧ Linked Chain.genesis es) ∧
    ∀ (start : String) (before after : List Entry), verify start (before ++ after) = true ↔
      verify start before = true ∧ verify (lastHash start before) after = true := by
  refine ⟨fun values expected => ⟨Chain.matchesFrom_iff, ?_⟩, fun es => verify_iff_linked,
    fun start before after => verify_append⟩
  intro hlength
  rw [Bool.eq_false_iff]
  intro hverify
  rw [Chain.matchesFrom_iff.mp hverify, Chain.length_hashes] at hlength
  exact hlength rfl

end Audit.Entry

end Parley
