import Parley.Proofs.Store.Dedup

namespace Parley.Deduplicator

def after (d : Deduplicator) (ids : List String) : Deduplicator :=
  ids.foldl (fun d id => (d.firstSeen id).2) d

/-- Those of some ids, asked about one after the other, that a deduplicator says are new. -/
def fresh (d : Deduplicator) : List String → List String
  | [] => []
  | id :: ids =>
    if (d.firstSeen id).1 then id :: fresh (d.firstSeen id).2 ids else fresh (d.firstSeen id).2 ids

variable {k capacity : Nat} {ids accepted newer between : List String} {d : Deduplicator}
  {id : String}

theorem fresh_append (d : Deduplicator) (ids more : List String) :
    d.fresh (ids ++ more) = d.fresh ids ++ (d.after ids).fresh more := by
  induction ids generalizing d with
  | nil => rfl
  | cons id ids ih =>
      have hnext : d.after (id :: ids) = (d.firstSeen id).2.after ids := rfl
      rw [List.cons_append, fresh, fresh, ih, hnext]
      split <;> rfl

theorem after_concat (d : Deduplicator) (ids : List String) (id : String) :
    d.after (ids ++ [id]) = ((d.after ids).firstSeen id).2 :=
  List.foldl_concat ..

theorem fresh_of_new (h : (d.firstSeen id).1 = true) : d.fresh [id] = [id] := by
  rw [fresh, if_pos h, fresh]

theorem fresh_of_known (h : (d.firstSeen id).1 ≠ true) : d.fresh [id] = [] := by
  rw [fresh, if_neg h, fresh]

theorem Window.accept_eq (h : Window k accepted d) (hk : 0 < k) (id : String) :
    accept k accepted id = accepted ++ d.fresh [id] := by
  have hnew := (h.firstSeen hk id).1
  rw [accept]
  by_cases hid : id ∈ accepted.rtake k
  · rw [if_pos hid, fresh_of_known (fun hseen => hnew.mp hseen hid), List.append_nil]
  · rw [if_neg hid, fresh_of_new (hnew.mpr hid)]

theorem window_run (capacity : Nat) (ids : List String) :
    Window (max capacity 1) ((new capacity).fresh ids) ((new capacity).after ids) := by
  have hk : 0 < max capacity 1 := Nat.le_max_right capacity 1
  induction ids using List.reverseRecOn with
  | nil => exact window_new capacity
  | append_singleton ids id ih =>
      rw [fresh_append, after_concat, ← ih.accept_eq hk]
      exact (ih.firstSeen hk id).2

theorem Window.size_le (h : Window k accepted d) : d.size ≤ k := by
  rw [size, h.order, List.rtake, List.length_drop]
  omega

theorem Window.firstSeen_eq_false_iff (h : Window k accepted d) (hk : 0 < k) (id : String) :
    (d.firstSeen id).1 = false ↔ id ∈ accepted.rtake k := by
  rw [← Bool.not_eq_true, (h.firstSeen hk id).1, not_not]

theorem rtake_append (h : k ≤ newer.length) (accepted : List String) :
    (accepted ++ newer).rtake k = newer.rtake k := by
  have hdrop : (accepted ++ newer).length - k = accepted.length + (newer.length - k) := by
    rw [List.length_append, Nat.add_sub_assoc h]
  rw [List.rtake, hdrop, List.drop_length_add_append, List.rtake]

/-- An id is in the window as long as fewer than `k` different ones were accepted after it. -/
theorem Window.mem_of_few (h : Window k (accepted ++ id :: newer) d)
    (hfew : newer.dedup.length < k) : id ∈ (accepted ++ id :: newer).rtake k := by
  by_cases hlong : newer.length < k
  · rw [List.rtake, List.length_append, List.length_cons]
    have hdrop : accepted.length + (newer.length + 1) - k ≤ accepted.length := by omega
    rw [List.drop_append_of_le_length hdrop]
    exact List.mem_append_right _ List.mem_cons_self
  · -- The last `k` accepted ids are all newer, and they differ: no window holds an id twice.
    exfalso
    have hlast : (accepted ++ id :: newer).rtake k = newer.rtake k := by
      rw [List.append_cons]
      exact rtake_append (not_lt.mp hlong) _
    have hnodup : (newer.rtake k).Nodup := by
      rw [← hlast, ← h.order]
      exact h.nodup
    have hlength : (newer.rtake k).length = k := by
      rw [List.rtake, List.length_drop]
      omega
    have hle := length_dedup_le (List.drop_subset (newer.length - k) newer)
    rw [← List.rtake, hnodup.dedup, hlength] at hle
    omega

/-- Whatever ids came, a deduplicator knows an id just if it is one of the last `k` that it said are
new, `k` being its capacity or 1. These are its queue, in order and none of them twice, and its set
is the same ids. So an id that it once said is new is not new again until `k` different ids were,
however many came that were not. -/
theorem window_of_run (capacity : Nat) (ids : List String) :
    let k := max capacity 1
    let d := (new capacity).after ids
    let accepted := (new capacity).fresh ids
    (∀ id, (d.firstSeen id).1 = false ↔ id ∈ accepted.rtake k) ∧
    d.order = accepted.rtake k ∧ d.order.Nodup ∧ d.size ≤ k ∧ (∀ id, id ∈ d.seen ↔ id ∈ d.order) ∧
    ∀ before id between, ids = before ++ id :: between →
      (((new capacity).after before).firstSeen id).1 = true →
      (((new capacity).after (before ++ [id])).fresh between).dedup.length < k →
      (d.firstSeen id).1 = false := by
  intro k d accepted
  have hk : 0 < k := Nat.le_max_right capacity 1
  have hwindow : Window k accepted d := window_run capacity ids
  refine ⟨hwindow.firstSeen_eq_false_iff hk, hwindow.order, hwindow.nodup, hwindow.size_le,
    hwindow.seen, ?_⟩
  intro before id between hids hnew hfew
  have haccepted : accepted = (new capacity).fresh before ++
      id :: ((new capacity).after (before ++ [id])).fresh between := by
    calc accepted = (new capacity).fresh ((before ++ [id]) ++ between) := by
          rw [← List.append_cons, ← hids]
      _ = _ := by
          rw [fresh_append, fresh_append, fresh_of_new hnew, ← List.append_cons]
  rw [hwindow.firstSeen_eq_false_iff hk, haccepted]
  exact (haccepted ▸ hwindow).mem_of_few hfew

theorem window_of_run_readmitted :
    let ids := ["a", "b", "a", "c", "a", "a", "c"]
    let d := (new 2).after ids
    ids = ["a", "b", "a", "c"] ++ "a" :: ["a", "c"] ∧
    (((new 2).after ["a", "b", "a", "c"]).firstSeen "a").1 = true ∧
    (((new 2).after (["a", "b", "a", "c"] ++ ["a"])).fresh ["a", "c"]).dedup.length < 2 ∧
    d.order = ["c", "a"] ∧ (d.firstSeen "a").1 = false := by
  intro ids d
  have hnew : (((new 2).after ["a", "b", "a", "c"]).firstSeen "a").1 = true := by decide
  have hfew : (((new 2).after (["a", "b", "a", "c"] ++ ["a"])).fresh ["a", "c"]).dedup.length < 2 :=
    by decide
  obtain ⟨-, -, -, -, -, hknown⟩ := window_of_run 2 ids
  exact ⟨rfl, hnew, hfew, by decide, hknown _ "a" ["a", "c"] rfl hnew hfew⟩

end Parley.Deduplicator
