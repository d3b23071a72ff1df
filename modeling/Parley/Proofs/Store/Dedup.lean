import Mathlib.Data.List.Dedup
import Mathlib.Data.List.Perm.Subperm
import Parley.Proofs.StreamStore.Cache
import Parley.Store.Dedup

namespace Parley.Deduplicator

open StreamStore.Cache (rtake_concat_of_full rtake_concat_of_not_full)

/-- An id is accepted unless it is one of the last `k` that were. -/
def accept (k : Nat) (accepted : List String) (id : String) : List String :=
  if id ∈ accepted.rtake k then accepted else accepted ++ [id]

def acceptedOf (k : Nat) (ids : List String) : List String := ids.foldl (accept k) []

/-- A deduplicator that remembers the last `k` of the ids it accepted. -/
structure Window (k : Nat) (accepted : List String) (d : Deduplicator) : Prop where
  capacity : d.capacity = k
  order : d.order = accepted.rtake k
  seen : ∀ id, id ∈ d.seen ↔ id ∈ d.order
  nodup : d.order.Nodup

variable {k : Nat} {ids more accepted : List String} {d : Deduplicator} {id : String}

theorem window_new (capacity : Nat) : Window (max capacity 1) [] (new capacity) :=
  ⟨rfl, (List.rtake_nil _).symm, fun _ => Iff.rfl, List.nodup_nil⟩

theorem window_remember (hcapacity : d.capacity = k)
    (horder : d.order ++ [id] = (accepted ++ [id]).rtake k)
    (hseen : ∀ x, x ∈ d.seen ↔ x ∈ d.order) (hnodup : d.order.Nodup) (hid : id ∉ d.order) :
    Window k (accepted ++ [id]) (d.remember id) := by
  refine ⟨hcapacity, horder, ?_, ?_⟩
  · intro x
    simp only [remember, List.mem_cons, List.mem_append, List.not_mem_nil, or_false, hseen]
    exact or_comm
  · rw [remember, ← List.concat_eq_append]
    exact hnodup.concat hid

theorem Window.accept_new (h : Window k accepted d) (hk : 0 < k) (hid : id ∉ accepted.rtake k) :
    Window k (accepted ++ [id]) (d.makeRoom.remember id) := by
  rw [← h.order] at hid
  by_cases hfull : d.order.length = k
  · have hlast := rtake_concat_of_full hk (h.order ▸ hfull) id
    rw [← h.order] at hlast
    cases horder : d.order with
    | nil =>
        rw [horder] at hfull
        exact absurd hfull hk.ne
    | cons oldest rest =>
        rw [horder] at hlast hid
        have hnodup := h.nodup
        rw [horder, List.nodup_cons] at hnodup
        have hroom : d.makeRoom =
            { d with seen := d.seen.filter (· ≠ oldest), order := rest } := by
          rw [makeRoom, h.capacity, if_pos hfull, horder]
        rw [hroom]
        refine window_remember h.capacity hlast.symm (fun x => ?_) hnodup.2
          (fun hmem => hid (List.mem_cons_of_mem oldest hmem))
        simp only [List.mem_filter, h.seen, horder, List.mem_cons, decide_eq_true_eq]
        -- The oldest id leaves the set too, and it is not among the rest: no id is there twice.
        constructor
        · rintro ⟨rfl | hx, hne⟩
          · exact absurd rfl hne
          · exact hx
        · intro hx
          refine ⟨.inr hx, ?_⟩
          rintro rfl
          exact hnodup.1 hx
  · have hlast := rtake_concat_of_not_full (h.order ▸ hfull) id
    rw [← h.order] at hlast
    have hroom : d.makeRoom = d := by rw [makeRoom, h.capacity, if_neg hfull]
    rw [hroom]
    exact window_remember h.capacity hlast.symm h.seen h.nodup hid

theorem Window.firstSeen (h : Window k accepted d) (hk : 0 < k) (id : String) :
    ((d.firstSeen id).1 = true ↔ id ∉ accepted.rtake k) ∧
      Window k (accept k accepted id) (d.firstSeen id).2 := by
  have hseen : id ∈ d.seen ↔ id ∈ accepted.rtake k := by rw [h.seen, h.order]
  rw [Deduplicator.firstSeen, accept]
  by_cases hid : id ∈ accepted.rtake k
  · rw [if_pos (hseen.mpr hid), if_pos hid]
    exact ⟨by simp [hid], h⟩
  · rw [if_neg (mt hseen.mp hid), if_neg hid]
    exact ⟨by simp [hid], h.accept_new hk hid⟩

theorem mem_remembered {x : String} (h : x ∈ (d.makeRoom.remember id).seen) :
    x = id ∨ x ∈ d.seen := by
  refine (List.mem_cons.mp h).imp_right fun h => ?_
  rw [makeRoom] at h
  split at h
  · split at h
    · exact List.mem_of_mem_filter h
    · exact h
  · exact h

theorem acceptedOf_concat (k : Nat) (ids : List String) (id : String) :
    acceptedOf k (ids ++ [id]) = accept k (acceptedOf k ids) id := by
  rw [acceptedOf, List.foldl_append]
  rfl

theorem length_dedup_le (h : ids ⊆ more) : ids.dedup.length ≤ more.dedup.length := by
  apply List.Subperm.length_le
  apply List.Nodup.subperm (List.nodup_dedup ids)
  intro x hx
  rw [List.mem_dedup] at hx ⊢
  exact h hx

theorem rtake_eq_self (h : accepted.length ≤ k) : accepted.rtake k = accepted := by
  rw [List.rtake, Nat.sub_eq_zero_of_le h, List.drop_zero]

/-- Where no more than `k` different ids come, each is accepted the first time. -/
theorem acceptedOf_few (h : ids.dedup.length ≤ k) :
    (acceptedOf k ids).rtake k = acceptedOf k ids ∧ (acceptedOf k ids).Nodup ∧
      ∀ x, x ∈ acceptedOf k ids ↔ x ∈ ids := by
  induction ids using List.reverseRecOn with
  | nil => exact ⟨List.rtake_nil k, List.nodup_nil, fun _ => Iff.rfl⟩
  | append_singleton ids id ih =>
      obtain ⟨hall, hnodup, hmem⟩ := ih ((length_dedup_le (List.subset_append_left _ _)).trans h)
      have hnext : (acceptedOf k (ids ++ [id])).Nodup ∧
          ∀ x, x ∈ acceptedOf k (ids ++ [id]) ↔ x ∈ ids ++ [id] := by
        rw [acceptedOf_concat, accept, hall]
        by_cases hid : id ∈ acceptedOf k ids
        · rw [if_pos hid]
          refine ⟨hnodup, ?_⟩
          intro x
          rw [hmem, List.mem_append, List.mem_singleton]
          constructor
          · exact .inl
          · rintro (hx | rfl)
            · exact hx
            · exact (hmem x).mp hid
        · rw [if_neg hid]
          constructor
          · rw [← List.concat_eq_append]
            exact hnodup.concat hid
          · intro x
            rw [List.mem_append, List.mem_append, hmem]
      obtain ⟨hnodup, hmem⟩ := hnext
      refine ⟨?_, hnodup, hmem⟩
      have hperm : (acceptedOf k (ids ++ [id])).Perm (ids ++ [id]).dedup := by
        rw [List.perm_ext_iff_of_nodup hnodup (List.nodup_dedup _)]
        intro x
        rw [hmem, List.mem_dedup]
      exact rtake_eq_self (hperm.length_eq.trans_le h)

theorem mem_rtake_acceptedOf (h : ids.dedup.length ≤ k) :
    id ∈ (acceptedOf k ids).rtake k ↔ id ∈ ids := by
  obtain ⟨hall, -, hmem⟩ := acceptedOf_few h
  rw [hall, hmem]

end Parley.Deduplicator
