import Mathlib.Data.List.Basic
import Mathlib.Data.List.Nodup
import Mathlib.Data.List.Range
import Parley.Store.Memory

namespace Parley.MemoryLog

def places (p : Message → Bool) (log : List Message) : List Nat :=
  (List.range log.length).filter fun i => (log[i]?).any p

/-- Both indexes say what a search of the log would say, and no id is in the log twice. -/
structure Sound (l : MemoryLog) : Prop where
  nodup : (l.log.map Message.id).Nodup
  index : ∀ id, l.index.find? id = l.log.findIdx? fun m => m.id = id
  threads : ∀ id, (l.threads.find? id).getD [] = places (fun m => m.threadId = id) l.log

def holds (l : MemoryLog) (id : String) : Bool := l.log.any fun m => m.id = id

def marked (id : String) (a : Approval) (m : Message) : Message :=
  if m.id = id then a.apply m else m

theorem marked_id (id : String) (a : Approval) (m : Message) : (marked id a m).id = m.id := by
  by_cases h : m.id = id <;> simp [marked, h, Approval.apply]

theorem marked_threadId (id : String) (a : Approval) (m : Message) :
    (marked id a m).threadId = m.threadId := by
  by_cases h : m.id = id <;> simp [marked, h, Approval.apply, Message.threadId]

theorem places_snoc (p : Message → Bool) (log : List Message) (m : Message) :
    places p (log ++ [m]) = places p log ++ if p m then [log.length] else [] := by
  have hold : (List.range log.length).filter (fun i => ((log ++ [m])[i]?).any p) =
      places p log := by
    apply List.filter_congr
    intro i hi
    rw [List.getElem?_append_left (List.mem_range.mp hi)]
  simp only [places, List.length_append, List.length_cons, List.length_nil, Nat.zero_add,
    List.range_succ, List.filter_append]
  rw [hold]
  by_cases h : p m <;> simp [h, places]

theorem places_map (p : Message → Bool) (f : Message → Message) (hf : ∀ m, p (f m) = p m)
    (log : List Message) : places p (log.map f) = places p log := by
  have h : (fun m => p (f m)) = p := funext hf
  simp only [places, List.length_map, List.getElem?_map, Option.any_map]
  simp only [h]

theorem filterMap_places (p : Message → Bool) (log : List Message) :
    (places p log).filterMap (log[·]?) = log.filter p := by
  induction log using List.reverseRecOn with
  | nil => rfl
  | append_singleton log m ih =>
      have hold : (places p log).filterMap ((log ++ [m])[·]?) =
          (places p log).filterMap (log[·]?) := by
        apply List.filterMap_congr
        intro i hi
        exact List.getElem?_append_left (List.mem_range.mp (List.mem_of_mem_filter hi))
      rw [places_snoc, List.filterMap_append, hold, ih, List.filter_append]
      by_cases h : p m <;> simp [h]

theorem empty_sound : Sound empty := ⟨List.nodup_nil, fun _ => rfl, fun _ => rfl⟩

variable {l : MemoryLog}

theorem findIdx?_isSome (h : Sound l) (id : String) : (l.index.find? id).isSome = l.holds id := by
  rw [h.index, List.findIdx?_isSome, holds]

theorem thread_eq_filter (h : Sound l) (id : String) :
    l.thread id = l.log.filter fun m => m.threadId = id := by
  rw [thread, h.threads, filterMap_places]

theorem find?_eq_find? (h : Sound l) (id : String) :
    l.find? id = l.log.find? fun m => m.id = id := by
  rw [MemoryLog.find?, h.index]
  induction l.log with
  | nil => rfl
  | cons m log ih =>
      by_cases hm : m.id = id
      · simp [List.findIdx?_cons, hm]
      · rw [List.find?_cons_of_neg (by simpa using hm), ← ih, List.findIdx?_cons]
        cases log.findIdx? (fun m => m.id = id) <;> simp [hm]

theorem append_log (h : Sound l) (m : Message) :
    (l.append m).log = if l.holds m.id then l.log else l.log ++ [m] := by
  rw [← findIdx?_isSome h]
  cases hi : l.index.find? m.id <;> simp [append, hi]

theorem append_sound (h : Sound l) (m : Message) : Sound (l.append m) := by
  have hh := findIdx?_isSome h m.id
  cases hi : l.index.find? m.id with
  | some i => simpa [append, hi] using h
  | none =>
      have hnew : ∀ n ∈ l.log, n.id ≠ m.id := by
        rw [hi] at hh
        simpa [holds] using hh.symm
      simp only [append, hi]
      refine ⟨?_, ?_, ?_⟩
      · rw [List.map_append, List.nodup_append]
        refine ⟨h.nodup, List.nodup_singleton _, ?_⟩
        intro a ha b hb
        obtain ⟨n, hn, rfl⟩ := List.mem_map.mp ha
        rw [List.map_singleton, List.mem_singleton] at hb
        exact hb ▸ hnew n hn
      · intro id
        rw [Table.find?_set, List.findIdx?_append, ← h.index]
        by_cases hid : id = m.id
        · subst hid; simp [hi, size]
        · simp [hid, Ne.symm hid]
      · intro id
        simp only [Table.find?_set, places_snoc]
        by_cases hid : id = m.threadId
        · subst hid; simp [h.threads, size]
        · simp [hid, Ne.symm hid, h.threads]

theorem decide_fst (h : Sound l) (id : String) (a : Approval) : (l.decide id a).1 = l.holds id := by
  rw [← findIdx?_isSome h]
  cases hi : l.index.find? id <;> simp [decide, hi]

/-- Where ids are not repeated, changing the first message of an id changes each message of
that id. -/
theorem modify_findIdx? {log : List Message} (hn : (log.map Message.id).Nodup) (id : String)
    (a : Approval) (i : Nat) (hi : log.findIdx? (fun m => m.id = id) = some i) :
    log.modify i a.apply = log.map (marked id a) := by
  induction log generalizing i with
  | nil => simp at hi
  | cons m log ih =>
      rw [List.map_cons, List.nodup_cons] at hn
      rw [List.findIdx?_cons] at hi
      by_cases hm : m.id = id
      · have hrest : log.map (marked id a) = log := by
          rw [List.map_congr_left (g := fun m => m), List.map_id']
          intro n hmem
          have hne : n.id ≠ id := by
            rintro rfl
            exact hn.1 (List.mem_map.mpr ⟨n, hmem, hm.symm ▸ rfl⟩)
          simp [marked, hne]
        simp only [hm, decide_true, if_true, Option.some.injEq] at hi
        subst hi
        simp [List.map_cons, hrest, marked, hm]
      · simp only [hm, decide_false, Bool.false_eq_true, if_false, Option.map_eq_some_iff] at hi
        obtain ⟨j, hj, rfl⟩ := hi
        simp [List.modify_succ_cons, ih hn.2 j hj, marked, hm]

theorem decide_log (h : Sound l) (id : String) (a : Approval) :
    (l.decide id a).2.log = l.log.map (marked id a) := by
  cases hi : l.index.find? id with
  | none =>
      have hne : ∀ m ∈ l.log, m.id ≠ id := by
        have hh := findIdx?_isSome h id
        rw [hi] at hh
        simpa [holds] using hh.symm
      have hid : ∀ m ∈ l.log, marked id a m = m := fun m hm => by simp [marked, hne m hm]
      simp [decide, hi, List.map_congr_left hid]
  | some i =>
      rw [h.index] at hi
      simp only [decide, h.index, hi, modify_findIdx? h.nodup id a i hi]

theorem decide_sound (h : Sound l) (id : String) (a : Approval) : Sound (l.decide id a).2 := by
  have hlog := decide_log h id a
  have hindex : (l.decide id a).2.index = l.index := by
    cases hi : l.index.find? id <;> simp [decide, hi]
  have hthreads : (l.decide id a).2.threads = l.threads := by
    cases hi : l.index.find? id <;> simp [decide, hi]
  have hids : (fun m => (marked id a m).id) = Message.id := funext (marked_id id a)
  refine ⟨?_, ?_, ?_⟩
  · rw [hlog, List.map_map, Function.comp_def, hids]
    exact h.nodup
  · intro i
    rw [hindex, hlog, h.index, List.findIdx?_map]
    simp [Function.comp_def, marked_id]
  · intro t
    rw [hthreads, hlog, h.threads, places_map]
    intro m
    rw [marked_threadId]

theorem find?_isSome (h : Sound l) (id : String) : (l.find? id).isSome = l.holds id := by
  rw [find?_eq_find? h, holds, Bool.eq_iff_iff, List.find?_isSome, List.any_eq_true]

theorem find?_append (h : Sound l) (m : Message) (id : String) :
    (l.append m).find? id = (l.find? id).or (if m.id = id then some m else none) := by
  have hh := find?_isSome h m.id
  rw [find?_eq_find? (append_sound h m), append_log h]
  cases hm : l.holds m.id with
  | false =>
      rw [if_neg (by simp), List.find?_append, ← find?_eq_find? h]
      by_cases hid : m.id = id <;> simp [hid]
  | true =>
      rw [if_pos rfl, ← find?_eq_find? h]
      by_cases hid : m.id = id
      · subst hid
        rw [hm, Option.isSome_iff_exists] at hh
        obtain ⟨n, hn⟩ := hh
        rw [hn, Option.some_or]
      · rw [if_neg hid, Option.or_none]

theorem find?_decide (h : Sound l) (id : String) (a : Approval) (i : String) :
    (l.decide id a).2.find? i = (l.find? i).map (marked id a) := by
  rw [find?_eq_find? (decide_sound h id a), decide_log h, find?_eq_find? h, List.find?_map]
  simp only [Function.comp_def, marked_id]

theorem find?_id (h : Sound l) {id : String} {m : Message} (hm : l.find? id = some m) :
    m.id = id := by
  rw [find?_eq_find? h] at hm
  simpa using List.find?_some hm

theorem find?_of_mem (h : Sound l) {m : Message} (hm : m ∈ l.log) : l.find? m.id = some m := by
  rw [find?_eq_find? h, List.find?_eq_some_iff_append]
  obtain ⟨before, after, hlog⟩ := List.append_of_mem hm
  refine ⟨by simp, before, after, hlog, ?_⟩
  intro n hn
  have hnd := h.nodup
  rw [hlog, List.map_append, List.nodup_append] at hnd
  simpa using hnd.2.2 n.id (List.mem_map_of_mem hn) m.id (by simp)

theorem mem_of_find? (h : Sound l) {id : String} {m : Message} (hm : l.find? id = some m) :
    m ∈ l.log := by
  rw [find?_eq_find? h] at hm
  exact List.mem_of_find?_eq_some hm

theorem mem_thread_iff (h : Sound l) {m : Message} {id : String} :
    m ∈ l.thread id ↔ m ∈ l.log ∧ m.threadId = id := by
  rw [thread_eq_filter h, List.mem_filter, decide_eq_true_eq]

theorem foldl_append_sound (h : Sound l) (messages : List Message) :
    Sound (messages.foldl append l) := by
  induction messages generalizing l with
  | nil => exact h
  | cons m messages ih => exact ih (append_sound h m)

theorem find?_foldl_append (h : Sound l) (id : String) (messages : List Message) :
    (messages.foldl append l).find? id = (l.find? id).or (messages.find? fun m => m.id = id) := by
  induction messages generalizing l with
  | nil => exact (Option.or_none).symm
  | cons m messages ih =>
      rw [List.foldl_cons, ih (append_sound h m), find?_append h, Option.or_assoc]
      by_cases hid : m.id = id <;> simp [hid]

theorem holds_foldl_append (h : Sound l) (id : String) (messages : List Message) :
    (messages.foldl append l).holds id = (l.holds id || messages.any fun m => m.id = id) := by
  rw [← find?_isSome (foldl_append_sound h messages), find?_foldl_append h, Option.isSome_or,
    find?_isSome h]
  congr 1
  rw [Bool.eq_iff_iff, List.find?_isSome, List.any_eq_true]

theorem foldl_append_kept (h : Sound l) (messages : List Message) :
    ∃ kept, kept.Sublist messages ∧ (messages.foldl append l).log = l.log ++ kept := by
  induction messages generalizing l with
  | nil => exact ⟨[], .slnil, (List.append_nil _).symm⟩
  | cons m messages ih =>
      obtain ⟨kept, hkept, hlog⟩ := ih (append_sound h m)
      rw [List.foldl_cons, hlog, append_log h]
      cases l.holds m.id with
      | true => exact ⟨kept, hkept.cons m, rfl⟩
      | false => exact ⟨m :: kept, hkept.cons_cons m, by simp⟩

theorem thread_filter_id (h : Sound l) {m : Message} (hm : m ∈ l.log) :
    (l.thread m.threadId).filter (fun n => n.id = m.id) = [m] := by
  have hmem : m ∈ l.thread m.threadId := (mem_thread_iff h).mpr ⟨hm, rfl⟩
  have hnodup : ((l.thread m.threadId).map Message.id).Nodup := by
    rw [thread_eq_filter h]
    exact h.nodup.sublist (List.filter_sublist.map _)
  obtain ⟨before, after, hthread⟩ := List.append_of_mem hmem
  rw [hthread, List.map_append, List.map_cons, List.nodup_append, List.nodup_cons] at hnodup
  obtain ⟨-, ⟨hafter, -⟩, hbefore⟩ := hnodup
  have hnone : ∀ n ∈ before ++ after, ¬ Decidable.decide (n.id = m.id) = true := by
    intro n hn hid
    rw [decide_eq_true_eq] at hid
    rcases List.mem_append.mp hn with hn | hn
    · exact hbefore n.id (List.mem_map_of_mem hn) m.id List.mem_cons_self hid
    · exact hafter (hid ▸ List.mem_map_of_mem hn)
  rw [List.forall_mem_append] at hnone
  rw [hthread, List.filter_append, List.filter_cons_of_pos (by simp),
    List.filter_eq_nil_iff.mpr hnone.1, List.filter_eq_nil_iff.mpr hnone.2, List.nil_append]

theorem runAll_sound (h : Sound l) (ops : List Backend.Op) : Sound (backend.runAll l ops).2 := by
  induction ops generalizing l with
  | nil => exact h
  | cons op ops ih =>
      apply ih
      cases op with
      | append m => exact append_sound h m
      | decide id a => exact decide_sound h id a
      | thread | tenant | find => exact h

end Parley.MemoryLog
