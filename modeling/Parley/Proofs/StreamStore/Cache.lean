import Mathlib.Data.List.DropRight
import Mathlib.Data.List.Induction
import Mathlib.Logic.Function.Basic
import Parley.StreamStore.Cache

namespace Parley.StreamStore.Cache

/-- The threads that were admitted to a cache, in order, and for each thread the messages since it
was admitted last. -/
structure Past where
  admitted : List String
  pushed : String → List Message

namespace Past

/-- A message goes to its thread, which is admitted unless it is one of the last `n`. -/
def push (n : Nat) (p : Past) (m : Message) : Past :=
  if m.threadId ∈ p.admitted.rtake n then
    { p with pushed := Function.update p.pushed m.threadId (p.pushed m.threadId ++ [m]) }
  else ⟨p.admitted ++ [m.threadId], Function.update p.pushed m.threadId [m]⟩

def of (n : Nat) (list : List Message) : Past := list.foldl (push n) ⟨[], fun _ => []⟩

/-- How many threads were admitted after a thread was, the last time. -/
def since (thread : String) (p : Past) : Nat := p.admitted.reverse.idxOf thread

/-- How many threads were admitted after the thread of a message, as it stood when the message
came. -/
def admittedAfter (n : Nat) (before : List Message) (m : Message) (after : List Message) : Nat :=
  since m.threadId (of n (before ++ [m])) +
    ((of n (before ++ m :: after)).admitted.length - (of n (before ++ [m])).admitted.length)

end Past

/-- A cache of the last `n` threads that were admitted, each with its last `k` messages. -/
structure Follows (n k : Nat) (p : Past) (c : Cache) : Prop where
  maxThreads : c.maxThreads = n
  maxMessages : c.maxMessages = k
  order : c.order = p.admitted.rtake n
  nodup : c.order.Nodup
  threads : ∀ x, c.threads.find? x = if x ∈ c.order then some ((p.pushed x).rtake k) else none

variable {α : Type} {n k : Nat} {p : Past} {c : Cache} {m : Message} {list before after : List Message}
  {thread : String}

theorem rtake_concat_of_full {l : List α} (hn : 0 < n) (h : (l.rtake n).length = n) (a : α) :
    (l ++ [a]).rtake n = (l.rtake n).tail ++ [a] := by
  obtain ⟨j, rfl⟩ := Nat.exists_eq_succ_of_ne_zero hn.ne'
  rw [List.rtake_concat_succ, List.rtake, List.rtake, List.tail_drop]
  rw [List.rtake, List.length_drop] at h
  congr 2
  omega

theorem rtake_concat_of_not_full {l : List α} (h : (l.rtake n).length ≠ n) (a : α) :
    (l ++ [a]).rtake n = l.rtake n ++ [a] := by
  rw [List.rtake, List.length_drop] at h
  have hall : l.length - n = 0 := by omega
  have hone : (l ++ [a]).length - n = 0 := by
    rw [List.length_append, List.length_singleton]
    omega
  rw [List.rtake, List.rtake, hall, hone]
  rfl

theorem extend_rtake (hk : 0 < k) (l : List Message) (m : Message) :
    extend k (l.rtake k) m = (l ++ [m]).rtake k := by
  rw [extend]
  split
  · rename_i hfull
    rw [rtake_concat_of_full hk hfull]
  · rename_i hroom
    rw [rtake_concat_of_not_full hroom]

theorem follows_new (n k : Nat) : Follows n k (.of n []) (new n k) :=
  ⟨rfl, rfl, (List.rtake_nil n).symm, List.nodup_nil, fun _ => rfl⟩

theorem Follows.get (h : Follows n k p c) (x : String) :
    c.get x = if x ∈ p.admitted.rtake n then (p.pushed x).rtake k else [] := by
  rw [Cache.get, h.threads, h.order]
  split <;> rfl

theorem Follows.push_cached (h : Follows n k p c) (hn : 0 < n) (hk : 0 < k)
    (hm : m.threadId ∈ p.admitted.rtake n) : Follows n k (p.push n m) (c.push m) := by
  have hbounds : ¬ (c.maxThreads = 0 ∨ c.maxMessages = 0) := by
    rw [h.maxThreads, h.maxMessages]
    omega
  have henter : c.enter m.threadId = c := by
    rw [enter, h.threads, h.order, if_pos hm]
  have hget : c.get m.threadId = (p.pushed m.threadId).rtake k := by rw [h.get, if_pos hm]
  rw [Past.push, if_pos hm, push, if_neg hbounds]
  simp only [henter, hget, h.maxMessages, extend_rtake hk]
  refine ⟨h.maxThreads, rfl, h.order, h.nodup, fun x => ?_⟩
  simp only [Table.find?_set, h.threads, Function.update_apply]
  by_cases hx : x = m.threadId
  · rw [if_pos hx, if_pos hx, hx, h.order, if_pos hm]
  · rw [if_neg hx, if_neg hx]

structure Roomy (n k : Nat) (p : Past) (thread : String) (c : Cache) : Prop where
  maxThreads : c.maxThreads = n
  maxMessages : c.maxMessages = k
  order : c.order ++ [thread] = (p.admitted ++ [thread]).rtake n
  nodup : (c.order ++ [thread]).Nodup
  threads : ∀ x, c.threads.find? x = if x ∈ c.order then some ((p.pushed x).rtake k) else none

theorem Follows.makeRoom (h : Follows n k p c) (hn : 0 < n) (hx : thread ∉ p.admitted.rtake n) :
    Roomy n k p thread c.makeRoom := by
  have hnodup : (c.order ++ [thread]).Nodup := by
    refine List.nodup_append.mpr ⟨h.nodup, by simp, fun a ha b hb hab => hx ?_⟩
    rwa [← List.mem_singleton.mp hb, ← hab, ← h.order]
  rw [Cache.makeRoom, h.maxThreads]
  by_cases hfull : c.order.length = n
  · rw [if_pos hfull]
    have horder := rtake_concat_of_full hn (h.order ▸ hfull) thread
    rw [← h.order] at horder
    cases hc : c.order with
    | nil =>
        rw [hc] at hfull
        exact absurd hfull hn.ne
    | cons oldest rest =>
        rw [hc] at horder hnodup
        obtain ⟨hgone, hrest⟩ := List.nodup_cons.mp hnodup
        refine ⟨rfl, h.maxMessages, horder.symm, hrest, fun x => ?_⟩
        simp only [Table.find?_erase, h.threads, hc, List.mem_cons]
        by_cases hold : x = oldest
        · have hnot : oldest ∉ rest := fun hmem => hgone (List.mem_append_left _ hmem)
          rw [if_pos hold, hold, if_neg hnot]
        · simp only [hold, false_or, if_false]
  · rw [if_neg hfull]
    have horder := rtake_concat_of_not_full (h.order ▸ hfull) thread
    rw [← h.order] at horder
    exact ⟨h.maxThreads, h.maxMessages, horder.symm, hnodup, h.threads⟩

theorem Follows.push_new (h : Follows n k p c) (hn : 0 < n) (hk : 0 < k)
    (hm : m.threadId ∉ p.admitted.rtake n) : Follows n k (p.push n m) (c.push m) := by
  have hbounds : ¬ (c.maxThreads = 0 ∨ c.maxMessages = 0) := by
    rw [h.maxThreads, h.maxMessages]
    omega
  have henter : c.enter m.threadId =
      { c.makeRoom with order := c.makeRoom.order ++ [m.threadId] } := by
    rw [enter, h.threads, h.order, if_neg hm]
  obtain ⟨hthreads, hmessages, horder, hnodup, hfind⟩ := h.makeRoom hn hm
  have hgone : m.threadId ∉ c.makeRoom.order := fun hmem =>
    (List.nodup_append.mp hnodup).2.2 _ hmem _ List.mem_cons_self rfl
  have hnone : c.makeRoom.threads.find? m.threadId = none := by rw [hfind, if_neg hgone]
  have hfirst : extend k [] m = ([m] : List Message).rtake k := by
    rw [← List.nil_append [m], ← extend_rtake hk, List.rtake_nil]
  rw [Past.push, if_neg hm, push, if_neg hbounds]
  simp only [henter, Cache.get, hnone, Option.getD_none, hmessages, hfirst]
  refine ⟨hthreads, rfl, horder, hnodup, fun x => ?_⟩
  simp only [Table.find?_set, hfind, Function.update_apply, List.mem_append, List.mem_singleton]
  by_cases hx : x = m.threadId
  · simp only [hx, or_true, if_true]
  · simp only [hx, or_false, if_false]

theorem Follows.push (h : Follows n k p c) (hn : 0 < n) (hk : 0 < k) (m : Message) :
    Follows n k (p.push n m) (c.push m) := by
  by_cases hm : m.threadId ∈ p.admitted.rtake n
  · exact h.push_cached hn hk hm
  · exact h.push_new hn hk hm

namespace Past

theorem of_concat (n : Nat) (list : List Message) (m : Message) :
    of n (list ++ [m]) = (of n list).push n m := by
  rw [of, List.foldl_append]
  rfl

theorem pushed_push (n : Nat) (p : Past) (m : Message) (x : String) :
    (p.push n m).pushed x = if x = m.threadId then
      (if x ∈ p.admitted.rtake n then p.pushed x else []) ++ [m] else p.pushed x := by
  rw [push]
  by_cases hx : x = m.threadId
  · subst hx
    split <;> simp
  · split <;> simp [hx]

theorem admitted_push (n : Nat) (p : Past) (m : Message) : (p.push n m).admitted =
    if m.threadId ∈ p.admitted.rtake n then p.admitted else p.admitted ++ [m.threadId] := by
  rw [push]
  split <;> rfl

theorem pushed_suffix (n : Nat) (list : List Message) (x : String) :
    (of n list).pushed x <:+ list.filter fun m => m.threadId = x := by
  induction list using List.reverseRecOn with
  | nil => exact List.suffix_rfl
  | append_singleton list m ih =>
      rw [of_concat, pushed_push, List.filter_append]
      by_cases hx : x = m.threadId
      · rw [if_pos hx]
        have hlast : [m].filter (fun m => m.threadId = x) = [m] := by simp [hx]
        rw [hlast]
        obtain ⟨dropped, hdropped⟩ :
            (if x ∈ (of n list).admitted.rtake n then (of n list).pushed x else []) <:+
              list.filter fun m => m.threadId = x := by
          split
          · exact ih
          · exact List.nil_suffix
        exact ⟨dropped, by rw [← List.append_assoc, hdropped]⟩
      · rw [if_neg hx]
        simpa [Ne.symm hx] using ih

theorem exists_admitted (n : Nat) (p : Past) (m : Message) :
    ∃ more, (p.push n m).admitted = p.admitted ++ more := by
  rw [admitted_push]
  split
  · exact ⟨[], (List.append_nil _).symm⟩
  · exact ⟨[m.threadId], rfl⟩

/-- A thread is in the cache as long as fewer than `n` were admitted after it. -/
theorem mem_rtake_iff {x : String} {p : Past} (hx : x ∈ p.admitted) :
    x ∈ p.admitted.rtake n ↔ p.since x < n := by
  rw [List.rtake_eq_reverse_take_reverse, List.mem_reverse,
    List.mem_take_iff_idxOf_lt (List.mem_reverse.mpr hx), since]

theorem since_le {x : String} {p p' : Past} (hx : x ∈ p.admitted)
    (h : ∃ more, p'.admitted = p.admitted ++ more) :
    x ∈ p'.admitted ∧ p'.since x ≤ p.since x + (p'.admitted.length - p.admitted.length) := by
  obtain ⟨more, hmore⟩ := h
  refine ⟨hmore ▸ List.mem_append_left _ hx, ?_⟩
  rw [since, since, hmore, List.reverse_append, List.length_append, Nat.add_sub_cancel_left,
    List.idxOf_append]
  split
  · rename_i hmem
    have hlt := List.idxOf_lt_length_iff.mpr hmem
    rw [List.length_reverse] at hlt
    omega
  · rw [List.length_reverse]

theorem mem_admitted_push (n : Nat) (p : Past) (m : Message) :
    m.threadId ∈ (p.push n m).admitted := by
  rw [admitted_push]
  split
  · rename_i h
    exact List.mem_of_mem_drop h
  · exact List.mem_append_right _ List.mem_cons_self

theorem exists_admitted_of_append (n : Nat) (list more : List Message) :
    ∃ rest, (of n (list ++ more)).admitted = (of n list).admitted ++ rest := by
  induction more using List.reverseRecOn with
  | nil => exact ⟨[], by rw [List.append_nil, List.append_nil]⟩
  | append_singleton more m ih =>
      obtain ⟨rest, hrest⟩ := ih
      obtain ⟨rest', hrest'⟩ := exists_admitted n (of n (list ++ more)) m
      rw [← List.append_assoc, of_concat, hrest', hrest]
      exact ⟨rest ++ rest', List.append_assoc ..⟩

/-- A message whose thread was not displaced is kept together with all later ones of its thread. -/
theorem length_pushed (h : admittedAfter n before m after < n) :
    m.threadId ∈ (of n (before ++ m :: after)).admitted.rtake n ∧
      (after.filter fun m' => m'.threadId = m.threadId).length <
        ((of n (before ++ m :: after)).pushed m.threadId).length := by
  have hcons (after : List Message) : before ++ m :: after = before ++ [m] ++ after := by simp
  have hfirst : m.threadId ∈ (of n (before ++ [m])).admitted := by
    rw [of_concat]
    exact mem_admitted_push n _ m
  have hcached (after : List Message) (h : admittedAfter n before m after < n) :
      m.threadId ∈ (of n (before ++ m :: after)).admitted.rtake n := by
    obtain ⟨hmem, hle⟩ := since_le hfirst (hcons after ▸ exists_admitted_of_append n _ after)
    exact (mem_rtake_iff hmem).mpr (hle.trans_lt h)
  refine ⟨hcached after h, ?_⟩
  induction after using List.reverseRecOn with
  | nil =>
      rw [of_concat, pushed_push, if_pos rfl]
      simp
  | append_singleton after m' ih =>
      have hlist : before ++ m :: (after ++ [m']) = before ++ m :: after ++ [m'] := by simp
      have hbefore : admittedAfter n before m after < n := by
        obtain ⟨more, hmore⟩ := exists_admitted n (of n (before ++ m :: after)) m'
        refine lt_of_le_of_lt ?_ h
        rw [admittedAfter, admittedAfter, hlist, of_concat n (before ++ m :: after), hmore,
          List.length_append]
        omega
      have hkept := ih hbefore
      rw [hlist, of_concat, pushed_push, List.filter_append, List.length_append]
      by_cases hm' : m.threadId = m'.threadId
      · rw [if_pos hm', if_pos (hcached after hbefore), List.length_append]
        simpa [hm'] using hkept
      · rw [if_neg hm']
        simpa [Ne.symm hm'] using hkept

end Past

/-- What of a thread is in a cache: every message that neither its thread nor later messages of its
thread have displaced, in order. -/
theorem Follows.kept {list : List Message} (h : Follows n k (.of n list) c) :
    c.get thread <:+ list.filter (fun m => m.threadId = thread) ∧
      ∀ before m after, list = before ++ m :: after → m.threadId = thread →
        Past.admittedAfter n before m after < n →
        (after.filter fun m' => m'.threadId = thread).length < k → m ∈ c.get thread := by
  have hpushed := Past.pushed_suffix n list thread
  have hlast : ((Past.of n list).pushed thread).rtake k <:+ (Past.of n list).pushed thread :=
    List.drop_suffix ..
  refine ⟨?_, ?_⟩
  · rw [h.get]
    split
    · exact hlast.trans hpushed
    · exact List.nil_suffix
  · rintro before m after rfl rfl hadmitted hlater
    obtain ⟨hcached, hlength⟩ := Past.length_pushed hadmitted
    rw [h.get, if_pos hcached]
    rw [List.filter_append, List.filter_cons, if_pos (decide_eq_true rfl)] at hpushed
    have hlong : (m :: after.filter fun m' => m'.threadId = m.threadId).length ≤
        (((Past.of n (before ++ m :: after)).pushed m.threadId).rtake k).length := by
      rw [List.length_cons, List.rtake, List.length_drop]
      omega
    exact (List.suffix_of_suffix_length_le (List.suffix_append _ _) (hlast.trans hpushed)
      hlong).subset List.mem_cons_self

end Parley.StreamStore.Cache
