import Parley.Proofs.StreamStore.Agreement
import Parley.Proofs.StreamStore.Cache

namespace Parley.StreamStore.Cache

inductive Op
  | push (m : Message)
  | decide (id : String) (a : Approval)

def step (c : Cache) : Op → Cache
  | .push m => c.push m
  | .decide id a => c.decide id a

def after (c : Cache) (ops : List Op) : Cache := ops.foldl step c

def holds (c : Cache) (thread : String) : Bool := (c.threads.find? thread).isSome

/-- A message of a thread that is not in the cache admits the thread. -/
def admission? (c : Cache) : Op → Option String
  | .push m => if c.holds m.threadId then none else some m.threadId
  | .decide _ _ => none

def admissions (c : Cache) : List Op → List String
  | [] => []
  | op :: ops => (c.admission? op).toList ++ admissions (c.step op) ops

def decision? (id : String) : Op → Option Approval
  | .push _ => none
  | .decide i a => if i = id then some a else none

def lastDecision (ops : List Op) (id : String) : Option Approval :=
  (ops.filterMap (decision? id)).getLast?

/-- The messages pushed to a thread, each with the last decision on its id that came after it. -/
def pushedTo (thread : String) : List Op → List Message
  | [] => []
  | .push m :: ops =>
    if m.threadId = thread then ruled (lastDecision ops) m :: pushedTo thread ops
    else pushedTo thread ops
  | .decide _ _ :: ops => pushedTo thread ops

/-- A message admits its thread to a cache, and no message that comes later admits it again. -/
structure AdmitsLast (c : Cache) (before : List Op) (m : Message) (stay : List Op) : Prop where
  absent : (c.after before).holds m.threadId = false
  stays : ∀ between m', between ++ [.push m'] <+: stay → m'.threadId = m.threadId →
    (c.after (before ++ .push m :: between)).holds m.threadId = true

namespace Past

def step (n : Nat) (p : Past) : Op → Past
  | .push m => p.push n m
  | .decide id a => { p with pushed := fun x => decideIn id a (p.pushed x) }

def run (n : Nat) (ops : List Op) : Past := ops.foldl (step n) ⟨[], fun _ => []⟩

end Past

variable {n k : Nat} {p : Past} {c : Cache} {m : Message} {op : Op} {ops stay before : List Op}
  {id thread : String} {a : Approval}

theorem after_concat (c : Cache) (ops : List Op) (op : Op) :
    c.after (ops ++ [op]) = (c.after ops).step op :=
  List.foldl_concat ..

theorem Past.run_concat (n : Nat) (ops : List Op) (op : Op) :
    Past.run n (ops ++ [op]) = (Past.run n ops).step n op :=
  List.foldl_concat ..

theorem admissions_concat (c : Cache) (ops : List Op) (op : Op) :
    c.admissions (ops ++ [op]) = c.admissions ops ++ ((c.after ops).admission? op).toList := by
  induction ops generalizing c with
  | nil => simp [admissions, after]
  | cons first ops ih =>
      have hnext : c.after (first :: ops) = (c.step first).after ops := rfl
      rw [List.cons_append, admissions, admissions, ih, hnext, List.append_assoc]

theorem lastDecision_push (ops : List Op) (m : Message) :
    lastDecision (ops ++ [.push m]) = lastDecision ops := by
  funext id
  rw [lastDecision, List.filterMap_append, List.filterMap_cons_none rfl, List.filterMap_nil,
    List.append_nil, lastDecision]

theorem lastDecision_decide (ops : List Op) (id : String) (a : Approval) :
    lastDecision (ops ++ [.decide id a]) = Function.update (lastDecision ops) id (some a) := by
  funext i
  rw [lastDecision, List.filterMap_append, Function.update_apply]
  by_cases hi : i = id
  · have hone : decision? i (.decide id a) = some a := if_pos hi.symm
    rw [if_pos hi, List.filterMap_cons_some hone, List.filterMap_nil, List.getLast?_concat]
  · have hnone : decision? i (.decide id a) = none := if_neg (Ne.symm hi)
    rw [if_neg hi, List.filterMap_cons_none hnone, List.filterMap_nil, List.append_nil,
      lastDecision]

theorem pushedTo_push (thread : String) (ops : List Op) (m : Message) :
    pushedTo thread (ops ++ [.push m]) =
      pushedTo thread ops ++ if m.threadId = thread then [m] else [] := by
  induction ops with
  | nil =>
      have hbare : ruled (lastDecision []) m = m := ruled_of_none rfl
      rw [List.nil_append, pushedTo, pushedTo, hbare]
      rfl
  | cons op ops ih =>
      cases op with
      | decide id a => rw [List.cons_append, pushedTo, pushedTo, ih]
      | push m' =>
          rw [List.cons_append, pushedTo, pushedTo, lastDecision_push, ih]
          split <;> rfl

theorem pushedTo_decide (thread : String) (ops : List Op) (id : String) (a : Approval) :
    pushedTo thread (ops ++ [.decide id a]) = decideIn id a (pushedTo thread ops) := by
  induction ops with
  | nil => rfl
  | cons op ops ih =>
      cases op with
      | decide i b => rw [List.cons_append, pushedTo, pushedTo, ih]
      | push m =>
          rw [List.cons_append, pushedTo, pushedTo, lastDecision_decide, ruled_update, ih]
          split <;> rfl

theorem valueIn_map {α : Type} (f : α → α) (es : List (String × α)) (x : String) :
    Table.valueIn x (es.map fun t => (t.1, f t.2)) = (Table.valueIn x es).map f := by
  induction es with
  | nil => rfl
  | cons e es ih =>
      rw [List.map_cons, Table.valueIn, Table.valueIn, ih]
      split <;> rfl

theorem find?_decide (c : Cache) (id : String) (a : Approval) (x : String) :
    (c.decide id a).threads.find? x = (c.threads.find? x).map (decideIn id a) :=
  valueIn_map (decideIn id a) c.threads.entries x

theorem Follows.decide (h : Follows n k p c) (id : String) (a : Approval) :
    Follows n k (p.step n (.decide id a)) (c.decide id a) := by
  refine ⟨h.maxThreads, h.maxMessages, h.order, h.nodup, fun x => ?_⟩
  have hkept : (decideIn id a (p.pushed x)).rtake k = decideIn id a ((p.pushed x).rtake k) := by
    rw [decideIn, decideIn, List.rtake, List.rtake, List.length_map, List.map_drop]
  rw [find?_decide, h.threads]
  by_cases hx : x ∈ c.order
  · rw [if_pos hx, Option.map_some, ← hkept]
    exact (if_pos hx).symm
  · rw [if_neg hx, Option.map_none]
    exact (if_neg hx).symm

theorem Follows.step (h : Follows n k p c) (hn : 0 < n) (hk : 0 < k) (op : Op) :
    Follows n k (p.step n op) (c.step op) := by
  cases op with
  | push m => exact h.push hn hk m
  | decide id a => exact h.decide id a

theorem follows_run (hn : 0 < n) (hk : 0 < k) (ops : List Op) :
    Follows n k (Past.run n ops) ((new n k).after ops) := by
  induction ops using List.reverseRecOn with
  | nil => exact follows_new n k
  | append_singleton ops op ih =>
      rw [Past.run_concat, after_concat]
      exact ih.step hn hk op

theorem Follows.holds (h : Follows n k p c) (x : String) :
    c.holds x = true ↔ x ∈ p.admitted.rtake n := by
  rw [Cache.holds, h.threads, h.order]
  split <;> simp [*]

theorem Follows.admission (h : Follows n k p c) (op : Op) :
    (p.step n op).admitted = p.admitted ++ (c.admission? op).toList := by
  cases op with
  | decide id a => exact (List.append_nil _).symm
  | push m =>
      rw [Past.step, Past.admitted_push, admission?]
      by_cases hm : m.threadId ∈ p.admitted.rtake n
      · rw [if_pos hm, if_pos ((h.holds _).mpr hm), Option.toList_none, List.append_nil]
      · rw [if_neg hm, if_neg (mt (h.holds _).mp hm), Option.toList_some]

theorem admitted_run (hn : 0 < n) (hk : 0 < k) (ops : List Op) :
    (Past.run n ops).admitted = (new n k).admissions ops := by
  induction ops using List.reverseRecOn with
  | nil => rfl
  | append_singleton ops op ih =>
      rw [Past.run_concat, (follows_run hn hk ops).admission, ih, admissions_concat]

theorem AdmitsLast.decide (h : AdmitsLast c before m stay) (id : String) (a : Approval) :
    AdmitsLast c before m (stay ++ [.decide id a]) := by
  refine ⟨h.absent, ?_⟩
  intro between m' hprefix
  rcases List.prefix_concat_iff.mp hprefix with heq | hearlier
  · cases List.singleton_injective (List.append_inj' heq rfl).2
  · exact h.stays between m' hearlier

theorem AdmitsLast.push {m' : Message} (h : AdmitsLast c before m stay)
    (hm' : m'.threadId = m.threadId →
      (c.after (before ++ .push m :: stay)).holds m.threadId = true) :
    AdmitsLast c before m (stay ++ [.push m']) := by
  refine ⟨h.absent, ?_⟩
  intro between m'' hprefix
  rcases List.prefix_concat_iff.mp hprefix with heq | hearlier
  · obtain ⟨rfl, hlast⟩ := List.append_inj' heq rfl
    cases List.singleton_injective hlast
    exact hm'
  · exact h.stays between m'' hearlier

/-- The messages of a thread are what was pushed to it from its last admission on. -/
def Past.Recalls (n k : Nat) (ops : List Op) (thread : String) (list : List Message) : Prop :=
  ∃ before m stay, ops = before ++ .push m :: stay ∧ m.threadId = thread ∧
    AdmitsLast (new n k) before m stay ∧ list = pushedTo thread (.push m :: stay)

namespace Past.Recalls

variable {list : List Message}

theorem decide (h : Recalls n k ops thread list) (id : String) (a : Approval) :
    Recalls n k (ops ++ [.decide id a]) thread (decideIn id a list) := by
  obtain ⟨before, m, stay, rfl, rfl, hlast, rfl⟩ := h
  refine ⟨before, m, stay ++ [.decide id a], by simp, rfl, hlast.decide id a, ?_⟩
  rw [← List.cons_append, pushedTo_decide]

theorem push_elsewhere (h : Recalls n k ops thread list) (hm : m.threadId ≠ thread) :
    Recalls n k (ops ++ [.push m]) thread list := by
  obtain ⟨before, first, stay, rfl, rfl, hlast, rfl⟩ := h
  refine ⟨before, first, stay ++ [.push m], by simp, rfl, hlast.push fun h => absurd h hm, ?_⟩
  rw [← List.cons_append, pushedTo_push, if_neg hm, List.append_nil]

theorem push_held (h : Recalls n k ops m.threadId list)
    (hm : ((new n k).after ops).holds m.threadId = true) :
    Recalls n k (ops ++ [.push m]) m.threadId (list ++ [m]) := by
  obtain ⟨before, first, stay, rfl, hfirst, hlast, rfl⟩ := h
  refine ⟨before, first, stay ++ [.push m], by simp, hfirst,
    hlast.push fun _ => hfirst ▸ hm, ?_⟩
  rw [← List.cons_append, pushedTo_push, if_pos rfl]

theorem push_absent (hm : ((new n k).after ops).holds m.threadId = false) :
    Recalls n k (ops ++ [.push m]) m.threadId [m] := by
  refine ⟨ops, m, [], rfl, rfl, ⟨hm, ?_⟩, ?_⟩
  · intro between m' hprefix
    exact absurd (List.prefix_nil.mp hprefix) (List.append_ne_nil_of_right_ne_nil _ nofun)
  · exact (pushedTo_push m.threadId [] m).symm ▸ (if_pos rfl).symm

end Past.Recalls

theorem recalls_run (hn : 0 < n) (hk : 0 < k) (hx : thread ∈ (Past.run n ops).admitted) :
    Past.Recalls n k ops thread ((Past.run n ops).pushed thread) := by
  induction ops using List.reverseRecOn with
  | nil => cases hx
  | append_singleton ops op ih =>
      have hholds := (follows_run hn hk ops).holds thread
      rw [Past.run_concat] at hx ⊢
      cases op with
      | decide id a => exact (ih hx).decide id a
      | push m =>
          rw [Past.step, Past.pushed_push]
          by_cases hthread : thread = m.threadId
          · subst hthread
            rw [if_pos rfl]
            by_cases hcached : m.threadId ∈ (Past.run n ops).admitted.rtake n
            · rw [if_pos hcached]
              exact (ih (List.mem_of_mem_drop hcached)).push_held (hholds.mpr hcached)
            · rw [if_neg hcached]
              exact .push_absent (Bool.eq_false_iff.mpr (mt hholds.mp hcached))
          · rw [if_neg hthread]
            refine (ih ?_).push_elsewhere (Ne.symm hthread)
            rw [Past.step, Past.admitted_push] at hx
            split at hx
            · exact hx
            · exact (List.mem_append.mp hx).resolve_right
                fun hlast => hthread (List.mem_singleton.mp hlast)

theorem nodup_keys_enter (h : c.threads.keys.Nodup) (thread : String) :
    (c.enter thread).threads.keys.Nodup := by
  rw [enter]
  split
  · exact h
  · rw [makeRoom]
    split
    · split
      · exact h.sublist (List.filter_sublist.map Prod.fst)
      · exact h
    · exact h

theorem nodup_keys_step (h : c.threads.keys.Nodup) (op : Op) : (c.step op).threads.keys.Nodup := by
  cases op with
  | decide id a =>
      have hkeys : (c.decide id a).threads.keys = c.threads.keys := by
        rw [Cache.decide, Table.keys, List.map_map]
        rfl
      exact hkeys ▸ h
  | push m =>
      rw [step, push]
      split
      · exact h
      · exact Table.nodup_keys_setIn (nodup_keys_enter h m.threadId)

theorem nodup_keys_run (n k : Nat) (ops : List Op) :
    ((new n k).after ops).threads.keys.Nodup := by
  induction ops using List.reverseRecOn with
  | nil => exact List.nodup_nil
  | append_singleton ops op ih =>
      rw [after_concat]
      exact nodup_keys_step ih op

theorem Follows.keys_perm (h : Follows n k p c) (hkeys : c.threads.keys.Nodup) :
    c.threads.keys.Perm c.order := by
  rw [List.perm_ext_iff_of_nodup hkeys h.nodup]
  intro x
  rw [Table.keys, ← Table.valueIn_isSome_iff, ← Table.find?, h.threads]
  split <;> simp [*]

theorem after_of_bounds (h : n = 0 ∨ k = 0) (ops : List Op) : (new n k).after ops = new n k := by
  induction ops using List.reverseRecOn with
  | nil => rfl
  | append_singleton ops op ih =>
      rw [after_concat, ih]
      cases op with
      | push m => exact if_pos h
      | decide id a => rfl

/-- Without room for a thread or a message a cache stays empty. Otherwise its threads are the last
`n` that were admitted, each of them once, in the order of admission, and a thread has the last `k`
of the messages that came since its last admission, each as it was pushed but for the last decision
on its id that came after it. A thread is admitted by a message that finds it absent, and by no
other. -/
theorem cache_of_run (n k : Nat) (ops : List Op) :
    let c := (new n k).after ops
    (n = 0 ∨ k = 0 → c = new n k) ∧
    (0 < n → 0 < k →
      c.order = ((new n k).admissions ops).rtake n ∧ c.order.Nodup ∧ c.threads.keys.Perm c.order ∧
      (∀ x, x ∉ c.order → c.get x = []) ∧
      ∀ x ∈ c.order, ∃ before m stay, ops = before ++ .push m :: stay ∧ m.threadId = x ∧
        AdmitsLast (new n k) before m stay ∧
        c.get x = (pushedTo x (.push m :: stay)).rtake k) := by
  intro c
  refine ⟨fun h => after_of_bounds h ops, ?_⟩
  intro hn hk
  have hfollows : Follows n k (Past.run n ops) c := follows_run hn hk ops
  refine ⟨?_, hfollows.nodup, hfollows.keys_perm (nodup_keys_run n k ops), ?_, ?_⟩
  · rw [hfollows.order, admitted_run hn hk]
  · intro x hx
    rw [hfollows.get, ← hfollows.order, if_neg hx]
  · intro x hx
    rw [hfollows.order] at hx
    obtain ⟨before, m, stay, hops, hm, hlast, hpushed⟩ := recalls_run hn hk (List.mem_of_mem_drop hx)
    refine ⟨before, m, stay, hops, hm, hlast, ?_⟩
    rw [hfollows.get, if_pos hx, hpushed]

def threadMessage (thread id : String) : Message :=
  { Message.new id ⟨0, 0, 0⟩ "auditor" "auditee" "agent" .question "Why?" with
    thread := some thread }

/-- A thread that was dropped comes back without what it had, and a decision stays on the copy that
was there. -/
theorem cache_of_run_readmitted :
    let ops : List Op := [.push (threadMessage "t1" "a"), .push (threadMessage "t2" "b"),
      .push (threadMessage "t3" "c"), .push (threadMessage "t1" "d"),
      .decide "d" ⟨true, "user", ⟨0, 0, 0⟩⟩, .push (threadMessage "t1" "d")]
    let c := (new 2 2).after ops
    0 < 2 ∧ c.order = ["t3", "t1"] ∧ c.get "t2" = [] ∧
      (c.get "t1").map Message.approved = [some true, none] ∧
      ∃ before m stay, ops = before ++ .push m :: stay ∧ m.threadId = "t1" ∧
        AdmitsLast (new 2 2) before m stay ∧
        c.get "t1" = (pushedTo "t1" (.push m :: stay)).rtake 2 := by
  intro ops c
  have horder : c.order = ["t3", "t1"] := by decide
  obtain ⟨-, -, -, habsent, hcached⟩ := (cache_of_run 2 2 ops).2 (by decide) (by decide)
  refine ⟨by decide, horder, habsent "t2" ?_, by decide, hcached "t1" ?_⟩
  · rw [horder]
    decide
  · rw [horder]
    decide

end Parley.StreamStore.Cache
