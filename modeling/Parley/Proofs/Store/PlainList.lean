import Parley.Proofs.Store.Keeping
import Parley.Proofs.StreamStore.Agreement

namespace Parley.MemoryLog

open Backend (Op)
open StreamStore (firstOfEach firstOfEach_concat plainQuestion approvalOfQuestion ruled ruled_id
  ruled_of_none ruled_update)

def appended? : Op → Option Message
  | .append m => some m
  | _ => none

def ruling? (id : String) : Op → Option Approval
  | .decide i a => if i = id then some a else none
  | _ => none

def brings (id : String) (op : Op) : Bool := (appended? op).any fun m => m.id = id

/-- The last decision on an id, of those that were made once there was a message of that id. -/
def lastRuling (ops : List Op) (id : String) : Option Approval :=
  ((ops.dropWhile fun op => !brings id op).filterMap (ruling? id)).getLast?

def overlaid (m : Message) : Option Approval → Message
  | none => m
  | some a => { m with
      approved := some a.approved
      approvedBy := some a.approvedBy
      approvedAt := some a.approvedAt }

/-- The first message appended for each id, in order, with the last decision on its id. -/
def plainList (ops : List Op) : List Message :=
  (firstOfEach (ops.filterMap appended?)).map fun m => overlaid m (lastRuling ops m.id)

def undecided (m : Message) : Message :=
  { m with approved := none, approvedBy := none, approvedAt := none }

structure InRange (l : MemoryLog) : Prop where
  index : ∀ id i, l.index.find? id = some i → i < l.size
  threads : ∀ id, ∀ i ∈ (l.threads.find? id).getD [], i < l.size

structure Lists (ops : List Op) (l : MemoryLog) : Prop where
  sound : l.Sound
  log : l.log = plainList ops
  holds : ∀ id, l.holds id = ops.any (brings id)

variable {l : MemoryLog} {ops : List Op} {op : Op} {id : String}

theorem plainList_eq (ops : List Op) :
    plainList ops = (firstOfEach (ops.filterMap appended?)).map (ruled (lastRuling ops)) := by
  refine List.map_congr_left fun m _ => ?_
  rw [ruled]
  cases lastRuling ops m.id <;> rfl

theorem Sound.inRange (h : Sound l) : InRange l where
  index id i hi := by
    rw [h.index] at hi
    exact (List.findIdx?_eq_some_iff_findIdx_eq.mp hi).1
  threads id i hi := by
    rw [h.threads] at hi
    exact List.mem_range.mp (List.mem_of_mem_filter hi)

theorem isEmpty_dropWhile_brings (ops : List Op) (id : String) :
    (ops.dropWhile fun op => !brings id op).isEmpty = !ops.any (brings id) := by
  induction ops with
  | nil => rfl
  | cons op ops ih => cases h : brings id op <;> simp [h, ih]

theorem lastRuling_of_not_brought (h : ops.any (brings id) = false) : lastRuling ops id = none := by
  have hempty := isEmpty_dropWhile_brings ops id
  rw [h, Bool.not_false, List.isEmpty_iff] at hempty
  rw [lastRuling, hempty]
  rfl

/-- A decision counts from the first message of its id on. -/
theorem lastRuling_concat (ops : List Op) (op : Op) (id : String) :
    lastRuling (ops ++ [op]) id =
      if ops.any (brings id) then (ruling? id op).or (lastRuling ops id) else none := by
  rw [lastRuling, List.dropWhile_append, isEmpty_dropWhile_brings]
  cases hany : ops.any (brings id) with
  | true =>
      rw [Bool.not_true, if_neg Bool.false_ne_true, if_pos rfl, List.filterMap_append,
        List.getLast?_append, lastRuling]
      congr 1
      cases hr : ruling? id op <;> simp [hr]
  | false =>
      rw [Bool.not_false, if_pos rfl, if_neg Bool.false_ne_true]
      cases op with
      | append m => by_cases hm : m.id = id <;> simp [brings, appended?, ruling?, hm]
      | thread | tenant | find | decide => simp [brings, appended?]

theorem lastRuling_concat_of_quiet (h : ∀ id, ruling? id op = none) :
    lastRuling (ops ++ [op]) = lastRuling ops := by
  funext id
  rw [lastRuling_concat, h]
  cases hany : ops.any (brings id) with
  | true => rfl
  | false => exact (lastRuling_of_not_brought hany).symm

theorem plainList_concat_of_quiet (hop : appended? op = none) (h : ∀ id, ruling? id op = none) :
    plainList (ops ++ [op]) = plainList ops := by
  rw [plainList_eq, lastRuling_concat_of_quiet h, List.filterMap_append,
    List.filterMap_cons_none hop, List.filterMap_nil, List.append_nil, plainList_eq]

theorem lists_empty : Lists [] empty := ⟨empty_sound, rfl, fun _ => rfl⟩

theorem Lists.append (h : Lists ops l) (m : Message) : Lists (ops ++ [.append m]) (l.append m) := by
  have hlog := append_log h.sound m
  have hknown : (∃ n ∈ firstOfEach (ops.filterMap appended?), n.id = m.id) ↔
      l.holds m.id = true := by
    rw [MemoryLog.holds, h.log, plainList_eq, List.any_map, List.any_eq_true]
    simp only [Function.comp_apply, ruled_id, decide_eq_true_eq]
  have hlist : plainList (ops ++ [.append m]) =
      if l.holds m.id then plainList ops else plainList ops ++ [m] := by
    rw [plainList_eq, plainList_eq, lastRuling_concat_of_quiet fun _ => rfl,
      List.filterMap_append, show [Op.append m].filterMap appended? = [m] from rfl,
      firstOfEach_concat]
    by_cases hm : l.holds m.id = true
    · rw [if_pos (hknown.mpr hm), if_pos hm]
    · have hnone := lastRuling_of_not_brought (h.holds m.id ▸ Bool.eq_false_iff.mpr hm)
      rw [if_neg (mt hknown.mp hm), if_neg hm, List.map_append, List.map_singleton,
        ruled_of_none hnone]
  refine ⟨append_sound h.sound m, by rw [hlog, hlist, h.log], ?_⟩
  intro id
  rw [← find?_isSome (append_sound h.sound m), find?_append h.sound, Option.isSome_or,
    find?_isSome h.sound, h.holds, List.any_append]
  by_cases hid : m.id = id <;> simp [brings, appended?, hid]

theorem Lists.decide (h : Lists ops l) (id : String) (a : Approval) :
    Lists (ops ++ [.decide id a]) (l.decide id a).2 := by
  have hlog := decide_log h.sound id a
  have hholds (i : String) : (l.decide id a).2.holds i = l.holds i := by
    simp only [MemoryLog.holds, hlog, List.any_map, Function.comp_def, marked_id]
  have hbrings (i : String) : (ops ++ [Op.decide id a]).any (brings i) = ops.any (brings i) := by
    simp [brings, appended?]
  refine ⟨decide_sound h.sound id a, ?_, fun i => by rw [hholds, h.holds, hbrings]⟩
  have hfirst : (ops ++ [Op.decide id a]).filterMap appended? = ops.filterMap appended? := by
    simp [appended?]
  rw [hlog, h.log, plainList_eq, plainList_eq, hfirst, List.map_map]
  refine List.map_congr_left fun m hm => ?_
  have hany : ops.any (brings m.id) = true := by
    rw [← h.holds, MemoryLog.holds, h.log, plainList_eq, List.any_map, List.any_eq_true]
    exact ⟨m, hm, by simp [ruled_id]⟩
  have hlast : lastRuling (ops ++ [.decide id a]) m.id =
      Function.update (lastRuling ops) id (some a) m.id := by
    rw [lastRuling_concat, if_pos hany, Function.update_apply]
    by_cases hid : m.id = id
    · rw [if_pos hid, ruling?, if_pos hid.symm, Option.some_or]
    · rw [if_neg hid, ruling?, if_neg (Ne.symm hid), Option.none_or]
  rw [Function.comp_apply, ← ruled_update, ruled, ruled, hlast]

theorem Lists.run (h : Lists ops l) (op : Op) : Lists (ops ++ [op]) (backend.run l op).2 := by
  have hquiet (hop : appended? op = none) (hr : ∀ id, ruling? id op = none) :
      Lists (ops ++ [op]) l := by
    refine ⟨h.sound, by rw [plainList_concat_of_quiet hop hr, h.log], fun id => ?_⟩
    simp [h.holds, brings, hop]
  cases op with
  | append m => exact h.append m
  | decide id a => exact h.decide id a
  | thread | tenant | find => exact hquiet rfl fun _ => rfl

theorem lists_runAll (ops : List Op) : Lists ops (backend.runAll empty ops).2 := by
  induction ops using List.reverseRecOn with
  | nil => exact lists_empty
  | append_singleton ops op ih =>
      rw [Backend.runAll_concat]
      exact ih.run op

theorem undecided_marked (id : String) (a : Approval) (m : Message) :
    undecided (marked id a m) = undecided m := by
  by_cases h : m.id = id <;> simp [marked, undecided, h, Approval.apply]

theorem id_of_undecided {m n : Message} (h : undecided m = undecided n) : m.id = n.id :=
  show (undecided m).id = (undecided n).id from congrArg _ h

theorem threadId_undecided (m : Message) : (undecided m).threadId = m.threadId := rfl

theorem holds_eq_of_undecided {l' : MemoryLog} (h : l'.log.map undecided = l.log.map undecided)
    (id : String) : l'.holds id = l.holds id := by
  have hany (k : MemoryLog) : k.holds id = (k.log.map undecided).any fun n => n.id = id := by
    rw [MemoryLog.holds, List.any_map]
    rfl
  rw [hany, hany, h]

theorem map_undecided_thread (h : Sound l) (id : String) :
    (l.thread id).map undecided = (l.log.map undecided).filter fun m => m.threadId = id := by
  rw [thread_eq_filter h, List.filter_map]
  rfl

end Parley.MemoryLog
