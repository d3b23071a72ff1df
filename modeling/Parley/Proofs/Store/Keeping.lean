import Parley.Proofs.Store.MemoryLog
import Parley.Store.Outage

namespace Parley.Backend

variable {σ : Type} {b : Backend σ} {log : σ → List Message} {Sound : σ → Prop}

theorem runAll_append (b : Backend σ) (s : σ) (ops ops' : List Op) :
    (b.runAll s (ops ++ ops')).2 = (b.runAll (b.runAll s ops).2 ops').2 := by
  induction ops generalizing s with
  | nil => rfl
  | cons op ops ih => exact ih (b.run s op).2

theorem runAll_concat (b : Backend σ) (s : σ) (ops : List Op) (op : Op) :
    (b.runAll s (ops ++ [op])).2 = (b.run (b.runAll s ops).2 op).2 :=
  runAll_append b s ops [op]

/-- A backend that keeps its messages in a log. An append of a message whose id is new puts it
at the end, or fails and changes nothing; to read a thread changes nothing. Any call may fail. -/
structure Keeps (b : Backend σ) (log : σ → List Message) (Sound : σ → Prop) : Prop where
  append_sound : ∀ m s, Sound s → Sound (b.append m s).2
  thread_sound : ∀ id s, Sound s → Sound (b.thread id s).2
  appended : ∀ m s, Sound s → (∀ n ∈ log s, n.id ≠ m.id) → (b.append m s).1 = .ok () →
    log (b.append m s).2 = log s ++ [m]
  refused : ∀ m s e, Sound s → (b.append m s).1 = .error e → log (b.append m s).2 = log s
  read : ∀ id s, Sound s → log (b.thread id s).2 = log s

theorem memory_keeps : MemoryLog.backend.Keeps MemoryLog.log MemoryLog.Sound where
  append_sound m _ h := MemoryLog.append_sound h m
  thread_sound _ _ h := h
  appended m s h hnew _ := by
    change (s.append m).log = _
    rw [MemoryLog.append_log h, if_neg]
    simpa [MemoryLog.holds] using hnew
  refused _ _ _ _ he := nomatch he
  read _ _ _ := rfl

theorem Keeps.outage (h : b.Keeps log Sound) :
    (Outage.backend b).Keeps (fun s => log s.2) (fun s => Sound s.2) where
  append_sound m s hs := by
    simp only [Outage.backend]
    cases s.1.appends.contains m.kind with
    | true => exact hs
    | false => exact h.append_sound m s.2 hs
  thread_sound id s hs := by
    simp only [Outage.backend]
    cases s.1.thread with
    | true => exact hs
    | false => exact h.thread_sound id s.2 hs
  appended m s hs hnew := by
    simp only [Outage.backend]
    cases s.1.appends.contains m.kind with
    | true => exact nofun
    | false => exact h.appended m s.2 hs hnew
  refused m s e hs := by
    simp only [Outage.backend]
    cases s.1.appends.contains m.kind with
    | true => exact fun _ => rfl
    | false => exact h.refused m s.2 e hs
  read id s hs := by
    simp only [Outage.backend]
    cases s.1.thread with
    | true => rfl
    | false => exact h.read id s.2 hs

/-- A backend on which no search for a message and no decision fails: it finds what `view` says
it has, and a decision changes the message it is put on and no other. -/
structure Decides (b : Backend σ) (view : σ → String → Option Message) (Sound : σ → Prop) :
    Prop where
  find : ∀ {id s found store}, Sound s → b.find id s = (found, store) →
    found = .ok (view s id) ∧ Sound store ∧ view store = view s
  decide : ∀ {id a s answer store}, Sound s → b.decide id a s = (answer, store) →
    answer = .ok (view s id).isSome ∧ Sound store ∧
      ∀ i, view store i = if i = id then (view s i).map a.apply else view s i

theorem memory_decides : MemoryLog.backend.Decides MemoryLog.find? MemoryLog.Sound where
  find := by
    rintro id s found store hs ⟨⟩
    exact ⟨rfl, hs, rfl⟩
  decide := by
    intro id a s answer store hs hd
    have hd : (Except.ok (s.decide id a).1, (s.decide id a).2) = (answer, store) := hd
    obtain ⟨rfl, rfl⟩ := Prod.mk.inj hd
    refine ⟨?_, MemoryLog.decide_sound hs id a, ?_⟩
    · rw [MemoryLog.find?_isSome hs, ← MemoryLog.decide_fst hs id a]
    · intro i
      rw [MemoryLog.find?_decide hs]
      cases hm : s.find? i with
      | none => simp
      | some m =>
          have hmi := MemoryLog.find?_id hs hm
          by_cases hi : i = id <;> simp [MemoryLog.marked, hmi, hi]

theorem Decides.refused {view : σ → String → Option Message} (h : b.Decides view Sound)
    {id : String} {a : Approval} {s store : σ} {answer : Except Error Bool} (hs : Sound s)
    (ha : answer ≠ .ok true) (hd : b.decide id a s = (answer, store)) : view store = view s := by
  obtain ⟨hanswer, -, hview⟩ := h.decide hs hd
  funext i
  rw [hview]
  by_cases hi : i = id
  · subst hi
    cases hm : view s i with
    | none => simp
    | some m =>
        rw [hanswer, hm] at ha
        exact absurd rfl ha
  · rw [if_neg hi]

end Parley.Backend
