import Parley.Proofs.Broker.Consumption

namespace Parley.Broker

open StreamStore (plainQuestion plainQuestion_reread plainQuestion_sound)

def Act.number? : Act → Option Nat
  | .handled .. => none
  | .acked number _ => some number

def Duty.number? : Duty → Option Nat
  | .handle .. => none
  | .ack number => some number

namespace Consumption

/-- The items that are there one look after the other, up to the first look that finds none. -/
def backlog (looks : List Look) : List Item :=
  (looks.takeWhile fun l => l.item?.isSome).filterMap Look.item?

/-- What a consumer does with an item: its message goes to the handlers of its receiver unless the
consumer remembers the id, and an entry is acknowledged. -/
def dutiesNow (w : Surroundings) (c : Consumption) (i : Item) : List Duty :=
  (i.message?.elim [] fun m =>
    if m.id ∈ c.seen.seen then [] else (w.handlersOf m.toTenant).map (.handle · m)) ++
    i.number?.toList.map .ack

variable {w : Surroundings} {c : Consumption} {i : Item} {items : List Item}
  {before after looks : List Look} {m : Message}

theorem number?_act (d : Duty) (i : Nat) : (d.act w i).number? = d.number? := by cases d <;> rfl

theorem acts_foldl_carryOut (w : Surroundings) (ds : List Duty) (c : Consumption) :
    ds.foldl (carryOut w) c =
      ⟨c.seen, c.acts ++ ds.mapIdx fun i d => d.act w (c.acts.length + i)⟩ := by
  induction ds generalizing c with
  | nil =>
      rw [List.mapIdx_nil, List.append_nil]
      rfl
  | cons d ds ih =>
      rw [List.foldl_cons, ih, List.mapIdx_cons]
      simp only [carryOut, note, List.append_assoc, List.singleton_append, List.length_append,
        List.length_singleton, Nat.add_zero, Nat.add_assoc, Nat.add_comm 1]

theorem number?_mapIdx (ds : List Duty) (n : Nat) :
    (ds.mapIdx fun i d => d.act w (n + i)).filterMap Act.number? = ds.filterMap Duty.number? := by
  induction ds generalizing n with
  | nil => rfl
  | cons d ds ih =>
      have hnext := ih (n + 1)
      simp only [Nat.add_assoc, Nat.add_comm 1] at hnext
      rw [List.mapIdx_cons, List.filterMap_cons, List.filterMap_cons, number?_act, hnext]

theorem number?_dutiesNow (w : Surroundings) (c : Consumption) (i : Item) :
    (dutiesNow w c i).filterMap Duty.number? = i.number?.toList := by
  have hack (number : Option Nat) :
      (number.toList.map Duty.ack).filterMap Duty.number? = number.toList := by
    cases number <;> rfl
  rw [dutiesNow, List.filterMap_append, hack]
  cases i.message? with
  | none => rfl
  | some m =>
      rw [Option.elim_some]
      split
      · rfl
      · rw [List.filterMap_map, List.filterMap_eq_nil_iff.mpr, List.nil_append]
        exact fun _ _ => rfl

theorem handle_mem_dutiesNow (hm : i.message? = some m) (hnew : m.id ∉ c.seen.seen) {h : Handler}
    (hh : h ∈ w.handlersOf m.toTenant) : Duty.handle h m ∈ dutiesNow w c i := by
  rw [dutiesNow, hm, Option.elim_some, if_neg hnew]
  exact List.mem_append_left _ (List.mem_map_of_mem hh)

theorem take_spec (w : Surroundings) (c : Consumption) (i : Item) : ∃ seen : Deduplicator,
    c.take w i = (dutiesNow w c i).foldl (carryOut w) { c with seen } ∧
      ∀ id ∈ seen.seen, id ∈ c.seen.seen ∨ id ∈ ids [i] := by
  cases i with
  | failed reason => exact ⟨c.seen, rfl, fun _ => .inl⟩
  | entry number payload =>
      rw [Consumption.take, Consumption.process, dutiesNow, Item.message?]
      cases hm : (decodeText payload : Option Message) with
      | none => exact ⟨c.seen, rfl, fun _ => .inl⟩
      | some m =>
          simp only [Option.map_some, Option.getD_some, Option.elim_some, Consumption.receive]
          by_cases hid : m.id ∈ c.seen.seen
          · rw [Deduplicator.firstSeen, if_pos hid, if_pos hid]
            exact ⟨c.seen, rfl, fun _ => .inl⟩
          · rw [Deduplicator.firstSeen, if_neg hid, if_neg hid]
            refine ⟨c.seen.makeRoom.remember m.id, ?_, ?_⟩
            · rw [List.foldl_append, ← dispatch_eq]
              rfl
            · intro x hx
              rcases Deduplicator.mem_remembered hx with rfl | hx
              · right
                have hi : Item.message? (.entry number payload) = some m := hm
                rw [ids, List.filterMap_cons_some hi]
                exact List.mem_singleton_self _
              · exact .inl hx

/-- What is done with some items: every entry is acknowledged, and a message whose id has not come
so far is handed to all handlers of its receiver. -/
theorem foldl_take_acts (w : Surroundings) (c : Consumption) (items : List Item) :
    ∃ more, (items.foldl (Consumption.take w) c).acts = c.acts ++ more ∧
      more.filterMap Act.number? = items.filterMap Item.number? ∧
      ∀ past i rest m, items = past ++ i :: rest → i.message? = some m →
        m.id ∉ c.seen.seen → m.id ∉ ids past → ∀ h ∈ w.handlersOf m.toTenant,
          ∃ worked, Act.handled h.name m worked ∈ more := by
  induction items generalizing c with
  | nil => exact ⟨[], (List.append_nil _).symm, rfl, by simp⟩
  | cons i items ih =>
      -- An id that the first item does not bring is as new after it as before.
      obtain ⟨seen, htake, hseen⟩ := take_spec w c i
      rw [acts_foldl_carryOut] at htake
      obtain ⟨more, hacts, hacked, hhanded⟩ := ih (c.take w i)
      rw [htake] at hacts hhanded
      refine ⟨_, by rw [List.foldl_cons, htake, hacts, List.append_assoc], ?_, ?_⟩
      · rw [List.filterMap_append, hacked, number?_mapIdx, number?_dutiesNow,
          List.filterMap_cons]
        cases i.number? <;> rfl
      · intro past j rest m hitems hm hnew hpast h hh
        cases past with
        | nil =>
            obtain ⟨rfl, rfl⟩ := List.cons.inj hitems
            obtain ⟨k, hk, hduty⟩ := List.getElem_of_mem (handle_mem_dutiesNow hm hnew hh)
            refine ⟨h.succeeds (c.acts.length + k), List.mem_append_left _ ?_⟩
            exact List.mem_mapIdx.mpr ⟨k, hk, by rw [hduty]; rfl⟩
        | cons p past =>
            obtain ⟨rfl, rfl⟩ := List.cons.inj hitems
            have hids : ids (i :: past) = ids [i] ++ ids past := ids_append [i] past
            rw [hids, List.mem_append, not_or] at hpast
            have hseen' : m.id ∉ seen.seen := fun hx => (hseen _ hx).elim hnew hpast.1
            obtain ⟨worked, hmem⟩ := hhanded past j rest m rfl hm hseen' hpast.2 h hh
            exact ⟨worked, List.mem_append_right _ hmem⟩

theorem foldl_take_of_no_entry (w : Surroundings) (c : Consumption)
    (h : items.filterMap Item.number? = []) : items.foldl (Consumption.take w) c = c := by
  induction items with
  | nil => rfl
  | cons i items ih =>
      cases i with
      | failed reason => exact ih h
      | entry number payload => cases h

theorem run_eq (w : Surroundings) (c : Consumption) (looks : List Look) :
    c.run w looks = ((taken looks).foldl (Consumption.take w) c, looks.any Look.closes) := by
  induction looks generalizing c with
  | nil => rfl
  | cons l looks ih =>
      rw [run_cons, List.any_cons]
      cases hl : l.closes with
      | true =>
          rw [taken_cons_of_closes hl]
          rfl
      | false =>
          rw [taken_cons hl, List.foldl_append, if_neg Bool.false_ne_true, ih, Bool.false_or]
          cases l.item? <;> rfl

theorem taken_append (h : before.any Look.closes = false) (after : List Look) :
    taken (before ++ after) = taken before ++ taken after := by
  induction before with
  | nil => rfl
  | cons l before ih =>
      rw [List.any_cons, Bool.or_eq_false_iff] at h
      rw [List.cons_append, taken_cons h.1, taken_cons h.1, ih h.2, List.append_assoc]

theorem closes_of_stopped {l : Look} (h : l.stopped = true) : l.closes = !l.item?.isSome := by
  obtain ⟨found, stopped⟩ := l
  obtain rfl : stopped = true := h
  cases found <;> rfl

theorem taken_of_stopped (h : ∀ l ∈ looks, l.stopped = true) :
    taken looks = backlog looks ∧
      (looks.any Look.closes = true ↔ (backlog looks).length < looks.length) := by
  induction looks with
  | nil => exact ⟨rfl, by simp [backlog]⟩
  | cons l looks ih =>
      rw [List.forall_mem_cons] at h
      obtain ⟨htaken, hany⟩ := ih h.2
      have hl := closes_of_stopped h.1
      rw [List.any_cons]
      cases hi : l.item? with
      | none =>
          rw [hi, Option.isSome_none, Bool.not_false] at hl
          have hnone : backlog (l :: looks) = [] := by
            rw [backlog, List.takeWhile_cons_of_neg (by simp [hi])]
            rfl
          rw [taken_cons_of_closes hl, hnone, hl]
          exact ⟨rfl, by simp⟩
      | some i =>
          rw [hi, Option.isSome_some, Bool.not_true] at hl
          have hsome : backlog (l :: looks) = i :: backlog looks := by
            rw [backlog, List.takeWhile_cons_of_pos (by simp [hi]), List.filterMap_cons_some hi]
            rfl
          rw [taken_cons hl, hsome, hl, hi, htaken, Bool.false_or, hany]
          exact ⟨rfl, by simp⟩

/-- A consumer that is told to stop goes on as long as there is an item each time it looks, however
many there are: each is taken as before, so that a message whose id is new goes to all handlers of
its receiver, and each entry is acknowledged. It returns at the first look that finds none. So from
then on it does nothing just if no entry is there without a gap. -/
theorem run_past_stop (w : Surroundings) (c : Consumption) {before after : List Look}
    (hopen : before.any Look.closes = false) (hstopped : ∀ l ∈ after, l.stopped = true) :
    ∃ c₀ c₁ returned more, c.run w before = (c₀, false) ∧
      c.run w (before ++ after) = (c₁, returned) ∧
      c₁ = (backlog after).foldl (Consumption.take w) c₀ ∧
      (returned = true ↔ (backlog after).length < after.length) ∧
      c₁.acts = c₀.acts ++ more ∧
      more.filterMap Act.number? = (backlog after).filterMap Item.number? ∧
      (∀ past i rest m, backlog after = past ++ i :: rest → i.message? = some m →
        m.id ∉ c₀.seen.seen → m.id ∉ ids past → ∀ h ∈ w.handlersOf m.toTenant,
          ∃ worked, Act.handled h.name m worked ∈ more) ∧
      (more = [] ↔ (backlog after).filterMap Item.number? = []) := by
  have hrun₀ := run_eq w c before
  have hrun₁ := run_eq w c (before ++ after)
  obtain ⟨htaken, hreturned⟩ := taken_of_stopped hstopped
  rw [hopen] at hrun₀
  rw [taken_append hopen, List.foldl_append, htaken, List.any_append, hopen, Bool.false_or] at hrun₁
  obtain ⟨more, hacts, hacked, hhanded⟩ :=
    foldl_take_acts w ((taken before).foldl (Consumption.take w) c) (backlog after)
  refine ⟨_, _, _, more, hrun₀, hrun₁, rfl, hreturned, hacts, hacked, hhanded, ?_, ?_⟩
  · rintro rfl
    exact hacked.symm
  · intro hnone
    rw [foldl_take_of_no_entry w _ hnone] at hacts
    exact List.append_right_eq_self.mp hacts.symm

def nextQuestion : Message := { plainQuestion with id := "r" }

theorem nextQuestion_sound : nextQuestion.Sound where
  sentAt := plainQuestion_sound.sentAt
  approvedAt := plainQuestion_sound.approvedAt
  structured := plainQuestion_sound.structured
  metadata := plainQuestion_sound.metadata
  sizes := plainQuestion_sound.sizes
  processingMillis := plainQuestion_sound.processingMillis

theorem nextQuestion_reread : nextQuestion.reread = some nextQuestion :=
  (Message.reread_eq_self_iff nextQuestion_sound).mpr ⟨trivial, nofun, nofun, trivial⟩

def waiting (first second : String) : List Look :=
  [⟨.item (.entry 1 first), true⟩, ⟨.item (.entry 2 second), true⟩, ⟨.nothing, true⟩]

theorem run_past_stop_waiting :
    let looks := waiting (encodeText plainQuestion) (encodeText nextQuestion)
    [Look.mk .nothing false].any Look.closes = false ∧ (∀ l ∈ looks, l.stopped = true) ∧
    ∃ c, start.run tried ([⟨.nothing, false⟩] ++ looks) = (c, true) ∧
      c.acts.filterMap Act.number? = [1, 2] ∧
      ∃ worked, Act.handled "first" nextQuestion worked ∈ c.acts := by
  intro looks
  have hopen : [Look.mk .nothing false].any Look.closes = false := rfl
  have hstopped : ∀ l ∈ looks, l.stopped = true := by
    simp [looks, waiting]
  obtain ⟨c₀, c₁, returned, more, hrun₀, hrun₁, -, hreturned, hacts, hacked, hhanded, -⟩ :=
    run_past_stop tried start hopen hstopped
  obtain rfl : start = c₀ := congrArg Prod.fst hrun₀
  obtain rfl : returned = true := hreturned.mpr (by decide)
  have hids : ids [.entry 1 (encodeText plainQuestion)] = ["q"] := by
    have hread : Item.message? (.entry 1 (encodeText plainQuestion)) = some plainQuestion :=
      plainQuestion_reread
    rw [ids, List.filterMap_cons_some hread]
    rfl
  refine ⟨hopen, hstopped, c₁, hrun₁, ?_, ?_⟩
  · rw [hacts]
    exact hacked
  · rw [hacts]
    refine hhanded [_] (.entry 2 (encodeText nextQuestion)) [] nextQuestion rfl nextQuestion_reread
      (List.not_mem_nil) ?_ ⟨"first", fun _ => true⟩ (List.mem_cons_self)
    rw [hids]
    decide

theorem dispatched_after_stop :
    let looks := waiting (encodeText plainQuestion) (encodeText nextQuestion)
    (∀ l ∈ looks, l.stopped = true) ∧
    ∃ c, start.run tried looks = (c, true) ∧
      c.acts = [.handled "first" plainQuestion true, .handled "second" plainQuestion false,
        .acked 1 false, .handled "first" nextQuestion true, .handled "second" nextQuestion false,
        .acked 2 true] := by
  intro looks
  have hfirst : decodeText (encodeText plainQuestion) = some plainQuestion := plainQuestion_reread
  have hsecond : decodeText (encodeText nextQuestion) = some nextQuestion := nextQuestion_reread
  refine ⟨by simp [looks, waiting], _, rfl, ?_⟩
  simp only [Consumption.take, Consumption.process, hfirst, hsecond]
  rfl

end Consumption

end Parley.Broker
