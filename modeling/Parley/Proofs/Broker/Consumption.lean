import Parley.Broker.Consumption
import Parley.Proofs.Store.Dedup
import Parley.Proofs.StreamStore.Agreement

namespace Parley.Broker

open StreamStore (plainQuestion plainQuestion_reread)

/-- What a consumer has to do: to hand a message to a handler, or to acknowledge an entry. -/
inductive Duty
  | handle (h : Handler) (m : Message)
  | ack (number : Nat)

def Duty.act (w : Surroundings) (i : Nat) : Duty → Act
  | .handle h m => .handled h.name m (h.succeeds i)
  | .ack number => .acked number (w.ackWorks i)

namespace Item

def message? : Item → Option Message
  | .failed _ => none
  | .entry _ payload => decodeText payload

def number? : Item → Option Nat
  | .failed _ => none
  | .entry number _ => some number

end Item

def Surroundings.handlersOf (w : Surroundings) (tenant : String) : List Handler :=
  (w.handlers.find? tenant).getD []

namespace Consumption

def ids (items : List Item) : List String := (items.filterMap Item.message?).map Message.id

/-- A message goes to the handlers of its receiver, unless an item before had its id. -/
def dispatches (w : Surroundings) (past : List Item) (i : Item) : List Duty :=
  match i.message? with
  | none => []
  | some m => if m.id ∈ ids past then [] else (w.handlersOf m.toTenant).map (.handle · m)

def dutiesOf (w : Surroundings) (past : List Item) (i : Item) : List Duty :=
  dispatches w past i ++ i.number?.toList.map .ack

def duties (w : Surroundings) (items : List Item) : List Duty :=
  items.zipIdx.flatMap fun e => dutiesOf w (items.take e.2) e.1

namespace Look

def item? (l : Look) : Option Item :=
  match l.find with
  | .item i => some i
  | .ended | .nothing => none

def closes (l : Look) : Bool :=
  match l.find with
  | .item _ => false
  | .ended => true
  | .nothing => l.stopped

end Look

/-- The items that a consumer finds before it returns. -/
def taken (looks : List Look) : List Item :=
  (looks.takeWhile fun l => !l.closes).filterMap Look.item?

def carryOut (w : Surroundings) (c : Consumption) (d : Duty) : Consumption :=
  c.note (d.act w c.acts.length)

structure Follows (w : Surroundings) (past : List Item) (c : Consumption) : Prop where
  seen : c.seen.Window 10000 (Deduplicator.acceptedOf 10000 (ids past))
  acts : c.acts = (duties w past).mapIdx (Duty.act w)

variable {w : Surroundings} {past items : List Item} {i : Item} {c : Consumption} {looks : List Look}
  {done : List Duty} {m : Message} {number : Nat} {payload : String}

theorem ids_append (past items : List Item) : ids (past ++ items) = ids past ++ ids items := by
  rw [ids, List.filterMap_append, List.map_append]
  rfl

theorem duties_concat (w : Surroundings) (past : List Item) (i : Item) :
    duties w (past ++ [i]) = duties w past ++ dutiesOf w past i := by
  have hold : ∀ e ∈ past.zipIdx, dutiesOf w ((past ++ [i]).take e.2) e.1 =
      dutiesOf w (past.take e.2) e.1 := by
    intro e he
    rw [List.take_append_of_le_length (List.snd_lt_of_mem_zipIdx he).le]
  rw [duties, List.zipIdx_append, List.flatMap_append, List.flatMap_congr hold, duties]
  simp

theorem foldl_carryOut (h : c.acts = done.mapIdx (Duty.act w)) (ds : List Duty) :
    ds.foldl (carryOut w) c = ⟨c.seen, (done ++ ds).mapIdx (Duty.act w)⟩ := by
  induction ds generalizing c done with
  | nil =>
      rw [List.append_nil, ← h]
      rfl
  | cons d ds ih =>
      have hnext : (carryOut w c d).acts = (done ++ [d]).mapIdx (Duty.act w) := by
        rw [carryOut, note, h, List.mapIdx_concat, List.length_mapIdx]
      rw [List.foldl_cons, ih hnext, List.append_assoc]
      rfl

theorem dispatch_eq (w : Surroundings) (c : Consumption) (m : Message) :
    c.dispatch w m = ((w.handlersOf m.toTenant).map (.handle · m)).foldl (carryOut w) c := by
  rw [dispatch, List.foldl_map]
  rfl

theorem Follows.receive (h : Follows w past c) (hi : i.message? = some m)
    (hfew : (ids past).dedup.length ≤ 10000) :
    ∃ seen, seen.Window 10000 (Deduplicator.acceptedOf 10000 (ids (past ++ [i]))) ∧
      c.receive w m = (dispatches w past i).foldl (carryOut w) { c with seen } := by
  have hids : ids (past ++ [i]) = ids past ++ [m.id] := by
    rw [ids_append, ids, ids, List.filterMap_cons_some hi]
    rfl
  obtain ⟨hnew, hseen⟩ := h.seen.firstSeen (by decide) m.id
  rw [Deduplicator.mem_rtake_acceptedOf hfew] at hnew
  rw [← Deduplicator.acceptedOf_concat, ← hids] at hseen
  refine ⟨_, hseen, ?_⟩
  simp only [Consumption.receive, dispatches, hi]
  by_cases hid : m.id ∈ ids past
  · rw [if_pos hid, if_neg (mt hnew.mp (not_not_intro hid))]
    rfl
  · rw [if_neg hid, if_pos (hnew.mpr hid), dispatch_eq]

theorem Follows.process (h : Follows w past c) (hfew : (ids past).dedup.length ≤ 10000)
    (number : Nat) (payload : String) :
    ∃ seen, seen.Window 10000 (Deduplicator.acceptedOf 10000
        (ids (past ++ [.entry number payload]))) ∧
      c.process w payload =
        (dispatches w past (.entry number payload)).foldl (carryOut w) { c with seen } := by
  rw [Consumption.process]
  cases hi : (decodeText payload : Option Message) with
  | some m => exact h.receive (i := .entry number payload) hi hfew
  | none =>
      have hnone : Item.message? (.entry number payload) = none := hi
      refine ⟨c.seen, ?_, ?_⟩
      · rw [ids_append, ids, ids, List.filterMap_cons_none hnone, List.filterMap_nil, List.map_nil,
          List.append_nil]
        exact h.seen
      · rw [dispatches, hnone]
        rfl

theorem Follows.take (h : Follows w past c) (hfew : (ids past).dedup.length ≤ 10000) (i : Item) :
    Follows w (past ++ [i]) (c.take w i) := by
  cases i with
  | failed reason =>
      refine ⟨?_, ?_⟩
      · rw [ids_append]
        exact (List.append_nil (ids past)).symm ▸ h.seen
      · rw [duties_concat]
        exact (List.append_nil (duties w past)).symm ▸ h.acts
  | entry number payload =>
      obtain ⟨seen, hseen, hprocess⟩ := h.process hfew number payload
      have htake : c.take w (.entry number payload) =
          (dutiesOf w past (.entry number payload)).foldl (carryOut w) { c with seen } := by
        rw [dutiesOf, List.foldl_append, ← hprocess]
        rfl
      rw [htake, foldl_carryOut (c := { c with seen }) h.acts]
      exact ⟨hseen, by rw [duties_concat]⟩

theorem follows_start (w : Surroundings) : Follows w [] start :=
  ⟨Deduplicator.window_new 10000, rfl⟩

theorem taken_cons_of_closes {l : Look} (h : l.closes = true) (looks : List Look) :
    taken (l :: looks) = [] := by
  rw [taken, List.takeWhile_cons_of_neg (by simp [h])]
  rfl

theorem taken_cons {l : Look} (h : l.closes = false) (looks : List Look) :
    taken (l :: looks) = l.item?.toList ++ taken looks := by
  rw [taken, List.takeWhile_cons_of_pos (by simp [h])]
  cases hi : l.item? with
  | none => rw [List.filterMap_cons_none hi, Option.toList_none, List.nil_append, taken]
  | some i => rw [List.filterMap_cons_some hi, Option.toList_some, List.singleton_append, taken]

theorem run_cons (w : Surroundings) (c : Consumption) (l : Look) (looks : List Look) :
    c.run w (l :: looks) =
      if l.closes then (c, true) else (l.item?.elim c (c.take w)).run w looks := by
  obtain ⟨found, stopped⟩ := l
  cases found <;> rfl

theorem Follows.run (h : Follows w past c)
    (hfew : (ids (past ++ taken looks)).dedup.length ≤ 10000) :
    Follows w (past ++ taken looks) (c.run w looks).1 ∧
      (c.run w looks).2 = looks.any Look.closes := by
  induction looks generalizing past c with
  | nil => exact ⟨(List.append_nil past).symm ▸ h, rfl⟩
  | cons l looks ih =>
      rw [run_cons, List.any_cons]
      cases hl : l.closes with
      | true =>
          rw [taken_cons_of_closes hl, List.append_nil]
          exact ⟨h, rfl⟩
      | false =>
          rw [taken_cons hl, ← List.append_assoc] at hfew ⊢
          rw [Bool.false_or]
          cases hi : l.item? with
          | none =>
              rw [hi, Option.toList_none, List.append_nil] at hfew
              rw [Option.toList_none, List.append_nil]
              exact ih h hfew
          | some i =>
              rw [hi, Option.toList_some] at hfew
              -- The memory has to be wide enough for the ids so far only, and these are fewer.
              have hpast : (ids past).dedup.length ≤ 10000 := by
                refine (Deduplicator.length_dedup_le ?_).trans hfew
                rw [List.append_assoc, ids_append]
                exact List.subset_append_left _ _
              exact ih (h.take hpast i) hfew

/-- Where no more than 10000 different ids come, a consumer does for each item it takes what there
is to do, once and in order: a message goes to all handlers of its receiver when its id comes
first, and every entry is acknowledged after that, whatever is in it and whatever fails. It
returns when it finds nothing and has been told to stop, or when the items end, and then it has
taken all of them. -/
theorem acts_of_run (w : Surroundings) (looks : List Look)
    (hfew : (ids (taken looks)).dedup.length ≤ 10000) :
    ∃ c returned, start.run w looks = (c, returned) ∧
      c.acts = (duties w (taken looks)).mapIdx (Duty.act w) ∧
      returned = looks.any Look.closes ∧
      ∀ before stopped after, looks = before ++ ⟨.ended, stopped⟩ :: after →
        before.any Look.closes = false →
        returned = true ∧ taken looks = before.filterMap Look.item? := by
  obtain ⟨hfollows, hclosed⟩ := Follows.run (follows_start w) hfew
  refine ⟨_, _, rfl, hfollows.acts, hclosed, ?_⟩
  intro before stopped after hlooks hopen
  have hended : Look.closes ⟨.ended, stopped⟩ = true := rfl
  constructor
  · rw [hclosed, hlooks, List.any_append, List.any_cons, hended, Bool.true_or, Bool.or_true]
  · have hbefore : ∀ l ∈ before, (!l.closes) = true := by
      intro l hl
      rw [List.any_eq_false] at hopen
      rw [Bool.not_eq_true', ← Bool.not_eq_true]
      exact hopen l hl
    rw [taken, hlooks, List.takeWhile_append_of_pos hbefore,
      List.takeWhile_cons_of_neg (by simp [hended]), List.append_nil]

def tried : Surroundings where
  handlers := Table.empty.set "auditee" [⟨"first", fun _ => true⟩, ⟨"second", fun _ => false⟩]
  ackWorks i := i != 2

def twice (text : String) : List Look :=
  [⟨.item (.failed "no heartbeat"), false⟩, ⟨.item (.entry 1 text), false⟩, ⟨.nothing, false⟩,
    ⟨.item (.entry 1 text), true⟩, ⟨.item (.entry 2 "?"), true⟩, ⟨.ended, true⟩]

theorem duties_twice {text : String} (h : decodeText text = some plainQuestion) :
    ids (taken (twice text)) = ["q", "q"] ∧
      duties tried (taken (twice text)) =
        [.handle ⟨"first", fun _ => true⟩ plainQuestion,
          .handle ⟨"second", fun _ => false⟩ plainQuestion, .ack 1, .ack 1, .ack 2] := by
  have hfailed : Item.message? (.failed "no heartbeat") = none := rfl
  have hread : Item.message? (.entry 1 text) = some plainQuestion := h
  have hjunk : Item.message? (.entry 2 "?") = none := rfl
  have htaken : taken (twice text) =
      [.failed "no heartbeat", .entry 1 text, .entry 1 text, .entry 2 "?"] := rfl
  rw [htaken]
  constructor
  · simp only [ids, List.filterMap_cons, hfailed, hread, hjunk]
    rfl
  · simp only [duties, dutiesOf, dispatches, ids, List.zipIdx_cons, List.flatMap_cons, List.take,
      List.filterMap_cons, hfailed, hread, hjunk]
    rfl

theorem acts_of_run_twice :
    (ids (taken (twice (encodeText plainQuestion)))).dedup.length ≤ 10000 ∧
    ∃ c, start.run tried (twice (encodeText plainQuestion)) = (c, true) ∧
      c.acts = [.handled "first" plainQuestion true, .handled "second" plainQuestion false,
        .acked 1 false, .acked 1 true, .acked 2 true] := by
  obtain ⟨hids, hduties⟩ := duties_twice plainQuestion_reread
  have hfew : (ids (taken (twice (encodeText plainQuestion)))).dedup.length ≤ 10000 := by
    rw [hids]
    decide
  obtain ⟨c, returned, hrun, hacts, hreturned, -⟩ := acts_of_run tried _ hfew
  refine ⟨hfew, c, ?_, ?_⟩
  · rw [hrun, hreturned]
    rfl
  · rw [hacts, hduties]
    rfl

end Consumption

end Parley.Broker
