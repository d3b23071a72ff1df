import Mathlib.Data.Finset.Basic
import Mathlib.Data.Fintype.EquivFin
import Mathlib.Logic.Relation
import Parley.Proofs.Bus.Attendance
import Parley.Proofs.Bus.Run

namespace Parley

namespace Ruling

inductive Stage
  | started
  | found (m : Message)
  | kept
  | returned (answer : Except Error Bool)

def Stage.ofFound : Except Error (Option Message) → Stage
  | .error e => .returned (.error e)
  | .ok none => .returned (.ok false)
  | .ok (some m) => .found m

def Stage.recorded : Stage → Bool
  | .kept => true
  | .returned (.ok known) => known
  | _ => false

end Ruling

structure Ruling where
  message : String
  approver : String
  approved : Bool
  fresh : Fresh
  stage : Ruling.Stage

def Ruling.approval (r : Ruling) : Approval := ⟨r.approved, r.approver, r.fresh.time⟩

/-- A bus and the calls on it that are under way: the waits at its desk, with what those of them
found that looked their message up and have not acted on it, and the calls that decide. -/
structure Traffic (σ : Type) where
  bus : Bus σ
  found : Table Nat (Except Error (Option Message))
  rulings : Table Nat Ruling

namespace Traffic

variable {σ : Type}

def on (bus : Bus σ) : Traffic σ := ⟨bus, Table.empty, Table.empty⟩

def atDesk (x : Traffic σ) (desk : Desk) : Traffic σ := { x with bus := { x.bus with desk } }

def inStore (x : Traffic σ) (store : σ) : Traffic σ := { x with bus := { x.bus with store } }

def reach (x : Traffic σ) (key : Nat) (r : Ruling) (stage : Ruling.Stage) : Traffic σ :=
  { x with rulings := x.rulings.set key { r with stage } }

theorem find?_reach (x : Traffic σ) (key k : Nat) (r : Ruling) (stage : Ruling.Stage) :
    (x.reach key r stage).rulings.find? k =
      if k = key then some { r with stage } else x.rulings.find? k :=
  Table.find?_set ..

inductive Move
  | register (id : String)
  | look (ticket : Nat)
  | go (ticket : Nat)
  | collect (ticket : Nat)
  | timeOut (ticket : Nat)
  | prune (ticket : Nat)
  | cancel (id : String)
  | rule (key : Nat) (id : String)
  | find (key : Nat)
  | keep (key : Nat)
  | tell (key : Nat)
  | pass (millis : Nat)

/-- One access to the desk or one call to the backend. A call on the bus is several of them, in
the order in which its stages allow them, and between them the other calls make theirs. -/
inductive Step (b : Backend σ) : Traffic σ → Move → Traffic σ → Prop
  | register (x : Traffic σ) (id) :
      Step b x (.register id) (x.atDesk (x.bus.desk.register id).2)
  | look (x : Traffic σ) (ticket) (w) (found) (store)
      (hw : x.bus.desk.waits.find? ticket = some w) (hr : w.phase = .registered)
      (hn : x.found.find? ticket = none) (hb : b.find w.message x.bus.store = (found, store)) :
      Step b x (.look ticket) { x.inStore store with found := x.found.set ticket found }
  | go (x : Traffic σ) (ticket) (millis : Option Nat) (found)
      (hf : x.found.find? ticket = some found) :
      Step b x (.go ticket)
        { x.atDesk (x.bus.desk.lookedUp ticket
            (x.bus.clock + millis.getD x.bus.settings.approvalMillis) found) with
          found := x.found.erase ticket }
  | collect (x : Traffic σ) (ticket) :
      Step b x (.collect ticket) (x.atDesk (x.bus.desk.collect ticket))
  | timeOut (x : Traffic σ) (ticket) (deadline) (hb : x.bus.desk.deadline? ticket = some deadline)
      (hd : deadline ≤ x.bus.clock) :
      Step b x (.timeOut ticket) (x.atDesk (x.bus.desk.timeOut ticket))
  | prune (x : Traffic σ) (ticket) :
      Step b x (.prune ticket) (x.atDesk (x.bus.desk.prune ticket))
  | cancel (x : Traffic σ) (id) :
      Step b x (.cancel id) (x.atDesk (x.bus.desk.notify id .cancelled).2)
  | rule (x : Traffic σ) (key) (r : Ruling) (hn : x.rulings.find? key = none) :
      Step b x (.rule key r.message) (x.reach key r .started)
  | find (x : Traffic σ) (key) (r) (found) (store) (hr : x.rulings.find? key = some r)
      (hs : r.stage = .started) (hb : b.find r.message x.bus.store = (found, store)) :
      Step b x (.find key) ((x.inStore store).reach key r (.ofFound found))
  | keep (x : Traffic σ) (key) (r) (m) (store) (hr : x.rulings.find? key = some r)
      (hs : r.stage = .found m)
      (hb : b.decide r.message r.approval x.bus.store = (.ok true, store)) :
      Step b x (.keep key)
        { x.reach key r .kept with
          bus := { x.bus with store }.record r.fresh.entryId r.fresh.time
            (Bus.verdict m r.message r.approver r.approved) }
  | refuse (x : Traffic σ) (key) (r) (m) (answer) (store) (hr : x.rulings.find? key = some r)
      (hs : r.stage = .found m) (ha : answer ≠ .ok true)
      (hb : b.decide r.message r.approval x.bus.store = (answer, store)) :
      Step b x (.keep key) ((x.inStore store).reach key r (.returned answer))
  | tell (x : Traffic σ) (key) (r) (hr : x.rulings.find? key = some r) (hs : r.stage = .kept) :
      Step b x (.tell key)
        ((x.atDesk (x.bus.desk.notify r.message (.ofVerdict r.approved)).2).reach key r
          (.returned (.ok true)))
  | pass (x : Traffic σ) (millis) :
      Step b x (.pass millis) { x with bus := { x.bus with clock := x.bus.clock + millis } }

def Reaches (b : Backend σ) : Traffic σ → Traffic σ → Prop :=
  Relation.ReflTransGen fun x y => ∃ move, Step b x move y

def subject? (x : Traffic σ) : Move → Option String
  | .register id | .cancel id | .rule _ id => some id
  | .look t | .go t | .collect t | .timeOut t | .prune t => x.bus.desk.messageOf? t
  | .find key | .keep key | .tell key => (x.rulings.find? key).map Ruling.message
  | .pass _ => none

/-! A call that nothing disturbs makes its moves one after the other: what the bus does is one of
the orders. -/

variable {b : Backend σ} {x y : Traffic σ}

theorem Step.reaches {move : Move} (h : Step b x move y) : Reaches b x y := .single ⟨move, h⟩

theorem settleOne_eq (now : Nat) (d : Desk) (ticket : Nat) :
    d.settleOne now ticket =
      (match (d.collect ticket).deadline? ticket with
        | some deadline =>
          if deadline ≤ now then (d.collect ticket).timeOut ticket else d.collect ticket
        | none => d.collect ticket).prune ticket := by
  simp only [Desk.settleOne, Desk.deadline?]
  rcases ((d.collect ticket).waits.find? ticket).map Wait.phase with _ | ⟨_ | deadline | _ | _ | _⟩
  case some.blocked => by_cases hd : deadline ≤ now <;> simp [hd]
  all_goals rfl

theorem settleOne_reaches (x : Traffic σ) (ticket : Nat) :
    Reaches b x (x.atDesk (x.bus.desk.settleOne x.bus.clock ticket)) := by
  have hc : Reaches b x (x.atDesk (x.bus.desk.collect ticket)) := (Step.collect x ticket).reaches
  have hp (c : Traffic σ) : Reaches b c (c.atDesk (c.bus.desk.prune ticket)) :=
    (Step.prune c ticket).reaches
  rw [settleOne_eq]
  cases hd : (x.bus.desk.collect ticket).deadline? ticket with
  | none => exact hc.trans (hp (x.atDesk (x.bus.desk.collect ticket)))
  | some deadline =>
      by_cases hdue : deadline ≤ x.bus.clock
      · have ht := (Step.timeOut (x.atDesk (x.bus.desk.collect ticket)) ticket deadline hd
          hdue).reaches (b := b)
        simp only [if_pos hdue]
        exact (hc.trans ht).trans (hp (x.atDesk ((x.bus.desk.collect ticket).timeOut ticket)))
      · simp only [if_neg hdue]
        exact hc.trans (hp (x.atDesk (x.bus.desk.collect ticket)))

theorem settle_reaches (x : Traffic σ) :
    Reaches b x (x.atDesk (x.bus.desk.settle x.bus.clock)) := by
  rw [Desk.settle]
  generalize x.bus.desk.waits.keys = tickets
  induction tickets generalizing x with
  | nil => exact .refl
  | cons t tickets ih => exact (settleOne_reaches x t).trans (ih (x.atDesk _))

theorem advance_reaches (x : Traffic σ) (millis : Nat) :
    Reaches b x { x with bus := x.bus.advance millis } :=
  (Step.pass x millis).reaches.trans (settle_reaches { x with bus := { x.bus with clock := _ } })

theorem wait_reaches (bus : Bus σ) (rulings : Table Nat Ruling) (id : String)
    (millis : Option Nat) :
    Reaches b ⟨bus, Table.empty, rulings⟩ ⟨(bus.wait b id millis).2, Table.empty, rulings⟩ := by
  rcases hb : b.find id bus.store with ⟨found, store⟩
  let t := bus.desk.issued
  let desk := (bus.desk.register id).2
  let gone := desk.lookedUp t (bus.clock + millis.getD bus.settings.approvalMillis) found
  have hw : desk.waits.find? t = some ⟨id, .registered, none, true⟩ := by
    rw [Desk.register_find?, if_pos rfl]
  have hat : (Table.empty.set t found).find? t = some found := by rw [Table.find?_set, if_pos rfl]
  have hempty : (Table.empty.set t found).erase t = Table.empty := by
    simp [Table.erase, Table.set, Table.setIn, Table.empty]
  have hregister : Reaches b ⟨bus, Table.empty, rulings⟩
      ⟨{ bus with desk }, Table.empty, rulings⟩ := (Step.register _ id).reaches
  have hlook : Reaches b ⟨{ bus with desk }, Table.empty, rulings⟩
      ⟨{ bus with desk, store }, Table.empty.set t found, rulings⟩ :=
    (Step.look _ t _ found store hw rfl rfl hb).reaches
  have hgo : Reaches b ⟨{ bus with desk, store }, Table.empty.set t found, rulings⟩
      ⟨{ bus with store, desk := gone }, (Table.empty.set t found).erase t, rulings⟩ :=
    (Step.go ⟨_, _, rulings⟩ t millis found hat).reaches
  rw [hempty] at hgo
  simp only [Bus.wait, hb]
  exact ((hregister.trans hlook).trans hgo).trans (advance_reaches ⟨_, Table.empty, rulings⟩ 0)

theorem decide_reaches (bus : Bus σ) (rulings : Table Nat Ruling) {key : Nat}
    (hk : rulings.find? key = none) (fresh : Fresh) (id approver : String) (approved : Bool) :
    ∃ rulings', Reaches b ⟨bus, Table.empty, rulings⟩
        ⟨(bus.decide b fresh id approver approved).2, Table.empty, rulings'⟩ ∧
      (rulings'.find? key).map Ruling.stage =
        some (.returned (bus.decide b fresh id approver approved).1) := by
  let r : Ruling := ⟨id, approver, approved, fresh, .started⟩
  have hat (x : Traffic σ) (stage : Ruling.Stage) :
      (x.reach key r stage).rulings.find? key = some { r with stage } := by
    rw [find?_reach, if_pos rfl]
  rcases hf : b.find id bus.store with ⟨found, store⟩
  let x : Traffic σ := ⟨bus, Table.empty, rulings⟩
  have hrule : Reaches b x (x.reach key r .started) := (Step.rule x key r hk).reaches
  let y := (x.reach key r .started).inStore store
  have hfind : Reaches b x (y.reach key r (.ofFound found)) :=
    hrule.trans (Step.find _ key _ found store (hat x .started) rfl hf).reaches
  simp only [Bus.decide, hf]
  rcases found with e | _ | m
  · exact ⟨_, hfind, congrArg (Option.map Ruling.stage) (hat y _)⟩
  · exact ⟨_, hfind, congrArg (Option.map Ruling.stage) (hat y _)⟩
  · simp only
    rcases hd : b.decide id r.approval store with ⟨answer, store'⟩
    have hd' : b.decide id ⟨approved, approver, fresh.time⟩ store = (answer, store') := hd
    let z := (y.reach key r (.found m)).inStore store'
    have hrefuse (ha : answer ≠ .ok true) : Reaches b x (z.reach key r (.returned answer)) :=
      hfind.trans (Step.refuse _ key _ m answer store' (hat y _) rfl ha hd).reaches
    rcases answer with e | ⟨_ | _⟩
    · simp only [hd']
      refine ⟨_, hrefuse fun ha => ?_, congrArg (Option.map Ruling.stage) (hat z _)⟩
      cases ha
    · simp only [hd']
      refine ⟨_, hrefuse fun ha => ?_, congrArg (Option.map Ruling.stage) (hat z _)⟩
      cases ha
    · simp only [hd']
      let w : Traffic σ := { z with
        bus := { bus with store := store' }.record fresh.entryId fresh.time
          (Bus.verdict m id approver approved) }
      have hkeep : Reaches b x (w.reach key r .kept) :=
        hfind.trans (Step.keep _ key _ m store' (hat y _) rfl hd).reaches
      have htell := hkeep.trans (Step.tell _ key _ (hat w .kept) rfl).reaches
      exact ⟨_, htell.trans (advance_reaches _ 0),
        congrArg (Option.map Ruling.stage) (hat ((w.reach key r .kept).atDesk _) _)⟩

def concerns : Bus.Op → Bool
  | .wait _ _ | .await _ | .decide _ _ _ _ | .cancel _ | .advance _ => true
  | _ => false

theorem exists_unused (rulings : Table Nat Ruling) : ∃ key, rulings.find? key = none := by
  obtain ⟨key, hkey⟩ := Infinite.exists_notMem_finset rulings.keys.toFinset
  refine ⟨key, ?_⟩
  rw [← Option.not_isSome_iff_eq_none]
  intro hsome
  exact hkey (List.mem_toFinset.mpr (Table.valueIn_isSome_iff.mp hsome))

/-- What the bus does with a call that nothing disturbs is one of the orders of its steps. -/
theorem perform_reaches (bus : Bus σ) (rulings : Table Nat Ruling) {op : Bus.Op}
    (hop : concerns op = true) :
    ∃ rulings', Reaches b ⟨bus, Table.empty, rulings⟩
      ⟨(bus.perform b op).2, Table.empty, rulings'⟩ := by
  cases op with
  | wait id millis => exact ⟨rulings, wait_reaches bus rulings id millis⟩
  | decide fresh id approver approved =>
      obtain ⟨key, hkey⟩ := exists_unused rulings
      obtain ⟨rulings', h, -⟩ := decide_reaches bus rulings hkey fresh id approver approved
      exact ⟨rulings', h⟩
  | cancel id =>
      exact ⟨rulings, (Step.cancel ⟨bus, Table.empty, rulings⟩ id).reaches.trans
        (advance_reaches _ 0)⟩
  | advance millis => exact ⟨rulings, advance_reaches _ millis⟩
  | await ticket =>
      refine ⟨rulings, ?_⟩
      simp only [Bus.perform, Bus.answering, Bus.await]
      split
      · exact advance_reaches _ _
      · exact .refl
  | _ => cases hop

theorem run_reaches (bus : Bus σ) (ops : List Bus.Op) (hops : ∀ op ∈ ops, concerns op = true) :
    ∃ rulings, Reaches b (on bus) ⟨(Bus.run b bus ops).bus, Table.empty, rulings⟩ := by
  induction ops using List.reverseRecOn with
  | nil => exact ⟨Table.empty, .refl⟩
  | append_singleton ops op ih =>
      obtain ⟨rulings, h⟩ := ih fun o ho => hops o (List.mem_append_left _ ho)
      obtain ⟨rulings', h'⟩ := perform_reaches (Bus.run b bus ops).bus rulings
        (hops op (List.mem_append_right _ (List.mem_singleton_self op)))
      refine ⟨rulings', ?_⟩
      rw [Bus.run, List.foldl_append]
      exact h.trans h'

end Traffic

end Parley
