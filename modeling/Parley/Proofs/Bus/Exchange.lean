import Parley.Proofs.Bus.Effects

namespace Parley

inductive Sending.Stage
  | started
  | completed (r : Message) (follower : Option Message)
  | stored (r : Message) (follower : Option Message)
  | followed (r : Message) (follower : Option Message)
  | done (r : Message) (follower : Option Message)
  | failed (e : Error)

structure Sending where
  message : Message
  fresh : Fresh
  stage : Sending.Stage

namespace Sending

def call (s : Sending) : Message × Fresh := (s.message, s.fresh)

namespace Stage

def made? : Stage → Option (Message × Option Message)
  | .completed r follower | .stored r follower | .followed r follower | .done r follower =>
    some (r, follower)
  | .started | .failed _ => none

def posted : Stage → List Message
  | .stored r _ => [r]
  | .followed r follower | .done r follower => r :: follower.toList
  | .started | .completed _ _ | .failed _ => []

def settled : Stage → Bool
  | .followed _ _ | .done _ _ | .failed _ => true
  | .started | .completed _ _ | .stored _ _ => false

def result? : Stage → Option (Except Error Message)
  | .done r _ => some (.ok r)
  | .failed e => some (.error e)
  | _ => none

end Stage

variable {σ : Type}

/-- What a call does next. It makes at most one call to the backend, and between two such steps
the other calls make theirs. -/
def next (b : Backend σ) (s : Sending) (bus : Bus σ) : Stage × Bus σ :=
  match s.stage with
  | .started =>
    match Bus.checked s.message with
    | .error e => (.failed e, bus)
    | .ok m =>
      match bus.threadFor b m with
      | (.error e, bus) => (.failed e, bus)
      | (.ok thread, bus) =>
        let (r, follower) := Bus.complete bus.settings s.fresh m thread
        (.completed r follower, bus)
  | .completed r follower =>
    match bus.post b s.fresh.entryId s.fresh.time r with
    | (.error e, bus) => (.failed e, bus)
    | (.ok (), bus) => (.stored r follower, bus)
  | .stored r follower =>
    match bus.postFollower b s.fresh follower with
    | (.error e, bus) => (.failed e, bus)
    | (.ok (), bus) => (.followed r follower, bus)
  | .followed r follower => (.done r follower, bus.fanOutBoth r follower)
  | .done r follower => (.done r follower, bus)
  | .failed e => (.failed e, bus)

def Stage.left : Stage → Nat
  | .started => 4
  | .completed _ _ => 3
  | .stored _ _ => 2
  | .followed _ _ => 1
  | .done _ _ | .failed _ => 0

/-- What a call comes to if nothing else happens from now on. -/
def outcome (b : Backend σ) (s : Sending) (bus : Bus σ) : Except Error Message × Bus σ :=
  match s.stage with
  | .started => bus.send b s.fresh s.message
  | .completed r follower =>
    match bus.post b s.fresh.entryId s.fresh.time r with
    | (.error e, bus) => (.error e, bus)
    | (.ok (), bus) =>
      match bus.postFollower b s.fresh follower with
      | (.error e, bus) => (.error e, bus)
      | (.ok (), bus) => (.ok r, bus.fanOutBoth r follower)
  | .stored r follower =>
    match bus.postFollower b s.fresh follower with
    | (.error e, bus) => (.error e, bus)
    | (.ok (), bus) => (.ok r, bus.fanOutBoth r follower)
  | .followed r follower => (.ok r, bus.fanOutBoth r follower)
  | .done r _ => (.ok r, bus)
  | .failed e => (.error e, bus)

theorem outcome_next (b : Backend σ) (s : Sending) (bus : Bus σ) :
    { s with stage := (s.next b bus).1 }.outcome b (s.next b bus).2 = s.outcome b bus := by
  obtain ⟨m, fresh, stage⟩ := s
  cases stage with
  | started =>
      simp only [next, outcome, Bus.send]
      rcases Bus.checked m with e | n
      · rfl
      · simp only
        rcases bus.threadFor b n with ⟨e | thread, bus⟩ <;> rfl
  | completed r follower =>
      simp only [next, outcome]
      rcases bus.post b fresh.entryId fresh.time r with ⟨e | _, bus⟩ <;> rfl
  | stored r follower =>
      simp only [next, outcome]
      rcases bus.postFollower b fresh follower with ⟨e | _, bus⟩ <;> rfl
  | followed | done | failed => rfl

theorem left_next (b : Backend σ) (s : Sending) (bus : Bus σ) :
    (s.next b bus).1.left ≤ s.stage.left - 1 := by
  obtain ⟨m, fresh, stage⟩ := s
  cases stage with
  | started =>
      simp only [next]
      rcases Bus.checked m with e | n
      · exact Nat.zero_le _
      · simp only
        rcases bus.threadFor b n with ⟨e | thread, bus⟩
        · exact Nat.zero_le _
        · exact le_rfl
  | completed r follower =>
      simp only [next]
      rcases bus.post b fresh.entryId fresh.time r with ⟨e | _, bus⟩
      · exact Nat.zero_le _
      · exact le_rfl
  | stored r follower =>
      simp only [next]
      rcases bus.postFollower b fresh follower with ⟨e | _, bus⟩
      · exact Nat.zero_le _
      · exact le_rfl
  | followed | done | failed => exact le_rfl

theorem outcome_of_left (b : Backend σ) (s : Sending) (bus : Bus σ) (h : s.stage.left = 0) :
    s.stage.result? = some (s.outcome b bus).1 ∧ (s.outcome b bus).2 = bus := by
  obtain ⟨m, fresh, stage⟩ := s
  cases stage with
  | done | failed => exact ⟨rfl, rfl⟩
  | _ => cases h

end Sending

/-- A bus and the calls that send on it, in the order in which they began. -/
structure Exchange (σ : Type) where
  bus : Bus σ
  sends : List Sending

def Bus.Op.isSend : Bus.Op → Bool
  | .send _ _ => true
  | _ => false

namespace Exchange

variable {σ : Type}

def on (bus : Bus σ) : Exchange σ := ⟨bus, []⟩

/-- A call begins to send, the call of a place goes on, or something else is done with the bus. -/
inductive Move
  | begin (fresh : Fresh) (m : Message)
  | go (place : Nat)
  | other (op : Bus.Op) (h : op.isSend = false)

def goOn (b : Backend σ) (x : Exchange σ) (place : Nat) (s : Sending) : Exchange σ :=
  ⟨(s.next b x.bus).2, x.sends.set place { s with stage := (s.next b x.bus).1 }⟩

def step (b : Backend σ) (x : Exchange σ) : Move → Exchange σ
  | .begin fresh m => { x with sends := x.sends ++ [⟨m, fresh, .started⟩] }
  | .go place => (x.sends[place]?).elim x (x.goOn b place)
  | .other op _ => { x with bus := (x.bus.perform b op).2 }

def run (b : Backend σ) (x : Exchange σ) (moves : List Move) : Exchange σ := moves.foldl (step b) x

def Move.begun? : Move → Option (Message × Fresh)
  | .begin fresh m => some (m, fresh)
  | .go _ | .other _ _ => none

/-- Each call begins when those before it have stored all that they are to store. -/
def InTurn (b : Backend σ) (x : Exchange σ) : List Move → Prop
  | [] => True
  | move :: moves =>
    (move.begun?.isSome = true → ∀ s ∈ x.sends, s.stage.settled = true) ∧
      InTurn b (x.step b move) moves

variable {b : Backend σ} {x y : Exchange σ} {moves : List Move} {move : Move} {fresh : Fresh}
  {m : Message}

theorem run_concat (b : Backend σ) (x : Exchange σ) (moves : List Move) (move : Move) :
    run b x (moves ++ [move]) = (run b x moves).step b move := by
  rw [run, List.foldl_append]
  rfl

theorem run_append (b : Backend σ) (x : Exchange σ) (moves more : List Move) :
    run b x (moves ++ more) = run b (run b x moves) more := List.foldl_append

theorem inTurn_append (b : Backend σ) (x : Exchange σ) (moves more : List Move) :
    InTurn b x (moves ++ more) ↔ InTurn b x moves ∧ InTurn b (run b x moves) more := by
  induction moves generalizing x with
  | nil => exact iff_of_eq (true_and _).symm
  | cons move moves ih => exact (and_congr_right fun _ => ih _).trans and_assoc.symm

theorem inTurn_of_no_begin (b : Backend σ) (x : Exchange σ) {moves : List Move}
    (h : ∀ move ∈ moves, move.begun? = none) : InTurn b x moves := by
  induction moves generalizing x with
  | nil => trivial
  | cons move moves ih =>
      rw [List.forall_mem_cons] at h
      refine ⟨fun hb => ?_, ih _ h.2⟩
      rw [h.1] at hb
      cases hb

theorem step_begun (b : Backend σ) (x : Exchange σ) (move : Move) :
    (x.step b move).sends.map Sending.call = x.sends.map Sending.call ++ move.begun?.toList := by
  cases move with
  | begin fresh m => exact List.map_append
  | other op h => exact (List.append_nil _).symm
  | go place =>
      refine Eq.trans ?_ (List.append_nil _).symm
      cases hs : x.sends[place]? with
      | none => simp only [step, hs, Option.elim_none]
      | some s =>
          have hcall : (x.sends.map Sending.call)[place]? = some s.call := by
            rw [List.getElem?_map, hs]
            rfl
          obtain ⟨hplace, heq⟩ := List.getElem?_eq_some_iff.mp hcall
          simp only [step, hs, Option.elim_some, goOn, List.map_set]
          exact (congrArg _ heq.symm).trans (List.set_getElem_self hplace)

theorem run_begun (b : Backend σ) (x : Exchange σ) (moves : List Move) :
    (run b x moves).sends.map Sending.call =
      x.sends.map Sending.call ++ moves.filterMap Move.begun? := by
  induction moves generalizing x with
  | nil => exact (List.append_nil _).symm
  | cons move moves ih =>
      have hmove : (move :: moves).filterMap Move.begun? =
          move.begun?.toList ++ moves.filterMap Move.begun? := by
        rw [List.filterMap_cons]
        cases move.begun? <;> rfl
      rw [hmove, ← List.append_assoc, ← step_begun b]
      exact ih _

theorem step_go_last (b : Backend σ) (bus : Bus σ) (sends : List Sending) (s : Sending) :
    step b ⟨bus, sends ++ [s]⟩ (.go sends.length) =
      ⟨(s.next b bus).2, sends ++ [{ s with stage := (s.next b bus).1 }]⟩ := by
  simp [step, goOn]

theorem run_go_last (b : Backend σ) (bus : Bus σ) (sends : List Sending) (s : Sending) (n : Nat) :
    ∃ stage bus', run b ⟨bus, sends ++ [s]⟩ (List.replicate n (.go sends.length)) =
        ⟨bus', sends ++ [{ s with stage }]⟩ ∧
      stage.left ≤ s.stage.left - n ∧ { s with stage }.outcome b bus' = s.outcome b bus := by
  induction n with
  | zero => exact ⟨_, _, rfl, le_rfl, rfl⟩
  | succ n ih =>
      obtain ⟨stage, bus', hrun, hleft, houtcome⟩ := ih
      let t : Sending := { s with stage }
      refine ⟨(t.next b bus').1, (t.next b bus').2, ?_, ?_, ?_⟩
      · rw [List.replicate_succ', run_concat, hrun, step_go_last]
      · have hnext : (t.next b bus').1.left ≤ stage.left - 1 := t.left_next b bus'
        omega
      · rw [← houtcome]
        exact t.outcome_next b bus'

def alone (place : Nat) (fresh : Fresh) (m : Message) : List Move :=
  .begin fresh m :: List.replicate 4 (.go place)

theorem run_alone (b : Backend σ) (x : Exchange σ) (fresh : Fresh) (m : Message) :
    ∃ stage, run b x (alone x.sends.length fresh m) =
        ⟨(x.bus.send b fresh m).2, x.sends ++ [⟨m, fresh, stage⟩]⟩ ∧
      stage.result? = some (x.bus.send b fresh m).1 := by
  obtain ⟨stage, bus, hrun, hleft, houtcome⟩ :=
    run_go_last b x.bus x.sends ⟨m, fresh, .started⟩ 4
  obtain ⟨hresult, hbus⟩ := Sending.outcome_of_left b ⟨m, fresh, stage⟩ bus (Nat.le_zero.mp hleft)
  rw [houtcome] at hresult hbus
  refine ⟨stage, ?_, hresult⟩
  change run b ⟨x.bus, x.sends ++ [_]⟩ _ = _
  rw [hrun, ← hbus]
  rfl

def sentOf (e : Bus.Event) : Option (Message × Option (Except Error Message)) :=
  match e.op, e.answer with
  | .send _ m, .sent result => some (m, some result)
  | _, _ => none

theorem sentOf_of_not_send {op : Bus.Op} (h : op.isSend = false) (answer : Bus.Answer) :
    sentOf ⟨op, answer⟩ = none := by
  cases op with
  | send fresh m => cases h
  | _ => rfl

theorem settled_of_result? {stage : Sending.Stage} (h : stage.result?.isSome = true) :
    stage.settled = true := by
  cases stage with
  | done | failed | followed => rfl
  | _ => cases h

theorem inTurn_alone (h : ∀ s ∈ x.sends, s.stage.settled = true) (fresh : Fresh) (m : Message) :
    InTurn b x (alone x.sends.length fresh m) :=
  ⟨fun _ => h, inTurn_of_no_begin b _ fun _ hm => List.eq_of_mem_replicate hm ▸ rfl⟩

/-- What is done with a bus by one call after the other is one of the orders in which the steps of
the calls can come. -/
theorem run_ops (b : Backend σ) (bus : Bus σ) (ops : List Bus.Op) :
    ∃ moves, InTurn b (on bus) moves ∧
      (run b (on bus) moves).bus = (Bus.run b bus ops).bus ∧
      (run b (on bus) moves).sends.map (fun s => (s.message, s.stage.result?)) =
        (Bus.run b bus ops).events.filterMap sentOf ∧
      ∀ s ∈ (run b (on bus) moves).sends, s.stage.settled = true := by
  induction ops using List.reverseRecOn with
  | nil => exact ⟨[], trivial, rfl, rfl, List.forall_mem_nil _⟩
  | append_singleton ops op ih =>
      -- A send is a call of its own, begun when all the calls before it are over.
      obtain ⟨moves, hturn, hbus, hsent, hsettled⟩ := ih
      have hlast : Bus.run b bus (ops ++ [op]) = (Bus.run b bus ops).step b op := by
        rw [Bus.run, List.foldl_append]
        rfl
      rw [hlast, Bus.Run.step, List.filterMap_append, ← hsent, ← hbus]
      cases hop : op.isSend with
      | false =>
          refine ⟨moves ++ [.other op hop], ?_, ?_, ?_, ?_⟩
          · rw [inTurn_append]
            exact ⟨hturn, inTurn_of_no_begin b _ (by simp [Move.begun?])⟩
          · rw [run_concat]
            rfl
          · rw [run_concat, List.filterMap_cons_none (sentOf_of_not_send hop _), List.filterMap_nil,
              List.append_nil]
            rfl
          · rw [run_concat]
            exact hsettled
      | true =>
          cases op with
          | send fresh m =>
              obtain ⟨stage, hrun, hresult⟩ := run_alone b (run b (on bus) moves) fresh m
              refine ⟨moves ++ alone (run b (on bus) moves).sends.length fresh m, ?_, ?_, ?_, ?_⟩
              · rw [inTurn_append]
                exact ⟨hturn, inTurn_alone hsettled fresh m⟩
              · rw [run_append, hrun]
                rfl
              · rw [run_append, hrun, List.map_append, List.map_singleton, hresult]
                rfl
              · rw [run_append, hrun, List.forall_mem_append, List.forall_mem_singleton]
                exact ⟨hsettled, settled_of_result? (by rw [hresult]; rfl)⟩
          | _ => cases hop

end Exchange

end Parley
