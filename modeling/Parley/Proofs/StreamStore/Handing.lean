import Parley.Proofs.StreamStore.Groups

namespace Parley.StreamStore.Delivery

inductive Op
  | append (m : Message)
  | join (tenant : String)
  | read (tenant consumer : String)
  | ack (tenant : String) (ids : List String)
  | pending (tenant : String) (count : Nat)

inductive Event
  | append (m : Message) (answer : Except Error Unit)
  | join (tenant : String) (answer : Except Error Unit)
  | read (tenant consumer : String) (answer : Except Error (List Reading))
  | ack (tenant : String) (ids : List String) (answer : Except Error Nat)
  | pending (tenant : String) (count : Nat) (answer : Except Error (List Handout))

variable {φ : Type}

def perform (cl : Client φ) (s : Session φ) : Op → Event × Session φ
  | .append m => (.append m (cl.store m s).1, (cl.store m s).2)
  | .join tenant => (.join tenant (cl.joinGroup tenant s).1, (cl.joinGroup tenant s).2)
  | .read tenant consumer =>
    (.read tenant consumer (cl.consume tenant consumer s).1, (cl.consume tenant consumer s).2)
  | .ack tenant ids =>
    (.ack tenant ids (cl.acknowledge tenant ids s).1, (cl.acknowledge tenant ids s).2)
  | .pending tenant count =>
    (.pending tenant count (cl.unacknowledged tenant count s).1,
      (cl.unacknowledged tenant count s).2)

def run (cl : Client φ) (s : Session φ) : List Op → List Event × Session φ
  | [] => ([], s)
  | op :: ops =>
    let (event, s) := perform cl s op
    let (events, s) := run cl s ops
    (event :: events, s)

namespace Event

def message? : Event → Option Message
  | append m (.ok ()) => some m
  | _ => none

/-- The entries of the stream of a tenant that were handed out, each to its consumer. -/
def handed (tenant : String) : Event → List (Reading × String)
  | read t consumer (.ok readings) => if t = tenant then readings.map (·, consumer) else []
  | _ => []

def acked (tenant : String) : Event → List String
  | ack t ids (.ok _) => if t = tenant then ids else []
  | _ => []

def Names (tenant : String) : Event → Prop
  | append m _ => m.concerns tenant = true
  | join t _ | read t _ _ | ack t _ _ | pending t _ _ => t = tenant

end Event

def accepted (past : List Event) : List Message := firstOfEach (past.filterMap Event.message?)

def sent (tenant : String) (past : List Event) : List Message :=
  (accepted past).filter fun m => m.concerns tenant

def handed (tenant : String) (past : List Event) : List (Reading × String) :=
  past.flatMap (Event.handed tenant)

def settle (reads : IdReader) (tenant : String) (waiting : List (String × String)) (e : Event) :
    List (String × String) :=
  (waiting ++ (e.handed tenant).map fun h => (h.1.entry, h.2)).filter fun w =>
    ∀ id ∈ e.acked tenant, reads id ≠ reads w.1

/-- The entries that were handed out and not acknowledged after that, each with its consumer. An
entry may be acknowledged by any id that is read as its own is. -/
def waiting (reads : IdReader) (tenant : String) (past : List Event) : List (String × String) :=
  past.foldl (settle reads tenant) []

variable {c : Config} {reads : IdReader} {tenant : String} {past : List Event} {e : Event}

theorem Event.handed_eq_nil (h : ¬ e.Names tenant) : e.handed tenant = [] := by
  cases e with
  | read t consumer answer =>
      cases answer with
      | error e => rfl
      | ok readings => exact if_neg h
  | append m answer | join t answer | ack t ids answer | pending t count answer => rfl

theorem Event.acked_eq_nil (h : ¬ e.Names tenant) : e.acked tenant = [] := by
  cases e with
  | ack t ids answer =>
      cases answer with
      | error e => rfl
      | ok n => exact if_neg h
  | append m answer | join t answer | read t consumer answer | pending t count answer => rfl

theorem accepted_concat_of_none (h : e.message? = none) :
    accepted (past ++ [e]) = accepted past := by
  rw [accepted, List.filterMap_append, List.filterMap_cons_none h, List.filterMap_nil,
    List.append_nil, accepted]

theorem accepted_concat_append (past : List Event) (m : Message) :
    accepted (past ++ [.append m (.ok ())]) =
      if (accepted past).any fun n => n.id = m.id then accepted past else accepted past ++ [m] := by
  have hany : ((accepted past).any fun n => n.id = m.id) = true ↔
      ∃ n ∈ accepted past, n.id = m.id := by
    simp
  have hlast : [Event.append m (.ok ())].filterMap Event.message? = [m] := rfl
  rw [accepted, List.filterMap_append, hlast, firstOfEach_concat]
  simp only [hany]
  rfl

theorem handed_concat (past : List Event) (e : Event) :
    handed tenant (past ++ [e]) = handed tenant past ++ e.handed tenant := by
  rw [handed, List.flatMap_append, List.flatMap_singleton, handed]

theorem waiting_concat (past : List Event) (e : Event) :
    waiting reads tenant (past ++ [e]) = settle reads tenant (waiting reads tenant past) e := by
  rw [waiting, List.foldl_append, List.foldl_cons, List.foldl_nil, waiting]

theorem settle_of_quiet {w : List (String × String)} (hhanded : e.handed tenant = [])
    (hacked : e.acked tenant = [] ∨ w = []) : settle reads tenant w e = w := by
  rw [settle, hhanded, List.map_nil, List.append_nil, List.filter_eq_self]
  rcases hacked with hacked | rfl
  · rw [hacked]
    exact fun _ _ => decide_eq_true (List.forall_mem_nil _)
  · exact List.forall_mem_nil _

/-- Whatever a client is asked for but to store a message is about one tenant, and changes at most
the groups of its stream. -/
theorem perform_regrouped (c : Config) (s : Session φ) {op : Op} (hop : ∀ m, op ≠ .append m) :
    ∃ tenant, (∀ u, (perform c.client s op).1.Names u ↔ tenant = u) ∧
      (perform c.client s op).1.message? = none ∧
      Server.Regrouped (c.tenantKey tenant) s.server (perform c.client s op).2.server ∧
      ∀ u ∈ (perform c.client s op).2.groups, u = tenant ∨ u ∈ s.groups := by
  cases op with
  | append m => exact absurd rfl (hop m)
  | join tenant => exact ⟨tenant, fun _ => .rfl, rfl, joinGroup_regrouped c tenant s⟩
  | read tenant consumer =>
      exact ⟨tenant, fun _ => .rfl, rfl, consume_regrouped c tenant consumer s⟩
  | ack tenant ids =>
      exact ⟨tenant, fun _ => .rfl, rfl, ack_regrouped c tenant ids s.line, fun u hu => .inr hu⟩
  | pending tenant count =>
      exact ⟨tenant, fun _ => .rfl, rfl, unacknowledged_regrouped c tenant count s⟩

/-- Entries are numbered on and on. -/
theorem perform_numbered (c : Config) (s : Session φ) (op : Op) :
    s.server.numbered ≤ (perform c.client s op).2.server.numbered := by
  by_cases hop : ∃ m, op = .append m
  · obtain ⟨m, rfl⟩ := hop
    exact store_numbered c.client m s
  · obtain ⟨tenant, -, -, hr, -⟩ := perform_regrouped c s (not_exists.mp hop)
    exact hr.numbered.ge

theorem run_numbered (c : Config) (s : Session φ) (ops : List Op) :
    s.server.numbered ≤ (run c.client s ops).2.server.numbered := by
  induction ops generalizing s with
  | nil => exact le_rfl
  | cons op ops ih => exact (perform_numbered c s op).trans (ih _)

end Parley.StreamStore.Delivery
