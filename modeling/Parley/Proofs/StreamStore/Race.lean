import Parley.Proofs.StreamStore.Isolation

namespace Parley.StreamStore

/-- How far a client has come with a message: it has yet to ask for the id, or to write because
the server did not have it, or it has returned. -/
inductive Progress
  | asking
  | writing
  | done (answer : Except Error Bool)

structure Writer where
  message : Message
  progress : Progress

/-- Clients of one server that store a message each, and the messages that the server took, in
order. -/
structure Race where
  server : Server
  writers : List Writer
  taken : List Message

def newest (all : List Message) (id : String) : Option Message :=
  all.reverse.find? fun m => m.id = id

namespace Writer

def isWriting (w : Writer) : Bool :=
  match w.progress with
  | .writing => true
  | _ => false

/-- Whether a client returned that its message was new. -/
def wrote (w : Writer) : Bool :=
  match w.progress with
  | .done (.ok true) => true
  | _ => false

def advance (c : Config) (w : Writer) (s : Server) : Progress × Server :=
  match w.progress with
  | .asking =>
    match c.client.knows w.message.id ⟨s, (), []⟩ with
    | (.error e, l) => (.done (.error e), l.server)
    | (.ok true, l) => (.done (.ok false), l.server)
    | (.ok false, l) => (.writing, l.server)
  | .writing =>
    match c.client.write w.message ⟨s, (), []⟩ with
    | (.error e, l) => (.done (.error e), l.server)
    | (.ok (), l) => (.done (.ok true), l.server)
  | .done answer => (.done answer, s)

/-- What a client has come to, among messages of which some were there from the start. -/
def Fits (log all : List Message) (w : Writer) : Prop :=
  match w.progress with
  | .asking => True
  | .writing | .done (.ok true) => ∀ n ∈ log, n.id ≠ w.message.id
  | .done (.ok false) => ∃ n ∈ all, n.id = w.message.id
  | .done (.error _) => False

end Writer

namespace Race

def start (s : Server) (ms : List Message) : Race := ⟨s, ms.map fun m => ⟨m, .asking⟩, []⟩

def step (c : Config) (r : Race) (i : Nat) : Race :=
  match r.writers[i]? with
  | none => r
  | some w =>
    let (progress, server) := w.advance c r.server
    ⟨server, r.writers.set i { w with progress },
      r.taken ++ if w.isWriting then [w.message] else []⟩

def run (c : Config) (r : Race) (moves : List Nat) : Race := moves.foldl (step c) r

end Race

/-- A race on a server that had the messages of a log: its streams have the messages taken after
those of the log, and under each id is the last one of it. -/
structure Contested (c : Config) (log ms : List Message) (verdict : String → Option Approval)
    (r : Race) : Prop where
  held : Holds c (log ++ r.taken) (newest (log ++ r.taken)) verdict r.server
  messages : r.writers.map Writer.message = ms
  taken : ((r.writers.filter Writer.wrote).map Writer.message).Perm r.taken
  fits : ∀ w ∈ r.writers, w.Fits log (log ++ r.taken)

/-- What is read of some messages: the first of each id, with the decision on it. -/
def shown (verdict : String → Option Approval) (p : Message → Bool) (all : List Message) :
    List Message :=
  (firstOfEach ((all.filterMap Message.reread).filter p)).map (ruled verdict)

/-- The first of each id is read from a stream, and the last is looked up by its id. -/
structure Views {φ : Type} (c : Config) (verdict : String → Option Approval) (all : List Message)
    (t : Session φ) : Prop where
  threads : ∀ id, (c.client.thread id t).1 =
    .ok (shown verdict (fun m => m.threadId = id || m.concerns ("thread:" ++ id)) all)
  tenants : ∀ tenant, ¬ Reserved tenant → (c.client.ofTenant tenant t).1 =
    .ok (shown verdict (fun m => m.concerns tenant || tenant = "thread:" ++ m.threadId) all)
  ids : ∀ id, (Client.onLine (c.client.lookUp id) t).1 =
    (Client.readPayload ((newest all id).map encodeText)).map (Option.map (ruled verdict))

variable {c : Config} {log ms all : List Message} {verdict : String → Option Approval} {s : Server}
  {r : Race} {m : Message} {w : Writer} {i : Nat}

theorem newest_concat (all : List Message) (m : Message) :
    newest (all ++ [m]) = Function.update (newest all) m.id (some m) := by
  funext id
  rw [newest, List.reverse_append, List.reverse_singleton, List.singleton_append,
    List.find?_cons, Function.update_apply]
  by_cases hid : id = m.id
  · simp [hid]
  · simp [hid, Ne.symm hid, newest]

theorem newest_isSome (all : List Message) (id : String) :
    (newest all id).isSome = all.any fun m => m.id = id := by
  rw [newest, List.isSome_find?, List.any_reverse]

theorem knows_newest (h : Holds c all (newest all) verdict s) (id : String) :
    Gives Line.server (c.client.knows id ⟨s, (), []⟩) (all.any fun m => m.id = id) s := by
  rw [← newest_isSome]
  exact knows_of_index h.messages id

theorem advance_asking (h : Holds c all (newest all) verdict s) (m : Message) :
    Writer.advance c ⟨m, .asking⟩ s =
      (if all.any fun n => n.id = m.id then .done (.ok false) else .writing, s) := by
  obtain ⟨l, hknows, rfl⟩ := (knows_newest h m.id).exists_eq
  simp only [Writer.advance, hknows]
  cases all.any fun n => n.id = m.id <;> rfl

theorem advance_twice (c : Config) (m : Message) (s : Server) :
    Writer.advance c ⟨m, (Writer.advance c ⟨m, .asking⟩ s).1⟩ (Writer.advance c ⟨m, .asking⟩ s).2 =
      (.done (c.client.append m ⟨s, (), []⟩).1, (c.client.append m ⟨s, (), []⟩).2.server) := by
  simp only [Writer.advance, Client.append]
  rcases c.client.knows m.id ⟨s, (), []⟩ with ⟨e | known, l⟩
  · rfl
  · cases known <;> rfl

theorem contested_start (h : Holds c log (newest log) verdict s) (ms : List Message) :
    Contested c log ms verdict (.start s ms) where
  held := by
    rw [Race.start, List.append_nil]
    exact h
  messages := by
    rw [Race.start, List.map_map]
    exact List.map_id ms
  taken := by
    have hnone : (ms.map fun m => (⟨m, .asking⟩ : Writer)).filter Writer.wrote = [] := by
      simp [Writer.wrote]
    rw [Race.start, hnone]
    exact .nil
  fits := by
    rw [Race.start, List.forall_mem_map]
    exact fun _ _ => trivial

theorem Writer.Fits.append (h : w.Fits log all) (more : List Message) :
    w.Fits log (all ++ more) := by
  obtain ⟨m, progress⟩ := w
  match progress with
  | .asking | .writing | .done (.ok true) | .done (.error _) => exact h
  | .done (.ok false) =>
      obtain ⟨n, hn, hid⟩ := h
      exact ⟨n, List.mem_append_left _ hn, hid⟩

theorem Contested.read {before after : List Writer} {progress : Progress}
    (h : Contested c log ms verdict ⟨s, before ++ w :: after, all⟩)
    (hwrote : Writer.wrote { w with progress } = w.wrote)
    (hfits : Writer.Fits log (log ++ all) { w with progress }) :
    Contested c log ms verdict ⟨s, before ++ { w with progress } :: after, all⟩ where
  held := h.held
  messages := by
    rw [← h.messages]
    simp
  taken := by
    refine .trans (.of_eq ?_) h.taken
    simp only [List.filter_append, List.filter_cons, hwrote]
    split <;> simp
  fits := by
    intro v hv
    rcases List.mem_append.mp hv with hv | hv
    · exact h.fits v (List.mem_append_left _ hv)
    · rcases List.mem_cons.mp hv with rfl | hv
      · exact hfits
      · exact h.fits v (List.mem_append_right _ (List.mem_cons_of_mem _ hv))

theorem Contested.write {before after : List Writer}
    (h : Contested c log ms verdict ⟨s, before ++ ⟨m, .writing⟩ :: after, all⟩)
    (hm : Storable m) :
    Contested c log ms verdict ⟨(s.transaction (c.writes m)).2,
      before ++ ⟨m, .done (.ok true)⟩ :: after, all ++ [m]⟩ where
  held := by
    rw [← List.append_assoc, newest_concat]
    exact h.held.write hm
  messages := by
    rw [← h.messages]
    simp
  taken := by
    have hold := h.taken
    simp only [List.filter_append, List.filter_cons, Writer.wrote, Bool.false_eq_true, if_false,
      List.map_append, if_true, List.map_cons] at hold ⊢
    exact (List.perm_middle.trans (hold.cons m)).trans (List.perm_append_singleton m all).symm
  fits := by
    intro v hv
    rw [← List.append_assoc]
    rcases List.mem_append.mp hv with hv | hv
    · exact (h.fits v (List.mem_append_left _ hv)).append [m]
    · rcases List.mem_cons.mp hv with rfl | hv
      · exact h.fits ⟨m, .writing⟩ (List.mem_append_right _ List.mem_cons_self)
      · exact (h.fits v (List.mem_append_right _ (List.mem_cons_of_mem _ hv))).append [m]

theorem exists_split {α : Type} {list : List α} {a : α} (h : list[i]? = some a) :
    ∃ before after, list = before ++ a :: after ∧ ∀ b, list.set i b = before ++ b :: after := by
  obtain ⟨hi, rfl⟩ := List.getElem?_eq_some_iff.mp h
  have hset (b : α) : list.set i b = list.take i ++ b :: list.drop (i + 1) := by
    rw [List.set_eq_take_append_cons_drop, if_pos hi]
  exact ⟨list.take i, list.drop (i + 1), (List.set_getElem_self hi).symm.trans (hset _), hset⟩

theorem Contested.step (h : Contested c log ms verdict r) (hms : ∀ m ∈ ms, Storable m) (i : Nat) :
    Contested c log ms verdict (r.step c i) := by
  rw [Race.step]
  cases hw : r.writers[i]? with
  | none => exact h
  | some w =>
      obtain ⟨server, writers, all⟩ := r
      obtain ⟨before, after, rfl, hset⟩ := exists_split hw
      simp only [hset]
      obtain ⟨m, progress⟩ := w
      have hm : Storable m := hms m (by rw [← h.messages]; simp)
      match progress with
      | .asking =>
          rw [advance_asking h.held]
          simp only [Writer.isWriting, Bool.false_eq_true, if_false, List.append_nil]
          refine h.read ?_ ?_
          · split <;> rfl
          · cases hany : (log ++ all).any fun n => n.id = m.id with
            | true =>
                obtain ⟨n, hn, hid⟩ := List.any_eq_true.mp hany
                exact ⟨n, hn, of_decide_eq_true hid⟩
            | false =>
                intro n hn hid
                exact List.any_eq_false.mp hany n (List.mem_append_left _ hn) (decide_eq_true hid)
      | .writing => exact h.write hm
      | .done answer =>
          simp only [Writer.advance, Writer.isWriting, Bool.false_eq_true, if_false,
            List.append_nil]
          exact h

theorem contested_run (h : Holds c log (newest log) verdict s) (hms : ∀ m ∈ ms, Storable m)
    (moves : List Nat) : Contested c log ms verdict (Race.run c (.start s ms) moves) := by
  induction moves using List.reverseRecOn with
  | nil => exact contested_start h ms
  | append_singleton moves i ih =>
      rw [Race.run, List.foldl_append]
      exact ih.step hms i

def Progress.count : Progress → Nat
  | .asking => 0
  | .writing => 1
  | .done _ => 2

theorem advance_count (c : Config) (w : Writer) (s : Server) :
    min 2 (w.progress.count + 1) ≤ (w.advance c s).1.count := by
  obtain ⟨m, progress⟩ := w
  cases progress with
  | asking =>
      rw [Writer.advance]
      simp only
      split <;> simp [Progress.count]
  | writing => exact le_rfl
  | done answer => exact le_rfl

/-- Whoever goes on twice has returned. -/
theorem count_run (c : Config) (s : Server) (ms : List Message) (moves : List Nat) :
    ∀ w, (Race.run c (.start s ms) moves).writers[i]? = some w →
      min 2 (moves.count i) ≤ w.progress.count := by
  induction moves using List.reverseRecOn with
  | nil => exact fun _ _ => Nat.zero_le _
  | append_singleton moves j ih =>
      rw [Race.run, List.foldl_append]
      change ∀ w, (Race.step c (Race.run c (.start s ms) moves) j).writers[i]? = some w → _
      generalize Race.run c (.start s ms) moves = r at ih ⊢
      intro w hw
      rw [List.count_append, List.count_singleton]
      rw [Race.step] at hw
      by_cases hij : j = i
      · subst hij
        rw [beq_self_eq_true, if_pos rfl]
        cases hj : r.writers[j]? with
        | none =>
            rw [hj] at hw
            rw [hj] at hw
            cases hw
        | some v =>
            have hlt : j < r.writers.length := (List.getElem?_eq_some_iff.mp hj).1
            have hstep := advance_count c v r.server
            have hbefore := ih v hj
            simp only [hj, List.getElem?_set_self hlt, Option.some.injEq] at hw
            rw [← hw]
            simp only
            omega
      · rw [if_neg (by simpa using hij), Nat.add_zero]
        refine ih w ?_
        rw [← hw]
        split
        · rfl
        · exact (List.getElem?_set_ne hij).symm

variable {φ : Type} {t : Session φ}

theorem newest_mem {id : String} (h : newest all id = some m) : m ∈ all ∧ m.id = id :=
  ⟨List.mem_reverse.mp (List.mem_of_find?_eq_some h), by simpa using List.find?_some h⟩

theorem Holds.views (h : Holds c all (newest all) verdict t.server) (hv : Legible verdict)
    (hall : ∀ m ∈ all, m.Sound) : Views c verdict all t where
  threads id := by rw [(h.thread_gives hv id).answer, filter_threadKey hall, shown]
  tenants tenant ht := by rw [(h.ofTenant_gives hv ht).answer, filter_tenantKey hall, shown]
  ids id := by
    refine (h.lookUp_eq (l := t.line) hv id fun m hm m' hr => ?_).1
    obtain ⟨hmem, hid⟩ := newest_mem hm
    exact (reread_id (hall m hmem) hr).trans hid

theorem nodup_shown (verdict : String → Option Approval) (p : Message → Bool)
    (all : List Message) : ((shown verdict p all).map Message.id).Nodup := by
  have hid : Message.id ∘ ruled verdict = Message.id := funext (ruled_id verdict)
  rw [shown, List.map_map, hid]
  exact nodup_keepNew [] _

theorem Views.ids_of_mem (h : Views c verdict all t) (hall : ∀ m ∈ all, m.Sound)
    {p : Message → Bool} (hm : m ∈ shown verdict p all)
    (hone : ∀ n ∈ all, ∀ n' ∈ all, n.id = m.id → n'.id = m.id → n = n') :
    (Client.onLine (c.client.lookUp m.id) t).1 = .ok (some m) := by
  obtain ⟨m', hm', rfl⟩ := List.mem_map.mp hm
  have hread := List.mem_of_mem_filter ((keepNew_sublist [] _).subset hm')
  obtain ⟨n, hn, hr⟩ := List.mem_filterMap.mp hread
  rw [ruled_id] at hone ⊢
  have hid : n.id = m'.id := (reread_id (hall n hn) hr).symm
  rw [h.ids]
  cases hnew : newest all m'.id with
  | none =>
      have hsome : (newest all m'.id).isSome = true := by
        rw [newest_isSome, List.any_eq_true]
        exact ⟨n, hn, decide_eq_true hid⟩
      rw [hnew] at hsome
      cases hsome
  | some n' =>
      obtain ⟨hn', hid'⟩ := newest_mem hnew
      obtain rfl := hone n hn n' hn' hid hid'
      have hdecode : decodeText (encodeText n) = some m' := hr
      rw [Option.map_some, Client.readPayload, hdecode]
      rfl

theorem Contested.mem_of_wrote (h : Contested c log ms verdict r) (hw : w ∈ r.writers)
    (hwrote : w.wrote = true) : w.message ∈ r.taken :=
  h.taken.mem_iff.mp (List.mem_map_of_mem (List.mem_filter.mpr ⟨hw, hwrote⟩))

theorem Contested.stored (h : Contested c log ms verdict r) (hw : w ∈ r.writers)
    {answer : Except Error Bool} (hdone : w.progress = .done answer) :
    ∃ new, answer = .ok new ∧ ∃ n ∈ log ++ r.taken, n.id = w.message.id := by
  have hfits := h.fits w hw
  obtain ⟨m, progress⟩ := w
  obtain rfl : progress = .done answer := hdone
  match answer with
  | .error _ => cases hfits
  | .ok false => exact ⟨false, rfl, hfits⟩
  | .ok true => exact ⟨true, rfl, m, List.mem_append_right _ (h.mem_of_wrote hw rfl), rfl⟩

theorem Contested.new (h : Contested c log ms verdict r) :
    ∀ m ∈ r.taken, ∀ n ∈ log, n.id ≠ m.id := by
  intro m hm
  obtain ⟨w, hw, rfl⟩ := List.mem_map.mp (h.taken.mem_iff.mpr hm)
  obtain ⟨hmem, hwrote⟩ := List.mem_filter.mp hw
  have hfits := h.fits w hmem
  obtain ⟨m, progress⟩ := w
  match progress with
  | .done (.ok true) => exact hfits
  | .asking | .writing | .done (.ok false) | .done (.error _) => cases hwrote

/-- However clients that store messages come between each other, each of them returns, and then
its id is stored. A message is taken unless one of its id was there when its client asked, so that
several of one id may be. Every stream then has each id once, as it was taken first, but what is
looked up is what was taken last. They agree where the messages of an id are the same. -/
theorem views_of_race (c : Config) (h : Holds c log (newest log) verdict s) (hv : Legible verdict)
    (hlog : ∀ m ∈ log, m.Sound) (hms : ∀ m ∈ ms, m.Sound ∧ Storable m) (moves : List Nat) :
    ∃ server writers taken, Race.run c (.start s ms) moves = ⟨server, writers, taken⟩ ∧
      writers.map Writer.message = ms ∧
      (∀ i w, writers[i]? = some w → 2 ≤ moves.count i → ∃ answer, w.progress = .done answer) ∧
      (∀ w ∈ writers, ∀ answer, w.progress = .done answer →
        ∃ new, answer = .ok new ∧ ∃ n ∈ log ++ taken, n.id = w.message.id) ∧
      ((writers.filter Writer.wrote).map Writer.message).Perm taken ∧
      (∀ m ∈ taken, ∀ n ∈ log, n.id ≠ m.id) ∧
      ∀ t : Session φ, t.server = server →
        Views c verdict (log ++ taken) t ∧
        ∀ p, ((shown verdict p (log ++ taken)).map Message.id).Nodup ∧
          ∀ m ∈ shown verdict p (log ++ taken),
            (∀ n ∈ log ++ taken, ∀ n' ∈ log ++ taken, n.id = m.id → n'.id = m.id → n = n') →
              (Client.onLine (c.client.lookUp m.id) t).1 = .ok (some m) := by
  have hcontested := contested_run h (fun m hm => (hms m hm).2) moves
  have hcount := fun i => count_run (i := i) c s ms moves
  generalize Race.run c (.start s ms) moves = r at hcontested hcount ⊢
  have hall : ∀ m ∈ log ++ r.taken, m.Sound := by
    rw [List.forall_mem_append]
    refine ⟨hlog, fun m hm => (hms m ?_).1⟩
    rw [← hcontested.messages]
    exact (List.filter_sublist.map Writer.message).subset (hcontested.taken.mem_iff.mpr hm)
  refine ⟨r.server, r.writers, r.taken, rfl, hcontested.messages, fun i w hw hi => ?_,
    fun w hw answer hdone => hcontested.stored hw hdone, hcontested.taken, hcontested.new,
    fun t ht => ?_⟩
  · have hpast := hcount i w hw
    rw [Nat.min_eq_left hi] at hpast
    match hprogress : w.progress with
    | .done answer => exact ⟨answer, rfl⟩
    | .asking | .writing =>
        rw [hprogress] at hpast
        exact absurd hpast (by decide)
  · have hviews := (ht ▸ hcontested.held).views (t := t) hv hall
    exact ⟨hviews, fun p => ⟨nodup_shown verdict p _, fun m hm => hviews.ids_of_mem hall hm⟩⟩

def rewordedQuestion : Message := { plainQuestion with content := "How?" }

theorem rewordedQuestion_sound : rewordedQuestion.Sound :=
  ⟨⟨by decide, by decide, .inl (by decide)⟩, nofun, trivial, trivial, List.forall_mem_nil _, nofun⟩

theorem rewordedQuestion_reread : rewordedQuestion.reread = some rewordedQuestion :=
  (Message.reread_eq_self_iff rewordedQuestion_sound).mpr ⟨trivial, nofun, nofun, trivial⟩

theorem bothQuestions_regular : (∀ m ∈ [plainQuestion, rewordedQuestion], m.Sound ∧ Storable m) ∧
    Holds .standard [] (newest []) (fun _ => none) Server.empty ∧
    ∃ server, Race.run .standard (.start .empty [plainQuestion, rewordedQuestion]) [0, 1, 0, 1] =
      ⟨server, [⟨plainQuestion, .done (.ok true)⟩, ⟨rewordedQuestion, .done (.ok true)⟩],
        [plainQuestion, rewordedQuestion]⟩ := by
  have hstorable : Storable plainQuestion := fun tenant ht => (plainQuestion_plain tenant ht).1
  refine ⟨?_, (filled_empty .standard).holds, _, rfl⟩
  simp only [List.forall_mem_cons]
  exact ⟨⟨plainQuestion_sound, hstorable⟩, ⟨rewordedQuestion_sound, hstorable⟩,
    List.forall_mem_nil _⟩

theorem Views.question {t : Session φ}
    (h : Views .standard (fun _ => none) [plainQuestion, rewordedQuestion] t) :
    (Config.standard.client.thread "q" t).1 = .ok [plainQuestion] ∧
      (Client.onLine (Config.standard.client.lookUp "q") t).1 = .ok (some rewordedQuestion) := by
  have hnewest : newest [plainQuestion, rewordedQuestion] "q" = some rewordedQuestion := by rfl
  have hdecode : decodeText (encodeText rewordedQuestion) = some rewordedQuestion :=
    rewordedQuestion_reread
  constructor
  · rw [h.threads, shown, List.filterMap_cons_some plainQuestion_reread,
      List.filterMap_cons_some rewordedQuestion_reread]
    rfl
  · rw [h.ids, hnewest, Option.map_some, Client.readPayload, hdecode]
    rfl

theorem views_of_race_question : (∀ m ∈ [plainQuestion, rewordedQuestion], m.Sound ∧ Storable m) ∧
    Holds .standard [] (newest []) (fun _ => none) Server.empty ∧
    ∃ server writers taken,
      Race.run .standard (.start .empty [plainQuestion, rewordedQuestion]) [0, 1, 0, 1] =
        ⟨server, writers, taken⟩ ∧
      ∀ t : Session Unit, t.server = server →
        (Config.standard.client.thread "q" t).1 = .ok [plainQuestion] ∧
        (Client.onLine (Config.standard.client.lookUp "q") t).1 = .ok (some rewordedQuestion) := by
  obtain ⟨hms, hempty, server, hrun⟩ := bothQuestions_regular
  obtain ⟨server', writers, taken, hrun', -, -, -, -, -, hviews⟩ :=
    views_of_race (φ := Unit) .standard hempty nofun (List.forall_mem_nil _) hms [0, 1, 0, 1]
  obtain ⟨rfl, rfl, rfl⟩ := Race.mk.inj (hrun.symm.trans hrun')
  exact ⟨hms, hempty, server, _, _, hrun, fun t ht => (hviews t ht).1.question⟩

/-- Once all clients have returned, what a thread shows need not be what is under its id. -/
theorem copies_differ : ¬ ∀ (c : Config) (ms : List Message) (moves : List Nat) (t : Session Unit),
    (∀ m ∈ ms, m.Sound ∧ Storable m) →
    (∀ w ∈ (Race.run c (.start .empty ms) moves).writers, ∃ answer, w.progress = .done answer) →
    t.server = (Race.run c (.start .empty ms) moves).server →
    ∀ id shown, (c.client.thread id t).1 = .ok shown → ∀ m ∈ shown,
      (Client.onLine (c.client.lookUp m.id) t).1 = .ok (some m) := by
  intro h
  obtain ⟨hms, hempty, server, hrun⟩ := bothQuestions_regular
  have hcontested := contested_run hempty (fun m hm => (hms m hm).2) [0, 1, 0, 1]
  have hagree := h .standard _ [0, 1, 0, 1] ⟨⟨server, (), []⟩, Config.standard.cache, [], 0⟩ hms
  rw [hrun] at hcontested hagree
  have hviews := hcontested.held.views (t := (⟨⟨server, (), []⟩, Config.standard.cache, [], 0⟩ :
    Session Unit)) nofun fun m hm => (hms m hm).1
  obtain ⟨hthread, hfound⟩ := hviews.question
  have hdone : ∀ w ∈ ([⟨plainQuestion, .done (.ok true)⟩,
      ⟨rewordedQuestion, .done (.ok true)⟩] : List Writer), ∃ answer, w.progress = .done answer := by
    simp
  have hsame := hagree hdone rfl "q" _ hthread plainQuestion List.mem_cons_self
  have hcontent := congrArg (Except.map (Option.map Message.content)) (hfound.symm.trans hsame)
  revert hcontent
  decide

end Parley.StreamStore
