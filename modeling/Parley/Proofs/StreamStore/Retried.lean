import Parley.Proofs.StreamStore.Agreement

namespace Parley.Retry

variable {σ α : Type}

theorem Outcome.ofExcept_eq_success_iff {r : Except Error α} {v : α} :
    ofExcept r = .success v ↔ r = .ok v := by
  cases r with
  | ok w => simp [ofExcept]
  | error e =>
      rw [ofExcept]
      split <;> simp

/-- A call that succeeds ends as the attempt does that succeeds, and what all the others keep is
there before it. -/
theorem attemptFrom_ends {call : Nat → σ → Outcome α × σ} {sleep : Nat → σ → σ} {I : σ → Prop}
    {Q : α → σ → Prop}
    (hcall : ∀ n s, I s → (∀ v, (call n s).1 = .success v → Q v (call n s).2) ∧
      ((∀ v, (call n s).1 ≠ .success v) → I (call n s).2))
    (hsleep : ∀ n s, I s → I (sleep n s)) (c : Config) (target : String) (attempt left : Nat)
    {s : σ} (h : I s) :
    (∀ v, (attemptFrom c target call sleep attempt left s).1 = .ok v →
        Q v (attemptFrom c target call sleep attempt left s).2) ∧
      ∀ e, (attemptFrom c target call sleep attempt left s).1 = .error e →
        I (attemptFrom c target call sleep attempt left s).2 := by
  fun_induction attemptFrom c target call sleep attempt left s with
  | case1 attempt left s v s' hc =>
      obtain ⟨hdone, -⟩ := hcall attempt s h
      rw [hc] at hdone
      refine ⟨fun w hw => Except.ok.inj hw ▸ hdone v rfl, fun e he => ?_⟩
      cases he
  | case2 attempt left s e s' hc | case3 attempt s e s' hc =>
      obtain ⟨-, hkept⟩ := hcall attempt s h
      rw [hc] at hkept
      refine ⟨fun v hv => ?_, fun _ _ => hkept fun v hv => ?_⟩
      · cases hv
      · cases hv
  | case4 attempt s e s' hc left s'' ih =>
      obtain ⟨-, hkept⟩ := hcall attempt s h
      rw [hc] at hkept
      refine ih (hsleep _ _ (hkept fun v hv => ?_))
      cases hv

theorem attemptFrom_keeps {call : Nat → σ → Outcome α × σ} {sleep : Nat → σ → σ} {I : σ → Prop}
    {Q : α → σ → Prop}
    (hcall : ∀ n s, I s → I (call n s).2 ∧ ∀ v, (call n s).1 = .success v → Q v (call n s).2)
    (hsleep : ∀ n s, I s → I (sleep n s)) (c : Config) (target : String) (attempt left : Nat)
    {s : σ} (h : I s) :
    I (attemptFrom c target call sleep attempt left s).2 ∧
      ∀ v, (attemptFrom c target call sleep attempt left s).1 = .ok v →
        Q v (attemptFrom c target call sleep attempt left s).2 := by
  have hends := attemptFrom_ends (Q := fun v s => I s ∧ Q v s)
    (fun n s hs => ⟨fun v hv => ⟨(hcall n s hs).1, (hcall n s hs).2 v hv⟩,
      fun _ => (hcall n s hs).1⟩) hsleep c target attempt left h
  refine ⟨?_, fun v hv => (hends.1 v hv).2⟩
  cases hr : (attemptFrom c target call sleep attempt left s).1 with
  | ok v => exact (hends.1 v hr).1
  | error e => exact hends.2 e hr

end Parley.Retry

namespace Parley.StreamStore

def stored (c : Config) (m : Message) (s : Server) : Server := (s.transaction (c.writes m)).2

/-- A server that knows the id of a message has one entry of it in each of its streams, and one
that does not has none. -/
structure Once (c : Config) (m : Message) (known : Bool) (s : Server) : Prop where
  index : s.has c.messagesKey m.id = .ok known
  streams : ∀ key ∈ c.streamKeys m, ∃ said, s.fieldsAt key = .ok said ∧
    said.count (payload m) = known.toNat

/-- A server has a message once, or else not at all where it may be without it. -/
def Keeps (c : Config) (m : Message) (needed : Bool) (s : Server) : Prop :=
  ∃ known, Once c m known s ∧ (needed = true → known = true)

/-- How an attempt to store a message may go: what it answers, what it sends and what becomes of
that, and what it leaves on the server. -/
inductive Attempt (c : Config) (m : Message) (s : Server) :
    Except Error Bool → List (Command × Fate) → Server → Prop
  | unasked (e : Error) (fate : Fate) :
      Attempt c m s (.error e) [(.has c.messagesKey m.id, fate)] s
  | known (h : s.has c.messagesKey m.id = .ok true) :
      Attempt c m s (.ok false) [(.has c.messagesKey m.id, .answered)] s
  | refused (e : Error) (f : Failure) (h : s.has c.messagesKey m.id = .ok false) :
      Attempt c m s (.error e)
        [(.has c.messagesKey m.id, .answered), (.transaction (c.writes m), .refused f)] s
  | untold (e : Error) (h : s.has c.messagesKey m.id = .ok false) :
      Attempt c m s (.error e)
        [(.has c.messagesKey m.id, .answered), (.transaction (c.writes m), .answerLost)]
        (stored c m s)
  | written (h : s.has c.messagesKey m.id = .ok false) :
      Attempt c m s (.ok true)
        [(.has c.messagesKey m.id, .answered), (.transaction (c.writes m), .answered)]
        (stored c m s)

variable {φ α : Type} {c : Config} {cl : Client φ} {m : Message} {s : Server} {l : Line φ}
  {t : Session φ} {known needed : Bool}

theorem once_empty (c : Config) (m : Message) : Once c m false Server.empty :=
  ⟨rfl, fun _ _ => ⟨[], rfl, rfl⟩⟩

theorem Once.keeps (h : Once c m true s) (needed : Bool) : Keeps c m needed s :=
  ⟨true, h, fun _ => rfl⟩

theorem Keeps.once (h : Keeps c m true s) : Once c m true s := by
  obtain ⟨known, honce, hknown⟩ := h
  exact hknown rfl ▸ honce

/-- A command is carried out or not, and only its sender may not be told. -/
theorem call_cases (w : Weather φ) (command : Command) (act : Server → Except String α × Server)
    (l : Line φ) :
    (∃ f, l.call w command act = (.error f, ⟨l.server, (w command l.faults).2,
      l.sent ++ [(command, .refused f)]⟩)) ∨
    l.call w command act = (.error .dropped, ⟨(act l.server).2, (w command l.faults).2,
      l.sent ++ [(command, .answerLost)]⟩) ∨
    l.call w command act = ((act l.server).1.mapError .reply, ⟨(act l.server).2,
      (w command l.faults).2, l.sent ++ [(command, .answered)]⟩) := by
  rw [Line.call]
  rcases w command l.faults with ⟨fate, faults⟩
  cases fate with
  | refused failure => exact .inl ⟨failure, rfl⟩
  | answerLost => exact .inr (.inl rfl)
  | answered => exact .inr (.inr rfl)

theorem ask_server (w : Weather φ) (command : Command) (read : Server → Except String α)
    (l : Line φ) : (l.ask w command read).2.server = l.server := by
  rw [Line.ask]
  rcases call_cases w command (fun s => (read s, s)) l with ⟨f, h⟩ | h | h <;> rw [h]

theorem knows_cases (cl : Client φ) (id : String) (l : Line φ) :
    (∃ e fate faults, cl.knows id l =
      (.error e, ⟨l.server, faults, l.sent ++ [(.has cl.config.messagesKey id, fate)]⟩)) ∨
    ∃ known faults, l.server.has cl.config.messagesKey id = .ok known ∧ cl.knows id l =
      (.ok known, ⟨l.server, faults, l.sent ++ [(.has cl.config.messagesKey id, .answered)]⟩) := by
  rw [Client.knows, Line.ask, Client.raise]
  rcases call_cases cl.weather (.has cl.config.messagesKey id)
    (fun s => (s.has cl.config.messagesKey id, s)) l with ⟨f, h⟩ | h | h
  · rw [h]
    exact .inl ⟨_, _, _, rfl⟩
  · rw [h]
    exact .inl ⟨_, _, _, rfl⟩
  · rw [h]
    cases hhas : l.server.has cl.config.messagesKey id with
    | error e => exact .inl ⟨_, _, _, rfl⟩
    | ok known => exact .inr ⟨known, _, rfl, rfl⟩

theorem append_attempt (cl : Client φ) (m : Message) (l : Line φ) :
    ∃ sent, (cl.append m l).2.sent = l.sent ++ sent ∧
      Attempt cl.config m l.server (cl.append m l).1 sent (cl.append m l).2.server := by
  rw [Client.append]
  rcases knows_cases cl m.id l with ⟨e, fate, faults, hasked⟩ | ⟨known, faults, hhas, hasked⟩
  · rw [hasked]
    exact ⟨_, rfl, .unasked e fate⟩
  · rw [hasked]
    cases known with
    | true => exact ⟨_, rfl, .known hhas⟩
    | false =>
        simp only [Client.write, Client.raise]
        rcases call_cases cl.weather (.transaction (cl.config.writes m))
            (fun s => (.ok (), (s.transaction (cl.config.writes m)).2)) ⟨l.server, faults,
              l.sent ++ [(.has cl.config.messagesKey m.id, .answered)]⟩ with ⟨f, h⟩ | h | h
        · rw [h]
          exact ⟨_, List.append_assoc .., .refused _ f hhas⟩
        · rw [h]
          exact ⟨_, List.append_assoc .., .untold _ hhas⟩
        · rw [h]
          exact ⟨_, List.append_assoc .., .written hhas⟩

theorem persist_ends (cl : Client φ) {I : Line φ → Prop} {Q : α → Line φ → Prop}
    {f : Line φ → Except Error α × Line φ}
    (hf : ∀ l, I l → (∀ a, (f l).1 = .ok a → Q a (f l).2) ∧
      ∀ e, (f l).1 = .error e → I (f l).2) (target : String) (ht : I t.line) :
    (∀ a, (cl.persist target f t).1 = .ok a → Q a (cl.persist target f t).2.line) ∧
      ∀ e, (cl.persist target f t).1 = .error e → I (cl.persist target f t).2.line := by
  refine Retry.attemptFrom_ends (I := fun u : Session φ => I u.line)
    (Q := fun a u => Q a u.line) ?_ ?_ _ target 0 _ ht
  · intro n u hu
    obtain ⟨hdone, hkept⟩ := hf u.line hu
    refine ⟨fun a ha => hdone a (Retry.Outcome.ofExcept_eq_success_iff.mp ha), fun hnone => ?_⟩
    cases hr : (f u.line).1 with
    | ok a => exact absurd (Retry.Outcome.ofExcept_eq_success_iff.mpr hr) (hnone a)
    | error e => exact hkept e hr
  · exact fun _ _ hu => hu

theorem persist_keeps (cl : Client φ) {I : Line φ → Prop} {Q : α → Line φ → Prop}
    {f : Line φ → Except Error α × Line φ}
    (hf : ∀ l, I l → I (f l).2 ∧ ∀ a, (f l).1 = .ok a → Q a (f l).2) (target : String)
    (ht : I t.line) :
    I (cl.persist target f t).2.line ∧
      ∀ a, (cl.persist target f t).1 = .ok a → Q a (cl.persist target f t).2.line := by
  have hends := persist_ends cl (t := t) (Q := fun a l => I l ∧ Q a l)
    (fun l hl => ⟨fun a ha => ⟨(hf l hl).1, (hf l hl).2 a ha⟩, fun _ _ => (hf l hl).1⟩) target ht
  refine ⟨?_, fun a ha => (hends.1 a ha).2⟩
  cases hr : (cl.persist target f t).1 with
  | ok a => exact (hends.1 a hr).1
  | error e => exact hends.2 e hr

/-- Apart from its line and its clock a call that is made again changes nothing of a client. -/
theorem persist_frame (cl : Client φ) (target : String) (f : Line φ → Except Error α × Line φ)
    (t : Session φ) :
    (cl.persist target f t).2.cache = t.cache ∧ (cl.persist target f t).2.groups = t.groups := by
  refine (Retry.attemptFrom_keeps (I := fun u : Session φ => u.cache = t.cache ∧ u.groups = t.groups)
    (Q := fun _ _ => True) ?_ ?_ _ target 0 _ ⟨rfl, rfl⟩).1
  · exact fun _ _ hu => ⟨hu, fun _ _ => trivial⟩
  · exact fun _ _ hu => hu

theorem store_line (cl : Client φ) (m : Message) (t : Session φ) : (cl.store m t).2.line =
    (cl.persist (cl.config.tenantKey m.toTenant) (cl.append m) t).2.line := by
  rw [Client.store]
  generalize cl.persist (cl.config.tenantKey m.toTenant) (cl.append m) t = called
  obtain ⟨e | _ | _, t'⟩ := called <;> rfl

/-- What every attempt to store a message keeps of the server, a call that stores it keeps. -/
theorem store_invariant (cl : Client φ) (m : Message) {I : Server → Prop}
    (hI : ∀ s r sent s', Attempt cl.config m s r sent s' → I s → I s') (h : I t.server) :
    I (cl.store m t).2.server := by
  have hpersist := persist_keeps cl (I := fun l => I l.server) (Q := fun _ _ => True)
    (f := cl.append m) (fun l hl => ?_) (cl.config.tenantKey m.toTenant) h
  · have hserver := congrArg Line.server (store_line cl m t)
    exact (congrArg I hserver).mpr hpersist.1
  · obtain ⟨sent, -, hattempt⟩ := append_attempt cl m l
    exact ⟨hI _ _ _ _ hattempt hl, fun _ _ => trivial⟩

section Message

variable (hplain : ∀ tenant, m.concerns tenant = true → Plain tenant)
include hplain

theorem streamKeys_nodup : (c.streamKeys m).Nodup := by
  have hthread (tenant : String) (h : m.concerns tenant = true) :
      c.tenantKey tenant ≠ c.threadKey m.threadId :=
    fun hk => (hplain tenant h).2 _ (Config.tenantKey_eq_threadKey_iff.mp hk)
  have hto := hthread m.toTenant (Config.concerns_iff.mpr (.inl rfl))
  have hfrom := hthread m.fromTenant (Config.concerns_iff.mpr (.inr rfl))
  rw [Config.streamKeys]
  by_cases h : m.fromTenant = m.toTenant
  · simp [h, hto]
  · have hne : c.tenantKey m.toTenant ≠ c.tenantKey m.fromTenant :=
      fun hk => h (Config.tenantKey_inj.mp hk).symm
    simp [h, hto, hfrom, hne]

theorem Once.stored (h : Once c m false s) : Once c m true (stored c m s) := by
  have hmessages : c.messagesKey ∉ c.streamKeys m := fun hk =>
    (Config.isStream_of_mem (fun tenant ht => (hplain tenant ht).1) hk).ne_messages rfl
  have hstreams : ∀ key ∈ c.streamKeys m, ∃ said, s.fieldsAt key = .ok said := by
    intro key hk
    obtain ⟨said, hsaid, -⟩ := h.streams key hk
    exact ⟨said, hsaid⟩
  have hindex := h.index
  rw [Server.has_eq] at hindex
  rw [StreamStore.stored, transaction_writes]
  refine ⟨?_, fun key hk => ?_⟩
  · cases hvalues : s.valuesAt c.messagesKey with
    | error e =>
        rw [hvalues] at hindex
        cases hindex
    | ok values =>
        rw [Server.has_eq, Server.set_valuesAt
          ((Server.additions_valuesAt hmessages s _).trans hvalues), if_pos rfl]
        simp [Except.map]
  · obtain ⟨said, hsaid, hnone⟩ := h.streams key hk
    refine ⟨said ++ [payload m], ?_, ?_⟩
    · have hne : key ≠ c.messagesKey := fun heq => hmessages (heq ▸ hk)
      rw [Server.set_fieldsAt hne, Server.additions_fieldsAt _ (payload m) hstreams hsaid,
        List.count_eq_one_of_mem (streamKeys_nodup hplain) hk, List.replicate_one]
    · rw [List.count_append, hnone, List.count_singleton_self]
      rfl

theorem Attempt.keeps {r : Except Error Bool} {sent : List (Command × Fate)} {s' : Server}
    (h : Attempt c m s r sent s') (hk : Keeps c m needed s) :
    Keeps c m needed s' ∧ ∀ b, r = .ok b → Keeps c m true s' := by
  obtain ⟨known, honce, hneeded⟩ := hk
  have hindex {answer : Bool} (h : s.has c.messagesKey m.id = .ok answer) : known = answer :=
    Except.ok.inj (honce.index.symm.trans h)
  cases h with
  | unasked | refused => exact ⟨⟨known, honce, hneeded⟩, nofun⟩
  | known h =>
      obtain rfl := hindex h
      exact ⟨honce.keeps needed, fun _ _ => honce.keeps true⟩
  | untold e h =>
      obtain rfl := hindex h
      exact ⟨(honce.stored hplain).keeps needed, nofun⟩
  | written h =>
      obtain rfl := hindex h
      have hstored := honce.stored hplain
      exact ⟨hstored.keeps needed, fun _ _ => hstored.keeps true⟩

theorem append_keeps (h : Keeps cl.config m needed l.server) :
    Keeps cl.config m needed (cl.append m l).2.server ∧
      ∀ b, (cl.append m l).1 = .ok b → Keeps cl.config m true (cl.append m l).2.server := by
  obtain ⟨sent, -, hattempt⟩ := append_attempt cl m l
  exact hattempt.keeps hplain h

theorem store_keeps (h : Keeps cl.config m needed t.server) :
    Keeps cl.config m needed (cl.store m t).2.server ∧
      ∀ u, (cl.store m t).1 = .ok u → Keeps cl.config m true (cl.store m t).2.server := by
  have hpersist := persist_keeps cl (I := fun l => Keeps cl.config m needed l.server)
    (Q := fun _ l => Keeps cl.config m true l.server) (fun l => append_keeps (l := l) hplain)
    (cl.config.tenantKey m.toTenant) h
  rw [Client.store]
  rcases hp : cl.persist (cl.config.tenantKey m.toTenant) (cl.append m) t with ⟨r, t'⟩
  rw [hp] at hpersist
  cases r with
  | error e =>
      refine ⟨hpersist.1, fun u hu => ?_⟩
      cases hu
  | ok b => cases b <;> exact ⟨hpersist.1, fun _ _ => hpersist.2 _ rfl⟩

theorem runAll_keeps (n : Nat) (h : Keeps cl.config m needed t.server) :
    Keeps cl.config m needed (cl.backend.runAll t (List.replicate n (.append m))).2.server ∧
      (.ok .done ∈ (cl.backend.runAll t (List.replicate n (.append m))).1 →
        Keeps cl.config m true (cl.backend.runAll t (List.replicate n (.append m))).2.server) := by
  induction n generalizing t needed with
  | zero => exact ⟨h, fun hmem => absurd hmem List.not_mem_nil⟩
  | succ n ih =>
      obtain ⟨hkept, hdone⟩ := store_keeps hplain h
      obtain ⟨hrest, hlater⟩ := ih hkept
      rw [List.replicate_succ, Backend.runAll]
      refine ⟨hrest, fun hmem => ?_⟩
      obtain hfirst | hmem := List.mem_cons.mp hmem
      · change .ok .done = Except.map (fun _ => Backend.Answer.done) (cl.store m t).1 at hfirst
        cases hr : (cl.store m t).1 with
        | ok u => exact (ih (hdone u hr)).1
        | error e =>
            rw [hr] at hfirst
            cases hfirst
      · exact hlater hmem

end Message

/-- However calls to store a message fare, the server still has one entry of it in each of its
streams if it knows its id, and none if not; and it knows the id if a call succeeded. -/
theorem retried_once (cl : Client φ) (hplain : ∀ tenant, m.concerns tenant = true → Plain tenant)
    (h : Once cl.config m known t.server) (n : Nat) :
    ∃ answers t', cl.backend.runAll t (List.replicate n (.append m)) = (answers, t') ∧
      ∃ known', Once cl.config m known' t'.server ∧
        (known = true ∨ .ok .done ∈ answers → known' = true) := by
  obtain ⟨⟨known', honce, hkept⟩, hdone⟩ := runAll_keeps hplain n ⟨known, h, fun hk => hk⟩
  refine ⟨_, _, rfl, known', honce, ?_⟩
  rintro (hknown | hmem)
  · exact hkept hknown
  · have htrue := (hdone hmem).once.index
    rw [honce.index] at htrue
    exact Except.ok.inj htrue

def scheduled : Weather (List Fate)
  | _, [] => (.answered, [])
  | _, fate :: rest => (fate, rest)

/-- The first attempt does not get through, and the answer to the second one is lost. -/
theorem retried_once_of_lost_answer :
    (∀ tenant, plainQuestion.concerns tenant = true → Plain tenant) ∧
    Once .standard plainQuestion false Server.empty ∧
    ∃ t', (Client.mk .standard scheduled).backend.runAll
        (Session.new .standard .empty [.refused .dropped, .answered, .answerLost])
        (List.replicate 2 (.append plainQuestion)) = ([.ok .done, .ok .done], t') ∧
      Once .standard plainQuestion true t'.server := by
  have hnone := once_empty .standard plainQuestion
  obtain ⟨answers, t', hrun, known, honce, hdone⟩ :=
    retried_once (t := Session.new .standard .empty [.refused .dropped, .answered, .answerLost])
      ⟨.standard, scheduled⟩ plainQuestion_plain hnone 2
  have hanswers : answers = [.ok .done, .ok .done] := (congrArg Prod.fst hrun).symm.trans rfl
  subst hanswers
  obtain rfl : known = true := hdone (.inr List.mem_cons_self)
  exact ⟨plainQuestion_plain, hnone, t', hrun, honce⟩

end Parley.StreamStore
