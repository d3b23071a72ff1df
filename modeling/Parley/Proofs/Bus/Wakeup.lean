import Parley.Proofs.Bus.Traffic
import Parley.Proofs.Store.Keeping

namespace Parley.Traffic

open Ruling (Stage)

variable {σ : Type} {b : Backend σ} {view : σ → String → Option Message} {Sound : σ → Prop}
  {start : String → Option Bool} {x y : Traffic σ} {id : String} {v : Bool}

def verdictIn (view : σ → String → Option Message) (s : σ) (id : String) : Option Bool :=
  (view s id).bind Message.approved

def Recorded (x : Traffic σ) (id : String) (v : Bool) : Prop :=
  ∃ key r, x.rulings.find? key = some r ∧ r.message = id ∧ r.approved = v ∧
    r.stage.recorded = true

def Settled (x : Traffic σ) (id : String) : Prop :=
  ∃ key r, x.rulings.find? key = some r ∧ r.message = id ∧ r.stage = .returned (.ok true)

/-- An outcome that gives a decision gives one that a call put on the message, or that was on it
from the start. -/
def Backs (start : String → Option Bool) (x : Traffic σ) (id : String) (o : Outcome) : Prop :=
  ∀ v, o = .ofVerdict v → start id = some v ∨ x.Recorded id v

theorem Settled.recorded (h : x.Settled id) : ∃ v, x.Recorded id v := by
  obtain ⟨key, r, hr, hm, hs⟩ := h
  exact ⟨r.approved, key, r, hr, hm, rfl, by simp [hs, Stage.recorded]⟩

theorem backs_timedOut (x : Traffic σ) (id : String) : Backs start x id .timedOut := by
  intro v hv
  cases v <;> cases hv

theorem backs_cancelled (x : Traffic σ) (id : String) : Backs start x id .cancelled := by
  intro v hv
  cases v <;> cases hv

theorem Backs.mono (hr : ∀ id v, x.Recorded id v → y.Recorded id v) {o : Outcome}
    (h : Backs start x id o) : Backs start y id o :=
  fun v hv => (h v hv).imp_right (hr id v)

theorem Recorded.reach {key : Nat} {r : Ruling} {stage : Stage}
    (hk : ∀ r', x.rulings.find? key = some r' → r'.stage.recorded = true →
      r' = r ∧ stage.recorded = true)
    (h : x.Recorded id v) : (x.reach key r stage).Recorded id v := by
  obtain ⟨key', r', hr, hm, hv, hs⟩ := h
  by_cases hkey : key' = key
  · subst hkey
    obtain ⟨rfl, hstage⟩ := hk r' hr hs
    exact ⟨key', { r' with stage }, by rw [find?_reach, if_pos rfl], hm, hv, hstage⟩
  · exact ⟨key', r', by rwa [find?_reach, if_neg hkey], hm, hv, hs⟩

theorem recorded_of_reach {key : Nat} {r : Ruling} {stage : Stage}
    (h : (x.reach key r stage).Recorded id v) :
    x.Recorded id v ∨ (stage.recorded = true ∧ r.message = id ∧ r.approved = v) := by
  obtain ⟨key', r', hr, hm, hv, hs⟩ := h
  rw [find?_reach] at hr
  by_cases hkey : key' = key
  · rw [if_pos hkey, Option.some.injEq] at hr
    subst hr
    exact .inr ⟨hs, hm, hv⟩
  · rw [if_neg hkey] at hr
    exact .inl ⟨key', r', hr, hm, hv, hs⟩

theorem settled_of_reach {key : Nat} {r : Ruling} {stage : Stage}
    (h : (x.reach key r stage).Settled id) :
    x.Settled id ∨ (stage = .returned (.ok true) ∧ r.message = id) := by
  obtain ⟨key', r', hr, hm, hs⟩ := h
  rw [find?_reach] at hr
  by_cases hkey : key' = key
  · rw [if_pos hkey, Option.some.injEq] at hr
    subst hr
    exact .inr ⟨hs, hm⟩
  · rw [if_neg hkey] at hr
    exact .inl ⟨key', r', hr, hm, hs⟩

/-- What holds at any moment, whatever calls are under way. A wait that is pending after a
decision on its message has returned has yet to look, or saw the decision: one that saw none was
listed before the decision was recorded, so that the decision found it there and told it. -/
structure Alert (view : σ → String → Option Message) (Sound : σ → Prop)
    (start : String → Option Bool) (x : Traffic σ) : Prop where
  sound : Sound x.bus.store
  listed : x.bus.desk.Listed
  attended : x.bus.desk.Attended
  backed : x.bus.desk.Backed (Backs start x)
  looking : ∀ t found, x.found.find? t = some found →
    (x.bus.desk.waits.find? t).map Wait.phase = some .registered
  shown : ∀ t id m o, x.bus.desk.messageOf? t = some id → x.found.find? t = some (.ok (some m)) →
    Outcome.ofMessage? m = some o → Backs start x id o
  stored : ∀ id v, verdictIn view x.bus.store id = some v → start id = some v ∨ x.Recorded id v
  decided : ∀ id v, x.Recorded id v → (verdictIn view x.bus.store id).isSome = true
  awake : ∀ t w, x.bus.desk.waits.find? t = some w → w.Pending → x.Settled w.message →
    w.phase = .registered ∧
      ∀ m, x.found.find? t = some (.ok (some m)) → m.approved.isSome = true

theorem alert_new (settings : Settings) (trail : Option Audit.Trail) {store : σ}
    (hs : Sound store) :
    Alert view Sound (verdictIn view store) (on (Bus.new settings store trail)) where
  sound := hs
  listed := Desk.empty_listed
  attended := Desk.empty_attended
  backed := Desk.empty_backed
  looking _ _ h := nomatch h
  shown _ _ _ _ _ h := nomatch h
  stored _ _ h := .inl h
  decided _ _ h := by
    obtain ⟨key, r, hr, -⟩ := h
    cases hr
  awake _ _ h := nomatch h

theorem Alert.atDesk (h : Alert view Sound start x) {d : Desk} (hf : x.bus.desk.Follows d)
    (hq : x.bus.desk.Quiets d) (hb : d.Backed (Backs start x)) :
    Alert view Sound start (x.atDesk d) where
  sound := h.sound
  listed := hf.listed h.listed
  attended := hq.attended h.attended
  backed := hb
  looking t found ht := hq.registered t (h.looking t found ht)
  shown t id m o ht := h.shown t id m o ((hf.messageOf? t).symm.trans ht)
  stored := h.stored
  decided := h.decided
  awake t w hw hp := h.awake t w (hq.pending t w hw hp) hp

theorem Alert.rulings (h : Alert view Sound start x) (hd : y.bus.desk = x.bus.desk)
    (hf : y.found = x.found) (hs : Sound y.bus.store)
    (hr : ∀ id v, x.Recorded id v → y.Recorded id v)
    (hset : ∀ t w, y.bus.desk.waits.find? t = some w → w.Pending → y.Settled w.message →
      x.Settled w.message)
    (hst : ∀ id v, verdictIn view y.bus.store id = some v → start id = some v ∨ y.Recorded id v)
    (hdec : ∀ id v, y.Recorded id v → (verdictIn view y.bus.store id).isSome = true) :
    Alert view Sound start y where
  sound := hs
  listed := hd ▸ h.listed
  attended := hd ▸ h.attended
  backed := hd ▸ h.backed.mono fun _ _ => Backs.mono hr
  looking := by rw [hd, hf]; exact h.looking
  shown t id m o := by
    rw [hd, hf]
    intro ht hm ho
    exact (h.shown t id m o ht hm ho).mono hr
  stored := hst
  decided := hdec
  awake t w hw hp hsw := by
    have hx := hset t w hw hp hsw
    rw [hd] at hw
    rw [hf]
    exact h.awake t w hw hp hx

theorem Alert.ne_issued (h : Alert view Sound start x) {t : Nat}
    {found : Except Error (Option Message)} (hf : x.found.find? t = some found) :
    t ≠ x.bus.desk.issued := by
  rintro rfl
  obtain ⟨w, hw, -⟩ := Option.map_eq_some_iff.mp (h.looking _ _ hf)
  have hnone := h.listed.unissued x.bus.desk.issued (Nat.le_refl _)
  rw [Desk.messageOf?_of_find? hw] at hnone
  cases hnone

theorem Alert.register (h : Alert view Sound start x) (id : String) :
    Alert view Sound start (x.atDesk (x.bus.desk.register id).2) where
  sound := h.sound
  listed := Desk.register_listed h.listed id
  attended := Desk.register_attended h.attended id
  backed := Desk.register_backed h.backed id
  looking t found ht := by
    change ((x.bus.desk.register id).2.waits.find? t).map _ = _
    rw [Desk.register_find?, if_neg (h.ne_issued ht)]
    exact h.looking t found ht
  shown t i m o ht hm := by
    change (x.bus.desk.register id).2.messageOf? t = _ at ht
    rw [Desk.register_messageOf?, if_neg (h.ne_issued hm)] at ht
    exact h.shown t i m o ht hm
  stored := h.stored
  decided := h.decided
  awake t w hw hp hs := by
    change (x.bus.desk.register id).2.waits.find? t = _ at hw
    rw [Desk.register_find?] at hw
    by_cases ht : t = x.bus.desk.issued
    · rw [if_pos ht, Option.some.injEq] at hw
      subst hw
      exact ⟨rfl, fun m hm => absurd ht (h.ne_issued hm)⟩
    · rw [if_neg ht] at hw
      exact h.awake t w hw hp hs

theorem Alert.look (h : Alert view Sound start x) (hb : b.Decides view Sound) {t : Nat} {w : Wait}
    {found : Except Error (Option Message)} {store : σ} (hw : x.bus.desk.waits.find? t = some w)
    (hr : w.phase = .registered) (hf : b.find w.message x.bus.store = (found, store)) :
    Alert view Sound start { x.inStore store with found := x.found.set t found } := by
  obtain ⟨rfl, hsound, hview⟩ := hb.find h.sound hf
  have hverdict (id : String) : verdictIn view store id = verdictIn view x.bus.store id := by
    rw [verdictIn, hview, verdictIn]
  -- What the wait found is what the store has, so that the store answers for it.
  have hat (s : Nat) (m : Message) : (x.found.set t (.ok (view x.bus.store w.message))).find? s =
      some (.ok (some m)) → (s = t ∧ view x.bus.store w.message = some m) ∨
        x.found.find? s = some (.ok (some m)) := by
    rw [Table.find?_set]
    by_cases hs : s = t
    · rw [if_pos hs]
      intro hm
      exact .inl ⟨hs, Except.ok.inj (Option.some.inj hm)⟩
    · rw [if_neg hs]
      exact .inr
  refine ⟨hsound, h.listed, h.attended, h.backed, ?_, ?_, ?_, ?_, ?_⟩
  · intro s found hs
    by_cases hst : s = t
    · subst hst
      simp [inStore, hw, hr]
    · rw [Table.find?_set, if_neg hst] at hs
      exact h.looking s found hs
  · intro s id m o hs hm ho
    rcases hat s m hm with ⟨rfl, hsaw⟩ | hm
    · obtain rfl : w.message = id := Option.some.inj ((Desk.messageOf?_of_find? hw).symm.trans hs)
      obtain ⟨u, hu, rfl⟩ := Option.map_eq_some_iff.mp ho
      intro v hv
      obtain rfl := Outcome.ofVerdict_inj hv
      exact h.stored w.message u (by rw [verdictIn, hsaw, Option.bind_some, hu])
    · exact h.shown s id m o hs hm ho
  · intro id v hv
    exact h.stored id v ((hverdict id).symm.trans hv)
  · intro id v hv
    exact (congrArg Option.isSome (hverdict id)).trans (h.decided id v hv)
  · intro s u hu hp hs
    obtain ⟨hreg, hseen⟩ := h.awake s u hu hp hs
    refine ⟨hreg, fun m hm => ?_⟩
    rcases hat s m hm with ⟨rfl, hsaw⟩ | hm
    · obtain rfl : w = u := Option.some.inj (hw.symm.trans hu)
      -- A decision that has returned is in the store, so that the wait sees it.
      obtain ⟨v, hv⟩ := Settled.recorded hs
      simpa [verdictIn, hsaw] using h.decided w.message v hv
    · exact hseen m hm

theorem Alert.go (h : Alert view Sound start x) {t : Nat} {found : Except Error (Option Message)}
    (hf : x.found.find? t = some found) (deadline : Nat) :
    Alert view Sound start
      { x.atDesk (x.bus.desk.lookedUp t deadline found) with found := x.found.erase t } := by
  obtain ⟨w, hw, hr⟩ := Option.map_eq_some_iff.mp (h.looking t found hf)
  have hfollows := Desk.lookedUp_follows x.bus.desk t deadline found
  have hat (s : Nat) (r : Except Error (Option Message))
      (hs : (x.found.erase t).find? s = some r) : s ≠ t ∧ x.found.find? s = some r := by
    rw [Table.find?_erase] at hs
    by_cases hst : s = t
    · rw [if_pos hst] at hs
      cases hs
    · exact ⟨hst, by rwa [if_neg hst] at hs⟩
  refine ⟨h.sound, hfollows.listed h.listed, Desk.lookedUp_attended h.attended hw hr deadline found,
    ?_, ?_, ?_, h.stored, h.decided, ?_⟩
  · apply Desk.lookedUp_backed h.backed
    rintro u m o hu rfl ho
    obtain rfl : w = u := Option.some.inj (hw.symm.trans hu)
    exact h.shown t w.message m o (Desk.messageOf?_of_find? hw) hf ho
  · intro s r hs
    obtain ⟨hst, hs⟩ := hat s r hs
    change ((x.bus.desk.lookedUp t deadline found).waits.find? s).map _ = _
    rw [Desk.lookedUp_find?_of_ne _ hst]
    exact h.looking s r hs
  · intro s id m o hs hm ho
    exact h.shown s id m o ((hfollows.messageOf? s).symm.trans hs) (hat s _ hm).2 ho
  · intro s u hu hp hs
    by_cases hst : s = t
    · subst hst
      -- It blocks only if it saw no decision, and then none can have returned.
      obtain ⟨hwp, rfl, m, rfl, hm⟩ := Desk.pending_of_lookedUp hw hr hu hp
      have hseen := (h.awake s w hw hwp hs).2 m hf
      rw [hm] at hseen
      cases hseen
    · change (x.bus.desk.lookedUp t deadline found).waits.find? s = _ at hu
      rw [Desk.lookedUp_find?_of_ne _ hst] at hu
      obtain ⟨hreg, hseen⟩ := h.awake s u hu hp hs
      exact ⟨hreg, fun m hm => hseen m (hat s _ hm).2⟩

theorem Alert.reach (h : Alert view Sound start x) {store : σ} (hs : Sound store)
    (hview : view store = view x.bus.store) {key : Nat} {r : Ruling} {stage : Stage}
    (hk : ∀ r', x.rulings.find? key = some r' → r'.stage.recorded = false)
    (hstage : stage.recorded = false) :
    Alert view Sound start ((x.inStore store).reach key r stage) := by
  have hv (id : String) : verdictIn view store id = verdictIn view x.bus.store id := by
    rw [verdictIn, hview, verdictIn]
  have hr (id : String) (v : Bool) (hx : x.Recorded id v) :
      ((x.inStore store).reach key r stage).Recorded id v :=
    Recorded.reach (x := x.inStore store)
      (fun r' hr' hrec => by rw [hk r' hr'] at hrec; cases hrec) hx
  refine h.rulings rfl rfl hs hr ?_ ?_ ?_
  · intro t w _ _ hset
    rcases settled_of_reach hset with hset | ⟨rfl, -⟩
    · exact hset
    · cases hstage
  · intro id v hst
    exact (h.stored id v ((hv id).symm.trans hst)).imp_right (hr id v)
  · intro id v hrec
    rcases recorded_of_reach hrec with hrec | ⟨hrec, -⟩
    · exact (congrArg Option.isSome (hv id)).trans (h.decided id v hrec)
    · rw [hstage] at hrec
      cases hrec

theorem not_recorded_ofFound (found : Except Error (Option Message)) :
    (Stage.ofFound found).recorded = false := by
  rcases found with e | _ | m <;> rfl

theorem Alert.keep (h : Alert view Sound start x) (hb : b.Decides view Sound) {key : Nat}
    {r : Ruling} {store : σ} (hr : x.rulings.find? key = some r)
    (hd : b.decide r.message r.approval x.bus.store = (.ok true, store))
    (trail : Option Audit.Trail) :
    Alert view Sound start
      { x.reach key r .kept with bus := { x.bus with store, trail } } := by
  obtain ⟨hknown, hsound, hview⟩ := hb.decide h.sound hd
  obtain ⟨m, hm⟩ := Option.isSome_iff_exists.mp (Except.ok.inj hknown).symm
  have hhere : verdictIn view store r.message = some r.approved := by
    rw [verdictIn, hview, if_pos rfl, hm]
    rfl
  have hthere {id : String} (hid : id ≠ r.message) :
      verdictIn view store id = verdictIn view x.bus.store id := by
    rw [verdictIn, hview, if_neg hid, verdictIn]
  have hrec (id : String) (v : Bool) (hx : x.Recorded id v) : (x.reach key r .kept).Recorded id v :=
    hx.reach fun r' hr' _ => ⟨Option.some.inj (hr'.symm.trans hr), rfl⟩
  refine h.rulings rfl rfl hsound hrec ?_ ?_ ?_
  · intro t w _ _ hset
    rcases settled_of_reach (x := x) hset with hset | ⟨hset, -⟩
    · exact hset
    · cases hset
  · intro id v hv
    by_cases hid : id = r.message
    · subst hid
      have hv := Option.some.inj (hhere.symm.trans hv)
      exact .inr ⟨key, _, (find?_reach x key key r .kept).trans (if_pos rfl), rfl, hv, rfl⟩
    · exact (h.stored id v ((hthere hid).symm.trans hv)).imp_right (hrec id v)
  · intro id v hv
    change (verdictIn view store id).isSome = true
    by_cases hid : id = r.message
    · rw [hid, hhere]
      rfl
    · rw [hthere hid]
      rcases recorded_of_reach (x := x) hv with hv | ⟨-, hmsg, -⟩
      · exact h.decided id v hv
      · exact absurd hmsg.symm hid

theorem Alert.tell (h : Alert view Sound start x) {key : Nat} {r : Ruling}
    (hr : x.rulings.find? key = some r) (hs : r.stage = .kept) :
    Alert view Sound start
      ((x.atDesk (x.bus.desk.notify r.message (.ofVerdict r.approved)).2).reach key r
        (.returned (.ok true))) := by
  have hbacks : Backs start x r.message (.ofVerdict r.approved) := by
    intro v hv
    exact .inr ⟨key, r, hr, rfl, Outcome.ofVerdict_inj hv, by rw [hs]; rfl⟩
  have hdesk := h.atDesk (Desk.notify_follows _ r.message (.ofVerdict r.approved))
    (Desk.notify_quiets _ _ _) (Desk.notify_backed h.listed h.backed hbacks)
  have hold (r' : Ruling) (hr' : x.rulings.find? key = some r') : r' = r :=
    Option.some.inj (hr'.symm.trans hr)
  have hrec (id : String) (v : Bool) (hx : x.Recorded id v) :
      ((x.atDesk (x.bus.desk.notify r.message (.ofVerdict r.approved)).2).reach key r
        (.returned (.ok true))).Recorded id v :=
    Recorded.reach (x := x.atDesk _) (fun r' hr' _ => ⟨hold r' hr', rfl⟩) hx
  refine hdesk.rulings rfl rfl h.sound hrec ?_ ?_ ?_
  · intro t w hw hp hset
    rcases settled_of_reach hset with hset | ⟨-, hmsg⟩
    · exact hset
    -- Whoever was pending for the message stood to be told, so that nobody is pending for it now.
    · exact absurd hmsg.symm (Desk.notify_resolves h.attended hw hp)
  · intro id v hv
    exact (h.stored id v hv).imp_right (hrec id v)
  · intro id v hv
    rcases recorded_of_reach hv with hv | ⟨-, rfl, rfl⟩
    · exact h.decided id v hv
    · exact h.decided r.message r.approved ⟨key, r, hr, rfl, rfl, by rw [hs]; rfl⟩

theorem alert_step (hb : b.Decides view Sound) (h : Alert view Sound start x) {move : Move}
    (hxy : Step b x move y) : Alert view Sound start y := by
  cases hxy with
  | register id => exact h.register id
  | look ticket w found store hw hr _ hf => exact h.look hb hw hr hf
  | go ticket millis found hf => exact h.go hf _
  | collect ticket =>
      exact h.atDesk (Desk.collect_follows _ _) (Desk.collect_quiets _ _)
        (Desk.collect_backed h.backed _)
  | timeOut ticket =>
      exact h.atDesk (Desk.timeOut_follows _ _) (Desk.timeOut_quiets _ _)
        (Desk.timeOut_backed (backs_timedOut x) h.backed _)
  | prune ticket =>
      exact h.atDesk (Desk.prune_follows _ _) (Desk.prune_quiets _ _)
        (Desk.prune_backed h.backed _)
  | cancel id =>
      exact h.atDesk (Desk.notify_follows _ _ _) (Desk.notify_quiets _ _ _)
        (Desk.notify_backed h.listed h.backed (backs_cancelled x id))
  | rule key r hn =>
      exact h.reach h.sound rfl (fun r' hr' => by rw [hn] at hr'; cases hr') rfl
  | find key r found store hr hs hf =>
      obtain ⟨-, hsound, hview⟩ := hb.find h.sound hf
      refine h.reach hsound hview ?_ (not_recorded_ofFound found)
      intro r' hr'
      obtain rfl := Option.some.inj (hr'.symm.trans hr)
      rw [hs]
      rfl
  | keep key r m store hr hs hd => exact h.keep hb hr hd _
  | refuse key r m answer store hr hs ha hd =>
      refine h.reach (hb.decide h.sound hd).2.1 (hb.refused h.sound ha hd) ?_ ?_
      · intro r' hr'
        obtain rfl := Option.some.inj (hr'.symm.trans hr)
        rw [hs]
        rfl
      · rcases answer with e | ⟨_ | _⟩
        · rfl
        · rfl
        · exact absurd rfl ha
  | tell key r hr hs => exact h.tell hr hs
  | pass millis =>
      exact ⟨h.sound, h.listed, h.attended, h.backed, h.looking, h.shown, h.stored, h.decided,
        h.awake⟩

theorem alert_reaches (hb : b.Decides view Sound) (h : Alert view Sound start x)
    (hxy : Reaches b x y) : Alert view Sound start y := by
  induction hxy with
  | refl => exact h
  | tail _ hstep ih =>
      obtain ⟨move, hstep⟩ := hstep
      exact alert_step hb ih hstep

theorem view_step (hb : b.Decides view Sound) (hs : Sound x.bus.store) {move : Move}
    (hxy : Step b x move y) (h : view y.bus.store id ≠ view x.bus.store id) :
    ∃ key r, move = .keep key ∧ x.rulings.find? key = some r ∧ r.message = id := by
  cases hxy with
  | look _ _ _ _ _ _ _ hf => exact absurd (congrFun (hb.find hs hf).2.2 id) h
  | find _ _ _ _ _ _ hf => exact absurd (congrFun (hb.find hs hf).2.2 id) h
  | refuse _ _ _ _ _ _ _ ha hd => exact absurd (congrFun (hb.refused hs ha hd) id) h
  | keep key r _ store hr _ hd =>
      refine ⟨key, r, rfl, hr, ?_⟩
      by_contra hid
      exact h (((hb.decide hs hd).2.2 id).trans (if_neg (Ne.symm hid)))
  | register | go | collect | timeOut | prune | cancel | rule | tell | pass => exact absurd rfl h

theorem find?_step (hl : x.bus.desk.Listed) {move : Move} (hxy : Step b x move y) {t : Nat}
    {w : Wait} (hw : x.bus.desk.waits.find? t = some w) (h : x.subject? move ≠ some w.message) :
    y.bus.desk.waits.find? t = some w := by
  have hne {ticket : Nat}
      (hs : x.bus.desk.messageOf? ticket ≠ some w.message) : t ≠ ticket := by
    rintro rfl
    exact hs (Desk.messageOf?_of_find? hw)
  have hother {ticket : Nat} (f : Wait → Wait)
      (hs : x.bus.desk.messageOf? ticket ≠ some w.message) :
      (x.bus.desk.change ticket f).waits.find? t = some w := by
    rw [Desk.change_find?, if_neg (hne hs), hw]
  have hnotify (id : String) (o : Outcome) (hs : some id ≠ some w.message) :
      (x.bus.desk.notify id o).2.waits.find? t = some w := by
    have hnot : t ∉ x.bus.desk.ticketsOf id := by
      intro ht
      exact hs ((hl.listed id t ht).symm.trans (Desk.messageOf?_of_find? hw))
    rw [Desk.notify_find?, hw, Option.map_some, if_neg fun h => hnot h.1]
  cases hxy with
  | register id =>
      have hold : t ≠ x.bus.desk.issued := by
        rintro rfl
        have hnone := hl.unissued _ (Nat.le_refl _)
        rw [Desk.messageOf?_of_find? hw] at hnone
        cases hnone
      exact (Desk.register_find? _ id t).trans ((if_neg hold).trans hw)
  | go ticket | collect ticket | timeOut ticket => exact hother _ h
  | prune ticket => exact (Desk.prune_find?_of_ne _ (hne h)).trans hw
  | cancel id => exact hnotify id _ h
  | tell key r hr => exact hnotify _ _ (by simpa [subject?, hr] using h)
  | look | rule | find | keep | refuse | pass => exact hw

/-- No decision is lost on those who wait for it, in whatever order the steps of any number of
calls come. After a decision has returned nobody is blocked on its message who was not sent an
outcome; a decision that someone is sent, leaves with or returns was recorded before, or the store
had it from the start; only the recording of a decision changes a stored message, so that no
cancellation and no timeout does; and a move changes no wait for another message than the one it
is about. -/
theorem no_lost_verdict (hb : b.Decides view Sound) (settings : Settings)
    (trail : Option Audit.Trail) {store : σ} (hs : Sound store)
    (hx : Reaches b (on (Bus.new settings store trail)) x) :
    (∀ t w deadline, x.bus.desk.waits.find? t = some w → w.phase = .blocked deadline →
      x.Settled w.message → w.sent.isSome = true) ∧
    (∀ t w v, x.bus.desk.waits.find? t = some w →
      w.sent = some (.ofVerdict v) ∨ w.phase = .leaving (.ok (.ofVerdict v)) ∨
        w.phase = .returned (.ok (.ofVerdict v)) →
      verdictIn view store w.message = some v ∨ x.Recorded w.message v) ∧
    (∀ move y id, Step b x move y → view y.bus.store id ≠ view x.bus.store id →
      ∃ key r, move = .keep key ∧ x.rulings.find? key = some r ∧ r.message = id) ∧
    ∀ move y t w, Step b x move y → x.bus.desk.waits.find? t = some w →
      x.subject? move ≠ some w.message → y.bus.desk.waits.find? t = some w := by
  have h : Alert view Sound (verdictIn view store) x :=
    alert_reaches hb (alert_new settings trail hs) hx
  refine ⟨?_, ?_, ?_, ?_⟩
  · intro t w deadline hw hblocked hset
    rw [Option.isSome_iff_ne_none]
    intro hnone
    have hreg := (h.awake t w hw ⟨hnone, .inr ⟨deadline, hblocked⟩⟩ hset).1
    rw [hblocked] at hreg
    cases hreg
  · intro t w v hw ho
    exact h.backed t w hw _ ho v rfl
  · intro move y id hxy
    exact view_step hb h.sound hxy
  · intro move y t w hxy hw
    exact find?_step h.listed hxy hw

def asked : MemoryLog :=
  MemoryLog.empty.append (Message.new "q" ⟨0, 0, 0⟩ "auditor" "auditee" "agent" .question "Why?")

theorem no_lost_verdict_between : ∃ x w,
    Reaches MemoryLog.backend (on (Bus.new .standard asked none)) x ∧ x.Settled w.message ∧
    x.bus.desk.waits.find? 0 = some w ∧ w.phase = .blocked 100 ∧ w.sent.isSome = true := by
  have hregister :=
    (Step.register (b := MemoryLog.backend) (on (Bus.new .standard asked none)) "q").reaches
  have hlook := hregister.trans (Step.look _ 0 _ _ _ rfl rfl rfl rfl).reaches
  have hrule := hlook.trans
    (Step.rule _ 7 ⟨"q", "chief", true, ⟨⟨0, 0, 0⟩, "e", "a", "b"⟩, .started⟩ rfl).reaches
  have hfind := hrule.trans (Step.find _ 7 _ _ _ rfl rfl rfl).reaches
  have hkeep := hfind.trans (Step.keep _ 7 _ _ _ rfl rfl rfl).reaches
  have hgo := hkeep.trans (Step.go _ 0 (some 100) _ rfl).reaches
  have htell := hgo.trans (Step.tell _ 7 _ rfl rfl).reaches
  refine ⟨_, _, htell, ⟨7, _, rfl, rfl, rfl⟩, rfl, rfl, ?_⟩
  exact (no_lost_verdict Backend.memory_decides .standard none
    (MemoryLog.append_sound MemoryLog.empty_sound _) htell).1 0 _ _ rfl rfl ⟨7, _, rfl, rfl, rfl⟩

end Parley.Traffic
