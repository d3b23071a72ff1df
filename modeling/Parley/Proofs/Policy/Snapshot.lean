import Parley.Proofs.Json.Reordered
import Parley.Proofs.Policy.Gate

namespace Parley

namespace Table

variable {κ α β : Type} [DecidableEq κ] {es : List (κ × α)}

theorem setIn_of_not_mem {key : κ} (h : key ∉ es.map Prod.fst) (value : α) :
    setIn key value es = es ++ [(key, value)] := by
  induction es with
  | nil => rfl
  | cons e es ih =>
      rw [List.map_cons, List.mem_cons, not_or] at h
      rw [setIn, if_neg (Ne.symm h.1), ih h.2, List.cons_append]

theorem ofList_of_nodup (h : (es.map Prod.fst).Nodup) : ofList es = ⟨es⟩ := by
  induction es using List.reverseRecOn with
  | nil => rfl
  | append_singleton es e ih =>
      rw [List.map_append, List.nodup_append] at h
      have hnew : e.1 ∉ es.map Prod.fst := fun hmem => h.2.2 _ hmem _ (List.mem_singleton_self _) rfl
      have hset : ofList (es ++ [e]) = (ofList es).set e.1 e.2 := List.foldl_append
      rw [hset, ih h.1, set, setIn_of_not_mem hnew]

theorem valueIn_eq_lookup (key : String) (es : List (String × α)) :
    valueIn key es = es.lookup key := by
  induction es with
  | nil => rfl
  | cons e es ih =>
      rw [valueIn, ih, Fields.lookup_cons]
      exact if_congr eq_comm rfl rfl

theorem valueIn_forall₂ {rel : α → β → Prop} {bs : List (κ × β)}
    (h : List.Forall₂ (fun e e' => e'.1 = e.1 ∧ rel e.2 e'.2) es bs) (key : κ) :
    Option.Rel rel (valueIn key es) (valueIn key bs) := by
  induction h with
  | nil => exact .none
  | cons he h ih =>
      rw [valueIn, valueIn, he.1]
      split
      · exact .some he.2
      · exact ih

end Table

theorem Json.float?_written {x : Float} (h : (Number.float x).Kept) :
    Doc.float? (Json.float x).written = some x := by
  rw [Json.float, if_pos h.isFinite, Json.written, h]
  rfl

theorem Json.list?_written (texts : List String) :
    Doc.list? Doc.str? (Json.strings texts).written = some texts := by
  change (writtenItems (texts.map .str)).mapM Doc.str? = some texts
  induction texts with
  | nil => rfl
  | cons text texts ih =>
      rw [List.map_cons, writtenItems, List.mapM_cons, ih]
      rfl

theorem Record.get_reordered {α : Type} {r : Record} {name : String} {v : Json} {o : Option α}
    {value : Doc → Option α}
    (h : Option.Rel (fun v d => ∃ v', Json.Reordered v v' ∧ v'.written = d) (some v)
      (r.lookup name))
    (hv : ∀ v', Json.Reordered v v' → value v'.written = o) (default : α) :
    r.get name value default = o := by
  rw [Record.get]
  generalize r.lookup name = found at h
  cases h with
  | some h =>
      obtain ⟨v', hv', rfl⟩ := h
      exact hv v' hv'

namespace Policy

theorem ofWord?_word_mode (m : Mode) : Vocabulary.ofWord? (Vocabulary.word m) = some m := by
  cases m <;> rfl

namespace Config

def numbers (c : Config) : List Float := c.threshold :: c.maxAmount :: c.custom.values

/-- The same policy, its own thresholds in some order. -/
structure Same (c c' : Config) : Prop where
  mode : c'.mode = c.mode
  threshold : c'.threshold = c.threshold
  maxAmount : c'.maxAmount = c.maxAmount
  allowed : c'.allowed = c.allowed
  auditTrail : c'.auditTrail = c.auditTrail
  tiered : c'.tiered = c.tiered
  custom : c.custom.entries.Perm c'.custom.entries

variable {c c' : Config}

theorem Same.refl (c : Config) : c.Same c := ⟨rfl, rfl, rfl, rfl, rfl, rfl, .refl _⟩

theorem Same.sound (h : c.Same c') (hs : c.Sound) : c'.Sound := by
  refine ⟨h.threshold ▸ hs.threshold, h.maxAmount ▸ hs.amount, ?_⟩
  intro x hx
  exact hs.custom x ((h.custom.map Prod.snd).mem_iff.mpr hx)

theorem Same.decide_eq (h : c.Same c') (hn : c.custom.keys.Nodup) (r : Request) :
    c'.decide r = c.decide r := by
  have hthreshold : c'.effectiveThreshold r.agent = c.effectiveThreshold r.agent := by
    have hcustom : c.custom.find? r.agent = c'.custom.find? r.agent := by
      rw [Table.find?, Table.find?, Table.valueIn_eq_lookup, Table.valueIn_eq_lookup,
        Fields.lookup_of_perm h.custom hn]
    rw [effectiveThreshold, effectiveThreshold, hcustom, h.tiered, h.threshold]
  have hobjection : c'.objection r = c.objection r := by
    rw [objection, objection, assistObjection, assistObjection, excess, excess, hthreshold, h.mode,
      h.allowed, h.maxAmount]
  rw [decide, decide, hobjection, h.mode]

theorem custom_reordered (hk : ∀ x ∈ c.custom.values, (Number.float x).Kept)
    (hn : c.custom.keys.Nodup) {w : Json}
    (h : Json.Reordered (.obj (c.custom.entries.map fun e => (e.1, .float e.2))) w) :
    ∃ custom, decodeCustom w.written = some custom ∧ c.custom.entries.Perm custom.entries := by
  have hread : ∀ e ∈ c.custom.entries, ∀ v, Json.Reordered (.float e.2) v →
      ∃ x, Doc.float? v.written = some x ∧ x = e.2 := by
    intro e he v hv
    rw [hv.float_eq]
    exact ⟨e.2, Json.float?_written (hk e.2 (List.mem_map_of_mem he)), rfl⟩
  obtain ⟨read, entries, hrel, hperm, hentries⟩ := Json.entries?_reordered Json.float
    (fun x y => y = x) hread h
  have heq : read = c.custom.entries := by
    rw [← List.forall₂_eq_eq_eq]
    exact (hrel.imp fun e e' he => Prod.ext he.1 he.2).flip
  subst heq
  refine ⟨⟨entries⟩, ?_, hperm⟩
  rw [decodeCustom, hentries, Option.map_some,
    Table.ofList_of_nodup ((hperm.map Prod.fst).nodup_iff.mp hn)]

theorem Sound.isFinite_numbers (h : c.Sound) (hx : c.maxAmount.isFinite = true) :
    ∀ x ∈ c.numbers, x.isFinite = true := by
  have hunit : ∀ x : Float, 0.0 ≤ x ∧ x ≤ 1.0 → x.isFinite = true :=
    fun x hx => Decimal.isFinite_of_between (by decide) (by decide) hx.1 hx.2
  rw [numbers, List.forall_mem_cons, List.forall_mem_cons]
  exact ⟨hunit _ h.threshold, hx, fun x hmem => hunit x (h.custom x hmem)⟩

def partNames : List String :=
  ["mode", "autoApproveThreshold", "maxAutoApproveAmount", "allowedAutoAgents",
    "requireAuditTrail", "useTieredThresholds", "customAgentThresholds"]

def parts (c : Config) : List (String × Option Json) :=
  [("mode", some (encode c.mode)),
    ("autoApproveThreshold", some (.float c.threshold)),
    ("maxAutoApproveAmount", some (.float c.maxAmount)),
    ("allowedAutoAgents", some (.strings c.allowed)),
    ("requireAuditTrail", some (.bool c.auditTrail)),
    ("useTieredThresholds", some (.bool c.tiered)),
    ("customAgentThresholds",
      if c.custom.entries.isEmpty then none
      else some (.obj (c.custom.entries.map fun e => (e.1, .float e.2))))]

theorem decode_reordered (hk : ∀ x ∈ c.numbers, (Number.float x).Kept)
    (hn : c.custom.keys.Nodup) {w : Json} (h : Json.Reordered (encode c) w) :
    ∃ c', decode w.written = some c' ∧ c.Same c' := by
  rw [numbers, List.forall_mem_cons, List.forall_mem_cons] at hk
  obtain ⟨r, hr, hparts⟩ := Json.ofDoc?_reordered partNames c.parts rfl (by decide) h
  simp only [parts, List.forall_mem_cons] at hparts
  obtain ⟨hmode, hthreshold, hamount, hallowed, htrail, htiered, hcustom, -⟩ := hparts
  have hmode : r.get "mode" decode standard.mode = some c.mode := by
    refine Record.get_reordered hmode (fun v hv => ?_) _
    cases hv
    exact ofWord?_word_mode c.mode
  have hthreshold : r.get "autoApproveThreshold" Doc.float? standard.threshold =
      some c.threshold := by
    refine Record.get_reordered hthreshold (fun v hv => ?_) _
    rw [hv.float_eq, Json.float?_written hk.1]
  have hamount : r.get "maxAutoApproveAmount" Doc.float? standard.maxAmount =
      some c.maxAmount := by
    refine Record.get_reordered hamount (fun v hv => ?_) _
    rw [hv.float_eq, Json.float?_written hk.2.1]
  have hallowed : r.get "allowedAutoAgents" (Doc.list? Doc.str?) standard.allowed =
      some c.allowed := by
    refine Record.get_reordered hallowed (fun v hv => ?_) _
    rw [hv.strings_eq, Json.list?_written]
  have htrail : r.get "requireAuditTrail" Doc.bool? standard.auditTrail = some c.auditTrail := by
    refine Record.get_reordered htrail (fun v hv => ?_) _
    cases hv
    rfl
  have htiered : r.get "useTieredThresholds" Doc.bool? standard.tiered = some c.tiered := by
    refine Record.get_reordered htiered (fun v hv => ?_) _
    cases hv
    rfl
  obtain ⟨custom, hcustom, hperm⟩ : ∃ custom,
      r.get "customAgentThresholds" decodeCustom standard.custom = some custom ∧
        c.custom.entries.Perm custom.entries := by
    -- an empty table is not written, and what is not written is read as an empty table
    by_cases hempty : c.custom.entries.isEmpty = true
    · rw [if_pos hempty] at hcustom
      refine ⟨Table.empty, ?_, ?_⟩
      · rw [Record.get]
        generalize r.lookup "customAgentThresholds" = found at hcustom
        cases hcustom
        rfl
      · rw [List.isEmpty_iff.mp hempty]
        exact .refl _
    · rw [if_neg hempty] at hcustom
      generalize hfound : r.lookup "customAgentThresholds" = found at hcustom
      cases hcustom with
      | some hread =>
          obtain ⟨v, hv, rfl⟩ := hread
          obtain ⟨custom, hcustom, hperm⟩ := custom_reordered hk.2.2 hn hv
          refine ⟨custom, ?_, hperm⟩
          rw [Record.get, hfound]
          exact hcustom
  refine ⟨⟨c.mode, c.threshold, c.maxAmount, c.allowed, c.auditTrail, c.tiered, custom⟩, ?_,
    ⟨rfl, rfl, rfl, rfl, rfl, rfl, hperm⟩⟩
  refine (bind_of_eq_some hr _).trans ?_
  simp only [hmode, hthreshold, hamount, hallowed, htrail, htiered, hcustom]
  rfl

theorem decode_boundless (hx : ¬ c.maxAmount.isFinite = true) {w : Json}
    (h : Json.Reordered (encode c) w) : decode (α := Config) w.written = none := by
  obtain ⟨r, hr, hparts⟩ := Json.ofDoc?_reordered partNames c.parts rfl (by decide) h
  simp only [parts, List.forall_mem_cons] at hparts
  obtain ⟨-, -, hamount, -⟩ := hparts
  have hamount : r.get "maxAutoApproveAmount" Doc.float? standard.maxAmount = none := by
    refine Record.get_reordered hamount (fun v hv => ?_) _
    rw [hv.float_eq, Json.float, if_neg hx]
    rfl
  refine (bind_of_eq_some hr _).trans ?_
  simp only [hamount, Option.bind_eq_bind, Option.bind_none, Option.bind_fun_none]

theorem forall_parts {p : Json → Prop} (hmode : p (encode c.mode)) (hfloat : ∀ x, p (.float x))
    (hallowed : p (.strings c.allowed)) (hbool : ∀ b, p (.bool b))
    (hcustom : p (.obj (c.custom.entries.map fun e => (e.1, .float e.2)))) :
    ∀ m ∈ c.parts, ∀ v ∈ m.2, p v := by
  have hif : ∀ v ∈ (if c.custom.entries.isEmpty then none
      else some (Json.obj (c.custom.entries.map fun e => (e.1, .float e.2)))), p v := by
    split
    · nofun
    · exact fun v hv => Option.some.inj hv ▸ hcustom
  simp only [parts, List.forall_mem_cons, Option.mem_def, Option.some.injEq, forall_eq']
  exact ⟨hmode, hfloat _, hfloat _, hallowed, hbool _, hbool _, hif, List.forall_mem_nil _⟩

theorem finite_encode (c : Config) : (encode c).Finite := by
  refine Json.finite_record (forall_parts trivial Json.finite_float (Json.finite_strings _)
    (fun _ => trivial) ?_)
  refine Json.finiteMembers_iff.mpr fun m hm => ?_
  obtain ⟨e, -, rfl⟩ := List.mem_map.mp hm
  exact Json.finite_float e.2

theorem distinct_encode (hn : c.custom.keys.Nodup) : (encode c).Distinct := by
  have hnames : (c.parts.map Prod.fst).Nodup := show partNames.Nodup by decide
  refine Json.distinct_record hnames (forall_parts trivial Json.distinct_float
    (Json.distinct_strings _) (fun _ => trivial) ⟨?_, ?_⟩)
  · rw [List.map_map]
    exact hn
  · refine Json.distinctMembers_iff.mpr fun m hm => ?_
    obtain ⟨e, -, rfl⟩ := List.mem_map.mp hm
    exact Json.distinct_float e.2

end Config

namespace Gate

/-- No tenant has two policies, and no policy two thresholds for an agent. -/
def Keyed (g : Gate) : Prop :=
  g.configs.keys.Nodup ∧ ∀ e ∈ g.configs.entries, e.2.custom.keys.Nodup

def Op.Keyed : Op → Prop
  | .setConfig _ c => c.custom.keys.Nodup
  | .setMode .. | .setThreshold .. => True
  | .load configs => Gate.Keyed ⟨configs⟩

/-- A text that shows the policies of a gate, in some order. -/
def Shows (g : Gate) (text : String) : Prop :=
  ∃ w, Json.Reordered (encodeAll g.configs) w ∧ text = String.ofList w.render

variable {g : Gate}

theorem config_keyed (h : g.Keyed) (tenant : String) : (g.config tenant).custom.keys.Nodup := by
  rw [config]
  cases hf : g.configs.find? tenant with
  | none => exact List.nodup_nil
  | some c => exact h.2 (tenant, c) (Table.mem_of_valueIn hf)

theorem put_keyed (h : g.Keyed) (tenant : String) {c : Config} (hc : c.custom.keys.Nodup) :
    (g.put tenant c).Keyed := by
  refine ⟨Table.nodup_keys_setIn h.1, ?_⟩
  intro e he
  rcases Table.mem_setIn he with rfl | he
  · exact hc
  · exact h.2 e he

theorem step_keyed (h : g.Keyed) {op : Op} (hop : op.Keyed) {g' : Gate}
    (hs : g.step op = .ok g') : g'.Keyed := by
  cases op with
  | setConfig tenant c =>
      rw [step] at hs
      split at hs
      · cases hs
      · cases hs
        exact put_keyed h tenant hop
  | setMode tenant mode =>
      cases hs
      exact put_keyed h tenant (config_keyed h tenant)
  | setThreshold tenant threshold =>
      rw [step] at hs
      split at hs
      · cases hs
      · cases hs
        exact put_keyed h tenant (config_keyed h tenant)
  | load configs =>
      rw [step] at hs
      split at hs
      · cases hs
      · cases hs
        exact hop

theorem run_keyed {ops : List Op} (hops : ∀ op ∈ ops, op.Keyed) : (run ops).Keyed := by
  have hempty : empty.Keyed := ⟨List.nodup_nil, List.forall_mem_nil _⟩
  rw [run]
  generalize empty = g at hempty
  induction ops generalizing g with
  | nil => exact hempty
  | cons op ops ih =>
      rw [List.forall_mem_cons] at hops
      refine ih hops.2 (g.after op) ?_
      rw [after]
      cases hs : g.step op with
      | error e => exact hempty
      | ok g' => exact step_keyed hempty hops.1 hs

theorem finite_encodeAll (configs : Table String Config) : (encodeAll configs).Finite := by
  refine Json.finiteMembers_iff.mpr ?_
  intro m hm
  obtain ⟨e, -, rfl⟩ := List.mem_map.mp hm
  exact e.2.finite_encode

theorem distinct_encodeAll (h : g.Keyed) : (encodeAll g.configs).Distinct := by
  refine ⟨?_, Json.distinctMembers_iff.mpr fun m hm => ?_⟩
  · rw [List.map_map]
    exact h.1
  · obtain ⟨e, he, rfl⟩ := List.mem_map.mp hm
    exact Config.distinct_encode (h.2 e he)

theorem shows_exportText (h : g.Keyed) : g.Shows g.exportText :=
  ⟨_, Json.reordered_sorted _ (distinct_encodeAll h), rfl⟩

theorem ofText?_eq {w : Json} (h : Json.Reordered (encodeAll g.configs) w) :
    ofText? (String.ofList w.render) = decodeAll w.written := by
  rw [ofText?, Json.parse_render (h.finite (finite_encodeAll g.configs)), Option.bind_some]

theorem ofText?_of_shows (hg : g.Keyed)
    (hread : ∀ e ∈ g.configs.entries, ∀ x ∈ e.2.numbers, (Number.float x).Kept) {text : String}
    (h : g.Shows text) : ∃ snapshot, ofText? text = some snapshot ∧ snapshot.keys.Nodup ∧
      ∀ tenant, Option.Rel Config.Same (g.configs.find? tenant) (snapshot.find? tenant) := by
  obtain ⟨w, hw, rfl⟩ := h
  obtain ⟨read, entries, hrel, hperm, hentries⟩ := Json.entries?_reordered encode
    Config.Same (fun e he _ hv => Config.decode_reordered (hread e he) (hg.2 e he) hv) hw
  have hkeys : read.map Prod.fst = g.configs.keys := by
    rw [Table.keys, ← List.forall₂_eq_eq_eq, List.forall₂_map_left_iff, List.forall₂_map_right_iff]
    exact (hrel.imp fun e e' he => he.1).flip
  have hn : (entries.map Prod.fst).Nodup := by
    rw [← (hperm.map Prod.fst).nodup_iff, hkeys]
    exact hg.1
  refine ⟨⟨entries⟩, ?_, hn, fun tenant => ?_⟩
  · rw [ofText?_eq hw, decodeAll, hentries, Option.map_some, Table.ofList_of_nodup hn]
  · rw [Table.find?, Table.find?, Table.valueIn_eq_lookup tenant entries,
      ← Fields.lookup_of_perm hperm (hkeys ▸ hg.1), ← Table.valueIn_eq_lookup]
    exact Table.valueIn_forall₂ hrel tenant

theorem ofText?_boundless {e : String × Config} (he : e ∈ g.configs.entries)
    (hx : ¬ e.2.maxAmount.isFinite = true) {text : String} (h : g.Shows text) :
    ofText? text = none := by
  obtain ⟨w, hw, rfl⟩ := h
  rw [ofText?_eq hw, decodeAll,
    Json.entries?_eq_none he (fun _ hv => Config.decode_boundless hx hv) hw, Option.map_none]

theorem config_same {g' : Gate}
    (h : ∀ tenant, Option.Rel Config.Same (g.configs.find? tenant) (g'.configs.find? tenant))
    (tenant : String) : (g.config tenant).Same (g'.config tenant) := by
  have hrel := h tenant
  rw [config, config]
  revert hrel
  generalize g.configs.find? tenant = o, g'.configs.find? tenant = o'
  rintro (hsame | _)
  · exact hsame
  · exact .refl _

/-- After every run, what a gate exports as text, in whatever order, is read and taken by a new
gate, which then has the same policies and decides alike; but if a policy of one tenant has no
bound for amounts, nothing is read for any tenant. -/
theorem export_reread (ops : List Op) (hops : ∀ op ∈ ops, op.Keyed)
    (hread : ∀ e ∈ (run ops).configs.entries, ∀ x ∈ e.2.numbers, x.isFinite = true →
      (Number.float x).Kept) :
    (run ops).Shows (run ops).exportText ∧
    ∀ text, (run ops).Shows text →
      ((∀ e ∈ (run ops).configs.entries, e.2.maxAmount.isFinite = true) →
        ∃ snapshot g, ofText? text = some snapshot ∧ empty.step (.load snapshot) = .ok g ∧
          ∀ tenant, ((run ops).config tenant).Same (g.config tenant) ∧
            ∀ r, g.decide tenant r = (run ops).decide tenant r) ∧
      ((∃ e ∈ (run ops).configs.entries, ¬ e.2.maxAmount.isFinite = true) →
        ofText? text = none) := by
  have hkeyed : (run ops).Keyed := run_keyed hops
  have hsound : (run ops).Sound := run_sound ops
  refine ⟨shows_exportText hkeyed, fun text htext => ⟨fun hbounds => ?_, ?_⟩⟩
  · have hkept : ∀ e ∈ (run ops).configs.entries, ∀ x ∈ e.2.numbers, (Number.float x).Kept :=
      fun e he x hx => hread e he x hx ((hsound e he).isFinite_numbers (hbounds e he) x hx)
    obtain ⟨snapshot, hsnapshot, hn, hrel⟩ := ofText?_of_shows hkeyed hkept htext
    have hsame : ∀ tenant, ((run ops).config tenant).Same ((⟨snapshot⟩ : Gate).config tenant) :=
      config_same hrel
    have hload : checkAll snapshot.entries = .ok () := by
      refine checkAll_eq_ok_iff.mpr fun e he => ?_
      have hconfig : (⟨snapshot⟩ : Gate).config e.1 = e.2 := by
        rw [config, Table.find?, Table.valueIn_eq_lookup, Fields.lookup_of_mem hn he,
          Option.getD_some]
      exact hconfig ▸ (hsame e.1).sound (config_sound hsound e.1)
    refine ⟨snapshot, ⟨snapshot⟩, hsnapshot, ?_, fun tenant => ⟨hsame tenant, fun r => ?_⟩⟩
    · rw [step, hload]
    · exact (hsame tenant).decide_eq (config_keyed hkeyed tenant) r
  · rintro ⟨e, he, hx⟩
    exact ofText?_boundless he hx htext

def assistOps : List Op := [.setMode "t1" .assist, .setThreshold "t1" 0.6]

theorem export_reread_assist :
    (∀ op ∈ assistOps, op.Keyed) ∧
    (∀ e ∈ (run assistOps).configs.entries, ∀ x ∈ e.2.numbers, x.isFinite = true →
      (Number.float x).Kept) ∧
    ∃ snapshot g, ofText? (run assistOps).exportText = some snapshot ∧
      empty.step (.load snapshot) = .ok g ∧ (g.config "t1").mode = .assist ∧
      (g.config "t1").threshold = 0.6 ∧ (g.config "t2").mode = .audit := by
  have hops : ∀ op ∈ assistOps, op.Keyed := by
    intro op hop
    rcases List.mem_cons.mp hop with rfl | hop
    · trivial
    · obtain rfl := List.mem_singleton.mp hop
      trivial
  have hread : ∀ e ∈ (run assistOps).configs.entries, ∀ x ∈ e.2.numbers, x.isFinite = true →
      (Number.float x).Kept := by
    decide +kernel
  have hbounds : ∀ e ∈ (run assistOps).configs.entries, e.2.maxAmount.isFinite = true := by
    decide +kernel
  obtain ⟨hshows, htext⟩ := export_reread assistOps hops hread
  obtain ⟨snapshot, g, hsnapshot, hload, hsame⟩ := (htext _ hshows).1 hbounds
  exact ⟨hops, hread, snapshot, g, hsnapshot, hload, (hsame "t1").1.mode, (hsame "t1").1.threshold,
    (hsame "t2").1.mode⟩

def boundless : Config := { Config.standard with mode := .autonomous, maxAmount := 1.0 / 0.0 }

def boundlessOps : List Op := [.setMode "t2" .assist, .setConfig "t1" boundless]

/-- A policy without a bound passes its check, and nothing of what is then exported is read. -/
theorem boundless_lost :
    (∀ op ∈ boundlessOps, op.Keyed) ∧
    (run (boundlessOps.take 1)).step (.setConfig "t1" boundless) = .ok (run boundlessOps) ∧
    ((run boundlessOps).decide "t1" ⟨"agent", 0.5, none⟩).approved = true ∧
    ofText? (run boundlessOps).exportText = none := by
  have hops : ∀ op ∈ boundlessOps, op.Keyed := by
    intro op hop
    rcases List.mem_cons.mp hop with rfl | hop
    · trivial
    · obtain rfl := List.mem_singleton.mp hop
      exact List.nodup_nil
  have hboundless : ("t1", boundless) ∈ (run boundlessOps).configs.entries :=
    List.mem_cons_of_mem _ (List.mem_singleton_self _)
  exact ⟨hops, rfl, rfl,
    ofText?_boundless hboundless (by decide) (shows_exportText (run_keyed hops))⟩

end Gate

end Policy

end Parley
