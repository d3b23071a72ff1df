import Parley.Proofs.Audit.Reread

namespace Parley.Audit.Entry

open Digest (Collides)

def linked (e : Entry) : List UInt8 := Chain.utf8 (Chain.link e.previousHash e.hashable)

/-- Different bytes with one digest, at one place of two lists. -/
def Collision (es es' : List Entry) : Prop :=
  ∃ p ∈ es.zip es', Collides p.1.linked p.2.linked

def lastHash (start : String) (es : List Entry) : String := (es.getLast?.map hash).getD start

/-- Entries that cannot be told apart by what is hashed and by their hashes. -/
structure Alike (e e' : Entry) : Prop where
  canonical : e.hashable.canonical = e'.hashable.canonical
  hash : e.hash = e'.hash
  previousHash : e.previousHash = e'.previousHash

variable {start start' : String} {e e' : Entry} {es es' : List Entry}

theorem verify_cons : verify start (e :: es) = true ↔
    e.previousHash = start ∧ e.hash = Chain.hash start e.hashable ∧ verify e.hash es = true := by
  simp only [verify, Bool.and_eq_true, decide_eq_true_eq, and_assoc]
  rw [eq_comm (a := e.hash)]

theorem verify_chain (start : String) (es : List Entry) : verify start (chain start es) = true := by
  induction es generalizing start with
  | nil => rfl
  | cons e es ih =>
      rw [chain, verify_cons]
      exact ⟨rfl, rfl, ih _⟩

theorem lastHash_cons (start : String) (e : Entry) (es : List Entry) :
    lastHash start (e :: es) = lastHash e.hash es := by
  rw [lastHash, lastHash, List.getLast?_cons]
  cases es.getLast? <;> rfl

theorem lastHash_append (start : String) (es es' : List Entry) :
    lastHash start (es ++ es') = lastHash (lastHash start es) es' := by
  induction es generalizing start with
  | nil => rfl
  | cons e es ih => rw [List.cons_append, lastHash_cons, lastHash_cons, ih]

theorem verify_append : verify start (es ++ es') = true ↔
    verify start es = true ∧ verify (lastHash start es) es' = true := by
  induction es generalizing start with
  | nil => exact (and_iff_right rfl).symm
  | cons e es ih =>
      rw [List.cons_append, verify_cons, verify_cons, lastHash_cons, ih, and_assoc, and_assoc]

theorem chain_append (start : String) (es es' : List Entry) :
    chain start (es ++ es') = chain start es ++ chain (lastHash start (chain start es)) es' := by
  induction es generalizing start with
  | nil => rfl
  | cons e es ih => rw [List.cons_append, chain, chain, ih, List.cons_append, lastHash_cons]

/-- From the last entries back, equal hashes mean equal texts, unless two texts collide. -/
theorem alike_or_collision (hstart : start.toList.length = start'.toList.length)
    (hlen : es.length = es'.length) (h : verify start es = true) (h' : verify start' es' = true)
    (hlast : lastHash start es = lastHash start' es') :
    (start = start' ∧ List.Forall₂ Alike es es') ∨ Collision es es' := by
  induction es generalizing start start' es' with
  | nil =>
      obtain rfl := List.length_eq_zero_iff.mp hlen.symm
      exact .inl ⟨hlast, .nil⟩
  | cons e es ih =>
      cases es' with
      | nil => cases hlen
      | cons e' es' =>
          obtain ⟨hprevious, hhash, hrest⟩ := verify_cons.mp h
          obtain ⟨hprevious', hhash', hrest'⟩ := verify_cons.mp h'
          have hlength : e.hash.toList.length = e'.hash.toList.length := by
            rw [hhash, hhash', Chain.hash_length, Chain.hash_length]
          rw [lastHash_cons, lastHash_cons] at hlast
          -- The rest is settled first: it says that the hashes of these two entries are equal.
          rcases ih hlength (Nat.succ.inj hlen) hrest hrest' hlast with ⟨heq, hall⟩ | hcollision
          · rw [hhash, hhash'] at heq
            rcases Chain.link_of_hash_eq heq with hlink | hcollides
            · obtain ⟨hs, hcanonical⟩ := Chain.of_link_eq hstart hlink
              have halike : Alike e e' :=
                ⟨hcanonical, by rw [hhash, hhash', heq], by rw [hprevious, hprevious', hs]⟩
              exact .inl ⟨hs, .cons halike hall⟩
            · rw [← hprevious, ← hprevious'] at hcollides
              exact .inr ⟨(e, e'), List.mem_cons_self, hcollides⟩
          · obtain ⟨p, hp, hcollides⟩ := hcollision
            exact .inr ⟨p, List.mem_cons_of_mem _ hp, hcollides⟩

theorem eq_of_alike (h : e.Proper) (h' : e'.Proper) (ha : Alike e e') : e = e' :=
  h.eq_of_canonical h' ha.canonical ha.hash ha.previousHash

theorem eq_of_forall₂_alike (h : ∀ e ∈ es, e.Proper) (h' : ∀ e ∈ es', e.Proper)
    (ha : List.Forall₂ Alike es es') : es = es' := by
  induction ha with
  | nil => rfl
  | cons he _ ih =>
      rw [List.forall_mem_cons] at h h'
      rw [eq_of_alike h.1 h'.1 he, ih h.2 h'.2]

/-- Of two chains of entries that were read and that end in one hash, either all entries are
equal, or two of the texts that were hashed collide. -/
theorem eq_or_collision_of_verify (start : String) {es es' : List Entry}
    (hlen : es.length = es'.length) (hread : ∀ e ∈ es, ∃ text, decodeText text = some e)
    (hread' : ∀ e ∈ es', ∃ text, decodeText text = some e) (h : verify start es = true)
    (h' : verify start es' = true) (hlast : es.getLast?.map hash = es'.getLast?.map hash) :
    es = es' ∨ Collision es es' := by
  have hproper {es : List Entry} (hread : ∀ e ∈ es, ∃ text, decodeText text = some e) :
      ∀ e ∈ es, e.Proper := by
    intro e he
    obtain ⟨text, htext⟩ := hread e he
    exact proper_decodeText htext
  have hlast' : lastHash start es = lastHash start es' := by rw [lastHash, lastHash, hlast]
  rcases alike_or_collision rfl hlen h h' hlast' with ⟨-, hall⟩ | hcollision
  · exact .inl (eq_of_forall₂_alike (hproper hread) (hproper hread') hall)
  · exact .inr hcollision

def draft : Entry :=
  ⟨"aud-1", ⟨19723, 43200, 500⟩, ⟨"acme", .agent "planner", .agentDecision, "order", "o-1",
    [("decision", .str "approve")], some 0.5⟩, "", ""⟩

theorem sound_draft : draft.Sound :=
  ⟨⟨by decide, by decide, .inl (by decide)⟩, List.forall_mem_nil _, trivial, trivial⟩

theorem lasting_draft : draft.Lasting := by
  refine ⟨⟨trivial, trivial⟩, ?_⟩
  rintro x ⟨⟩
  decide +kernel

theorem Lasting.after (h : e.Lasting) (start : String) : (e.after start).Lasting :=
  ⟨h.details, h.confidence⟩

theorem read_chain (start : String) (h : ∀ e ∈ es, e.Sound ∧ e.Lasting) :
    ∀ e ∈ chain start es, ∃ text, decodeText text = some e := by
  induction es generalizing start with
  | nil => exact List.forall_mem_nil _
  | cons e es ih =>
      rw [List.forall_mem_cons] at h
      rw [chain, List.forall_mem_cons]
      obtain ⟨⟨hsound, hlasting⟩, hrest⟩ := h
      exact ⟨⟨_, (reread_eq_self_iff (hsound.after start)).mpr (hlasting.after start)⟩, ih _ hrest⟩

def orderDrafts : List Entry :=
  [draft,
    ⟨"aud-2", ⟨19723, 43201, 0⟩, ⟨"acme", .user "ana", .approve, "order", "o-1",
      [("approved", .bool true)], none⟩, "", ""⟩,
    ⟨"aud-3", ⟨19723, 43202, 0⟩, ⟨"acme", .agent "planner", .update, "order", "o-1",
      [("lines", .arr [.obj [("item", .str "i-1")], .null])], none⟩, "", ""⟩]

theorem orderDrafts_lasting : ∀ e ∈ orderDrafts, e.Sound ∧ e.Lasting := by
  simp only [orderDrafts, List.forall_mem_cons]
  refine ⟨⟨sound_draft, lasting_draft⟩, ⟨⟨?_, ?_⟩, ?_, nofun⟩, ⟨⟨?_, ?_⟩, ?_, nofun⟩,
    List.forall_mem_nil _⟩
  · exact ⟨by decide, by decide, .inl (by decide)⟩
  · exact ⟨List.forall_mem_nil _, trivial, trivial⟩
  · exact ⟨trivial, trivial⟩
  · exact ⟨by decide, by decide, .inl (by decide)⟩
  · have hline : Json.Proper (.obj [("item", .str "i-1")]) :=
      ⟨List.forall_mem_nil _, trivial, trivial⟩
    exact ⟨List.forall_mem_nil _, ⟨hline, trivial, trivial⟩, trivial⟩
  · have hline : Json.Kept 124 (.obj [("item", .str "i-1")]) := ⟨trivial, trivial⟩
    exact ⟨⟨hline, trivial, trivial⟩, trivial⟩

theorem eq_or_collision_of_orderDrafts : ∃ es : List Entry, es.length = 3 ∧
    (∀ e ∈ es, ∃ text, decodeText text = some e) ∧ verify Chain.genesis es = true ∧
      (es = es ∨ Collision es es) := by
  have hread := read_chain Chain.genesis orderDrafts_lasting
  have hverify := verify_chain Chain.genesis orderDrafts
  exact ⟨chain Chain.genesis orderDrafts, rfl, hread, hverify,
    eq_or_collision_of_verify Chain.genesis rfl hread hread hverify hverify rfl⟩

end Parley.Audit.Entry
