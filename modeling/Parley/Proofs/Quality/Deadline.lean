import Parley.Message.Draft
import Parley.Proofs.Json.Fields
import Parley.Proofs.Message.Decoded
import Parley.Quality

namespace Parley

open Time (Instant)

namespace Message

/-- What becomes of a message that is written as text and read again, any number of times. -/
inductive Copy (m : Message) : Message → Prop
  | written : Copy m m
  | read {copy copy' : Message} {text : String} (h : Copy m copy)
      (htext : text ∈ [unsortedText copy, encodeText copy])
      (hread : decodeText text = some copy') : Copy m copy'

variable {m m' : Message} {d : Instant}

theorem sound_decodeText {text : String} (h : decodeText text = some m) : m.Sound := by
  obtain ⟨doc, hparse, hdecode⟩ := Option.bind_eq_some_iff.mp h
  exact (sound_decode (Doc.sound_parse hparse) hdecode).1

theorem reread_of_text (h : m.Sound) {text : String}
    (htext : text ∈ [unsortedText m, encodeText m]) (hread : decodeText text = some m') :
    m.reread = some m' := by
  rcases List.mem_pair.mp htext with rfl | rfl
  · rwa [decodeText_unsortedText h] at hread
  · exact hread

theorem find?_reread (h : m.Sound) (hr : m.reread = some m') (key : String) :
    m'.structured.find? key =
      (m.structured.find? key).bind fun v => Doc.toJson? 125 v.written := by
  rw [reread_eq h] at hr
  obtain ⟨structured, hstructured, hr⟩ := Option.bind_eq_some_iff.mp hr
  obtain ⟨confidence, -, hr⟩ := Option.bind_eq_some_iff.mp hr
  obtain ⟨quality, -, hr⟩ := Option.bind_eq_some_iff.mp hr
  obtain ⟨metadata, -, rfl⟩ := Option.map_eq_some_iff.mp hr
  exact Json.find?_membersToJson? (Json.properMembers_iff.mp h.structured).1.nodup hstructured key

theorem isSome_reread_iff (h : m.Sound) : m.reread.isSome = true ↔
    (Doc.membersToJson? 125 (Json.writtenMembers m.structured)).isSome = true ∧
      (Doc.rereadFloat m.confidence).isSome = true ∧ (Doc.rereadFloat m.quality).isSome = true ∧
      (Doc.membersToJson? 125 (Json.writtenMembers m.metadata)).isSome = true := by
  simp only [reread_eq h, Option.isSome_iff_exists, Option.bind_eq_some_iff,
    Option.map_eq_some_iff]
  constructor
  · rintro ⟨m', structured, hs, confidence, hc, quality, hq, metadata, hm, -⟩
    exact ⟨⟨_, hs⟩, ⟨_, hc⟩, ⟨_, hq⟩, ⟨_, hm⟩⟩
  · rintro ⟨⟨structured, hs⟩, ⟨confidence, hc⟩, ⟨quality, hq⟩, ⟨metadata, hm⟩⟩
    exact ⟨_, structured, hs, confidence, hc, quality, hq, metadata, hm, rfl⟩

/-- A question that sets a deadline, as the evaluator looks for it. -/
structure Carries (d : Instant) (m : Message) : Prop where
  sound : m.Sound
  kind : m.kind = .question
  deadline : m.structured.find? "deadline" = some (.str d.offsetStamp)

theorem Carries.read (h : Carries d m) {text : String}
    (htext : text ∈ [unsortedText m, encodeText m]) (hread : decodeText text = some m') :
    Carries d m' := by
  have hr : m.reread = some m' := reread_of_text h.sound htext hread
  refine ⟨sound_decodeText hread, ?_, ?_⟩
  · rw [eq_of_reread h.sound hr]
    exact h.kind
  · rw [find?_reread h.sound hr, h.deadline]
    rfl

theorem Carries.copy (h : Carries d m) (hcopy : Copy m m') : Carries d m' := by
  induction hcopy with
  | written => exact h
  | read _ htext hread ih => exact ih.read htext hread

end Message

namespace Particulars

variable {base : Message}

theorem structured_question (d : Instant) (p : Priority) (base : Message) :
    ((question (some d) p).fill base).structured =
      (base.structured.insert "deadline" (.str d.offsetStamp)).insert "priority" (encode p) :=
  rfl

theorem sound_question (h : base.Sound) (d : Instant) (p : Priority) :
    ((question (some d) p).fill base).Sound where
  sentAt := h.sentAt
  approvedAt := h.approvedAt
  structured := by
    have hstr (text : String) : (Json.str text).Proper := trivial
    rw [structured_question]
    exact Json.properMembers_insert (hstr _) (Json.properMembers_insert (hstr _) h.structured)
  metadata := h.metadata
  sizes := h.sizes
  processingMillis := h.processingMillis

theorem carries_question (h : base.Sound) (d : Instant) (p : Priority) :
    Message.Carries d ((question (some d) p).fill base) where
  sound := sound_question h d p
  kind := rfl
  deadline := by
    rw [structured_question, Fields.find?_insert, if_neg (by decide), Fields.find?_insert,
      if_pos rfl]

theorem isSome_reread_question (h : base.Sound) (d : Instant) (p : Priority)
    (hr : base.reread.isSome = true) :
    ((question (some d) p).fill base).reread.isSome = true := by
  rw [Message.isSome_reread_iff h] at hr
  rw [Message.isSome_reread_iff (sound_question h d p)]
  refine ⟨?_, hr.2⟩
  have hall := Json.isSome_membersToJson?.mp hr.1
  rw [Json.isSome_membersToJson?, structured_question]
  intro m hm
  rcases Json.mem_insert hm with rfl | hm
  · rfl
  · rcases Json.mem_insert hm with rfl | hm
    · rfl
    · exact hall m hm

end Particulars

namespace Quality

variable {m : Message} {earlier later : List Message}

theorem threadDeadline_append (hm : m.kind = .question) (hlater : ∀ x ∈ later, x.kind ≠ .question) :
    threadDeadline (earlier ++ m :: later) =
      (m.structured.find? "deadline").bind fun v => v.str?.bind Time.readStrict := by
  have hnone : later.reverse.find? isQuestion = none := by
    rw [List.find?_eq_none]
    intro x hx
    rw [isQuestion, decide_eq_true_iff]
    exact hlater x (List.mem_reverse.mp hx)
  have hlast : (earlier ++ m :: later).reverse.find? isQuestion = some m := by
    rw [List.reverse_append, List.reverse_cons, List.append_assoc, List.find?_append, hnone,
      Option.none_or, List.singleton_append]
    exact List.find?_cons_of_pos (decide_eq_true hm)
  rw [threadDeadline, hlast]
  rfl

/-- The deadline of a question of a year that has four places is found in every thread of which it
is the last, as it was put and as it is read from its texts; the deadlines of earlier questions
are not. -/
theorem threadDeadline_question {base : Message} (hbase : base.Sound) {d : Instant}
    (hd : d.Valid) (hyear : 0 ≤ d.date.year ∧ d.date.year ≤ 9999) (p : Priority)
    (earlier later : List Message) (hlater : ∀ x ∈ later, x.kind ≠ .question) :
    (∀ m, Message.Copy ((Particulars.question (some d) p).fill base) m →
      threadDeadline (earlier ++ m :: later) = some d) ∧
    (base.reread.isSome = true →
      ((Particulars.question (some d) p).fill base).reread.isSome = true) ∧
    ∀ m, m.kind = .question → m.structured.find? "deadline" = none →
      threadDeadline (earlier ++ m :: later) = none := by
  refine ⟨?_, Particulars.isSome_reread_question hbase d p, ?_⟩
  · intro m hcopy
    have hcarries := (Particulars.carries_question hbase d p).copy hcopy
    rw [threadDeadline_append hcarries.kind hlater, hcarries.deadline, Option.bind_some, Json.str?,
      Option.bind_some, Time.readStrict_offsetStamp hd hyear]
  · intro m hkind hnone
    rw [threadDeadline_append hkind hlater, hnone]
    rfl

def leapEnd : Instant := ⟨Time.Date.toDays ⟨2016, 12, 31⟩, 86399, 1999999999⟩

theorem valid_leapEnd : leapEnd.Valid := ⟨by decide, by decide, .inr (by decide)⟩

def untimed (kind : Kind) : Message :=
  Message.new "m" leapEnd "auditor" "auditee" "agent" kind "When?"

theorem sound_untimed (kind : Kind) : (untimed kind).Sound :=
  ⟨valid_leapEnd, nofun, trivial, trivial, List.forall_mem_nil _, nofun⟩

def timed (d : Instant) : Message := (Particulars.question (some d) .high).fill (untimed .question)

/-- Between a question that was due before and an answer; and as a question without a deadline
follows. -/
theorem threadDeadline_question_leap :
    (∃ m, decodeText (unsortedText (timed leapEnd)) = some m ∧
      ∀ q ∈ [timed leapEnd, m],
        threadDeadline [timed ⟨0, 0, 0⟩, q, untimed .answer] = some leapEnd) ∧
    threadDeadline [timed leapEnd, untimed .question] = none := by
  have hsound := sound_untimed .question
  have hyear : 0 ≤ leapEnd.date.year ∧ leapEnd.date.year ≤ 9999 := by decide
  have hlater : ∀ x ∈ [untimed .answer], x.kind ≠ .question :=
    List.forall_mem_singleton.mpr (by decide)
  have hread : (untimed .question).reread.isSome = true :=
    (Message.isSome_reread_iff hsound).mpr ⟨rfl, rfl, rfl, rfl⟩
  obtain ⟨hcopies, hagain, -⟩ := threadDeadline_question hsound valid_leapEnd hyear .high
    [timed ⟨0, 0, 0⟩] [untimed .answer] hlater
  obtain ⟨-, -, hnone⟩ := threadDeadline_question hsound valid_leapEnd hyear .high
    [timed leapEnd] [] (List.forall_mem_nil _)
  obtain ⟨m, hm⟩ := Option.isSome_iff_exists.mp (hagain hread)
  have htext : decodeText (unsortedText (timed leapEnd)) = some m :=
    (Message.decodeText_unsortedText (Particulars.sound_question hsound leapEnd .high)).trans hm
  refine ⟨⟨m, htext, ?_⟩, hnone _ rfl rfl⟩
  rw [List.forall_mem_cons, List.forall_mem_singleton]
  exact ⟨hcopies _ .written, hcopies m (.read .written List.mem_cons_self htext)⟩

end Quality

end Parley
