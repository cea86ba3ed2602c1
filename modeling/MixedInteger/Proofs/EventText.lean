import MixedInteger.Proofs.JsonText
import MixedInteger.Telemetry.Event

/-!
# Events and their texts

An event is one JSON object on one line, and reading that line gives the event back: its words, its
direction, its kind, and the payload of that kind, a missing bound included. Nothing is assumed of
its numbers but that each is finite and that its own digits are read as itself.

* `Event.Portable`: words that fit, numbers that are finite and read back;
* `EventKind.read?_fields`: each kind finds its payload behind its own name;
* `Event.toJson_lossless`: an event survives being written and read.
-/

namespace MixedInteger

open Json Scalar

/-! ## Kinds -/

namespace EventKind

/-- The numbers of an event that need not be whole. -/
def numbers {α : Type} : EventKind α → List α
  | .pregnant b | .candidate b => b.toList
  | .integral b => [b]
  | .infeasible | .fathomed => []
  | .branched b sum _ => [b, sum]

def counts {α : Type} : EventKind α → List Nat
  | .branched _ _ count => [count]
  | _ => []

/-- Words fit, and numbers are finite and read back. -/
structure Portable (k : EventKind Float) : Prop where
  counts : ∀ n ∈ k.counts, n < Number.wordLimit
  finite : ∀ x ∈ k.numbers, isFinite x = true
  readBack : ∀ x ∈ k.numbers, ReadsBack x

theorem Portable.readAs {k : EventKind Float} (h : k.Portable) :
    ∀ x ∈ k.numbers, ReadAs (json x) asFloat? (some x) :=
  fun x hx => (h.readBack x hx).readAs_finite (h.finite x hx)

/-- The name of the kind and the payload that belongs to it. -/
def fields (k : EventKind Float) : List (String × String) :=
  ("event", plainString k.tag) :: k.payload

theorem nodup_fields (k : EventKind Float) : (k.fields.map Prod.fst).Nodup := by
  cases k <;> simp [fields, payload]

theorem plain_fields (k : EventKind Float) : ∀ f ∈ k.fields, Plain f.1 := by
  cases k <;> simp [fields, payload, Plain]

theorem not_header (k : EventKind Float) : ∀ f ∈ k.fields, f.1 ∉ Event.headerNames := by
  cases k <;> simp [fields, payload, Event.headerNames]

theorem plain_tag (k : EventKind Float) : Plain k.tag := by
  cases k <;> simp [Plain, tag]

theorem readAs_tag (k : EventKind Float) : ReadAs (plainString k.tag) readTag? (some k.tag) :=
  readAs_plainString k.plain_tag rfl

theorem readAs_bound {b : Option Float}
    (h : ∀ x ∈ b.toList, ReadAs (json x) asFloat? (some x)) :
    ReadAs (boundText b) (orNull? asFloat?) (some b) := by
  have htext : boundText b = b.elim "null" json := by cases b <;> rfl
  rw [htext]
  exact readAs_option rfl fun x hx => h x (Option.mem_toList.2 hx)

theorem isBuffered_of_asFloat? {v : Json} {x : Float} (h : asFloat? v = some x) :
    v.isBuffered = true := by
  cases v <;> simp_all [asFloat?, isBuffered, isDefinite, depth, nestingLimit]

theorem isBuffered_of_asWord? {v : Json} {n : Nat} (h : asWord? v = some n) :
    v.isBuffered = true := by
  cases v <;> simp_all [asWord?, isBuffered, isDefinite, depth, nestingLimit]

/-- Each kind finds its payload behind its own name. -/
theorem read?_fields {k : EventKind Float} (h : k.Portable) :
    EventKind.read? (k.fields.map named) = some k := by
  have hkeys := k.nodup_fields
  have hnumbers := h.readAs
  have hcounts := h.counts
  have htag := required?_named hkeys "event" (by simp [fields]) k.readAs_tag
  simp only [EventKind.read?, htag, Option.bind_eq_bind, Option.bind_some]
  cases k with
  | pregnant b | candidate b =>
    have hbound := field?_named hkeys "lp_bound" (by simp [fields, payload])
      (readAs_bound hnumbers) none
    simp [tag, hbound]
  | integral b =>
    have hbound := required?_named hkeys "lp_bound" (by simp [fields, payload])
      (hnumbers b (by simp [numbers]))
    simp [tag, hbound]
  | infeasible | fathomed => rfl
  | branched b sum count =>
    have hbound := required?_named hkeys "lp_bound" (by simp [fields, payload])
      (hnumbers b (by simp [numbers]))
    have hsum := required?_named hkeys "sum_of_fractional_parts" (by simp [fields, payload])
      (hnumbers sum (by simp [numbers]))
    have hcount := required?_named hkeys "violated_count" (by simp [fields, payload])
      (readAs_word (hcounts count (by simp [counts])))
    simp [tag, hbound, hsum, hcount]

/-- A text whose value can be kept until the kind of the event is known. -/
structure Kept (text : String) : Prop where
  written : Written text (valueOf text)
  buffered : (valueOf text).isBuffered = true

theorem kept_of_written {text : String} {v : Json} (h : Written text v)
    (hv : v.isBuffered = true) : Kept text where
  written := h.valueOf_eq.symm ▸ h
  buffered := h.valueOf_eq.symm ▸ hv

theorem kept_number {x : Float} (h : ReadAs (json x) asFloat? (some x)) : Kept (json x) :=
  ⟨h.written, isBuffered_of_asFloat? h.read_eq⟩

theorem kept_word {n : Nat} (h : n < Number.wordLimit) : Kept (toString n) :=
  ⟨(readAs_word h).written, isBuffered_of_asWord? (readAs_word h).read_eq⟩

theorem kept_bound {b : Option Float} (h : ∀ x ∈ b.toList, ReadAs (json x) asFloat? (some x)) :
    Kept (boundText b) := by
  cases b with
  | none => exact kept_of_written written_null rfl
  | some x => exact kept_number (h x (by simp))

theorem kept_fields {k : EventKind Float} (h : k.Portable) : ∀ f ∈ k.fields, Kept f.2 := by
  have hnumbers := h.readAs
  have hcounts := h.counts
  have htag := kept_of_written (written_plainString k.plain_tag) rfl
  cases k with
  | pregnant b | candidate b =>
    simpa [fields, payload] using ⟨htag, kept_bound hnumbers⟩
  | integral b =>
    simpa [fields, payload] using ⟨htag, kept_number (hnumbers b (by simp [numbers]))⟩
  | infeasible | fathomed => simpa [fields, payload] using htag
  | branched b sum count =>
    simpa [fields, payload] using ⟨htag, kept_number (hnumbers b (by simp [numbers])),
      kept_number (hnumbers sum (by simp [numbers])), kept_word (hcounts count (by simp [counts]))⟩

end EventKind

/-! ## Whole events -/

namespace Event

structure Portable (e : Event Float) : Prop where
  timestamp : e.timestampMs < Number.wordLimit
  node : e.node < Number.wordLimit
  parent : ∀ p ∈ e.parent, p < Number.wordLimit
  kind : e.kind.Portable

/-- The fields that every event has, the kind apart. -/
def header (e : Event Float) : List (String × String) :=
  [("timestamp_ms", toString e.timestampMs),
    ("node_id", toString e.node),
    ("parent_id", e.parent.elim "null" toString),
    ("direction", plainString e.direction.letter)]

def fields (e : Event Float) : List (String × String) := e.header ++ e.kind.fields

theorem readAs_parent {parent : Option NodeId} (h : ∀ p ∈ parent, p < Number.wordLimit) :
    ReadAs (parent.elim "null" toString) (orNull? asWord?) (some parent) :=
  readAs_option rfl fun p hp => readAs_word (h p hp)

theorem readAs_direction (d : Direction) :
    ReadAs (plainString d.letter) Direction.read? (some d) := by
  cases d <;> exact readAs_plainString (by simp [Plain, Direction.letter]) rfl

theorem nodup_fields (e : Event Float) : (e.fields.map Prod.fst).Nodup := by
  cases hkind : e.kind <;>
    simp [fields, header, EventKind.fields, EventKind.payload, hkind]

theorem legible_fields {e : Event Float} (h : e.Portable) : ∀ f ∈ e.fields, Legible f := by
  have hplain : ∀ f ∈ e.header, Plain f.1 := by simp [header, Plain]
  have htexts : ∀ f ∈ e.header, Written f.2 (valueOf f.2) := by
    simpa [header] using ⟨(readAs_word h.timestamp).written, (readAs_word h.node).written,
      (readAs_parent h.parent).written, (readAs_direction e.direction).written⟩
  intro f hf
  obtain hf | hf := List.mem_append.1 hf
  · exact ⟨hplain f hf, htexts f hf⟩
  · exact ⟨e.kind.plain_fields f hf, (EventKind.kept_fields h.kind f hf).written⟩

/-- What is not in the header is the kind with its payload. -/
theorem filter_fields (e : Event Float) :
    (e.fields.map named).filter (fun f => !headerNames.contains f.1) = e.kind.fields.map named := by
  have hheader : (e.header.map named).filter (fun f => !headerNames.contains f.1) = [] := by
    simp [header, named, headerNames]
  rw [fields, List.map_append, List.filter_append, hheader, List.nil_append, List.filter_eq_self]
  intro f hf
  obtain ⟨g, hg, rfl⟩ := List.mem_map.1 hf
  simpa [named] using e.kind.not_header g hg

/-- The object of an event is read as the event. -/
theorem read?_fields {e : Event Float} (h : e.Portable) :
    Event.read? (.object (e.fields.map entry)) = some e := by
  have hkeys := e.nodup_fields
  have hkept : (e.kind.fields.map named).all (fun f => f.2.isBuffered) = true := by
    simpa [named] using fun key text hf => (EventKind.kept_fields h.kind (key, text) hf).buffered
  have htimestamp := required?_named hkeys "timestamp_ms" (by simp [fields, header])
    (readAs_word h.timestamp)
  have hnode := required?_named hkeys "node_id" (by simp [fields, header]) (readAs_word h.node)
  have hparent := field?_named hkeys "parent_id" (by simp [fields, header])
    (readAs_parent h.parent) none
  have hdirection := required?_named hkeys "direction" (by simp [fields, header])
    (readAs_direction e.direction)
  -- The header is read from all fields, the kind from those that are not in the header.
  simp only [Event.read?, members?_entries, Option.bind_eq_bind, Option.bind_some, filter_fields,
    hkept, htimestamp, hnode, hparent, hdirection, EventKind.read?_fields h.kind]
  rfl

theorem toJson_eq (e : Event Float) : e.toJson = objectText e.fields := by
  obtain ⟨timestamp, node, parent, direction, kind⟩ := e
  cases parent <;> rfl

theorem Portable.written {e : Event Float} (h : e.Portable) :
    Written e.toJson (.object (e.fields.map entry)) := by
  rw [toJson_eq]
  exact written_objectText (legible_fields h)

theorem Portable.ofJson?_eq {e : Event Float} (h : e.Portable) : ofJson? e.toJson = some e := by
  rw [ofJson?, h.written.parse?_eq, Option.bind_some, read?_fields h]

/-- Writing an event loses nothing. Its text is one JSON object on one line, and is read as the same
event: the same kind with the same payload, a missing bound as a missing one. So no two events have
the same text. -/
theorem toJson_lossless (e : Event Float) (h : e.Portable) :
    (∃ ms, parse? e.toJson = some (.object ms)) ∧ '\n' ∉ e.toJson.toList ∧
      ofJson? e.toJson = some e ∧
      ∀ e' : Event Float, e'.Portable → e'.toJson = e.toJson → e' = e := by
  refine ⟨⟨_, h.written.parse?_eq⟩, h.written.oneLine, h.ofJson?_eq, ?_⟩
  intro e' h' htext
  have hsame := h'.ofJson?_eq
  rw [htext, h.ofJson?_eq] at hsame
  exact (Option.some.inj hsame).symm

/-- A node branched on, with the largest words. -/
def branchedSample : Event Float :=
  ⟨Number.wordLimit - 1, Number.wordLimit - 2, some 7, .left, .branched (-20.5) 0.75 2⟩

theorem toJson_lossless_branched :
    branchedSample.Portable ∧ '\n' ∉ branchedSample.toJson.toList ∧
      ofJson? branchedSample.toJson = some branchedSample := by
  have hkind : branchedSample.kind.Portable :=
    ⟨by decide, by decide +kernel, by decide +kernel⟩
  have h : branchedSample.Portable := ⟨by decide, by decide, by decide, hkind⟩
  obtain ⟨-, hline, hread, -⟩ := toJson_lossless branchedSample h
  exact ⟨h, hline, hread⟩

end Event

end MixedInteger
