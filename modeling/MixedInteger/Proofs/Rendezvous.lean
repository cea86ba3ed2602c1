import Mathlib.Data.List.Basic
import Mathlib.Data.List.Induction
import MixedInteger.Telemetry

/-!
# Rendezvous with an observer

Telemetry uses its link for one thing only: to receive a message and then to send an event. To say
in which order that happens, a link can be recorded, which changes nothing about its answers.

* `Recorded`: a link whose calls are written down;
* `Telemetry.emitAll`: what telemetry has become after a list of events;
* `Telemetry.Follows`: it has delivered the first of these events, in order, one after each message
  received, and has called its link no more after the first call that failed;
* `Telemetry.follows_emitAll`: it always has.
-/

namespace MixedInteger

/-- A call of a link and how it went. -/
inductive LinkCall where
  | receive (outcome : Except LinkError String)
  | send (message : String) (outcome : Except LinkError Unit)

def LinkCall.failed : LinkCall → Bool
  | .receive (.error _) | .send _ (.error _) => true
  | .receive (.ok _) | .send _ (.ok _) => false

/-- A link whose calls are written down, the first one first. -/
structure Recorded (L : Type) where
  link : L
  calls : List LinkCall

/-- A link before its first call. -/
def Recorded.ofLink {L : Type} (link : L) : Recorded L := ⟨link, []⟩

instance {L : Type} [Link L] : Link (Recorded L) where
  receive r :=
    let (outcome, link) := Link.receive r.link
    (outcome, ⟨link, r.calls ++ [.receive outcome]⟩)
  send r message :=
    let (outcome, link) := Link.send r.link message
    (outcome, ⟨link, r.calls ++ [.send message outcome]⟩)

/-- The calls are those of complete exchanges: something is received, then a message is sent. -/
inductive Exchanges : List String → List LinkCall → Prop where
  | none : Exchanges [] []
  | one {messages : List String} {calls : List LinkCall} {reply message : String}
      (earlier : Exchanges messages calls) :
      Exchanges (messages ++ [message])
        (calls ++ [.receive (.ok reply), .send message (.ok ())])

/-- The calls are those of an exchange that failed before the message was delivered. -/
inductive Breaks (message : String) : List LinkCall → Prop where
  | receiving (e : LinkError) : Breaks message [.receive (.error e)]
  | sending (reply : String) (e : LinkError) :
      Breaks message [.receive (.ok reply), .send message (.error e)]

theorem Exchanges.failed_eq {messages : List String} {calls : List LinkCall}
    (h : Exchanges messages calls) : ∀ call ∈ calls, call.failed = false := by
  induction h with
  | none => simp
  | one _ ih =>
    intro call hcall
    rcases List.mem_append.mp hcall with hold | hnew
    · exact ih call hold
    · rcases List.mem_pair.mp hnew with rfl | rfl <;> rfl

theorem Breaks.exists_failed {message : String} {calls : List LinkCall}
    (h : Breaks message calls) : ∃ call ∈ calls, call.failed = true := by
  cases h with
  | receiving e => exact ⟨_, List.mem_singleton_self _, rfl⟩
  | sending reply e => exact ⟨_, List.mem_pair.mpr (.inr rfl), rfl⟩

namespace Telemetry

variable {α : Type} [Scalar α] {L : Type} [Link L]

/-- Telemetry after the given events, in order. -/
def emitAll (t : Telemetry L) (events : List (Event α)) : Telemetry L :=
  events.foldl (fun t event => (t.emit event).1) t

@[simp] theorem emitAll_nil (t : Telemetry L) : t.emitAll ([] : List (Event α)) = t := rfl

@[simp] theorem emitAll_cons (t : Telemetry L) (event : Event α) (events : List (Event α)) :
    t.emitAll (event :: events) = (t.emit event).1.emitAll events := rfl

theorem emitAll_append (t : Telemetry L) (events more : List (Event α)) :
    t.emitAll (events ++ more) = (t.emitAll events).emitAll more :=
  List.foldl_append

theorem emit_disabled {t : Telemetry L} (h : t.enabled = false) (event : Event α) :
    t.emit event = (t, []) := by
  unfold emit
  rw [h]
  rfl

theorem emitAll_disabled {t : Telemetry L} (h : t.enabled = false) (events : List (Event α)) :
    t.emitAll events = t := by
  induction events with
  | nil => rfl
  | cons event events ih => rw [emitAll_cons, emit_disabled h, ih]

/-- A delivery succeeds and is counted, or fails and is the last one. -/
theorem emit_cases {t : Telemetry L} (h : t.enabled = true) (event : Event α) :
    (∃ link, deliver t.link event.toJson = (.ok (), link) ∧
      (t.emit event).1 = ⟨link, true, t.sent + 1⟩) ∨
    (∃ e link, deliver t.link event.toJson = (.error e, link) ∧
      (t.emit event).1 = ⟨link, false, t.sent⟩) := by
  unfold emit
  rw [if_pos h]
  obtain ⟨outcome, link⟩ := deliver t.link event.toJson
  cases outcome with
  | ok delivered => exact .inl ⟨link, rfl, by rw [h]⟩
  | error e => exact .inr ⟨e, link, rfl, rfl⟩

/-- While telemetry is on, it has delivered all that it was given. -/
theorem sent_emitAll {t : Telemetry L} {events : List (Event α)}
    (h : (t.emitAll events).enabled = true) : (t.emitAll events).sent = t.sent + events.length := by
  induction events generalizing t with
  | nil => rfl
  | cons event events ih =>
    rw [emitAll_cons] at h ⊢
    cases hon : t.enabled with
    | false =>
      rw [emit_disabled hon, emitAll_disabled hon, hon] at h
      cases h
    | true =>
      rw [ih h]
      rcases emit_cases hon event with ⟨link, -, hemit⟩ | ⟨e, link, -, hemit⟩
      · rw [hemit, List.length_cons]
        dsimp only
        omega
      · rw [hemit, emitAll_disabled rfl] at h
        cases h

/-- The calls so far are the exchanges that delivered the first `sent` of these events, and, once
telemetry is off, a last one that failed with the event after them. -/
def Follows (t : Telemetry (Recorded L)) (events : List (Event α)) : Prop :=
  ∃ done, Exchanges ((events.take t.sent).map Event.toJson) done ∧
    ((t.enabled = true ∧ t.sent = events.length ∧ t.link.calls = done) ∨
      (t.enabled = false ∧ ∃ event broken, events[t.sent]? = some event ∧
        Breaks event.toJson broken ∧ t.link.calls = done ++ broken))

/-- What a recorded link has been asked for a delivery. -/
theorem deliver_recorded (r : Recorded L) (message : String) :
    (∃ reply link, deliver r message = (.ok (),
      ⟨link, r.calls ++ [.receive (.ok reply), .send message (.ok ())]⟩)) ∨
    (∃ e link broken, Breaks message broken ∧
      deliver r message = (.error e, ⟨link, r.calls ++ broken⟩)) := by
  unfold deliver
  simp only [Link.receive, Link.send]
  obtain ⟨outcome, link⟩ := Link.receive r.link
  cases outcome with
  | error e => exact .inr ⟨e, link, _, .receiving e, rfl⟩
  | ok reply =>
    dsimp only
    obtain ⟨outcome', link'⟩ := Link.send link message
    rw [List.append_assoc]
    cases outcome' with
    | error e => exact .inr ⟨e, link', _, .sending reply e, rfl⟩
    | ok delivered => exact .inl ⟨reply, link', rfl⟩

/-- One more event. -/
theorem Follows.emit {t : Telemetry (Recorded L)} {events : List (Event α)} (h : t.Follows events)
    (event : Event α) : (t.emit event).1.Follows (events ++ [event]) := by
  obtain ⟨done, hdone, ⟨hon, hsent, hcalls⟩ | ⟨hoff, lost, broken, hlost, hbreaks, hcalls⟩⟩ := h
  · rw [hsent, List.take_length] at hdone
    rcases emit_cases hon event with ⟨link, hdeliver, hemit⟩ | ⟨e, link, hdeliver, hemit⟩
    · rcases deliver_recorded t.link event.toJson with
        ⟨reply, link', hr⟩ | ⟨e, link', broken, -, hr⟩
      · cases hdeliver.symm.trans hr
        rw [hemit, hcalls, hsent]
        refine ⟨_, ?_, .inl ⟨rfl, by simp, rfl⟩⟩
        rw [List.take_of_length_le (by simp), List.map_append]
        exact hdone.one
      · cases hdeliver.symm.trans hr
    · rcases deliver_recorded t.link event.toJson with
        ⟨reply, link', hr⟩ | ⟨e', link', broken, hbreaks, hr⟩
      · cases hdeliver.symm.trans hr
      · cases hdeliver.symm.trans hr
        rw [hemit, hcalls, hsent]
        refine ⟨done, ?_, .inr ⟨rfl, event, broken, by simp, hbreaks, rfl⟩⟩
        rw [List.take_left]
        exact hdone
  · -- Nothing happens any more; the event that was lost stays where it was.
    rw [emit_disabled hoff]
    dsimp only
    have hlt : t.sent < events.length := (List.getElem?_eq_some_iff.mp hlost).1
    refine ⟨done, ?_, .inr ⟨hoff, lost, broken, ?_, hbreaks, hcalls⟩⟩
    · rw [List.take_append_of_le_length (by omega)]
      exact hdone
    · rw [List.getElem?_append_left hlt]
      exact hlost

/-- However the link fails, telemetry follows the events that it is given. -/
theorem follows_emitAll (link : L) (events : List (Event α)) :
    ((new (Recorded.ofLink link)).emitAll events).Follows events := by
  induction events using List.reverseRecOn with
  | nil => exact ⟨[], .none, .inl ⟨rfl, rfl, rfl⟩⟩
  | append_singleton events event ih =>
    rw [emitAll_append]
    exact ih.emit event

omit [Link L] in
/-- No call fails exactly if every event is delivered. -/
theorem Follows.failed_iff {t : Telemetry (Recorded L)} {events : List (Event α)}
    (h : t.Follows events) :
    (∀ call ∈ t.link.calls, call.failed = false) ↔ t.sent = events.length := by
  obtain ⟨done, hdone, ⟨-, hsent, hcalls⟩ | ⟨-, lost, broken, hlost, hbreaks, hcalls⟩⟩ := h
  · rw [hcalls]
    exact ⟨fun _ => hsent, fun _ => hdone.failed_eq⟩
  · constructor
    · intro hall
      obtain ⟨call, hcall, hfailed⟩ := hbreaks.exists_failed
      rw [hall call (hcalls ▸ List.mem_append_right _ hcall)] at hfailed
      cases hfailed
    · intro hsent
      rw [hsent, List.getElem?_eq_none (Nat.le_refl _)] at hlost
      cases hlost

end Telemetry

end MixedInteger
