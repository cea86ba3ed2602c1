import Mathlib.Data.List.TakeDrop
import MixedInteger.Proofs.Rendezvous

/-!
# Making and delivering events

An event is made only where it is delivered, by something that may look at what is around and change
it. So it matters for the rest of the program whether it is made at all, and it is the calls of the
link that tell: each event made has a receive, and the send after it, if there is one, carries it.

* `Telemetry.made`: what a list of makers makes, each when it has its turn;
* `Telemetry.emitEach`: telemetry and what is around after a list of makers;
* `LinkCall.Suits`: the order in which the calls stand;
* `Telemetry.Disciplined`: what holds of telemetry after a list of makers;
* `Telemetry.emitEach_disciplined`: whichever calls of the link fail.
-/

namespace MixedInteger

/-! ## The order of the calls -/

namespace LinkCall

def isReceive : LinkCall → Bool
  | receive _ => true
  | send _ _ => false

/-- A send that succeeded. -/
def delivers : LinkCall → Bool
  | send _ (.ok _) => true
  | send _ (.error _) | receive _ => false

/-- Receives and sends take turns, and what is sent in turn `i` is the message numbered `i`. -/
def Suits (messages : List String) (place : Nat) : LinkCall → Prop
  | receive _ => place % 2 = 0
  | send message _ => place % 2 = 1 ∧ messages[place / 2]? = some message

theorem Suits.append {messages : List String} {place : Nat} {call : LinkCall}
    (h : call.Suits messages place) (more : List String) : call.Suits (messages ++ more) place := by
  cases call with
  | receive outcome => exact h
  | send message outcome =>
    obtain ⟨hodd, hmessage⟩ := h
    refine ⟨hodd, ?_⟩
    rw [List.getElem?_append_left (List.getElem?_eq_some_iff.mp hmessage).1]
    exact hmessage

/-- After complete exchanges the turns go on as from the start. -/
theorem Suits.after {messages : List String} {place : Nat} {call : LinkCall}
    (h : call.Suits messages place) (earlier : List String) :
    call.Suits (earlier ++ messages) (2 * earlier.length + place) := by
  cases call with
  | receive outcome =>
    change (2 * earlier.length + place) % 2 = 0
    rw [Nat.mul_add_mod]
    exact h
  | send message outcome =>
    obtain ⟨hodd, hmessage⟩ := h
    refine ⟨by rw [Nat.mul_add_mod]; exact hodd, ?_⟩
    rw [Nat.mul_add_div Nat.two_pos, List.getElem?_append_right (Nat.le_add_right _ _),
      Nat.add_sub_cancel_left]
    exact hmessage

end LinkCall

/-- Every call stands where it may. -/
def Orderly (messages : List String) (calls : List LinkCall) : Prop :=
  ∀ (place : Nat) (call : LinkCall), calls[place]? = some call → call.Suits messages place

theorem Orderly.append {messages more : List String} {calls later : List LinkCall}
    (h : Orderly messages calls) (hlength : calls.length = 2 * messages.length)
    (hlater : Orderly more later) : Orderly (messages ++ more) (calls ++ later) := by
  intro place call hcall
  by_cases hold : place < calls.length
  · rw [List.getElem?_append_left hold] at hcall
    exact (h place call hcall).append more
  · rw [List.getElem?_append_right (by omega)] at hcall
    have hsuits := (hlater _ call hcall).after messages
    rwa [← hlength, Nat.add_sub_cancel' (by omega)] at hsuits

theorem Orderly.mono {messages more : List String} {calls : List LinkCall}
    (h : Orderly messages calls) (hmore : messages <+: more) : Orderly more calls := by
  obtain ⟨rest, rfl⟩ := hmore
  exact fun place call hcall => (h place call hcall).append rest

theorem orderly_pair (message : String) (answer : Except LinkError String)
    (outcome : Except LinkError Unit) :
    Orderly [message] [.receive answer, .send message outcome] := by
  intro place call hcall
  match place with
  | 0 => cases hcall; rfl
  | 1 => cases hcall; exact ⟨rfl, rfl⟩
  | _ + 2 => cases hcall

namespace Exchanges

variable {messages : List String} {calls : List LinkCall}

theorem length_calls (h : Exchanges messages calls) : calls.length = 2 * messages.length := by
  induction h with
  | none => rfl
  | one _ ih =>
    rw [List.length_append, List.length_append, ih]
    rfl

theorem orderly (h : Exchanges messages calls) : Orderly messages calls := by
  induction h with
  | none => exact fun place call hcall => nomatch hcall
  | one earlier ih => exact ih.append earlier.length_calls (orderly_pair _ _ _)

/-- What one of the two calls of each exchange has is counted once a message. -/
theorem countP_eq (h : Exchanges messages calls) (p : LinkCall → Bool)
    (hp : ∀ reply message, [.receive (.ok reply), .send message (.ok ())].countP p = 1) :
    calls.countP p = messages.length := by
  induction h with
  | none => rfl
  | one _ ih =>
    rw [List.countP_append, ih, hp, List.length_append]
    rfl

end Exchanges

namespace Breaks

variable {message : String} {calls : List LinkCall}

theorem orderly (h : Breaks message calls) : Orderly [message] calls := by
  cases h with
  | receiving e =>
    intro place call hcall
    match place with
    | 0 => cases hcall; rfl
    | _ + 1 => cases hcall
  | sending reply e => exact orderly_pair _ _ _

theorem countP_delivers (h : Breaks message calls) : calls.countP LinkCall.delivers = 0 := by
  cases h <;> rfl

theorem countP_isReceive (h : Breaks message calls) : calls.countP LinkCall.isReceive = 1 := by
  cases h <;> rfl

theorem length_le (h : Breaks message calls) : calls.length ≤ 2 := by
  cases h with
  | receiving e => exact Nat.le_succ 1
  | sending reply e => exact Nat.le_refl _

/-- It is the last call that fails. -/
theorem dropLast_failed (h : Breaks message calls) :
    calls ≠ [] ∧ ∀ call ∈ calls.dropLast, call.failed = false := by
  cases h with
  | receiving e => exact ⟨nofun, nofun⟩
  | sending reply e =>
    refine ⟨nofun, fun call hcall => ?_⟩
    cases List.mem_singleton.mp hcall
    rfl

end Breaks

/-! ## Makers -/

namespace Telemetry

variable {α : Type} {σ : Type}

/-- The events that are made when each has its turn, and what is around then. -/
def made : List (σ → Event α × σ) → σ → List (Event α) × σ
  | [], around => ([], around)
  | make :: makers, around =>
    let (event, around) := make around
    let (events, around) := made makers around
    (event :: events, around)

theorem made_append (makers more : List (σ → Event α × σ)) (around : σ) :
    made (makers ++ more) around
      = ((made makers around).1 ++ (made more (made makers around).2).1,
        (made more (made makers around).2).2) := by
  induction makers generalizing around with
  | nil => rfl
  | cons make makers ih => simp only [List.cons_append, made, ih]

theorem length_made (makers : List (σ → Event α × σ)) (around : σ) :
    (made makers around).1.length = makers.length := by
  induction makers generalizing around with
  | nil => rfl
  | cons make makers ih => simp only [made, List.length_cons, ih]

variable [Scalar α] {L : Type} [Link L]

/-- Telemetry and what is around after each of the makers has had its turn. -/
def emitEach (t : Telemetry L) (makers : List (σ → Event α × σ)) (around : σ) : Telemetry L × σ :=
  makers.foldl
    (fun (t, around) make =>
      let ((t, _), around) := t.emitFrom make around
      (t, around))
    (t, around)

theorem emitEach_append (t : Telemetry L) (makers more : List (σ → Event α × σ)) (around : σ) :
    t.emitEach (makers ++ more) around
      = (t.emitEach makers around).1.emitEach more (t.emitEach makers around).2 :=
  List.foldl_append

theorem emitFrom_enabled {t : Telemetry L} (h : t.enabled = true) (make : σ → Event α × σ)
    (around : σ) : t.emitFrom make around = (t.emit (make around).1, (make around).2) := by
  unfold emitFrom
  rw [if_pos h]

theorem emitFrom_disabled {t : Telemetry L} (h : t.enabled = false) (make : σ → Event α × σ)
    (around : σ) : t.emitFrom make around = ((t, []), around) := by
  unfold emitFrom
  rw [h]
  rfl

/-- Once telemetry is off nothing is made and nothing is called any more. -/
theorem emitEach_disabled {t : Telemetry L} (h : t.enabled = false)
    (makers : List (σ → Event α × σ)) (around : σ) : t.emitEach makers around = (t, around) := by
  induction makers with
  | nil => rfl
  | cons make makers ih =>
    change (t.emitFrom make around).1.1.emitEach makers (t.emitFrom make around).2 = _
    rw [emitFrom_disabled h]
    exact ih

theorem emitEach_singleton {t : Telemetry L} (h : t.enabled = true) (make : σ → Event α × σ)
    (around : σ) : t.emitEach [make] around = ((t.emit (make around).1).1, (make around).2) := by
  change ((t.emitFrom make around).1.1, (t.emitFrom make around).2) = _
  rw [emitFrom_enabled h]

/-- For telemetry alone, the events might as well have been there before. -/
theorem emitEach_fst (t : Telemetry L) (makers : List (σ → Event α × σ)) (around : σ) :
    (t.emitEach makers around).1 = t.emitAll (made makers around).1 := by
  induction makers generalizing t around with
  | nil => rfl
  | cons make makers ih =>
    change ((t.emitFrom make around).1.1.emitEach makers (t.emitFrom make around).2).1 = _
    cases hon : t.enabled with
    | true =>
      rw [emitFrom_enabled hon, ih]
      rfl
    | false => rw [emitFrom_disabled hon, emitEach_disabled hon, emitAll_disabled hon]

/-! ## The discipline -/

/-- While telemetry is on an event makes one exchange, or breaks it. -/
theorem emit_recorded {t : Telemetry (Recorded L)} (hon : t.enabled = true) (event : Event α) :
    ∃ asked, (t.emit event).1.link.calls = t.link.calls ++ asked ∧
      (Exchanges [event.toJson] asked ∨ Breaks event.toJson asked) := by
  rcases emit_cases hon event with ⟨link, hdeliver, hemit⟩ | ⟨e, link, hdeliver, hemit⟩ <;>
    rcases deliver_recorded t.link event.toJson with
      ⟨reply, link', hr⟩ | ⟨e', link', broken, hbreaks, hr⟩ <;>
    cases hdeliver.symm.trans hr
  · exact ⟨_, congrArg (·.link.calls) hemit, .inl (.one .none)⟩
  · exact ⟨_, congrArg (·.link.calls) hemit, .inr hbreaks⟩

theorem calls_prefix_emit (t : Telemetry (Recorded L)) (event : Event α) :
    t.link.calls <+: (t.emit event).1.link.calls := by
  cases hon : t.enabled with
  | false => exact ⟨[], by rw [emit_disabled hon, List.append_nil]⟩
  | true =>
    obtain ⟨asked, hcalls, -⟩ := emit_recorded hon event
    rw [hcalls]
    exact List.prefix_append _ _

/-- While telemetry is on, a message is to be received for every event. -/
theorem countP_isReceive_emit {t : Telemetry (Recorded L)} (hon : t.enabled = true)
    (event : Event α) : (t.emit event).1.link.calls.countP LinkCall.isReceive
      = t.link.calls.countP LinkCall.isReceive + 1 := by
  obtain ⟨asked, hcalls, hexchanges | hbreaks⟩ := emit_recorded hon event
  · rw [hcalls, List.countP_append, hexchanges.countP_eq _ fun _ _ => rfl]
    rfl
  · rw [hcalls, List.countP_append, hbreaks.countP_isReceive]

theorem calls_prefix_emitAll (t : Telemetry (Recorded L)) (events : List (Event α)) :
    t.link.calls <+: (t.emitAll events).link.calls := by
  induction events generalizing t with
  | nil => exact List.prefix_rfl
  | cons event events ih => exact (calls_prefix_emit t event).trans (ih _)

section Follows

omit [Link L]

variable {t : Telemetry (Recorded L)} {events : List (Event α)}

theorem Follows.orderly (h : t.Follows events) :
    Orderly (events.map Event.toJson) t.link.calls := by
  obtain ⟨done, hdone, ⟨-, hsent, hcalls⟩ | ⟨-, lost, broken, hlost, hbreaks, hcalls⟩⟩ := h
  · rw [hsent, List.take_length] at hdone
    rw [hcalls]
    exact hdone.orderly
  · have hupto := (List.take_prefix (t.sent + 1) events).map Event.toJson
    rw [List.take_add_one, hlost, Option.toList_some, List.map_append] at hupto
    rw [hcalls]
    exact (hdone.orderly.append hdone.length_calls hbreaks.orderly).mono hupto

/-- The sends that succeeded are the events delivered. -/
theorem Follows.countP_delivers (h : t.Follows events) :
    t.link.calls.countP LinkCall.delivers = t.sent := by
  obtain ⟨done, hdone, ⟨-, hsent, hcalls⟩ | ⟨-, lost, broken, hlost, hbreaks, hcalls⟩⟩ := h
  · rw [hcalls, hdone.countP_eq _ fun _ _ => rfl, List.length_map, hsent, List.take_length]
  · have hlt := (List.getElem?_eq_some_iff.mp hlost).1
    rw [hcalls, List.countP_append, hdone.countP_eq _ fun _ _ => rfl, hbreaks.countP_delivers,
      List.length_map, List.length_take]
    omega

theorem Follows.disabled_iff (h : t.Follows events) :
    t.enabled = false ↔ ∃ call ∈ t.link.calls, call.failed = true := by
  obtain ⟨done, hdone, ⟨hon, -, hcalls⟩ | ⟨hoff, lost, broken, -, hbreaks, hcalls⟩⟩ := h
  · rw [hon, hcalls]
    refine ⟨nofun, fun ⟨call, hcall, hfailed⟩ => ?_⟩
    rw [hdone.failed_eq call hcall] at hfailed
    cases hfailed
  · obtain ⟨call, hcall, hfailed⟩ := hbreaks.exists_failed
    rw [hcalls]
    exact ⟨fun _ => ⟨call, List.mem_append_right _ hcall, hfailed⟩, fun _ => hoff⟩

/-- No call comes after one that fails. -/
theorem Follows.dropLast_failed (h : t.Follows events) :
    ∀ call ∈ t.link.calls.dropLast, call.failed = false := by
  obtain ⟨done, hdone, ⟨-, -, hcalls⟩ | ⟨-, lost, broken, -, hbreaks, hcalls⟩⟩ := h
  · rw [hcalls]
    exact fun call hcall => hdone.failed_eq call (List.dropLast_subset _ hcall)
  · obtain ⟨hne, hbefore⟩ := hbreaks.dropLast_failed
    rw [hcalls, List.dropLast_append_of_ne_nil hne]
    intro call hcall
    rcases List.mem_append.mp hcall with hold | hnew
    · exact hdone.failed_eq call hold
    · exact hbefore call hnew

/-- Each event has two calls while telemetry is on, and no event has more. -/
theorem Follows.length_calls (h : t.Follows events) : t.link.calls.length ≤ 2 * events.length ∧
    (t.enabled = true → t.link.calls.length = 2 * events.length) := by
  obtain ⟨done, hdone, ⟨-, hsent, hcalls⟩ | ⟨hoff, lost, broken, hlost, hbreaks, hcalls⟩⟩ := h
  · rw [hcalls, hdone.length_calls, List.length_map, hsent, List.take_length]
    exact ⟨Nat.le_refl _, fun _ => rfl⟩
  · have hlt := (List.getElem?_eq_some_iff.mp hlost).1
    have htwo := hbreaks.length_le
    rw [hcalls, List.length_append, hdone.length_calls, List.length_map, List.length_take, hoff]
    exact ⟨by omega, nofun⟩

end Follows

/-- How telemetry has used its link, when the makers have had their turns and `left` is around. -/
structure Disciplined (makers : List (σ → Event α × σ)) (around : σ) (t : Telemetry (Recorded L))
    (left : σ) : Prop where
  /-- Receives and sends take turns, and each send carries the event of its maker. -/
  orderly : Orderly ((made makers around).1.map Event.toJson) t.link.calls
  sent : t.sent = t.link.calls.countP LinkCall.delivers
  disabled : t.enabled = false ↔ ∃ call ∈ t.link.calls, call.failed = true
  /-- No call comes after one that fails. -/
  noneAfter : ∀ call ∈ t.link.calls.dropLast, call.failed = false
  complete : t.enabled = true → t.link.calls.length = 2 * makers.length
  /-- A maker made its event exactly if a message was to be received for it. -/
  built : left = (made (makers.take (t.link.calls.countP LinkCall.isReceive)) around).2

theorem follows_emitEach (link : L) (makers : List (σ → Event α × σ)) (around : σ) :
    ((new (Recorded.ofLink link)).emitEach makers around).1.Follows (made makers around).1 := by
  rw [emitEach_fst]
  exact follows_emitAll link _

/-- Only the makers of the events for which a message was to be received have changed what is
around. While telemetry is on these are all. -/
theorem emitEach_makers (link : L) (makers : List (σ → Event α × σ)) (around : σ) :
    let after := (new (Recorded.ofLink link)).emitEach makers around
    let needed := after.1.link.calls.countP LinkCall.isReceive
    after.2 = (made (makers.take needed) around).2 ∧ needed ≤ makers.length ∧
      (after.1.enabled = true → needed = makers.length) := by
  dsimp only
  induction makers using List.reverseRecOn with
  | nil => exact ⟨rfl, Nat.le_refl _, fun _ => rfl⟩
  | append_singleton makers make ih =>
    rw [emitEach_append]
    generalize (new (Recorded.ofLink link)).emitEach makers around = after at ih ⊢
    obtain ⟨t, left⟩ := after
    dsimp only at ih ⊢
    obtain ⟨hleft, hle, hall⟩ := ih
    rw [List.length_append, List.length_singleton]
    cases hon : t.enabled with
    | false =>
      rw [emitEach_disabled hon, List.take_append_of_le_length hle]
      refine ⟨hleft, Nat.le_succ_of_le hle, fun h => ?_⟩
      cases hon.symm.trans h
    | true =>
      rw [hall hon, List.take_length] at hleft
      rw [emitEach_singleton hon, countP_isReceive_emit hon, hall hon]
      refine ⟨?_, Nat.le_refl _, fun _ => rfl⟩
      rw [List.take_of_length_le (by simp), made_append, hleft]
      rfl

/-- Later makers add calls after the two that each of these may have. -/
theorem calls_emitEach_append (link : L) (makers more : List (σ → Event α × σ)) (around : σ) :
    let start := new (Recorded.ofLink link)
    (start.emitEach makers around).1.link.calls
      = (start.emitEach (makers ++ more) around).1.link.calls.take (2 * makers.length) := by
  obtain ⟨hle, hon⟩ := (follows_emitEach link makers around).length_calls
  rw [length_made] at hle hon
  dsimp only
  rw [emitEach_append]
  cases hstate : ((new (Recorded.ofLink link)).emitEach makers around).1.enabled with
  | false => rw [emitEach_disabled hstate, List.take_of_length_le hle]
  | true =>
    rw [← hon hstate, emitEach_fst _ more]
    exact List.prefix_iff_eq_take.mp (calls_prefix_emitAll _ _)

/-- Whichever calls of the link fail, telemetry keeps the discipline. The calls of the first `k`
makers are the first `2 * k`, and once telemetry is off it stays so, with its link and all that is
around as they are. -/
theorem emitEach_disciplined (link : L) (makers : List (σ → Event α × σ)) (around : σ) :
    let start := new (Recorded.ofLink link)
    let after := start.emitEach makers around
    Disciplined makers around after.1 after.2 ∧
    (∀ k, (start.emitEach (makers.take k) around).1.link.calls
      = after.1.link.calls.take (2 * k)) ∧
    (after.1.enabled = false → ∀ more, start.emitEach (makers ++ more) around = after) := by
  intro start after
  have hfollows := follows_emitEach link makers around
  refine ⟨?_, fun k => ?_, fun hoff more => ?_⟩
  · obtain ⟨hbuilt, -, -⟩ := emitEach_makers link makers around
    exact {
      orderly := hfollows.orderly
      sent := hfollows.countP_delivers.symm
      disabled := hfollows.disabled_iff
      noneAfter := hfollows.dropLast_failed
      complete := fun hon => length_made makers around ▸ hfollows.length_calls.2 hon
      built := hbuilt }
  · rcases Nat.le_total k makers.length with hk | hk
    · have htake := calls_emitEach_append link (makers.take k) (makers.drop k) around
      rwa [List.take_append_drop, List.length_take, Nat.min_eq_left hk] at htake
    · have hle := hfollows.length_calls.1
      rw [length_made] at hle
      rw [List.take_of_length_le hk, List.take_of_length_le (Nat.le_trans hle (by omega))]
  · change start.emitEach (makers ++ more) around = start.emitEach makers around
    rw [emitEach_append, emitEach_disabled hoff]

/-- An event about the next node. -/
def fathomNext (node : NodeId) : Event Float × NodeId :=
  (Event.new 0 node none .fathomed, node + 1)

/-- An observer that answers once gets one event; two are made and the third is not. -/
theorem emitEach_disciplined_oneReply :
    let start := new (Recorded.ofLink (⟨1, 0, #[]⟩ : Audience))
    let makers := [fathomNext, fathomNext, fathomNext]
    (start.emitEach makers 1).2 = 3 ∧ (start.emitEach makers 1).1.sent = 1 ∧
    (start.emitEach makers 1).1.link.calls
      = [.receive (.ok ""), .send (fathomNext 1).1.toJson (.ok ()), .receive (.error .closed)] ∧
    (start.emitEach makers 1).1.enabled = false ∧
    ∀ more, start.emitEach (makers ++ more) 1 = start.emitEach makers 1 :=
  ⟨rfl, rfl, rfl, rfl, (emitEach_disciplined _ _ _).2.2 rfl⟩

end Telemetry

end MixedInteger
