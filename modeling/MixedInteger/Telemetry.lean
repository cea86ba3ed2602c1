import MixedInteger.Telemetry.Event
import MixedInteger.Telemetry.Link

/-!
# Telemetry

Every event follows one rendezvous: a message is received from the observer, then the event is sent.
The first failure switches telemetry off for good. Before a search one observer may be waited for.
-/

namespace MixedInteger

inductive LogLevel where
  | info
  | warn
  | error
  deriving DecidableEq, Repr

structure LogRecord where
  level : LogLevel
  text : String
  deriving DecidableEq, Repr

def LogLevel.label : LogLevel → String
  | .info => "INFO"
  | .warn => "WARN"
  | .error => "ERROR"

def LogRecord.line (r : LogRecord) : String := s!"{r.level.label}: {r.text}"

/-- The link stays here after telemetry is switched off, but nothing uses it any more. -/
structure Telemetry (L : Type) where
  link : L
  enabled : Bool
  /-- Events delivered so far. -/
  sent : Nat

namespace Telemetry

def disabled : Telemetry Silence := ⟨⟨⟩, false, 0⟩

variable {L : Type} [Link L]

def new (link : L) : Telemetry L := ⟨link, true, 0⟩

/-- Telemetry that is off, though it could have had an observer. -/
def off : Telemetry (Option L) := ⟨none, false, 0⟩

/-- Waits for an observer on a port, and says in the log how that goes. -/
def listen (net : Network L) (port : UInt16) :
    List LogRecord × Except LinkError (Telemetry (Option L)) :=
  match net.bind port with
  | .error reason => ([], .error (.refused reason))
  | .ok () =>
    let waiting : LogRecord := ⟨.info, s!"Waiting for telemetry observer on port {port}"⟩
    match net.accept port with
    | .error reason => ([waiting], .error (.refused reason))
    | .ok peer =>
      let connected : LogRecord := ⟨.info, s!"Telemetry observer connected from {peer}"⟩
      match net.connect port with
      | .error reason => ([waiting, connected], .error (.refused reason))
      | .ok link => ([waiting, connected], .ok (new (some link)))

/-- One rendezvous. Nothing is sent if nothing could be received. -/
def deliver (link : L) (message : String) : Except LinkError Unit × L :=
  match Link.receive link with
  | (.error e, link) => (.error e, link)
  | (.ok _, link) => Link.send link message

/-- Delivers an event if telemetry is on. A failure is logged and switches it off. -/
def emit {α : Type} [Scalar α] (t : Telemetry L) (event : Event α) : Telemetry L × List LogRecord :=
  if t.enabled then
    match deliver t.link event.toJson with
    | (.ok (), link) => ({ t with link := link, sent := t.sent + 1 }, [])
    | (.error e, link) =>
      ({ t with link := link, enabled := false }, [⟨.warn,
        s!"Telemetry disabled after failing to deliver event for node {event.node}: {e.message}"⟩])
  else (t, [])

/-- Makes an event and delivers it. While telemetry is off no event is made, and what is around
stays as it is. -/
def emitFrom {α σ : Type} [Scalar α] (t : Telemetry L) (make : σ → Event α × σ) (around : σ) :
    (Telemetry L × List LogRecord) × σ :=
  if t.enabled then
    let (event, around) := make around
    (t.emit event, around)
  else ((t, []), around)

def text (t : Telemetry L) : String :=
  s!"Telemetry \x7b enabled: {t.enabled}, sent: {t.sent} \x7d"

end Telemetry

end MixedInteger
