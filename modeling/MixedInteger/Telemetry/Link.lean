/-!
# Links to an observer

A link receives and sends one message at a time, and either may fail. `LineLink` frames messages by
newlines: a message is what comes before the next newline, and carriage returns at its end do not
belong to it.

* `Link`: the operations;
* `LineLink`: messages in a stream of bytes, written to a sink that may have limited room;
* `Audience`: an observer that answers a number of times and then goes away;
* `Silence`: no observer at all;
* `Network`: where observers come from.
-/

namespace MixedInteger

inductive LinkError where
  /-- A message that is not text. -/
  | notText
  | sinkFull
  /-- The system has refused something, for this reason. -/
  | refused (reason : String)
  | closed
  deriving DecidableEq, Repr

/-- What an I/O error says; none if the observer has gone away. -/
def LinkError.reason? : LinkError → Option String
  | .notText => some "stream did not contain valid UTF-8"
  | .sinkFull => some "sink full"
  | .refused reason => some reason
  | .closed => none

def LinkError.message (e : LinkError) : String :=
  match e.reason? with
  | some reason => s!"Telemetry I/O error: {reason}"
  | none => "Telemetry channel closed by observer"

/-- Both operations give the state of the link after them, also when they fail. -/
class Link (L : Type) where
  receive : L → Except LinkError String × L
  send : L → String → Except LinkError Unit × L

/-! ## Lines -/

structure LineLink where
  /-- What the observer has sent and nobody has received yet. -/
  input : List UInt8
  consumed : Nat
  written : List UInt8
  /-- How many bytes the sink takes in all. -/
  room : Option Nat

namespace LineLink

def newline : UInt8 := 10

/-- The bytes up to and with the next newline, or all if there is none, and the bytes after them. -/
def splitLine : List UInt8 → List UInt8 × List UInt8
  | [] => ([], [])
  | b :: bs =>
    if b = newline then ([b], bs) else
    let (line, rest) := splitLine bs
    (b :: line, rest)

/-- Without newlines and carriage returns at the end. -/
def chomp (s : String) : String :=
  String.ofList (s.toList.reverse.dropWhile fun c => c = '\n' || c = '\r').reverse

/-- At the end of the input the observer has gone. A line that is not text is received all the
same. -/
def receive (l : LineLink) : Except LinkError String × LineLink :=
  match splitLine l.input with
  | ([], _) => (.error .closed, l)
  | (line, rest) =>
    let after := { l with input := rest, consumed := l.consumed + line.length }
    match String.fromUTF8? line.toByteArray with
    | some s => (.ok (chomp s), after)
    | none => (.error .notText, after)

/-- Writes as many bytes as there is room for. -/
def write (l : LineLink) (bytes : List UInt8) : Except LinkError Unit × LineLink :=
  match l.room with
  | none => (.ok (), { l with written := l.written ++ bytes })
  | some room =>
    let free := room - l.written.length
    let after := { l with written := l.written ++ bytes.take free }
    if bytes.length ≤ free then (.ok (), after) else (.error .sinkFull, after)

/-- The message and a newline. -/
def send (l : LineLink) (message : String) : Except LinkError Unit × LineLink :=
  match l.write message.toUTF8.toList with
  | (.ok (), after) => after.write [newline]
  | failed => failed

instance : Link LineLink := ⟨receive, send⟩

end LineLink

/-! ## Observers without a stream -/

/-- An observer that answers while it has replies left, and keeps the messages sent to it. -/
structure Audience where
  repliesLeft : Nat
  received : Nat
  messages : Array String

namespace Audience

def receive (a : Audience) : Except LinkError String × Audience :=
  match a.repliesLeft with
  | 0 => (.error .closed, a)
  | left + 1 => (.ok "", { a with repliesLeft := left, received := a.received + 1 })

def send (a : Audience) (message : String) : Except LinkError Unit × Audience :=
  (.ok (), { a with messages := a.messages.push message })

instance : Link Audience := ⟨receive, send⟩

end Audience

/-- A link without an observer. -/
structure Silence where

instance : Link Silence := ⟨fun l => (.error .closed, l), fun l _ => (.error .closed, l)⟩

/-- Where there is no link, nobody answers. -/
instance {L : Type} [Link L] : Link (Option L) where
  receive
    | none => (.error .closed, none)
    | some link => let (outcome, link) := Link.receive link; (outcome, some link)
  send
    | none, _ => (.error .closed, none)
    | some link, message => let (outcome, link) := Link.send link message; (outcome, some link)

/-- What the system does to let an observer in on a port, or why it does not. -/
structure Network (L : Type) where
  bind : UInt16 → Except String Unit
  /-- Waits for an observer and gives its address. -/
  accept : UInt16 → Except String String
  /-- Opens both directions of the link. -/
  connect : UInt16 → Except String L

end MixedInteger
