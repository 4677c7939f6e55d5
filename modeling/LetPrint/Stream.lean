import LetPrint.Event

/-! # Feeds and sinks

A feed hands out tokens and errors one at a time; one that comes from a source announces every token
in the log when it is pulled. A sink keeps what was written and how often it was flushed. It may
have room for a limited number of bytes, after which writing fails, and its flush may fail. What it
says then is up to the sink.
-/
namespace LetPrint

/-- The items still to come, and whether pulling a token is logged. -/
structure Feed where
  items : List (Except Error Token)
  announced : Bool := false

namespace Feed

def pull (feed : Feed) : Traced (Option (Except Error Token) × Feed) :=
  match feed.items with
  | [] => ⟨(none, feed), []⟩
  | item :: rest =>
    let log := match item with
      | .ok token => if feed.announced then [.lexed token] else []
      | .error _ => []
    ⟨(some item, { feed with items := rest }), log⟩

end Feed

/-- The bytes written, the bytes it still takes (any number if none is given), whether a flush
fails, the number of flushes, failed ones included, and the messages of a failed write and a failed
flush. -/
structure Sink where
  written : List UInt8 := []
  room : Option Nat := none
  flushFails : Bool := false
  flushes : Nat := 0
  writeMessage : String := "sink full"
  flushMessage : String := "flush failed"
  deriving DecidableEq, Repr

namespace Sink

def full (sink : Sink) : Error := ⟨.io sink.writeMessage, none⟩

def flushFailed (sink : Sink) : Error := ⟨.io sink.flushMessage, none⟩

/-- Writes as many bytes as there is room for; the rest, if there is any, is an error. -/
def writeBytes (sink : Sink) (bytes : List UInt8) : Except Error Unit × Sink :=
  match sink.room with
  | none => (.ok (), { sink with written := sink.written ++ bytes })
  | some room =>
    let after := { sink with
      written := sink.written ++ bytes.take room, room := some (room - bytes.length) }
    (if bytes.length ≤ room then .ok () else .error sink.full, after)

def writeLine (sink : Sink) (text : String) : Except Error Unit × Sink :=
  sink.writeBytes (Text.bytes (text.toList ++ ['\n']))

def flush (sink : Sink) : Except Error Unit :=
  if sink.flushFails then .error sink.flushFailed else .ok ()

def flushAfter (sink : Sink) : Except Error Unit → Except Error Unit × Sink
  | .error error => (.error error, sink)
  | .ok () => (sink.flush, { sink with flushes := sink.flushes + 1 })

end Sink

end LetPrint
