import RankLedger.Json.Notification

/-!
# Emitters

An emitter sends notifications as JSON texts to listeners, each of which listens to one channel.
A notification without a written form is not sent at all.
-/

namespace RankLedger

structure Listener where
  channel : String
  received : List String := []
  deriving DecidableEq, Repr, Inhabited

def Listener.receive (listener : Listener) (channel text : String) : Listener :=
  if listener.channel = channel then { listener with received := listener.received ++ [text] }
  else listener

structure Emitter where
  listeners : List Listener := []
  deriving DecidableEq, Repr, Inhabited

namespace Emitter

def ofChannels (channels : List String) : Emitter :=
  { listeners := channels.map fun channel => { channel } }

def emit {ν : Type} [JsonNumber ν] (emitter : Emitter) (notification : Notification ν) : Emitter :=
  match notification.toJson? with
  | none => emitter
  | some json =>
      { listeners := emitter.listeners.map fun listener =>
          listener.receive notification.event.channel json.text }

end Emitter

end RankLedger
