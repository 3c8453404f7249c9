import IgnoreAtlas.Update.Channel

/-!
# Telling listeners

Listeners are called in the order in which they were registered. Which of them are called is settled
before the first call: a listener may register and unregister listeners, itself too, and that takes
effect from the next event on. A listener that panics keeps no other from being called. When all
have been called, the event goes into the channel.
-/

namespace IgnoreAtlas.Update

/-- A listener is known by its name. -/
abbrev ListenerId := String

/-- A change to the listeners. -/
inductive Change
  | register (id : ListenerId)
  | unregister (id : ListenerId)
  deriving DecidableEq

/-- What a listener does when it is called: changes, and perhaps a panic in the end. -/
structure Reaction where
  changes : List Change := []
  panics : Bool := false
  deriving DecidableEq

/-- What each listener does at each event. -/
abbrev Reactions := ListenerId → Event → Reaction

/-- How a call of a listener ends. -/
inductive CallEnd
  | returned
  | panicked
  deriving DecidableEq

/-- A call of a listener. -/
structure Call where
  listener : ListenerId
  event : Event
  ending : CallEnd
  deriving DecidableEq

/-- The registered listeners and the channel of events. -/
structure Bus where
  listeners : List ListenerId := []
  channel : Channel := {}
  deriving DecidableEq

namespace Bus

/-- The listener is registered; a second registration changes nothing. -/
def register (bus : Bus) (id : ListenerId) : Bus :=
  if id ∈ bus.listeners then bus else { bus with listeners := bus.listeners ++ [id] }

/-- The listener is not registered any more. Whether it was, the number of listeners tells. -/
def unregister (bus : Bus) (id : ListenerId) : Bool × Bus :=
  let kept := bus.listeners.filter (· ≠ id)
  (kept.length != bus.listeners.length, { bus with listeners := kept })

/-- One change. -/
def apply (bus : Bus) : Change → Bus
  | .register id => bus.register id
  | .unregister id => (bus.unregister id).2

/-- One call of a listener: its changes are made, and a panic ends the call only. -/
def call (react : Reactions) (event : Event) (bus : Bus) (id : ListenerId) : Call × Bus :=
  let reaction := react id event
  (⟨id, event, if reaction.panics then .panicked else .returned⟩,
    reaction.changes.foldl apply bus)

/-- The calls of these listeners, one after another. -/
def callAll (react : Reactions) (event : Event) (bus : Bus) : List ListenerId → List Call × Bus
  | [] => ([], bus)
  | id :: ids =>
    let (first, bus) := call react event bus id
    let (calls, bus) := callAll react event bus ids
    (first :: calls, bus)

/-- Announces an event. -/
def notify (react : Reactions) (event : Event) (bus : Bus) : List Call × Bus :=
  let (calls, after) := callAll react event bus bus.listeners
  (calls, { after with channel := after.channel.send event })

end Bus

end IgnoreAtlas.Update
