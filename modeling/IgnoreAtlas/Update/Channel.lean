/-!
# The channel of update events

Every event that is announced goes into a channel. A subscriber reads the events that were sent
after it subscribed, in order. The channel keeps the last sixty-four: a subscriber that is further
behind is told once how many events it has lost and goes on with the oldest one kept.
-/

namespace IgnoreAtlas.Update

/-- What happens around a round of scans. -/
inductive Event
  | started
  | finished
  deriving DecidableEq

/-- The events sent so far, the first one first. -/
structure Channel where
  sent : List Event := []
  deriving DecidableEq

/-- A subscriber: the number of the event that it reads next. -/
structure Subscription where
  next : Nat
  deriving DecidableEq

/-- What a subscriber gets. -/
inductive Received
  | event (event : Event)
  | lagged (lost : Nat)
  | nothing
  deriving DecidableEq

namespace Channel

/-- The number of events that are kept. -/
def capacity : Nat := 64

/-- One more event. -/
def send (channel : Channel) (event : Event) : Channel := ⟨channel.sent ++ [event]⟩

/-- A subscriber that reads what is sent from now on. -/
def subscribe (channel : Channel) : Subscription := ⟨channel.sent.length⟩

/-- The number of the oldest event that is kept. -/
def oldest (channel : Channel) : Nat := channel.sent.length - capacity

/-- What the subscriber gets, and where it stands then. -/
def receive (channel : Channel) (s : Subscription) : Received × Subscription :=
  if s.next < channel.oldest then
    (.lagged (channel.oldest - s.next), ⟨channel.oldest⟩)
  else
    match channel.sent[s.next]? with
    | some event => (.event event, ⟨s.next + 1⟩)
    | none => (.nothing, s)

/-- All that the subscriber gets until there is nothing. -/
def drain (channel : Channel) : Nat → Subscription → List Received × Subscription
  | 0, s => ([], s)
  | fuel + 1, s =>
    match channel.receive s with
    | (.nothing, s) => ([], s)
    | (received, s) =>
      let (more, s) := channel.drain fuel s
      (received :: more, s)

/-- All that the subscriber gets until there is nothing. One notice of a loss and the events that
are kept are the most it can get. -/
def receiveAll (channel : Channel) (s : Subscription) : List Received × Subscription :=
  channel.drain (capacity + 2) s

end Channel

end IgnoreAtlas.Update
