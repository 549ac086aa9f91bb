import ArgumentMap.Event

/-! A channel that hands every published event to the subscriptions that want it, in the order in
which they were made. What can be asked of it, what comes back, and whole runs. -/

namespace ArgumentMap

/-- The `sink` is the place of the recorder that the subscription feeds, with the topics it keeps; a
subscription without one only calls its subscriber. -/
structure Subscription where
  id : Nat
  topic : Option Topic := none
  sink : Option (Nat × List Topic) := none
  deriving DecidableEq

/-- The `logs` hold what each recorder has kept since it was last emptied. -/
structure Channel where
  subscriptions : List Subscription := []
  nextId : Nat := 0
  logs : List (List Event) := []
  deriving DecidableEq

namespace Subscription

def wants (s : Subscription) (e : Event) : Bool :=
  match s.topic with
  | none => true
  | some t => t = e.topic

def keeps (topics : List Topic) (e : Event) : Bool := topics.isEmpty || e.topic ∈ topics

def feed (e : Event) (logs : List (List Event)) (s : Subscription) : List (List Event) :=
  match s.sink with
  | some (place, topics) => if keeps topics e then logs.modify place (· ++ [e]) else logs
  | none => logs

end Subscription

namespace Channel

def add (c : Channel) (topic : Option Topic) (sink : Option (Nat × List Topic)) : Nat × Channel :=
  (c.nextId, { c with
    subscriptions := c.subscriptions ++ [{ id := c.nextId, topic := topic, sink := sink }]
    nextId := c.nextId + 1 })

def subscribe (c : Channel) (topic : Option Topic) : Nat × Channel := c.add topic none

def unsubscribe (c : Channel) (id : Nat) : Bool × Channel :=
  (c.subscriptions.any (·.id = id),
    { c with subscriptions := c.subscriptions.filter (·.id ≠ id) })

/-- Starts a recorder of the given topics, all if there are none, and returns its place. -/
def record (c : Channel) (topics : List Topic) : Nat × Channel :=
  let place := c.logs.length
  (place, { (c.add none (some (place, topics))).2 with logs := c.logs ++ [[]] })

/-- Delivers an event and returns the numbers of the subscriptions that got it, in order. -/
def publish (c : Channel) (e : Event) : List Nat × Channel :=
  let heard := c.subscriptions.filter (·.wants e)
  (heard.map (·.id), { c with logs := heard.foldl (Subscription.feed e) c.logs })

def notify (c : Channel) (n : Notice) : List Nat × Channel := c.publish (.notice n)

def subscriberCount (c : Channel) : Nat := c.subscriptions.length

def recorded (c : Channel) (place : Nat) : List Event := c.logs[place]?.getD []

def recordedNotices (c : Channel) (place : Nat) : List Notice :=
  (c.recorded place).filterMap Event.notice?

def take (c : Channel) (place : Nat) : List Event × Channel :=
  (c.recorded place, { c with logs := c.logs.set place [] })

def summary (c : Channel) : String :=
  "EventBus \x7b subscribers: " ++ c.subscriberCount.repr ++ " \x7d"

inductive Call
  | subscribe (topic : Option Topic)
  | record (topics : List Topic)
  | unsubscribe (id : Nat)
  | publish (event : Event)
  | notify (notice : Notice)
  | take (place : Nat)
  deriving DecidableEq

inductive Answer
  | subscribed (id : Nat)
  | recording (place : Nat)
  | unsubscribed (found : Bool)
  | delivered (ids : List Nat)
  | taken (events : List Event)
  deriving DecidableEq

def perform : Call → Channel → Answer × Channel
  | .subscribe topic, c => (c.subscribe topic).map .subscribed id
  | .record topics, c => (c.record topics).map .recording id
  | .unsubscribe number, c => (c.unsubscribe number).map .unsubscribed id
  | .publish event, c => (c.publish event).map .delivered id
  | .notify notice, c => (c.notify notice).map .delivered id
  | .take place, c => (c.take place).map .taken id

def after (c : Channel) (calls : List Call) : Channel :=
  calls.foldl (fun c call => (perform call c).2) c

@[simp] theorem after_nil (c : Channel) : c.after [] = c := rfl

@[simp] theorem after_cons (c : Channel) (call : Call) (calls : List Call) :
    c.after (call :: calls) = (perform call c).2.after calls := rfl

theorem after_append (c : Channel) (calls more : List Call) :
    c.after (calls ++ more) = (c.after calls).after more :=
  List.foldl_append

end Channel

end ArgumentMap
