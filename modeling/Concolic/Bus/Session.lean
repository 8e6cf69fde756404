import Concolic.Bus.Broker
import Concolic.Bus.Record
import Concolic.Log

namespace Concolic.Bus

inductive Action
  | subscribe (name topic : String) (script : List Action)
  | unsubscribe (name : String)
  | publish (topic : String) (record : Record)
  | subscribers (topic : String)
  | close

structure Listener where
  name : String
  script : List Action

inductive Event
  | subscribed (sub : Subscription Listener)
  | unsubscribed (sub : Subscription Listener)
  | published (topic : String) (record : Record)
  | called (publication : Nat) (sub : Subscription Listener) (topic : String) (record : Record)
  | counted (topic : String) (n : Nat)
  | closed

structure Delivery where
  listener : String
  topic : String
  record : Record

namespace Delivery

def text (d : Delivery) : String := d.listener ++ "<" ++ d.topic ++ " " ++ d.record.text

end Delivery

def Event.delivery? : Event → Option Delivery
  | called _ sub topic record => some ⟨sub.listener.name, topic, record⟩
  | _ => none

inductive Outcome
  | done
  | topic (name : String)
  | count (n : Nat)
  | unknownSubscription
  deriving DecidableEq

structure Session where
  broker : Broker Listener := {}
  handles : List (String × Subscription Listener) := []
  ran : List Nat := []
  events : Array Event := #[]
  log : Array LogEntry := #[]

namespace Session

def delivered (s : Session) : Array Delivery := s.events.filterMap Event.delivery?

def note (s : Session) (message topic : String) : Session :=
  { s with log := s.log.push { level := .debug, message, fields := [("topic", topic)] } }

def after (s : Session) (e : Event) : Session := { s with events := s.events.push e }

def subscribe (s : Session) (name topic : String) (script : List Action) : Session :=
  let (sub, broker) := s.broker.subscribe topic { name, script }
  let s := { s with broker, handles := (name, sub) :: s.handles }.after (.subscribed sub)
  if broker.closed then s else s.note "[bus] subscribe" topic

def unsubscribe (s : Session) (sub : Subscription Listener) : Session :=
  let s := s.after (.unsubscribed sub)
  if s.broker.isLive sub then
    { s with broker := s.broker.unsubscribe sub }.note "[bus] unsubscribe" sub.topic
  else s

def countSubscribers (s : Session) (topic : String) : Session × Nat :=
  let n := s.broker.subscribers topic
  (s.after (.counted topic n), n)

def close (s : Session) : Session := { s with broker := s.broker.close }.after .closed

abbrev Reaction := Session → Subscription Listener → String → Record → List Action

def deliver (react : Reaction) (act : Option (Action → Session → Session)) (publication : Nat)
    (topic : String) (record : Record) (s : Session) (sub : Subscription Listener) : Session :=
  let s := s.after (.called publication sub topic record)
  match act with
  | none => s
  | some act =>
    (react s sub topic record).foldl (fun s a => act a s) { s with ran := sub.number :: s.ran }

/-- Delivers to those that are subscribed when publishing begins. -/
def publish (react : Reaction) (act : Option (Action → Session → Session)) (topic : String)
    (record : Record) (s : Session) : Session :=
  let publication := s.events.size
  let s := s.after (.published topic record)
  if s.broker.closed then s
  else
    (s.broker.recipients topic).foldl (deliver react act publication topic record)
      (s.note ("[bus] publish: " ++ record.text) topic)

def performBy (react : Reaction) : (depth : Nat) → Action → Session → Session × Outcome
  | _, .subscribe name topic script, s => (s.subscribe name topic script, .topic topic)
  | _, .unsubscribe name, s =>
    match s.handles.lookup name with
    | some sub => (s.unsubscribe sub, .done)
    | none => (s, .unknownSubscription)
  | 0, .publish topic record, s => (s.publish react none topic record, .done)
  | depth + 1, .publish topic record, s =>
    (s.publish react (some fun a s => (performBy react depth a s).1) topic record, .done)
  | _, .subscribers topic, s =>
    let (s, n) := s.countSubscribers topic
    (s, .count n)
  | _, .close, s => (s.close, .done)

def scripted : Reaction := fun s sub _ _ =>
  if s.ran.contains sub.number then [] else sub.listener.script

def perform : (depth : Nat) → Action → Session → Session × Outcome := performBy scripted

def maxDepth : Nat := 5

end Session

end Concolic.Bus
