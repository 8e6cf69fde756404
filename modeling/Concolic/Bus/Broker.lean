namespace Concolic.Bus

structure Subscription (η : Type) where
  number : Nat
  topic : String
  listener : η

structure Broker (η : Type) where
  live : List (Subscription η) := []
  issued : Nat := 0
  closed : Bool := false

namespace Broker

variable {η : Type}

/-- A subscription to a closed broker is never live. -/
def subscribe (b : Broker η) (topic : String) (listener : η) : Subscription η × Broker η :=
  let s : Subscription η := { number := b.issued + 1, topic, listener }
  (s, { b with issued := b.issued + 1, live := if b.closed then b.live else b.live ++ [s] })

def isLive (b : Broker η) (s : Subscription η) : Bool := b.live.any (·.number == s.number)

def unsubscribe (b : Broker η) (s : Subscription η) : Broker η :=
  { b with live := b.live.filter (·.number != s.number) }

def recipients (b : Broker η) (topic : String) : List (Subscription η) :=
  b.live.filter (·.topic == topic)

def subscribers (b : Broker η) (topic : String) : Nat := (b.recipients topic).length

def close (b : Broker η) : Broker η := { b with live := [], closed := true }

@[simp] theorem recipients_close (b : Broker η) (topic : String) :
    b.close.recipients topic = [] := rfl

theorem unsubscribe_unsubscribe (b : Broker η) (s : Subscription η) :
    (b.unsubscribe s).unsubscribe s = b.unsubscribe s := by
  simp [unsubscribe, List.filter_filter]

end Broker

end Concolic.Bus
