import Mathlib
import Concolic.Bus.Session

/-!
What a broker delivers, over every sequence of actions and whatever the listeners do while a record
reaches them. Main statement: a publication calls the subscriptions that are live when it begins, in
the order they were made, and no others.
-/

namespace Concolic.Bus

namespace Event

def subscription? : Event → Option (Subscription Listener)
  | subscribed sub => some sub
  | _ => none

def call? (publication : Nat) : Event → Option (Subscription Listener)
  | called k sub _ _ => if k = publication then some sub else none
  | _ => none

def cancels (number : Nat) : Event → Bool
  | unsubscribed sub => number == sub.number
  | _ => false

def closes : Event → Bool
  | closed => true
  | _ => false

def Acts : Event → Prop
  | subscribed _ | unsubscribed _ | closed => True
  | _ => False

theorem idle {e : Event} (he : ¬e.Acts) :
    e.subscription? = none ∧ (∀ n, e.cancels n = false) ∧ e.closes = false := by
  cases e with
  | subscribed | unsubscribed | closed => exact absurd trivial he
  | published | called | counted => exact ⟨rfl, fun _ => rfl, rfl⟩

end Event

namespace History

variable {h g : List Event} {e : Event} {sub : Subscription Listener} {topic : String}

def made (h : List Event) : List (Subscription Listener) := h.filterMap Event.subscription?

def calls (publication : Nat) (h : List Event) : List (Subscription Listener) :=
  h.filterMap (Event.call? publication)

def isCancelled (h : List Event) (number : Nat) : Bool := h.any (Event.cancels number)

def isClosed (h : List Event) : Bool := h.any Event.closes

def current (h : List Event) : List (Subscription Listener) :=
  if isClosed h then [] else (made h).filter fun sub => !isCancelled h sub.number

def live (h : List Event) (topic : String) : List (Subscription Listener) :=
  (current h).filter (·.topic == topic)

@[simp] theorem calls_append (k : Nat) : calls k (h ++ g) = calls k h ++ calls k g :=
  List.filterMap_append

@[simp] theorem made_concat : made (h ++ [e]) = made h ++ e.subscription?.toList := by
  cases he : e.subscription? <;> simp [made, he]

@[simp] theorem isCancelled_concat (n : Nat) :
    isCancelled (h ++ [e]) n = (isCancelled h n || e.cancels n) := by
  simp [isCancelled]

@[simp] theorem isClosed_concat : isClosed (h ++ [e]) = (isClosed h || e.closes) := by
  simp [isClosed]

theorem live_of_closed (hc : isClosed h = true) (topic : String) : live h topic = [] := by
  simp [live, current, hc]

theorem live_sublist (h : List Event) (topic : String) : (live h topic).Sublist (made h) := by
  refine List.filter_sublist.trans ?_
  unfold current
  split
  · exact List.nil_sublist _
  · exact List.filter_sublist

theorem made_take_append_drop (k : Nat) (h : List Event) :
    made (h.take k) ++ made (h.drop k) = made h := by
  rw [made, made, made, ← List.filterMap_append, List.take_append_drop]

theorem isClosed_take {i k : Nat} (hi : h[i]? = some .closed) (hk : i < k) :
    isClosed (h.take k) = true := by
  refine List.any_eq_true.mpr ⟨.closed, List.mem_of_getElem? (i := i) ?_, rfl⟩
  rw [List.getElem?_take_of_lt hk, hi]

theorem current_closed : current (h ++ [.closed]) = [] := by
  simp [current, Event.closes]

theorem current_unsubscribed :
    current (h ++ [.unsubscribed sub]) = (current h).filter (·.number != sub.number) := by
  cases hc : isClosed h with
  | true => simp [current, hc]
  | false =>
    simp only [current, isClosed_concat, hc, made_concat, isCancelled_concat, Event.closes,
      Event.cancels, Event.subscription?]
    simp [bne, Bool.and_comm]

theorem current_subscribed (fresh : isCancelled h sub.number = false) :
    current (h ++ [.subscribed sub]) = if isClosed h then [] else current h ++ [sub] := by
  cases hc : isClosed h <;>
    simp [current, hc, fresh, Event.closes, Event.cancels, Event.subscription?]

theorem current_idle (he : ¬e.Acts) : current (h ++ [e]) = current h := by
  obtain ⟨hs, hn, hc⟩ := Event.idle he
  simp [current, hs, hn, hc]

theorem getElem?_concat {i : Nat} {x : Event} :
    (h ++ [e])[i]? = some x ↔ h[i]? = some x ∨ i = h.length ∧ e = x := by
  grind

theorem getElem?_mono {i : Nat} (hp : h <+: g) (hi : h[i]? = some e) : g[i]? = some e := by
  obtain ⟨rest, rfl⟩ := hp
  rw [List.getElem?_append_left (List.getElem?_eq_some_iff.mp hi).1, hi]

/-- What is delivered is right so far, and `due` has the calls that publications are yet to make. -/
structure Faithful (h : List Event) (due : Nat → List (Subscription Listener)) : Prop where
  calls : ∀ (k : Nat) topic record, h[k]? = some (.published topic record) →
    calls k h ++ due k = live (h.take k) topic
  source : ∀ (i : Nat) k sub topic record, h[i]? = some (.called k sub topic record) →
    k < i ∧ h[k]? = some (.published topic record)
  counts : ∀ (i : Nat) topic n, h[i]? = some (.counted topic n) →
    n = (live (h.take i) topic).length
  pending : ∀ k, h.length ≤ k → due k = []

namespace Faithful

variable {due due' : Nat → List (Subscription Listener)}

theorem nil : Faithful [] fun _ => [] := ⟨by simp, by simp, by simp, by simp⟩

theorem calls_eq_nil (hf : Faithful h due) {k : Nat}
    (hk : ∀ topic record, h[k]? ≠ some (.published topic record)) : History.calls k h = [] := by
  refine List.filterMap_eq_nil_iff.mpr fun e he => ?_
  obtain ⟨i, hi⟩ := List.getElem?_of_mem he
  cases e with
  | called j sub topic record =>
    rw [Event.call?, if_neg]
    rintro rfl
    exact hk topic record (hf.source i j sub topic record hi).2
  | subscribed | unsubscribed | published | counted | closed => rfl

theorem concat (hf : Faithful h due)
    (calls : ∀ k < h.length, History.calls k [e] ++ due' k = due k)
    (published : ∀ topic record, e = .published topic record → due' h.length = live h topic)
    (source : ∀ k sub topic record, e = .called k sub topic record →
      h[k]? = some (.published topic record))
    (counts : ∀ topic n, e = .counted topic n → n = (live h topic).length)
    (pending : ∀ k, h.length < k → due' k = []) : Faithful (h ++ [e]) due' := by
  have within {i : Nat} {x : Event} (hi : h[i]? = some x) : i < h.length :=
    (List.getElem?_eq_some_iff.mp hi).1
  refine ⟨fun k topic record hk => ?_, fun i k sub topic record hi => ?_, fun i topic n hi => ?_,
    fun k hk => pending k (by simpa using hk)⟩
  · rcases getElem?_concat.mp hk with hk | ⟨rfl, rfl⟩
    · rw [calls_append, List.append_assoc, calls k (within hk),
        List.take_append_of_le_length (within hk).le]
      exact hf.calls k topic record hk
    · -- No call was made for a publication that had yet to begin.
      have before : History.calls h.length h = [] := hf.calls_eq_nil (by simp)
      rw [calls_append, before, published topic record rfl, List.take_left]
      rfl
  · rcases getElem?_concat.mp hi with hi | ⟨rfl, rfl⟩
    · obtain ⟨lt, hk⟩ := hf.source i k sub topic record hi
      exact ⟨lt, getElem?_concat.mpr (.inl hk)⟩
    · have hk := source k sub topic record rfl
      exact ⟨within hk, getElem?_concat.mpr (.inl hk)⟩
  · rcases getElem?_concat.mp hi with hi | ⟨rfl, rfl⟩
    · rw [List.take_append_of_le_length (within hi).le]
      exact hf.counts i topic n hi
    · rw [List.take_left]
      exact counts topic n rfl

theorem acts (hf : Faithful h due) (he : e.Acts) : Faithful (h ++ [e]) due := by
  cases e with
  | published | called | counted => cases he
  | subscribed | unsubscribed | closed =>
    exact hf.concat (fun _ _ => rfl) (by simp) (by simp) (by simp) fun k hk => hf.pending k hk.le

theorem counted (hf : Faithful h due) :
    Faithful (h ++ [.counted topic (live h topic).length]) due := by
  refine hf.concat (fun _ _ => rfl) (by simp) (by simp) ?_ fun k hk => hf.pending k hk.le
  rintro _ _ ⟨⟩
  rfl

theorem published (hf : Faithful h due) (record : Record) :
    Faithful (h ++ [.published topic record]) (Function.update due h.length (live h topic)) := by
  refine hf.concat (fun k hk => ?_) ?_ (by simp) (by simp) fun k hk => ?_
  · rw [Function.update_of_ne hk.ne]
    rfl
  · rintro _ _ ⟨⟩
    exact Function.update_self ..
  · rw [Function.update_of_ne hk.ne']
    exact hf.pending k hk.le

theorem called {k : Nat} {record : Record} {rest : List (Subscription Listener)}
    (hf : Faithful h (Function.update due k (sub :: rest)))
    (hk : h[k]? = some (.published topic record)) :
    Faithful (h ++ [.called k sub topic record]) (Function.update due k rest) := by
  have within : k < h.length := (List.getElem?_eq_some_iff.mp hk).1
  refine hf.concat (fun j _ => ?_) (by simp) ?_ (by simp) fun j hj => ?_
  · by_cases hj : j = k
    · subst hj
      simp [History.calls, Event.call?]
    · simp [History.calls, Event.call?, Function.update_of_ne hj, Ne.symm hj]
  · rintro _ _ _ _ ⟨⟩
    exact hk
  · have := hf.pending j hj.le
    rw [Function.update_of_ne (by omega)] at this ⊢
    exact this

section Settled

variable (hf : Faithful h fun _ => [])

include hf

theorem calls_eq_live {k : Nat} {record : Record} (hk : h[k]? = some (.published topic record)) :
    History.calls k h = live (h.take k) topic := by
  rw [← hf.calls k topic record hk, List.append_nil]

theorem exists_mem_live {k : Nat} (hs : sub ∈ History.calls k h) :
    ∃ topic, sub ∈ live (h.take k) topic := by
  by_cases hk : ∃ topic record, h[k]? = some (.published topic record)
  · obtain ⟨topic, record, hk⟩ := hk
    exact ⟨topic, hf.calls_eq_live hk ▸ hs⟩
  · rw [hf.calls_eq_nil fun topic record h => hk ⟨topic, record, h⟩] at hs
    cases hs

theorem calls_after_closed {i k : Nat} (hi : h[i]? = some .closed) (hk : i < k) :
    History.calls k h = [] := by
  refine List.eq_nil_iff_forall_not_mem.mpr fun sub hs => ?_
  obtain ⟨topic, hl⟩ := hf.exists_mem_live hs
  rw [live_of_closed (isClosed_take hi hk)] at hl
  cases hl

theorem not_called_after_closed (distinct : ((made h).map (·.number)).Nodup) {i j k : Nat}
    (hi : h[i]? = some .closed) (hj : i < j) (hs : h[j]? = some (.subscribed sub))
    {other : Subscription Listener} (ho : other ∈ History.calls k h) :
    other.number ≠ sub.number := by
  obtain ⟨topic, hl⟩ := hf.exists_mem_live ho
  have hk : k ≤ i := by
    by_contra hk
    rw [live_of_closed (isClosed_take hi (by omega))] at hl
    cases hl
  have before : other ∈ made (h.take k) := (live_sublist _ topic).subset hl
  have after : sub ∈ made (h.drop k) := by
    refine List.mem_filterMap.mpr ⟨.subscribed sub, List.mem_of_getElem? (i := j - k) ?_, rfl⟩
    rw [List.getElem?_drop, Nat.add_sub_cancel' (by omega), hs]
  rw [← made_take_append_drop k, List.map_append] at distinct
  intro eq
  exact List.disjoint_of_nodup_append distinct (List.mem_map_of_mem before)
    (eq ▸ List.mem_map_of_mem after)

end Settled

end Faithful

end History

namespace Broker

open History

variable {b : Broker Listener} {handles : List (String × Subscription Listener)} {h : List Event}

theorem unsubscribe_of_not_live {η : Type} {b : Broker η} {sub : Subscription η}
    (h : b.isLive sub = false) : b.unsubscribe sub = b := by
  have all : b.live.filter (·.number != sub.number) = b.live := by
    refine List.filter_eq_self.mpr fun other ho => ?_
    have := List.any_eq_false.mp h other ho
    simpa using this
  rw [unsubscribe, all]

theorem recipients_unsubscribe (b : Broker Listener) (sub : Subscription Listener)
    (topic : String) :
    (b.unsubscribe sub).recipients topic =
      (b.recipients topic).filter (·.number != sub.number) := by
  simp [recipients, unsubscribe, List.filter_filter, Bool.and_comm]

structure Kept (b : Broker Listener) (handles : List (String × Subscription Listener))
    (h : List Event) : Prop where
  closed : b.closed = isClosed h
  live : b.live = current h
  numbers : (made h).map (·.number) = List.range' 1 b.issued
  handles : ∀ p ∈ handles, p.2.number ≤ b.issued
  cancelled : ∀ n, isCancelled h n = true → n ≤ b.issued

namespace Kept

theorem nil : Kept {} [] [] := ⟨rfl, rfl, rfl, by simp, by simp [isCancelled]⟩

theorem recipients_eq (hk : Kept b handles h) (topic : String) :
    b.recipients topic = History.live h topic := by
  rw [recipients, hk.live, History.live]

theorem nodup_numbers (hk : Kept b handles h) : ((made h).map (·.number)).Nodup := by
  rw [hk.numbers]
  exact List.nodup_range'

theorem pairwise_live (hk : Kept b handles h) (k : Nat) (topic : String) :
    ((History.live (h.take k) topic).map (·.number)).Pairwise (· < ·) := by
  have sub : (made (h.take k)).Sublist (made h) :=
    made_take_append_drop k h ▸ List.sublist_append_left _ _
  refine List.Pairwise.sublist (((live_sublist _ topic).trans sub).map _) ?_
  rw [hk.numbers]
  exact List.pairwise_lt_range'

theorem unsubscribe_of_cancelled {sub : Subscription Listener} (hk : Kept b handles h)
    (hc : isCancelled h sub.number = true) : b.unsubscribe sub = b := by
  refine unsubscribe_of_not_live (List.any_eq_false.mpr fun other ho eq => ?_)
  rw [hk.live, current] at ho
  split at ho
  · cases ho
  · have := (List.mem_filter.mp ho).2
    rw [beq_iff_eq.mp eq, hc] at this
    cases this

theorem recipients_of_closed (hk : Kept b handles h) (hc : b.closed = true) (topic : String) :
    b.recipients topic = [] := by
  rw [hk.recipients_eq, History.live, current, ← hk.closed, hc]
  rfl

theorem subscribe (hk : Kept b handles h) (name topic : String) (listener : Listener) :
    Kept (b.subscribe topic listener).2 ((name, (b.subscribe topic listener).1) :: handles)
      (h ++ [.subscribed (b.subscribe topic listener).1]) := by
  have fresh : isCancelled h (b.issued + 1) = false := by
    by_contra hc
    have := hk.cancelled _ (Bool.not_eq_false _ ▸ hc)
    omega
  refine ⟨?_, ?_, ?_, fun p hp => ?_, fun n hn => ?_⟩
  · simp [Broker.subscribe, hk.closed, Event.closes]
  · rw [current_subscribed fresh, ← hk.closed, ← hk.live]
    cases hc : b.closed with
    | true => simp [Broker.subscribe, hc, hk.live, current, ← hk.closed]
    | false => simp [Broker.subscribe, hc]
  · simp [Broker.subscribe, hk.numbers, Event.subscription?, List.range'_1_concat, Nat.add_comm]
  · rcases List.mem_cons.mp hp with rfl | hp
    · exact le_rfl
    · exact (hk.handles p hp).trans (Nat.le_succ _)
  · have := hk.cancelled n (by simpa [Event.cancels] using hn)
    exact this.trans (Nat.le_succ _)

theorem unsubscribe {sub : Subscription Listener} (hk : Kept b handles h)
    (hs : sub.number ≤ b.issued) : Kept (b.unsubscribe sub) handles (h ++ [.unsubscribed sub]) := by
  refine ⟨?_, ?_, ?_, hk.handles, fun n hn => ?_⟩
  · simp [Broker.unsubscribe, hk.closed, Event.closes]
  · rw [current_unsubscribed, ← hk.live, Broker.unsubscribe]
  · simp [Broker.unsubscribe, hk.numbers, Event.subscription?]
  · rw [isCancelled_concat, Bool.or_eq_true, Event.cancels, beq_iff_eq] at hn
    rcases hn with hn | rfl
    · exact hk.cancelled n hn
    · exact hs

theorem close (hk : Kept b handles h) : Kept b.close handles (h ++ [.closed]) := by
  refine ⟨?_, current_closed.symm, ?_, hk.handles, fun n hn => hk.cancelled n ?_⟩
  · simp [Broker.close, Event.closes]
  · simp [Broker.close, hk.numbers, Event.subscription?]
  · simpa [Event.cancels] using hn

theorem idle {e : Event} (hk : Kept b handles h) (he : ¬e.Acts) : Kept b handles (h ++ [e]) := by
  obtain ⟨hs, hn, hc⟩ := Event.idle he
  refine ⟨?_, ?_, ?_, hk.handles, fun n h => hk.cancelled n ?_⟩
  · simp [hk.closed, hc]
  · rw [current_idle he, hk.live]
  · simp [hk.numbers, hs]
  · simpa [hn] using h

end Kept

end Broker

def Action.event? (s : Session) : Action → Option Event
  | .subscribe name topic script =>
    some (.subscribed { number := s.broker.issued + 1, topic, listener := { name, script } })
  | .unsubscribe name => (s.handles.lookup name).map .unsubscribed
  | .publish topic record => some (.published topic record)
  | .subscribers topic => some (.counted topic (s.broker.subscribers topic))
  | .close => some .closed

namespace Session

open History

variable {s t : Session} {topic : String} {record : Record}

def Sound (s : Session) (due : Nat → List (Subscription Listener)) : Prop :=
  s.broker.Kept s.handles s.events.toList ∧ Faithful s.events.toList due

/-- A session goes on, and leaves the calls that are due to those who make them. -/
structure Continues (s t : Session) : Prop where
  sound : ∀ due, s.Sound due → t.Sound due
  grows : s.events.toList <+: t.events.toList

namespace Continues

theorem refl (s : Session) : Continues s s := ⟨fun _ h => h, List.prefix_rfl⟩

theorem trans {u : Session} (h : Continues s t) (h' : Continues t u) : Continues s u :=
  ⟨fun due hs => h'.sound due (h.sound due hs), h.grows.trans h'.grows⟩

theorem foldl {α : Type} {f : Session → α → Session} (hf : ∀ s a, Continues s (f s a))
    (l : List α) (s : Session) : Continues s (l.foldl f s) := by
  induction l generalizing s with
  | nil => exact refl s
  | cons a l ih => exact (hf s a).trans (ih (f s a))

end Continues

theorem subscribe_continues (s : Session) (name topic : String) (script : List Action) :
    Continues s (s.subscribe name topic script) := by
  unfold subscribe
  dsimp only
  split
  all_goals
    refine ⟨fun due h => ?_, by simp [after, note]⟩
    simp only [Sound, after, note, Array.toList_push]
    exact ⟨h.1.subscribe name topic _, h.2.acts trivial⟩

theorem unsubscribe_broker (s : Session) (sub : Subscription Listener) :
    (s.unsubscribe sub).broker = s.broker.unsubscribe sub := by
  unfold unsubscribe
  dsimp only
  split
  · rfl
  next h => exact (Broker.unsubscribe_of_not_live (Bool.not_eq_true _ ▸ h)).symm

theorem unsubscribe_events (s : Session) (sub : Subscription Listener) :
    (s.unsubscribe sub).events.toList = s.events.toList ++ [.unsubscribed sub] := by
  unfold unsubscribe
  dsimp only
  split <;> simp [after, note]

theorem unsubscribe_handles (s : Session) (sub : Subscription Listener) :
    (s.unsubscribe sub).handles = s.handles := by
  unfold unsubscribe
  dsimp only
  split <;> rfl

theorem unsubscribe_continues {name : String} {sub : Subscription Listener}
    (hs : (name, sub) ∈ s.handles) : Continues s (s.unsubscribe sub) := by
  refine ⟨fun due h => ?_, by simp [unsubscribe_events]⟩
  rw [Sound, unsubscribe_broker, unsubscribe_handles, unsubscribe_events]
  exact ⟨h.1.unsubscribe (h.1.handles _ hs), h.2.acts trivial⟩

theorem count_continues (s : Session) (topic : String) :
    Continues s (s.countSubscribers topic).1 := by
  refine ⟨fun due h => ?_, by simp [countSubscribers, after]⟩
  simp only [Sound, countSubscribers, after, Array.toList_push, Broker.subscribers,
    h.1.recipients_eq]
  exact ⟨h.1.idle id, h.2.counted⟩

theorem close_continues (s : Session) : Continues s s.close := by
  refine ⟨fun due h => ?_, by simp [close, after]⟩
  simp only [Sound, close, after, Array.toList_push]
  exact ⟨h.1.close, h.2.acts trivial⟩

section Publishing

variable (react : Reaction) {act : Option (Action → Session → Session)}
  {due : Nat → List (Subscription Listener)} {k : Nat}

theorem deliver_continues (hact : ∀ f ∈ act, ∀ a s, Continues s (f a s)) (s : Session)
    (sub : Subscription Listener) :
    Continues (s.after (.called k sub topic record)) (deliver react act k topic record s sub) := by
  unfold deliver
  cases act with
  | none => exact .refl _
  | some f =>
    have acted := Continues.foldl (fun s a => hact f rfl a s)
      (react (s.after (.called k sub topic record)) sub topic record)
      { s.after (.called k sub topic record) with ran := sub.number :: s.ran }
    exact ⟨acted.sound, acted.grows⟩

theorem deliver_grows (hact : ∀ f ∈ act, ∀ a s, Continues s (f a s)) (s : Session)
    (sub : Subscription Listener) :
    s.events.toList <+: (deliver react act k topic record s sub).events.toList := by
  have called : s.events.toList <+: (s.after (.called k sub topic record)).events.toList := by
    simp [after]
  exact called.trans (deliver_continues react hact s sub).grows

theorem deliver_sound (hact : ∀ f ∈ act, ∀ a s, Continues s (f a s))
    {sub : Subscription Listener} {rest : List (Subscription Listener)}
    (hs : s.Sound (Function.update due k (sub :: rest)))
    (hk : s.events.toList[k]? = some (.published topic record)) :
    (deliver react act k topic record s sub).Sound (Function.update due k rest) := by
  refine (deliver_continues react hact s sub).sound _ ?_
  simp only [Sound, after, Array.toList_push]
  exact ⟨hs.1.idle id, hs.2.called hk⟩

theorem deliver_all_sound (hact : ∀ f ∈ act, ∀ a s, Continues s (f a s))
    (subs : List (Subscription Listener)) (hs : s.Sound (Function.update due k subs))
    (hk : s.events.toList[k]? = some (.published topic record)) :
    (subs.foldl (deliver react act k topic record) s).Sound (Function.update due k []) := by
  induction subs generalizing s with
  | nil => exact hs
  | cons sub rest ih =>
    exact ih (deliver_sound react hact hs hk)
      (getElem?_mono (deliver_grows react hact s sub) hk)

theorem deliver_all_grows (hact : ∀ f ∈ act, ∀ a s, Continues s (f a s)) (k : Nat)
    (topic : String) (record : Record) (subs : List (Subscription Listener)) (s : Session) :
    s.events.toList <+: (subs.foldl (deliver react act k topic record) s).events.toList := by
  induction subs generalizing s with
  | nil => exact List.prefix_rfl
  | cons sub rest ih => exact (deliver_grows react hact s sub).trans (ih _)

theorem publish_grows (hact : ∀ f ∈ act, ∀ a s, Continues s (f a s)) (topic : String)
    (record : Record) (s : Session) :
    s.events.toList ++ [.published topic record] <+:
      (s.publish react act topic record).events.toList := by
  unfold publish
  dsimp only
  split
  · simp [after]
  · have delivered := deliver_all_grows react hact s.events.size topic record
      (s.broker.recipients topic)
      ((s.after (.published topic record)).note ("[bus] publish: " ++ record.text) topic)
    simpa [after, note] using delivered

theorem publish_continues (hact : ∀ f ∈ act, ∀ a s, Continues s (f a s)) (topic : String)
    (record : Record) (s : Session) : Continues s (s.publish react act topic record) := by
  refine ⟨fun due h => ?_, (List.prefix_append _ _).trans (publish_grows react hact topic record s)⟩
  have begun : (s.after (.published topic record)).Sound
      (Function.update due s.events.size (s.broker.recipients topic)) := by
    simp only [Sound, after, Array.toList_push, h.1.recipients_eq]
    exact ⟨h.1.idle id, h.2.published record⟩
  -- The publication owes no call before it begins, and none after the last recipient.
  have settled : Function.update due s.events.size [] = due :=
    Function.update_eq_self_iff.mpr (h.2.pending _ le_rfl).symm
  unfold publish
  dsimp only
  split
  next closed =>
    rw [← settled, ← h.1.recipients_of_closed closed topic]
    exact begun
  next =>
    rw [← settled]
    exact deliver_all_sound react hact _ begun (by simp [after, note])

end Publishing

theorem performBy_continues_of {react : Reaction} {depth : Nat}
    (publishes : ∀ topic record s, Continues s (performBy react depth (.publish topic record) s).1)
    (a : Action) (s : Session) : Continues s (performBy react depth a s).1 := by
  cases a with
  | subscribe name topic script =>
    simp only [performBy]
    exact subscribe_continues s name topic script
  | unsubscribe name =>
    simp only [performBy]
    split
    next sub hs =>
      obtain ⟨before, rest, hl, -⟩ := List.lookup_eq_some_iff.mp hs
      have held : (name, sub) ∈ s.handles := by simp [hl]
      exact unsubscribe_continues held
    next => exact .refl s
  | publish topic record => exact publishes topic record s
  | subscribers topic =>
    simp only [performBy]
    exact count_continues s topic
  | close =>
    simp only [performBy]
    exact close_continues s

theorem performBy_continues (react : Reaction) (depth : Nat) (a : Action) (s : Session) :
    Continues s (performBy react depth a s).1 := by
  induction depth generalizing a s with
  | zero =>
    refine performBy_continues_of (fun topic record s => ?_) a s
    exact publish_continues react (by simp) topic record s
  | succ depth ih =>
    refine performBy_continues_of (fun topic record s => ?_) a s
    exact publish_continues react (by simpa using ih) topic record s

theorem performBy_events (react : Reaction) (depth : Nat) (a : Action) (s : Session) :
    s.events.toList ++ (a.event? s).toList <+: (performBy react depth a s).1.events.toList := by
  cases a with
  | subscribe name topic script =>
    simp only [performBy, subscribe]
    split <;> simp [Action.event?, Broker.subscribe, after, note]
  | unsubscribe name =>
    simp only [performBy, Action.event?]
    split
    next sub hs => simp [hs, unsubscribe_events]
    next hs => simp [hs]
  | publish topic record =>
    cases depth with
    | zero => exact publish_grows react (by simp) topic record s
    | succ depth =>
      exact publish_grows react (by simpa using performBy_continues react depth) topic record s
  | subscribers topic => simp [performBy, Action.event?, countSubscribers, after]
  | close => simp [performBy, Action.event?, close, after]

def performAll (react : Reaction) (depth : Nat) (actions : List Action) : Session :=
  actions.foldl (fun s a => (performBy react depth a s).1) {}

theorem performAll_sound (react : Reaction) (depth : Nat) (actions : List Action) :
    (performAll react depth actions).Sound fun _ => [] :=
  (Continues.foldl (fun s a => performBy_continues react depth a s) actions {}).sound _
    ⟨.nil, .nil⟩

/-- Every publication calls the subscriptions to its topic that were made and had not ended when it
began, once each and in the order they were made. -/
theorem deliveries_are_exact (react : Reaction) (depth : Nat) (actions : List Action) :
    let s := performAll react depth actions
    let h := s.events.toList
    (∀ (k : Nat) topic record, h[k]? = some (.published topic record) →
      calls k h = live (h.take k) topic ∧ ((calls k h).map (·.number)).Pairwise (· < ·)) ∧
    (∀ (i : Nat) k sub topic record, h[i]? = some (.called k sub topic record) →
      k < i ∧ h[k]? = some (.published topic record)) ∧
    (made h).map (·.number) = List.range' 1 s.broker.issued ∧
    (∀ (i k : Nat), h[i]? = some .closed → i < k → calls k h = []) ∧
    (∀ (i j : Nat) sub, h[i]? = some .closed → i < j → h[j]? = some (.subscribed sub) →
      ∀ k, ∀ called ∈ calls k h, called.number ≠ sub.number) ∧
    (∀ (i : Nat) topic n, h[i]? = some (.counted topic n) → n = (live (h.take i) topic).length) ∧
    (∀ topic, s.broker.subscribers topic = (live h topic).length) ∧
    (∀ sub, (isCancelled h sub.number = true → (s.unsubscribe sub).broker = s.broker) ∧
      ((s.unsubscribe sub).unsubscribe sub).broker = (s.unsubscribe sub).broker ∧
      ∀ topic, (s.unsubscribe sub).broker.recipients topic =
        (s.broker.recipients topic).filter (·.number != sub.number)) ∧
    ∀ a, h ++ (a.event? s).toList <+: (performBy react depth a s).1.events.toList := by
  intro s h
  obtain ⟨kept, faithful⟩ : s.Sound fun _ => [] := performAll_sound react depth actions
  refine ⟨fun k topic record hk => ?_, faithful.source, kept.numbers,
    fun i k hi => faithful.calls_after_closed hi, fun i j sub hi hj hs k other =>
      faithful.not_called_after_closed kept.nodup_numbers hi hj hs, faithful.counts,
    fun topic => ?_, fun sub => ⟨fun hc => ?_, ?_, fun topic => ?_⟩,
    fun a => performBy_events react depth a s⟩
  · rw [faithful.calls_eq_live hk]
    exact ⟨rfl, kept.pairwise_live k topic⟩
  · rw [Broker.subscribers, kept.recipients_eq]
  · rw [unsubscribe_broker, kept.unsubscribe_of_cancelled hc]
  · rw [unsubscribe_broker, unsubscribe_broker, Broker.unsubscribe_unsubscribe]
  · rw [unsubscribe_broker, Broker.recipients_unsubscribe]

/-- A listener that ends the next subscription and makes another does so for later publications. -/
theorem deliveries_are_exact_nested :
    let script : List Action := [.unsubscribe "b", .subscribe "c" "t" []]
    let actions : List Action := [.subscribe "a" "t" script, .subscribe "b" "t" [],
      .publish "t" {}, .publish "t" {}, .close, .publish "t" {}]
    let h := (performAll scripted maxDepth actions).events.toList
    (h[2]? = some (.published "t" {}) ∧ h[7]? = some (.published "t" {}) ∧
      h[10]? = some .closed ∧ h[11]? = some (.published "t" {})) ∧
    (calls 2 h = live (h.take 2) "t" ∧ (calls 2 h).map (·.number) = [1, 2]) ∧
    (calls 7 h = live (h.take 7) "t" ∧ (calls 7 h).map (·.number) = [1, 3]) ∧
    calls 11 h = [] := by
  intro script actions h
  obtain ⟨delivered, -, -, dropped, -⟩ := deliveries_are_exact scripted maxDepth actions
  let a : Subscription Listener := ⟨1, "t", "a", script⟩
  let b : Subscription Listener := ⟨2, "t", "b", []⟩
  let c : Subscription Listener := ⟨3, "t", "c", []⟩
  have events : h = [.subscribed a, .subscribed b, .published "t" {}, .called 2 a "t" {},
      .unsubscribed b, .subscribed c, .called 2 b "t" {}, .published "t" {}, .called 7 a "t" {},
      .called 7 c "t" {}, .closed, .published "t" {}] := by
    simp [h, actions, script, a, b, c, performAll, performBy, maxDepth, subscribe, unsubscribe,
      publish, deliver, close, scripted, after, note, Broker.subscribe, Broker.recipients,
      Broker.isLive, Broker.unsubscribe, Broker.close]
  have first : h[2]? = some (.published "t" {}) := by rw [events]; rfl
  have second : h[7]? = some (.published "t" {}) := by rw [events]; rfl
  have closed : h[10]? = some .closed := by rw [events]; rfl
  refine ⟨⟨first, second, closed, by rw [events]; rfl⟩, ⟨(delivered 2 "t" {} first).1, ?_⟩,
    ⟨(delivered 7 "t" {} second).1, ?_⟩, dropped 10 11 closed (by decide)⟩
  · rw [events]
    rfl
  · rw [events]
    rfl

end Session

end Concolic.Bus
