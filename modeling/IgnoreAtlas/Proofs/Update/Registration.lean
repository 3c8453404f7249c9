import IgnoreAtlas.Proofs.Update.Dispatch
import Mathlib.Data.List.Induction
import Mathlib.Data.Nat.Find

/-!
# Who is registered

A run of a bus is any sequence of requests, announcements among them whose listeners change the
listeners while they are called. All the changes of a run, the listeners' own included, make one
history. `announces_after` says what holds after every run: the listeners are those whose
registration stands by that history, each once and in the order of these registrations, and an
announcement calls exactly them and then sends one event.

A listener's behaviour is a parameter of each announcement. Since an announcement calls a listener
at most once, that also covers a listener whose behaviour depends on what it has seen before.
-/

namespace IgnoreAtlas.Update

/-! ## Subscribers -/

namespace Channel

/-- What a subscriber gets of the news: all of it, or the notice of a loss and what is kept. -/
def received (news : List Event) : List Received :=
  if news.length ≤ capacity then news.map .event
  else
    .lagged (news.length - capacity) :: (news.drop (news.length - capacity)).map .event

theorem drain_succ (channel : Channel) (fuel : Nat) (s : Subscription) :
    channel.drain (fuel + 1) s =
      match channel.receive s with
      | (.nothing, s) => ([], s)
      | (received, s) => (received :: (channel.drain fuel s).1, (channel.drain fuel s).2) := by
  rfl

/-- A reader that has lost nothing gets the events that were sent since. -/
theorem drain_of_le {channel : Channel} {s : Subscription} {fuel : Nat}
    (hs : channel.oldest ≤ s.next) (hfuel : channel.sent.length - s.next < fuel) :
    (channel.drain fuel s).1 = (channel.sent.drop s.next).map Received.event := by
  induction fuel generalizing s with
  | zero => exact absurd hfuel (Nat.not_lt_zero _)
  | succ fuel ih =>
    cases hget : channel.sent[s.next]? with
    | none =>
      have hreceive : channel.receive s = (.nothing, s) := by
        rw [receive, if_neg (Nat.not_lt.mpr hs), hget]
      have hlen := List.getElem?_eq_none_iff.mp hget
      rw [drain_succ, hreceive, List.drop_eq_nil_of_le hlen, List.map_nil]
    | some event =>
      have hreceive : channel.receive s = (.event event, ⟨s.next + 1⟩) := by
        rw [receive, if_neg (Nat.not_lt.mpr hs), hget]
      obtain ⟨hlt, hevent⟩ := List.getElem?_eq_some_iff.mp hget
      have hrest := ih (s := ⟨s.next + 1⟩) (Nat.le_succ_of_le hs) (by clear hs; simp only; omega)
      rw [drain_succ, hreceive, List.drop_eq_getElem_cons hlt, List.map_cons, hevent, ← hrest]

theorem receiveAll_subscribe {channel later : Channel} {news : List Event}
    (h : later.sent = channel.sent ++ news) :
    (later.receiveAll channel.subscribe).1 = received news := by
  have hlen : later.sent.length = channel.sent.length + news.length := by
    rw [h, List.length_append]
  rw [receiveAll, subscribe, received]
  split
  case isTrue hle =>
    have kept : later.sent.length - capacity ≤ channel.sent.length := by omega
    have enough : later.sent.length - channel.sent.length < capacity + 2 := by omega
    rw [drain_of_le kept enough, h, List.drop_left]
  case isFalse hgt =>
    have behind : channel.sent.length < channel.sent.length + (news.length - capacity) := by omega
    have enough : later.sent.length - (channel.sent.length + (news.length - capacity)) <
        capacity + 1 := by omega
    have hold : later.oldest = channel.sent.length + (news.length - capacity) := by
      rw [oldest, hlen, Nat.add_sub_assoc (Nat.le_of_not_le hgt)]
    have hreceive : later.receive ⟨channel.sent.length⟩ =
        (.lagged (news.length - capacity), ⟨channel.sent.length + (news.length - capacity)⟩) := by
      rw [receive, hold, if_pos behind, Nat.add_sub_cancel_left]
    have hrest := drain_of_le (s := ⟨channel.sent.length + (news.length - capacity)⟩)
      (Nat.le_of_eq hold) enough
    rw [drain_succ, hreceive]
    simp only [hrest, h, List.drop_length_add_append]

end Channel

namespace Bus

/-! ## The registrations of a history -/

/-- The registration at this place of the history has not been taken back. -/
def Stays (changes : List Change) (id : ListenerId) (k : Nat) : Prop :=
  changes[k]? = some (.register id) ∧ ∀ j, k < j → changes[j]? ≠ some (.unregister id)

/-- The registration by which the listener is registered. Where several stay, it is the first: the
others found the listener registered. -/
structure InForce (changes : List Change) (id : ListenerId) (k : Nat) : Prop where
  stays : Stays changes id k
  first : ∀ i, i < k → ¬ Stays changes id i

section

variable {changes : List Change} {change : Change} {id x : ListenerId} {i j k : Nat}

theorem getElem?_concat_eq_some {other : Change} :
    (changes ++ [change])[k]? = some other ↔
      changes[k]? = some other ∨ (k = changes.length ∧ change = other) := by
  grind

theorem Stays.lt_length (h : Stays changes id k) : k < changes.length := by
  obtain ⟨hk, -⟩ := List.getElem?_eq_some_iff.mp h.1
  exact hk

theorem stays_concat_register :
    Stays (changes ++ [.register x]) id k ↔
      Stays changes id k ∨ (k = changes.length ∧ id = x) := by
  simp only [Stays, ne_eq, getElem?_concat_eq_some, Change.register.injEq, reduceCtorEq,
    and_false, or_false]
  constructor
  · rintro ⟨hk | ⟨hk, rfl⟩, kept⟩
    · exact .inl ⟨hk, kept⟩
    · exact .inr ⟨hk, rfl⟩
  · rintro (⟨hk, kept⟩ | ⟨rfl, rfl⟩)
    · exact ⟨.inl hk, kept⟩
    · refine ⟨.inr ⟨rfl, rfl⟩, ?_⟩
      intro j hj
      simp [List.getElem?_eq_none (Nat.le_of_lt hj)]

theorem stays_concat_unregister :
    Stays (changes ++ [.unregister x]) id k ↔ Stays changes id k ∧ id ≠ x := by
  constructor
  · rintro ⟨hk, kept⟩
    have hk : changes[k]? = some (.register id) := by simpa [getElem?_concat_eq_some] using hk
    obtain ⟨hlt, -⟩ := List.getElem?_eq_some_iff.mp hk
    refine ⟨⟨hk, ?_⟩, ?_⟩
    · intro j hkj hj
      exact kept j hkj (getElem?_concat_eq_some.mpr (.inl hj))
    · rintro rfl
      exact kept changes.length hlt (by simp)
  · rintro ⟨⟨hk, kept⟩, hne⟩
    refine ⟨getElem?_concat_eq_some.mpr (.inl hk), ?_⟩
    intro j hkj hj
    rcases getElem?_concat_eq_some.mp hj with hj | ⟨-, hj⟩
    · exact kept j hkj hj
    · cases hj
      exact hne rfl

theorem exists_inForce_iff : (∃ k, InForce changes id k) ↔ ∃ k, Stays changes id k := by
  constructor
  · rintro ⟨k, h⟩
    exact ⟨k, h.stays⟩
  · intro h
    classical
    exact ⟨Nat.find h, Nat.find_spec h, fun i hi => Nat.find_min h hi⟩

theorem InForce.of_concat_register (h : InForce (changes ++ [.register x]) id k) :
    InForce changes id k ∨ (k = changes.length ∧ id = x ∧ ∀ i, ¬ Stays changes x i) := by
  obtain ⟨hk, first⟩ := h
  rcases stays_concat_register.mp hk with hk | ⟨rfl, rfl⟩
  · exact .inl ⟨hk, fun i hi h => first i hi (stays_concat_register.mpr (.inl h))⟩
  · refine .inr ⟨rfl, rfl, ?_⟩
    intro i h
    exact first i h.lt_length (stays_concat_register.mpr (.inl h))

/-- A registration adds to what is in force only for the listener itself, if it was not in. -/
theorem InForce.of_concat_register_of (h : InForce (changes ++ [.register x]) id k)
    (hid : id ≠ x ∨ ∃ i, Stays changes x i) : InForce changes id k := by
  rcases h.of_concat_register with h | ⟨-, rfl, unknown⟩
  · exact h
  · rcases hid with hne | ⟨i, hi⟩
    · exact absurd rfl hne
    · exact absurd hi (unknown i)

theorem InForce.of_concat_unregister (h : InForce (changes ++ [.unregister x]) id k) :
    InForce changes id k := by
  obtain ⟨hk, hne⟩ := stays_concat_unregister.mp h.stays
  exact ⟨hk, fun i hi hs => h.first i hi (stays_concat_unregister.mpr ⟨hs, hne⟩)⟩

end

/-- These are the listeners that the history leaves registered, in the order of the registrations
that are in force. -/
structure Listed (changes : List Change) (ids : List ListenerId) : Prop where
  nodup : ids.Nodup
  mem_iff : ∀ id, id ∈ ids ↔ ∃ k, InForce changes id k
  ordered : ids.Pairwise fun a b =>
    ∀ i j, InForce changes a i → InForce changes b j → i < j

namespace Listed

theorem empty : Listed [] [] := by
  refine ⟨List.nodup_nil, ?_, List.Pairwise.nil⟩
  simp [exists_inForce_iff, Stays]

variable {changes : List Change} {bus : Bus}

theorem register (h : Listed changes bus.listeners) (x : ListenerId) :
    Listed (changes ++ [.register x]) (bus.register x).listeners := by
  unfold Bus.register
  split
  case isTrue hx =>
    -- A second registration is no change of the list, and it is not in force.
    have known := exists_inForce_iff.mp ((h.mem_iff x).mp hx)
    refine ⟨h.nodup, ?_, h.ordered.imp ?_⟩
    · intro id
      simp only [h.mem_iff, exists_inForce_iff, stays_concat_register, exists_or]
      constructor
      · intro hid
        exact .inl hid
      · rintro (hid | ⟨k, -, rfl⟩)
        · exact hid
        · exact known
    · intro a b hab i j hi hj
      exact hab i j (hi.of_concat_register_of (.inr known)) (hj.of_concat_register_of (.inr known))
  case isFalse hx =>
    have other : ∀ a ∈ bus.listeners, a ≠ x := fun a ha hax => hx (hax ▸ ha)
    refine ⟨?_, ?_, ?_⟩
    · simpa [List.nodup_append, h.nodup] using other
    · intro id
      simp only [List.mem_append, List.mem_singleton, h.mem_iff, exists_inForce_iff,
        stays_concat_register, exists_or, exists_eq_left]
    · rw [List.pairwise_append]
      refine ⟨h.ordered.imp_of_mem ?_, List.pairwise_singleton _ x, ?_⟩
      · intro a b ha hb hab i j hi hj
        exact hab i j (hi.of_concat_register_of (.inl (other a ha)))
          (hj.of_concat_register_of (.inl (other b hb)))
      · intro a ha b hb i j hi hj
        rw [List.mem_singleton] at hb
        subst hb
        have earlier := (hi.of_concat_register_of (.inl (other a ha))).stays.lt_length
        rcases hj.of_concat_register with hj | ⟨rfl, -, -⟩
        · exact absurd ((h.mem_iff b).mpr ⟨j, hj⟩) hx
        · exact earlier

theorem unregister (h : Listed changes bus.listeners) (x : ListenerId) :
    Listed (changes ++ [.unregister x]) (bus.unregister x).2.listeners := by
  refine ⟨h.nodup.filter _, ?_, ?_⟩
  · intro id
    simp only [Bus.unregister, List.mem_filter, h.mem_iff, exists_inForce_iff, decide_eq_true_eq,
      stays_concat_unregister, exists_and_right]
  · refine (h.ordered.filter _).imp ?_
    intro a b hab i j hi hj
    exact hab i j hi.of_concat_unregister hj.of_concat_unregister

theorem apply (h : Listed changes bus.listeners) (change : Change) :
    Listed (changes ++ [change]) (bus.apply change).listeners := by
  cases change with
  | register x => exact h.register x
  | unregister x => exact h.unregister x

theorem foldl_apply (h : Listed changes bus.listeners) (more : List Change) :
    Listed (changes ++ more) (more.foldl Bus.apply bus).listeners := by
  induction more generalizing changes bus with
  | nil => simpa using h
  | cons change more ih =>
    have hstep := ih (h.apply change)
    rw [List.append_assoc] at hstep
    exact hstep

end Listed

/-! ## Runs -/

/-- What can be asked of a bus. An announcement comes with the behaviour of the listeners. -/
inductive Request
  | register (id : ListenerId)
  | unregister (id : ListenerId)
  | subscribe
  | notify (react : Reactions) (event : Event)

/-- The event that is announced, if one is. -/
def Request.event? : Request → Option Event
  | .notify _ event => some event
  | _ => none

/-- The bus after a request. -/
def perform (bus : Bus) : Request → Bus
  | .register id => bus.register id
  | .unregister id => (bus.unregister id).2
  | .subscribe => bus
  | .notify react event => (bus.notify react event).2

/-- The changes of the listeners that a request makes, those of the called listeners in turn. -/
def changesOf (bus : Bus) : Request → List Change
  | .register id => [.register id]
  | .unregister id => [.unregister id]
  | .subscribe => []
  | .notify react event => bus.listeners.flatMap fun id => (react id event).changes

/-- The bus after a run. -/
def after (bus : Bus) (run : List Request) : Bus := run.foldl perform bus

/-- All the changes of a run. -/
def history (bus : Bus) : List Request → List Change
  | [] => []
  | request :: run => bus.changesOf request ++ (bus.perform request).history run

theorem Listed.perform {changes : List Change} {bus : Bus} (h : Listed changes bus.listeners)
    (request : Request) :
    Listed (changes ++ bus.changesOf request) (bus.perform request).listeners := by
  cases request with
  | register id => exact h.register id
  | unregister id => exact h.unregister id
  | subscribe => simpa [changesOf, Bus.perform] using h
  | notify react event =>
    have called := h.foldl_apply (bus.listeners.flatMap fun id => (react id event).changes)
    rw [← callAll_bus] at called
    exact called

theorem Listed.after {changes : List Change} {bus : Bus} (h : Listed changes bus.listeners)
    (run : List Request) : Listed (changes ++ bus.history run) (bus.after run).listeners := by
  induction run generalizing changes bus with
  | nil => simpa [history, Bus.after] using h
  | cons request run ih =>
    have hstep := ih (h.perform request)
    rw [List.append_assoc] at hstep
    exact hstep

theorem sent_perform (bus : Bus) (request : Request) :
    (bus.perform request).channel.sent = bus.channel.sent ++ request.event?.toList := by
  cases request with
  | register id =>
    have kept := bus.apply_channel (.register id)
    simpa [perform, Request.event?, apply] using congrArg Channel.sent kept
  | unregister id => simp [perform, unregister, Request.event?]
  | subscribe => simp [perform, Request.event?]
  | notify react event => simp [perform, notify_channel, Channel.send, Request.event?]

theorem sent_after (bus : Bus) (run : List Request) :
    (bus.after run).channel.sent = bus.channel.sent ++ run.filterMap Request.event? := by
  induction run generalizing bus with
  | nil => simp [after]
  | cons request run ih =>
    have hstep := ih (bus.perform request)
    rw [sent_perform] at hstep
    rw [List.filterMap_cons]
    cases hr : request.event? with
    | none => simpa [hr, after] using hstep
    | some event => simpa [hr, after] using hstep

/-- By the number of listeners that are left one sees whether the listener was registered. -/
theorem unregister_fst_iff (bus : Bus) (id : ListenerId) :
    (bus.unregister id).1 = true ↔ id ∈ bus.listeners := by
  simp only [unregister, bne_iff_ne, ne_eq, List.length_filter_eq_length_iff, decide_eq_true_eq]
  constructor
  · intro h
    by_contra hid
    exact h fun other hother heq => hid (heq ▸ hother)
  · intro hid h
    exact h id hid rfl

/-- What holds after every run. At that moment, and between any changes that a called listener goes
on to make, the listeners are those of the history, and taking one back tells whether it was
registered. An announcement calls the listeners that are registered when it begins, whatever they
change and whichever of them panic; while they are called nothing is sent, and then its event. So
the channel has the events of the announcements and no others, and a subscriber gets those that
were made since. -/
theorem announces_after (run : List Request) :
    (∀ changes id,
      Listed (history {} run ++ changes) (changes.foldl apply (after {} run)).listeners ∧
      (((changes.foldl apply (after {} run)).unregister id).1 = true ↔
        id ∈ (changes.foldl apply (after {} run)).listeners)) ∧
    (∀ react event,
      ((after {} run).notify react event).1 = (after {} run).listeners.map (fun id =>
        ⟨id, event, if (react id event).panics then .panicked else .returned⟩) ∧
      (∀ called, called <+: (after {} run).listeners →
        (callAll react event (after {} run) called).2.channel = (after {} run).channel) ∧
      ((after {} run).notify react event).2.channel = (after {} run).channel.send event) ∧
    (after {} run).channel.sent = run.filterMap Request.event? ∧
    (∀ before since, run = before ++ .subscribe :: since →
      ((after {} run).channel.receiveAll (after {} before).channel.subscribe).1 =
        Channel.received (since.filterMap Request.event?)) := by
  have listed : Listed (history {} run) (after {} run).listeners := by
    have h : Listed ([] ++ history {} run) (after {} run).listeners := Listed.empty.after run
    rwa [List.nil_append] at h
  have sent := sent_after {} run
  refine ⟨?_, ?_, ?_, ?_⟩
  · intro changes id
    exact ⟨listed.foldl_apply changes, unregister_fst_iff _ id⟩
  · intro react event
    refine ⟨callAll_calls react event _ _, ?_, notify_channel react event _⟩
    intro called _
    exact callAll_channel react event called _
  · simpa using sent
  · intro before since hrun
    refine Channel.receiveAll_subscribe ?_
    rw [sent, sent_after {} before, hrun, List.filterMap_append, List.append_assoc]
    rfl

/-- A listener that panics after it has taken itself back and let another one in. -/
example :
    let react : Reactions := fun id _ =>
      if id = "once" then ⟨[.unregister "once", .register "late"], true⟩ else {}
    let bus := after {} [.register "once", .register "kept", .notify react .started]
    bus.listeners = ["kept", "late"] ∧
      (bus.notify react .finished).1 =
        [⟨"kept", .finished, .returned⟩, ⟨"late", .finished, .returned⟩] := by
  decide

end Bus

end IgnoreAtlas.Update
