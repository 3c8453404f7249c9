import IgnoreAtlas.Update.Bus

/-!
# What an announcement does

An announcement calls exactly the listeners that are registered when it begins, each once and in
their order (`map_listener_notify`), and sends exactly one event (`notify_channel`), whatever the
listeners do when they are called.
-/

namespace IgnoreAtlas.Update.Bus

/-- A change of the listeners leaves the channel alone. -/
theorem apply_channel (bus : Bus) (change : Change) :
    (bus.apply change).channel = bus.channel := by
  cases change with
  | register id =>
    simp only [apply, register]
    split <;> rfl
  | unregister id => rfl

/-- So do several changes. -/
theorem foldl_apply_channel (changes : List Change) (bus : Bus) :
    (changes.foldl apply bus).channel = bus.channel := by
  induction changes generalizing bus with
  | nil => rfl
  | cons change changes ih => rw [List.foldl_cons, ih, apply_channel]

/-- The calls are those of the listeners asked for, one each and in order. -/
theorem callAll_calls (react : Reactions) (event : Event) (ids : List ListenerId) (bus : Bus) :
    (callAll react event bus ids).1 = ids.map fun id =>
      ⟨id, event, if (react id event).panics then .panicked else .returned⟩ := by
  induction ids generalizing bus with
  | nil => rfl
  | cons id ids ih => simp only [callAll, List.map_cons, ih, call]

/-- Their changes are made in the same order, also before a panic. -/
theorem callAll_bus (react : Reactions) (event : Event) (ids : List ListenerId) (bus : Bus) :
    (callAll react event bus ids).2 =
      (ids.flatMap fun id => (react id event).changes).foldl apply bus := by
  induction ids generalizing bus with
  | nil => rfl
  | cons id ids ih => simp only [callAll, ih, call, List.flatMap_cons, List.foldl_append]

/-- No call of a listener sends an event. -/
theorem callAll_channel (react : Reactions) (event : Event) (ids : List ListenerId) (bus : Bus) :
    (callAll react event bus ids).2.channel = bus.channel := by
  rw [callAll_bus, foldl_apply_channel]

/-- An announcement calls the listeners that are registered when it begins, whatever they change
and whichever of them panic. -/
theorem map_listener_notify (react : Reactions) (event : Event) (bus : Bus) :
    (bus.notify react event).1.map Call.listener = bus.listeners := by
  simp only [notify, callAll_calls, List.map_map]
  exact List.map_id bus.listeners

/-- An announcement sends its event once. -/
theorem notify_channel (react : Reactions) (event : Event) (bus : Bus) :
    (bus.notify react event).2.channel = bus.channel.send event := by
  simp only [notify, callAll_channel]

end IgnoreAtlas.Update.Bus
