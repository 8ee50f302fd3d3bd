import Ferrite.Proofs.Scope.Live

/-!
A record is replayed by the calls that go with its events, each in its turn. Any other call fails
and leaves the replay as it is; in particular the frames never run out, and no scope is left that
was not entered.
-/

namespace Ferrite.Scope

/-- What a record says of the history it is about. -/
structure Record.Tells (record : Record) (ops : List Op) : Prop where
  events : record.events.toList = eventsOf 0 ops
  nested : Nested record.events.toList
  size : record.frames.size = record.events.toList.count .push
  frames : record.frames.toList = framesOf ops

theorem Live.finish_tells (ops : List Op) : (({} : Live).perform ops).finish.Tells ops := by
  rw [finish_perform]
  have hevents : (({} : Stack).perform ops).finish.events.toList = eventsOf 0 ops :=
    Stack.events_perform {} ops
  have hframes : (({} : Stack).perform ops).finish.frames.toList = framesOf ops :=
    Stack.frames_perform Stack.valid_empty ops
  refine ⟨hevents, ?_, ?_, hframes⟩
  · rw [hevents]
    exact closes_eventsOf 0 ops
  · rw [hevents, ← Array.length_toList, hframes, count_eventsOf]

namespace Replay

variable {r : Replay} {e : Event} {done : List Event}

/-- The calls that succeed when all are made one after the other, and the replay behind them. -/
def make : List Event → Replay → List Event × Replay
  | [], r => ([], r)
  | e :: es, r =>
      match call e r with
      | .ok _ r' => (e :: (make es r').1, (make es r').2)
      | .error _ r' => make es r'

/-- A replay of nested events behind the first of them. -/
structure Behind (done : List Event) (r : Replay) : Prop where
  nested : Nested r.record.events.toList
  size : r.record.frames.size = r.record.events.toList.count .push
  front : done <+: r.record.events.toList
  nextEvent : r.nextEvent = done.length
  nextFrame : r.nextFrame = done.count .push
  opened : r.opened.length + done.count .pop = done.count .push

namespace Behind

theorem getElem?_iff (h : Behind done r) :
    r.record.events[r.nextEvent]? = some e ↔ done ++ [e] <+: r.record.events.toList := by
  obtain ⟨rest, hrest⟩ := h.front
  rw [← Array.getElem?_toList, ← hrest, h.nextEvent, List.getElem?_append_right (Nat.le_refl _),
    Nat.sub_self, List.prefix_append_right_inj]
  cases rest with
  | nil => simp
  | cons e' rest => simp [eq_comm]

theorem count_le (h : Behind done r) (hnext : done ++ [e] <+: r.record.events.toList) :
    (done ++ [e]).count .pop ≤ (done ++ [e]).count .push := by
  rw [List.prefix_iff_eq_take.mp hnext]
  exact h.nested.count_take _

/-- A call succeeds if it goes with the next event, and otherwise changes nothing. -/
theorem call (h : Behind done r) (e : Event) :
    if r.record.events[r.nextEvent]? = some e then
      ∃ r', Replay.call e r = .ok () r' ∧ r'.record = r.record ∧ Behind (done ++ [e]) r'
    else Replay.call e r = .error (.event e r.nextEvent r.record.events[r.nextEvent]?) r := by
  split
  · rename_i hnext
    have hdone := h.getElem?_iff.mp hnext
    have hcount := h.count_le hdone
    have hopened := h.opened
    cases e with
    | push =>
      have hframe : r.nextFrame < r.record.frames.size := by
        have hle := hdone.sublist.count_le .push
        rw [List.count_append, List.count_singleton_self, ← h.size, ← h.nextFrame] at hle
        omega
      refine ⟨_, entering_next hnext hframe, rfl, h.nested, h.size, hdone, ?_, ?_, ?_⟩
      · simp [h.nextEvent]
      · simp [h.nextFrame]
      · simp
        omega
    | pop =>
      cases ho : r.opened with
      | nil =>
        simp [ho] at hopened hcount
        omega
      | cons k rest =>
        rw [ho, List.length_cons] at hopened
        refine ⟨_, leaving_next hnext ho, rfl, h.nested, h.size, hdone, ?_, ?_, ?_⟩
        · simp [h.nextEvent]
        · simp [h.nextFrame]
        · simp
          omega
  · rename_i hnext
    exact call_other hnext

theorem make (h : Behind done r) (calls : List Event) :
    (Replay.make calls r).2.record = r.record ∧
      Behind (done ++ (Replay.make calls r).1) (Replay.make calls r).2 := by
  induction calls generalizing done r with
  | nil => exact ⟨rfl, by rwa [Replay.make, List.append_nil]⟩
  | cons e es ih =>
    rw [Replay.make]
    have hcall := h.call e
    split at hcall
    · obtain ⟨r', hok, hrecord, hbehind⟩ := hcall
      obtain ⟨hrecord', hbehind'⟩ := ih hbehind
      rw [hok]
      rw [List.append_assoc] at hbehind'
      exact ⟨hrecord'.trans hrecord, hbehind'⟩
    · rw [hcall]
      exact ih h

theorem isFinished_iff (h : Behind done r) : r.isFinished ↔ done = r.record.events.toList := by
  rw [isFinished, decide_eq_true_eq, h.nextEvent, ← Array.length_toList]
  exact ⟨h.front.eq_of_length, fun heq => congrArg List.length heq⟩

/-- Behind all events no frame is open. -/
theorem closed (h : Behind done r) (hdone : done = r.record.events.toList) : r.opened = [] := by
  have hopened := h.opened
  have hcount := h.nested.count
  rw [← hdone] at hcount
  exact List.eq_nil_of_length_eq_zero (by omega)

end Behind

theorem behind_start {record : Record} {ops : List Op} (h : record.Tells ops) : Behind [] { record } where
  nested := h.nested
  size := h.size
  front := List.nil_prefix
  nextEvent := rfl
  nextFrame := rfl
  opened := rfl

/-- What a history recorded is replayed by exactly the calls that go with its events. Whatever was
called before, a call succeeds if it goes with the next event; any other call fails without a trace.
The replay is finished when all events were gone through, and no scope is open then. -/
theorem finish_replays (ops : List Op) (calls : List Event) :
    let record := (({} : Live).perform ops).finish
    let done := (make calls { record }).1
    let r := (make calls { record }).2
    record.Tells ops ∧ done <+: record.events.toList ∧ r.nextEvent = done.length ∧
      (∀ e, if record.events[done.length]? = some e then ∃ r', call e r = .ok () r'
        else call e r = .error (.event e done.length record.events[done.length]?) r) ∧
      (r.isFinished ↔ done = record.events.toList) ∧
      (r.isFinished → r.opened = []) := by
  intro record done r
  have htells := Live.finish_tells ops
  obtain ⟨hrecord, hbehind⟩ := (behind_start htells).make calls
  rw [List.nil_append] at hbehind
  have hsame : r.record = record := hrecord
  have hfinished : r.isFinished ↔ done = record.events.toList := hsame ▸ hbehind.isFinished_iff
  refine ⟨htells, hsame ▸ hbehind.front, hbehind.nextEvent, ?_, hfinished, ?_⟩
  · intro e
    have hcall := hbehind.call e
    rw [hbehind.nextEvent, hrecord] at hcall
    split at hcall
    · rename_i hnext
      rw [if_pos hnext]
      obtain ⟨r', hok, -, -⟩ := hcall
      exact ⟨r', hok⟩
    · rename_i hnext
      rw [if_neg hnext]
      exact hcall
  · intro h
    exact hbehind.closed (hbehind.isFinished_iff.mp h)

/-- A scope that was left open is closed in the record, and one that was never open is not. -/
example : (make [.pop, .push, .push, .pop, .pop]
    { record := (({} : Live).perform [.leave, .enter]).finish }).1 = [.push, .pop] := by decide

end Replay
end Ferrite.Scope
