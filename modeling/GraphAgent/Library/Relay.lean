import Mathlib.Data.List.Basic

/-!
# Relaying a finite stream through a queue

A sender puts items into a queue and at the end a mark; a receiver takes them
out at the other side. What was received and what is still queued is, in order,
what was sent, and the mark is the last thing in the queue.
-/

namespace Relay

universe u

variable {ε : Type u}

/-- Nothing sent is lost, repeated or reordered between the sender and the
receiver, and the mark stands in the queue exactly when the stream is closed. -/
def InTransit (sent received : List ε) (closed : Bool) (queue : List (Option ε)) : Prop :=
  ∃ pending, received ++ pending = sent ∧
    queue = pending.map some ++ (if closed then [none] else [])

theorem inTransit_empty : InTransit (ε := ε) [] [] false [] := ⟨[], rfl, rfl⟩

variable {sent received : List ε} {closed : Bool} {queue : List (Option ε)}

theorem InTransit.put (h : InTransit sent received false queue) (item : ε) :
    InTransit (sent ++ [item]) received false (queue ++ [some item]) := by
  obtain ⟨pending, rfl, rfl⟩ := h
  exact ⟨pending ++ [item], by simp, by simp⟩

theorem InTransit.close (h : InTransit sent received false queue) :
    InTransit sent received true (queue ++ [none]) := by
  obtain ⟨pending, rfl, rfl⟩ := h
  exact ⟨pending, rfl, by simp⟩

theorem InTransit.take {item : ε} {rest : List (Option ε)}
    (h : InTransit sent received closed (some item :: rest)) :
    InTransit sent (received ++ [item]) closed rest := by
  obtain ⟨_ | ⟨first, pending⟩, rfl, hqueue⟩ := h
  · cases closed <;> simp at hqueue
  · simp only [List.map_cons, List.cons_append, List.cons.injEq, Option.some.injEq] at hqueue
    obtain ⟨rfl, rfl⟩ := hqueue
    exact ⟨pending, by simp, rfl⟩

/-- When the mark is taken, everything sent has been received. -/
theorem InTransit.take_mark {rest : List (Option ε)}
    (h : InTransit sent received closed (none :: rest)) : received = sent ∧ rest = [] := by
  obtain ⟨_ | ⟨first, pending⟩, rfl, hqueue⟩ := h
  · cases closed <;> simp_all
  · simp at hqueue

/-- What is received is at every time a prefix of what is sent. -/
theorem InTransit.received_of_sent (h : InTransit sent received closed queue) : received <+: sent := by
  obtain ⟨pending, rfl, -⟩ := h
  exact List.prefix_append received pending

end Relay
