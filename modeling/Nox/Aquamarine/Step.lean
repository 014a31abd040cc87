import Nox.Aquamarine.Poll

/-!
# Runs of the plumber

A run interleaves the plumber's public calls (`ingest`, `poll`, `create_worker_pool`,
`remove_worker_pool`) with the events of the futures it waits on: a pool's VM creation
finishing, an actor's interpreter future finishing, and the data store finishing the
cleanup batch. Each step reads its own `Env`, so a run may see any clock values and
any answers of the registries.

`Reachable` is the set of states of every run from `Plumber::new` with a fresh host
pool of any size; `run` replays a list of steps, for concrete traces.
-/

namespace Nox.Aquamarine

/-- A step of a run. -/
inductive Action
  | ingest (particle : Particle) (function : Option ServiceFunction) (peerScope : PeerScope)
  | poll
  | createWorkerPool (w : WorkerId) (threadCount : Nat)
  | removeWorkerPool (w : WorkerId)
  | vmCreated (peerScope : PeerScope) (vmId : VmId)
  | avmCompleted (peerScope : PeerScope) (key : ActorKey) (outcome : AvmOutcome)
  | cleanupCompleted

namespace Plumber

/-- The pool a scope selects, modified by `f` when there is one. -/
def modifyPool (s : Plumber) (f : VmPool → VmPool) : PeerScope → Plumber
  | .host => { s with hostVmPool := f s.hostVmPool }
  | .workerId w => { s with workerVmPools := s.workerVmPools.modify w f }

/-- The state after one step. -/
def step (env : Env) (s : Plumber) : Action → Plumber
  | .ingest p f sc => s.ingest env p f sc
  | .poll => (s.poll env).2
  | .createWorkerPool w n => s.createWorkerPool w n
  | .removeWorkerPool w => s.removeWorkerPool w
  | .vmCreated sc i => s.modifyPool (·.finishCreation i) sc
  | .avmCompleted sc key out => s.modifyActor sc key (·.avmCompleted out)
  | .cleanupCompleted =>
    { s with cleanupFuture := s.cleanupFuture.map ({ · with ready := true }) }

/-- Replays a trace of steps, each with its environment. -/
def run (s : Plumber) : List (Env × Action) → Plumber
  | [] => s
  | (env, a) :: rest => (s.step env a).run rest

end Plumber

/-- The states of the runs from `Plumber::new` with a fresh host pool. -/
inductive Reachable : Plumber → Prop
  | init (n : Nat) : Reachable (Plumber.new (VmPool.new n))
  | step {s : Plumber} (env : Env) (a : Action) : Reachable s → Reachable (s.step env a)

theorem Reachable.run {s : Plumber} (hs : Reachable s) (trace : List (Env × Action)) :
    Reachable (s.run trace) := by
  induction trace generalizing s with
  | nil => exact hs
  | cons e rest ih => exact ih (hs.step e.1 e.2)

end Nox.Aquamarine
