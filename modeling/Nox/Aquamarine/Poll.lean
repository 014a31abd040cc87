import Nox.Aquamarine.Plumber

/-!
# The scheduling tick

`Plumber::poll` and the phases it runs, in the order of `aquamarine/src/plumber.rs`:
pools are polled, a queued event is returned if there is one, finished executions are
collected (`poll_host_actors`, `poll_workers_actors`), expired actors are cleaned up,
new executions are started (`poll_next_host_messages`, `poll_next_worker_messages`),
local effects are re-ingested and remote effects are queued as events.

Each `for` loop over a map is one of the loop shapes of `Nox.Std.HashMap`, with the
loop body as its own definition. The metrics and call statistics gathered along the
way are only reported to the metrics sink, and are left out.
-/

namespace Nox.Aquamarine

/-- `Poll<T>`. -/
inductive Poll (α : Type)
  | ready (a : α)
  | pending
deriving DecidableEq, Repr

/-- The effects `poll_actors` gathers over a tick. -/
structure Routing where
  remoteEffects : List RemoteRoutingEffects
  localEffects : List LocalRoutingEffects
deriving DecidableEq, Repr

/-- The loop over `next_peers` in `poll_actors`: a peer that `scopes.scope` does not
    resolve is remote, the scope of one it resolves is local. -/
def splitPeers (env : Env) (nextPeers : List PeerId) : List PeerId × List PeerScope :=
  nextPeers.foldl (fun acc q =>
    match env.scope q with
    | none => (acc.1 ++ [q], acc.2)
    | some sc => (acc.1, acc.2 ++ [sc])) ([], [])

/-- The body of the loop of `poll_actors` for one actor. -/
def pollActor (env : Env) (st : VmPool × Routing) (a : Actor) : (VmPool × Routing) × Actor :=
  match a.pollCompleted with
  | (none, a) => (st, a)
  | (some result, a) =>
    let peers := splitPeers env result.effects.nextPeers
    let routing : Routing :=
      ⟨if peers.1.isEmpty then st.2.remoteEffects
        else st.2.remoteEffects ++ [⟨result.effects.particle, peers.1⟩],
       if peers.2.isEmpty then st.2.localEffects
        else st.2.localEffects ++ [⟨result.effects.particle, peers.2⟩]⟩
    let pool := if result.runtime.2 then st.1.putVm result.runtime.1
      else st.1.recreateAvm result.runtime.1
    ((pool, routing), a)

/-- `Plumber::poll_actors`: every actor of the map is polled for a finished execution. -/
def pollActors (env : Env) (routing : Routing) (actors : Actors) (pool : VmPool) :
    Routing × Actors × VmPool :=
  let r := actors.mapAccum (fun st _ a => pollActor env st a) (pool, routing)
  (r.1.2, r.2, r.1.1)

/-- The closure of `cleanup_actors`: nothing more is collected once there are
    `MAX_CLEANUP_KEYS_SIZE` keys; an expired actor that is not executing is dropped and
    its `cleanup_key` pushed. -/
def cleanupActor (now : UInt64) (keys : List CleanupKey) (_ : ActorKey) (actor : Actor) :
    List CleanupKey × Actor × Bool :=
  if maxCleanupKeysSize ≤ keys.length then (keys, actor, true)
  else if !actor.isExpired now || actor.isExecuting then (keys, actor, true)
  else (keys ++ [actor.cleanupKey], actor, false)

/-- `cleanup_actors`: `retain` over the map with `cleanupActor`. -/
def cleanupActors (now : UInt64) (keys : List CleanupKey) (map : Actors) :
    List CleanupKey × Actors :=
  map.retainAccum (cleanupActor now) keys

/-- The body of the loops of `poll_next_host_messages` and `poll_next_worker_messages`
    for one actor; `none` is the `break` on an empty pool. -/
def pollNextActor (pool : VmPool) (a : Actor) : Option (VmPool × Actor) :=
  match pool.getVm with
  | none => none
  | some (vmId, pool) =>
    match a.pollNext vmId with
    | (.vm vmId, a) => some (pool.putVm vmId, a)
    | (.executing, a) => some (pool, a)

/-- The loop of `poll_next_host_messages` over one actor map and its pool. -/
def pollNextActors (actors : Actors) (pool : VmPool) : Actors × VmPool :=
  let r := actors.mapAccumBreak (fun pool _ a => pollNextActor pool a) pool
  (r.2, r.1)

/-- `poll_actors` leaves the same pool and actors whatever effects were gathered before. -/
theorem pollActors_snd_eq (env : Env) (r r' : Routing) (actors : Actors) (pool : VmPool) :
    (pollActors env r actors pool).2 = (pollActors env r' actors pool).2 := by
  let f' := fun (p : VmPool) (_ : ActorKey) (a : Actor) =>
    ((pollActor env (p, ⟨[], []⟩) a).1.1, (pollActor env (p, ⟨[], []⟩) a).2)
  have hf : ∀ (st : VmPool × Routing) (k : ActorKey) (a : Actor),
      ((pollActor env st a).1.1, (pollActor env st a).2) = f' st.1 k a := by
    intro st _ a
    simp only [f']; unfold pollActor
    generalize a.pollCompleted = q
    rcases q with ⟨_ | res, a'⟩ <;> rfl
  have h := HashMap.mapAccumEntries_map_state Prod.fst _ f' hf (pool, r) actors.entries
  have h' := HashMap.mapAccumEntries_map_state Prod.fst _ f' hf (pool, r') actors.entries
  simp only [pollActors, HashMap.mapAccum, Prod.mk.injEq]
  rw [← h'] at h
  simp only [Prod.mk.injEq] at h
  exact ⟨HashMap.ext h.2, h.1⟩

/-- Polling an actor leaves it as `poll_completed` does, whatever was gathered. -/
@[simp] theorem pollActor_snd (env : Env) (st : VmPool × Routing) (a : Actor) :
    (pollActor env st a).2 = a.pollCompleted.2 := by
  unfold pollActor
  generalize a.pollCompleted = q
  rcases q with ⟨_ | res, a'⟩ <;> rfl

/-- `poll_actors` leaves every actor as `poll_completed` does. -/
theorem pollActors_actors (env : Env) (r : Routing) (actors : Actors) (pool : VmPool) :
    (pollActors env r actors pool).2.1 = actors.mapValues fun _ a => a.pollCompleted.2 :=
  HashMap.mapAccum_snd_eq_mapValues _ _ (fun st _ a => pollActor_snd env st a) _ actors

@[simp] theorem keys_pollActors (env : Env) (r : Routing) (actors : Actors) (pool : VmPool) :
    (pollActors env r actors pool).2.1.keys = actors.keys :=
  HashMap.keys_mapAccum _ _ actors

@[simp] theorem keys_pollNextActors (actors : Actors) (pool : VmPool) :
    (pollNextActors actors pool).1.keys = actors.keys :=
  HashMap.keys_mapAccumBreak _ _ actors

/-- The closure of `cleanup_worker_actors`: the bucket is cleaned, and kept while it
    has actors or its worker has a pool. -/
def cleanupBucket (pools : HashMap WorkerId VmPool) (now : UInt64) (keys : List CleanupKey)
    (w : WorkerId) (actors : Actors) : List CleanupKey × Actors × Bool :=
  let c := cleanupActors now keys actors
  (c.1, c.2, !c.2.isEmpty || pools.containsKey w)

namespace Plumber

/-- `poll_pools`. -/
def pollPools (s : Plumber) : Plumber :=
  { s with
    hostVmPool := s.hostVmPool.poll
    workerVmPools := s.workerVmPools.mapValues fun _ pool => pool.poll }

/-- `poll_host_actors`. -/
def pollHostActors (env : Env) (s : Plumber) (routing : Routing) : Plumber × Routing :=
  let r := pollActors env routing s.hostActors s.hostVmPool
  ({ s with hostActors := r.2.1, hostVmPool := r.2.2 }, r.1)

/-- `poll_workers_actors`: a bucket whose worker has no pool is skipped. -/
def pollWorkersActors (env : Env) (s : Plumber) (routing : Routing) : Plumber × Routing :=
  let r := s.workerActors.mapAccumWith (fun routing _ actors pool =>
    pollActors env routing actors pool) routing s.workerVmPools
  ({ s with workerActors := r.2.1, workerVmPools := r.2.2 }, r.1)

/-- `cleanup_host_actors`. -/
def cleanupHostActors (s : Plumber) (keys : List CleanupKey) (now : UInt64) :
    Plumber × List CleanupKey :=
  let r := cleanupActors now keys s.hostActors
  ({ s with hostActors := r.2 }, r.1)

/-- `cleanup_worker_actors`: nothing once the batch is full; otherwise every bucket is
    cleaned, and dropped when it is left empty and its worker has no pool. -/
def cleanupWorkerActors (s : Plumber) (keys : List CleanupKey) (now : UInt64) :
    Plumber × List CleanupKey :=
  if maxCleanupKeysSize ≤ keys.length then (s, keys)
  else
    let r := s.workerActors.retainAccum (cleanupBucket s.workerVmPools now) keys
    ({ s with workerActors := r.2 }, r.1)

/-- The first half of `cleanup`: a cleanup future that has finished is dropped. -/
def takeFinishedCleanup (s : Plumber) : Plumber :=
  match s.cleanupFuture with
  | some f => if f.ready then { s with cleanupFuture := none } else s
  | none => s

/-- The cleanup pass: expired actors are removed, and their keys, if any, become the
    new batch for `batch_cleanup_data`. -/
def cleanupPass (env : Env) (s : Plumber) : Plumber :=
  let h := s.cleanupHostActors [] env.now
  let w := h.1.cleanupWorkerActors h.2 env.now
  if w.2.isEmpty then w.1 else { w.1 with cleanupFuture := some ⟨w.2, false⟩ }

/-- `cleanup`: no pass while a cleanup future is still outstanding. -/
def cleanup (env : Env) (s : Plumber) : Plumber :=
  let s := s.takeFinishedCleanup
  match s.cleanupFuture with
  | some _ => s
  | none => s.cleanupPass env

/-- `poll_next_host_messages`. -/
def pollNextHostMessages (s : Plumber) : Plumber :=
  let r := pollNextActors s.hostActors s.hostVmPool
  { s with hostActors := r.1, hostVmPool := r.2 }

/-- `poll_next_worker_messages`: every bucket whose worker has a pool, each until its
    own pool is empty. -/
def pollNextWorkerMessages (s : Plumber) : Plumber :=
  let r := s.workerActors.mapAccumWith (fun _ _ actors pool =>
    ((), pollNextActors actors pool)) () s.workerVmPools
  { s with workerActors := r.2.1, workerVmPools := r.2.2 }

/-- The re-ingest loop of `poll`: each local effect, each of its scopes in order. -/
def reingest (env : Env) (s : Plumber) (localEffects : List LocalRoutingEffects) : Plumber :=
  localEffects.foldl (fun s effect =>
    effect.nextPeers.foldl (fun s localPeer => s.ingest env effect.particle none localPeer) s) s

/-- `Plumber::poll`: one scheduling tick. -/
def poll (env : Env) (s : Plumber) : Poll Event × Plumber :=
  let s := s.pollPools
  match s.events with
  | e :: rest => (.ready e, { s with events := rest })
  | [] =>
    let h := s.pollHostActors env ⟨[], []⟩
    let w := h.1.pollWorkersActors env h.2
    let s := ((w.1.cleanup env).pollNextHostMessages).pollNextWorkerMessages
    let s := s.reingest env w.2.localEffects
    (.pending, { s with events := s.events ++ w.2.remoteEffects.map .ok })

/-- The collection phase of a tick: host actors, then the workers' buckets, are polled
    for finished executions, gathering their effects. -/
def collect (env : Env) (s : Plumber) : Plumber × Routing :=
  let h := s.pollHostActors env ⟨[], []⟩
  h.1.pollWorkersActors env h.2

/-- The phases of a tick after `cleanup`: executions start, local effects are
    re-ingested and remote effects are queued. -/
def startAndRoute (env : Env) (s : Plumber) (routing : Routing) : Plumber :=
  let s := s.pollNextHostMessages.pollNextWorkerMessages
  let s := s.reingest env routing.localEffects
  { s with events := s.events ++ routing.remoteEffects.map .ok }

/-- A tick is its phases in order. -/
theorem poll_eq (env : Env) (s : Plumber) :
    s.poll env =
      match s.pollPools.events with
      | e :: rest => (.ready e, { s.pollPools with events := rest })
      | [] =>
        (.pending, ((s.pollPools.collect env).1.cleanup env).startAndRoute env
          (s.pollPools.collect env).2) := rfl

/-- A property every `ingest` keeps is kept by the re-ingest loop of a tick. -/
theorem reingest_induction (env : Env) (I : Plumber → Prop)
    (h : ∀ s p sc, I s → I (s.ingest env p none sc)) (effects : List LocalRoutingEffects) :
    ∀ s, I s → I (s.reingest env effects) := by
  have inner : ∀ (p : Particle) (peers : List PeerScope) s, I s →
      I (peers.foldl (fun s sc => s.ingest env p none sc) s) := by
    intro p peers
    induction peers with
    | nil => exact fun _ hs => hs
    | cons sc rest ih => exact fun s hs => ih _ (h _ _ _ hs)
  induction effects with
  | nil => exact fun _ hs => hs
  | cons e rest ih => exact fun s hs => ih _ (inner e.particle e.nextPeers s hs)

@[simp] theorem cleanupHostActors_hostVmPool (s : Plumber) (keys : List CleanupKey) (now : UInt64) :
    (s.cleanupHostActors keys now).1.hostVmPool = s.hostVmPool := rfl
@[simp] theorem cleanupHostActors_workerVmPools (s : Plumber) (keys : List CleanupKey) (now : UInt64) :
    (s.cleanupHostActors keys now).1.workerVmPools = s.workerVmPools := rfl
@[simp] theorem cleanupHostActors_workerActors (s : Plumber) (keys : List CleanupKey) (now : UInt64) :
    (s.cleanupHostActors keys now).1.workerActors = s.workerActors := rfl
@[simp] theorem cleanupHostActors_cleanupFuture (s : Plumber) (keys : List CleanupKey) (now : UInt64) :
    (s.cleanupHostActors keys now).1.cleanupFuture = s.cleanupFuture := rfl
@[simp] theorem cleanupWorkerActors_hostVmPool (s : Plumber) (keys : List CleanupKey) (now : UInt64) :
    (s.cleanupWorkerActors keys now).1.hostVmPool = s.hostVmPool := by
  unfold cleanupWorkerActors; split <;> rfl

@[simp] theorem cleanupWorkerActors_workerVmPools (s : Plumber) (keys : List CleanupKey)
    (now : UInt64) : (s.cleanupWorkerActors keys now).1.workerVmPools = s.workerVmPools := by
  unfold cleanupWorkerActors; split <;> rfl

@[simp] theorem cleanupWorkerActors_hostActors (s : Plumber) (keys : List CleanupKey) (now : UInt64) :
    (s.cleanupWorkerActors keys now).1.hostActors = s.hostActors := by
  unfold cleanupWorkerActors; split <;> rfl

@[simp] theorem cleanupWorkerActors_cleanupFuture (s : Plumber) (keys : List CleanupKey)
    (now : UInt64) : (s.cleanupWorkerActors keys now).1.cleanupFuture = s.cleanupFuture := by
  unfold cleanupWorkerActors; split <;> rfl

/-- The pass changes the actor maps and, when it collected keys, the cleanup future. -/
theorem cleanupPass_eq (env : Env) (s : Plumber) :
    s.cleanupPass env =
      let w := (s.cleanupHostActors [] env.now).1.cleanupWorkerActors
        (s.cleanupHostActors [] env.now).2 env.now
      { w.1 with cleanupFuture := if w.2.isEmpty then w.1.cleanupFuture else some ⟨w.2, false⟩ } := by
  unfold cleanupPass; dsimp only; split <;> rfl

theorem takeFinishedCleanup_eq (s : Plumber) :
    s.takeFinishedCleanup = { s with cleanupFuture := s.cleanupFuture.filter (!·.ready) } := by
  unfold takeFinishedCleanup
  rcases s with ⟨_, _, _, _, _, _ | ⟨_, _ | _⟩⟩ <;> rfl

end Plumber

end Nox.Aquamarine
