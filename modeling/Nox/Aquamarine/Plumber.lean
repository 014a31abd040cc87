import Nox.Std.HashMap
import Nox.Aquamarine.Actor

/-!
# The plumber's state and `ingest`

`Plumber` holds the fields of `aquamarine/src/plumber.rs` that its methods read and
write: the event queue, the host and per-worker actor maps, the host and per-worker VM
pools, and the outstanding cleanup batch. The collaborators it holds handles to
(workers, key storage, scopes, data store, builtins) are read through `Env`; the waker
and the metrics sink change nothing the plumber reads back, and are left out.

This file has `ingest` with `get_or_create_actor` and `create_actor`, and
`create_worker_pool` / `remove_worker_pool`. The scheduling tick is in
`Nox.Aquamarine.Poll`.
-/

namespace Nox.Aquamarine

/-- `ActorKey`: actors are keyed by the whole particle signature. -/
structure ActorKey where
  signature : List UInt8
deriving DecidableEq, Repr

/-- An actor map, `HashMap<ActorKey, Actor>`. -/
abbrev Actors := HashMap ActorKey Actor

/-- The `cleanup_future`: the batch handed to `batch_cleanup_data`, and whether the
    data store has finished it. -/
structure CleanupFuture where
  keys : List CleanupKey
  ready : Bool
deriving DecidableEq, Repr

/-- `Plumber`. -/
structure Plumber where
  events : List Event
  hostActors : Actors
  hostVmPool : VmPool
  workerActors : HashMap WorkerId Actors
  workerVmPools : HashMap WorkerId VmPool
  cleanupFuture : Option CleanupFuture

/-- `MAX_CLEANUP_KEYS_SIZE`. -/
def maxCleanupKeysSize : Nat := 1024

/-- The errors `get_or_create_actor` returns; `ingest` only logs them. -/
inductive ActorError
  | noDeal (w : WorkerId)
  | noRuntimeHandle (w : WorkerId)
  | noKeyPair (peerScope : PeerScope)
  | particleToken
deriving DecidableEq, Repr

/-- `ActorParams`. -/
structure ActorParams where
  key : ActorKey
  particle : Particle
  peerScope : PeerScope
  currentPeerId : PeerId
  dealId : Option DealId
  spawner : Spawner

/-- `get_particle_token`: the root key pair's signature over the particle signature
    (its base58 rendering is left out). -/
def getParticleToken (env : Env) (signature : List UInt8) : Except ActorError (List UInt8) :=
  match env.signRoot signature with
  | some token => .ok token
  | none => .error .particleToken

/-- `Plumber::create_actor`: an occupied entry is returned as it is; a vacant one gets a
    new actor, once the key pair and the particle token are found. -/
def createActor (env : Env) (actors : Actors) (params : ActorParams) : Except ActorError Actors :=
  match actors.get? params.key with
  | some _ => .ok actors
  | none =>
    match env.getKeypair params.peerScope with
    | none => .error (.noKeyPair params.peerScope)
    | some keyPair =>
      match getParticleToken env params.particle.signature with
      | .error e => .error e
      | .ok token =>
        .ok (actors.insert params.key
          (Actor.new params.particle params.currentPeerId token keyPair params.dealId params.spawner))

namespace Plumber

/-- `Plumber::new` with the host pool it is given. -/
def new (hostVmPool : VmPool) : Plumber :=
  ⟨[], .empty, hostVmPool, .empty, .empty, none⟩

/-- `get_or_create_actor`. The `&mut Actor` it returns is the entry under `key` of the
    map it names, so the model returns the state and whether that entry exists. For a
    worker the bucket is inserted first (`entry(worker_id).or_insert`), before the deal
    id and runtime handle lookups that can fail. -/
def getOrCreateActor (env : Env) (s : Plumber) (peerScope : PeerScope) (key : ActorKey)
    (particle : Particle) : Plumber × Except ActorError Unit :=
  match peerScope with
  | .host =>
    match createActor env s.hostActors
        ⟨key, particle, peerScope, env.hostPeerId, none, .root env.rootRuntimeHandle⟩ with
    | .ok actors => ({ s with hostActors := actors }, .ok ())
    | .error e => (s, .error e)
  | .workerId w =>
    let s := { s with workerActors := s.workerActors.orInsert w .empty }
    let workerActors := (s.workerActors.get? w).getD .empty
    match env.getDealId w with
    | none => (s, .error (.noDeal w))
    | some dealId =>
      match env.getRuntimeHandle w with
      | none => (s, .error (.noRuntimeHandle w))
      | some handle =>
        match createActor env workerActors
            ⟨key, particle, peerScope, w.peerId, some dealId, .worker handle w⟩ with
        | .ok actors => ({ s with workerActors := s.workerActors.insert w actors }, .ok ())
        | .error e => (s, .error e)

/-- Mutation of the actor under `key` in the map `peerScope` selects. -/
def modifyActor (s : Plumber) (peerScope : PeerScope) (key : ActorKey) (f : Actor → Actor) :
    Plumber :=
  match peerScope with
  | .host => { s with hostActors := s.hostActors.modify key f }
  | .workerId w => { s with workerActors := s.workerActors.modify w (·.modify key f) }

/-- Only a manager or the host itself may reach a deactivated worker. -/
def rejectsInactive (env : Env) (particle : Particle) : PeerScope → Bool
  | .host => false
  | .workerId w =>
    !env.isWorkerActive w && !env.isManagement particle.initPeerId && !env.isHost particle.initPeerId

/-- `Plumber::ingest`. -/
def ingest (env : Env) (s : Plumber) (particle : Particle) (function : Option ServiceFunction)
    (peerScope : PeerScope) : Plumber :=
  if (Deadline.fromParticle particle).isExpired env.now then
    { s with events := s.events ++ [.error (.particleExpired particle.id)] }
  else
    match env.verify particle with
    | some err =>
      { s with events := s.events ++ [.error (.signatureVerificationFailed particle.id err)] }
    | none =>
      if rejectsInactive env particle peerScope then s
      else
        let key : ActorKey := ⟨particle.signature⟩
        let r := s.getOrCreateActor env peerScope key particle
        match r.2 with
        | .ok () =>
          r.1.modifyActor peerScope key fun a =>
            match function with
            | some f => (a.ingest particle).setFunction f
            | none => a.ingest particle
        | .error _ => r.1

/-- `create_worker_pool`: a fresh pool, replacing any pool the worker had. -/
def createWorkerPool (s : Plumber) (w : WorkerId) (threadCount : Nat) : Plumber :=
  { s with workerVmPools := s.workerVmPools.insert w (VmPool.new threadCount) }

/-- `remove_worker_pool`. -/
def removeWorkerPool (s : Plumber) (w : WorkerId) : Plumber :=
  { s with workerVmPools := s.workerVmPools.remove w }

/-- The actor map a scope selects; a worker without a bucket has none. -/
def actorsOf (s : Plumber) : PeerScope → Actors
  | .host => s.hostActors
  | .workerId w => (s.workerActors.get? w).getD .empty

/-- The VM pool a scope selects, if it has one. -/
def poolOf (s : Plumber) : PeerScope → Option VmPool
  | .host => some s.hostVmPool
  | .workerId w => s.workerVmPools.get? w

/-! ### The actor maps through `ingest` -/

@[simp] theorem actorsOf_host (s : Plumber) : s.actorsOf .host = s.hostActors := rfl
@[simp] theorem poolOf_host (s : Plumber) : s.poolOf .host = some s.hostVmPool := rfl

/-- Inserting an empty bucket changes no scope's actors. -/
theorem actorsOf_orInsert_empty (s : Plumber) (w : WorkerId) (sc : PeerScope) :
    ({ s with workerActors := s.workerActors.orInsert w .empty } : Plumber).actorsOf sc =
      s.actorsOf sc := by
  cases sc with
  | host => rfl
  | workerId w' =>
    simp only [actorsOf, HashMap.get?_orInsert]
    split <;> simp_all

theorem actorsOf_modifyActor (s : Plumber) (sc : PeerScope) (key : ActorKey) (f : Actor → Actor)
    (sc' : PeerScope) :
    (s.modifyActor sc key f).actorsOf sc' =
      if sc' = sc then (s.actorsOf sc).modify key f else s.actorsOf sc' := by
  cases sc with
  | host => cases sc' <;> simp [modifyActor, actorsOf]
  | workerId w =>
    cases sc' with
    | host => simp [modifyActor, actorsOf]
    | workerId w' =>
      simp only [modifyActor, actorsOf, HashMap.get?_modify, PeerScope.workerId.injEq]
      by_cases h : w' = w
      · subst h; cases s.workerActors.get? w' <;> simp
      · simp [h]

/-- `create_actor` leaves every actor there was as it was. -/
private theorem createActor_get? {env : Env} {m m' : Actors} {params : ActorParams}
    (h : createActor env m params = .ok m') {k : ActorKey} {a : Actor} (hk : m.get? k = some a) :
    m'.get? k = some a := by
  unfold createActor at h
  split at h
  · cases h; exact hk
  · rename_i hnone
    split at h
    · cases h
    · split at h
      · cases h
      · cases h
        rw [HashMap.get?_insert, if_neg (by rintro rfl; simp [hk] at hnone)]
        exact hk

/-- What `get_or_create_actor` can do to the actors of a scope: nothing, or, in its own
    scope, replace them by what `create_actor` returned. -/
theorem actorsOf_getOrCreateActor (env : Env) (s : Plumber) (sc : PeerScope) (key : ActorKey)
    (p : Particle) (sc' : PeerScope) :
    (s.getOrCreateActor env sc key p).1.actorsOf sc' = s.actorsOf sc' ∨
      sc' = sc ∧ ∃ params, createActor env (s.actorsOf sc) params =
        .ok ((s.getOrCreateActor env sc key p).1.actorsOf sc') := by
  cases sc with
  | host =>
    simp only [getOrCreateActor]
    -- the host: the map `create_actor` returned, or the old one on failure
    split <;> rename_i h
    · cases sc'
      · exact .inr ⟨rfl, _, h⟩
      · exact .inl rfl
    · exact .inl rfl
  | workerId w =>
    -- a worker: the empty bucket inserted first changes no scope's actors
    have hor := actorsOf_orInsert_empty s w
    simp only [getOrCreateActor]
    split
    · exact .inl (hor sc')
    · split
      · exact .inl (hor sc')
      · split
        · -- both lookups found and `create_actor` succeeded: only the worker's bucket is new
          rename_i actors h
          rw [← hor (.workerId w)]
          cases sc' with
          | host => exact .inl rfl
          | workerId w' =>
            simp only [actorsOf, HashMap.get?_insert, PeerScope.workerId.injEq]
            split
            · subst_vars; exact .inr ⟨rfl, _, h⟩
            · exact .inl (hor (.workerId w'))
        · exact .inl (hor sc')

/-- `get_or_create_actor` leaves every actor there was as it was. -/
theorem getOrCreateActor_get? (env : Env) (s : Plumber) (sc : PeerScope) (key : ActorKey)
    (p : Particle) {sc' : PeerScope} {k : ActorKey} {a : Actor}
    (hk : (s.actorsOf sc').get? k = some a) :
    ((s.getOrCreateActor env sc key p).1.actorsOf sc').get? k = some a := by
  rcases actorsOf_getOrCreateActor env s sc key p sc' with h | ⟨rfl, _, h⟩
  · rwa [h]
  · exact createActor_get? h hk

/-- `get_or_create_actor` writes only the actor maps. -/
theorem getOrCreateActor_frame (env : Env) (s : Plumber) (sc : PeerScope) (key : ActorKey)
    (p : Particle) :
    ∃ ha wa, (s.getOrCreateActor env sc key p).1 = { s with hostActors := ha, workerActors := wa } := by
  unfold getOrCreateActor
  cases sc <;> simp only <;> split <;> (try split) <;> (try split) <;> exact ⟨_, _, rfl⟩

/-- What `ingest` can do: queue an error and change nothing else, change nothing, or get
    or create the particle's actor and, if that succeeded, hand it the particle, which
    leaves its execution as it was. -/
theorem ingest_cases (env : Env) (s : Plumber) (p : Particle) (f : Option ServiceFunction)
    (sc : PeerScope) :
    (∃ e, s.ingest env p f sc = { s with events := s.events ++ [.error e] }) ∨
      s.ingest env p f sc = s ∨
      s.ingest env p f sc = (s.getOrCreateActor env sc ⟨p.signature⟩ p).1 ∨
      ∃ g : Actor → Actor, (∀ a, (g a).current = a.current) ∧
        s.ingest env p f sc =
          (s.getOrCreateActor env sc ⟨p.signature⟩ p).1.modifyActor sc ⟨p.signature⟩ g := by
  unfold ingest
  split
  · exact .inl ⟨_, rfl⟩
  · split
    · exact .inl ⟨_, rfl⟩
    · split
      · exact .inr (.inl rfl)
      · dsimp only
        rcases (s.getOrCreateActor env sc ⟨p.signature⟩ p).2 with _ | ⟨⟨⟩⟩ <;> dsimp only
        · exact .inr (.inr (.inl rfl))
        · exact .inr (.inr (.inr ⟨_, fun a => by cases f <;> rfl, rfl⟩))

/-- `ingest` writes only the event queue and the actor maps. -/
theorem ingest_frame (env : Env) (s : Plumber) (p : Particle) (f : Option ServiceFunction)
    (sc : PeerScope) :
    ∃ ev ha wa, s.ingest env p f sc =
      { s with events := ev, hostActors := ha, workerActors := wa } := by
  obtain ⟨ha, wa, hg⟩ := getOrCreateActor_frame env s sc ⟨p.signature⟩ p
  rcases ingest_cases env s p f sc with ⟨e, h⟩ | h | h | ⟨g, -, h⟩ <;> rw [h]
  · exact ⟨_, _, _, rfl⟩
  · exact ⟨_, _, _, rfl⟩
  · rw [hg]; exact ⟨_, _, _, rfl⟩
  · rw [hg]; cases sc <;> exact ⟨_, _, _, rfl⟩

@[simp] theorem events_modifyActor (s : Plumber) (sc : PeerScope) (key : ActorKey)
    (f : Actor → Actor) : (s.modifyActor sc key f).events = s.events := by
  cases sc <;> rfl

@[simp] theorem events_getOrCreateActor (env : Env) (s : Plumber) (sc : PeerScope)
    (key : ActorKey) (p : Particle) : (s.getOrCreateActor env sc key p).1.events = s.events := by
  obtain ⟨_, _, h⟩ := getOrCreateActor_frame env s sc key p
  rw [h]

@[simp] theorem poolOf_modifyActor (s : Plumber) (sc : PeerScope) (key : ActorKey)
    (f : Actor → Actor) : (s.modifyActor sc key f).poolOf = s.poolOf := by
  cases sc <;> rfl

@[simp] theorem cleanupFuture_modifyActor (s : Plumber) (sc : PeerScope) (key : ActorKey)
    (f : Actor → Actor) : (s.modifyActor sc key f).cleanupFuture = s.cleanupFuture := by
  cases sc <;> rfl

@[simp] theorem poolOf_ingest (env : Env) (s : Plumber) (p : Particle) (f : Option ServiceFunction)
    (sc : PeerScope) : (s.ingest env p f sc).poolOf = s.poolOf := by
  obtain ⟨_, _, _, h⟩ := ingest_frame env s p f sc
  rw [h]; rfl

@[simp] theorem cleanupFuture_ingest (env : Env) (s : Plumber) (p : Particle)
    (f : Option ServiceFunction) (sc : PeerScope) :
    (s.ingest env p f sc).cleanupFuture = s.cleanupFuture := by
  obtain ⟨_, _, _, h⟩ := ingest_frame env s p f sc
  rw [h]

end Plumber

end Nox.Aquamarine
