import Mathlib.Data.Nat.Defs

/-!
# Particles, peer scopes and the plumber's collaborators

The data the plumber (`aquamarine/src/plumber.rs`) receives and emits: particles,
the scope a particle is addressed to, the events of its output queue, and `Env`,
everything it reads from its collaborators (clock, signature check, worker
registry, peer scopes, key storage).

Identifiers the plumber only compares or passes on (peer ids, key pairs, runtime
handles, service functions) are natural numbers. `Deadline` comes from
`crate::deadline`, which is not among the sources; it is modelled from the spec.
-/

namespace Nox.Aquamarine

/-- `fluence_libp2p::PeerId`. -/
abbrev PeerId := Nat

/-- A signing key pair of the key storage. -/
abbrev KeyPair := Nat

/-- A `tokio::runtime::Handle`. -/
abbrev RuntimeHandle := Nat

/-- A `ServiceFunction` passed to `ingest` as an override. -/
abbrev ServiceFunction := Nat

/-- `types::DealId`. -/
abbrev DealId := String

/-- `types::peer_scope::WorkerId`; `worker_id.into()` is its peer id. -/
structure WorkerId where
  peerId : PeerId
deriving DecidableEq, Repr

/-- `PeerScope`: selects the actor map and the VM pool a particle goes to. -/
inductive PeerScope
  | host
  | workerId (w : WorkerId)
deriving DecidableEq, Repr

/-- `particle_protocol::Particle`, with the fields the plumber reads. -/
structure Particle where
  id : String
  initPeerId : PeerId
  timestamp : UInt64
  ttl : UInt32
  signature : List UInt8
deriving DecidableEq, Repr

/-- Modelled from the spec: `Deadline` of `crate::deadline` (§4.5), the absolute
    expiry of a particle in milliseconds. -/
structure Deadline where
  ms : UInt64
deriving DecidableEq, Repr

/-- Modelled from the spec: `Deadline::from(particle)` is `timestamp_ms + ttl_ms`,
    saturating at the largest `u64`. -/
def Deadline.fromParticle (p : Particle) : Deadline :=
  ⟨UInt64.ofNat (min (p.timestamp.toNat + p.ttl.toNat) (UInt64.size - 1))⟩

/-- Modelled from the spec: `is_expired(now)` is `now >= deadline`. -/
def Deadline.isExpired (d : Deadline) (now : UInt64) : Bool := d.ms ≤ now

/-- `AquamarineApiError`, the variants the plumber itself produces. -/
inductive AquamarineApiError
  | particleExpired (particleId : String)
  | signatureVerificationFailed (particleId : String) (err : String)
deriving DecidableEq, Repr

/-- `RemoteRoutingEffects`: a particle and the peers outside this node it goes to. -/
structure RemoteRoutingEffects where
  particle : Particle
  nextPeers : List PeerId
deriving DecidableEq, Repr

/-- `LocalRoutingEffects`: a particle and the local scopes it is re-ingested into. -/
structure LocalRoutingEffects where
  particle : Particle
  nextPeers : List PeerScope
deriving DecidableEq, Repr

/-- Equality of results, decided field by field. -/
instance exceptDecidableEq {ε α : Type} [DecidableEq ε] [DecidableEq α] :
    DecidableEq (Except ε α)
  | .ok a, .ok b => decidable_of_iff (a = b) (by simp)
  | .error a, .error b => decidable_of_iff (a = b) (by simp)
  | .ok _, .error _ => isFalse nofun
  | .error _, .ok _ => isFalse nofun

/-- An entry of `events`: `Result<RemoteRoutingEffects, AquamarineApiError>`. -/
abbrev Event := Except AquamarineApiError RemoteRoutingEffects

/-- `Spawner`: the runtime an actor's tasks run on. -/
inductive Spawner
  | root (handle : RuntimeHandle)
  | worker (handle : RuntimeHandle) (w : WorkerId)
deriving DecidableEq, Repr

/-- What the plumber reads from its collaborators at one moment: `now_ms()`,
    `Particle::verify` (`some err` on failure), the worker registry (`Workers`), the
    peer scopes (`PeerScopes`; `scope q = none` is `Err`) and the key storage
    (`KeyStorage`; `signRoot` is `root_key_pair.sign`). Each step of the model takes
    its own `Env`, so a theorem over every `Env` holds whatever they return, at any time. -/
structure Env where
  now : UInt64
  verify : Particle → Option String
  isWorkerActive : WorkerId → Bool
  isManagement : PeerId → Bool
  isHost : PeerId → Bool
  hostPeerId : PeerId
  scope : PeerId → Option PeerScope
  getDealId : WorkerId → Option DealId
  getRuntimeHandle : WorkerId → Option RuntimeHandle
  getKeypair : PeerScope → Option KeyPair
  signRoot : List UInt8 → Option (List UInt8)
  rootRuntimeHandle : RuntimeHandle

end Nox.Aquamarine
