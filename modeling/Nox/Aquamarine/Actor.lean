import Nox.Aquamarine.Particle
import Nox.Aquamarine.VmPool

/-!
# The actor

Modelled from the spec (§3, §4.2): `crate::actor` is not among the sources.
An actor serves the particles of one signature: a FIFO `mailbox` and at most one
execution in flight. `poll_next` starts the next execution when it is idle and has
mail, and then keeps the VM it was given; otherwise it hands the VM straight back.
`poll_completed` collects a finished execution and returns its VM, or reports it
lost (`(vm_id, None)`), and the actor is idle again.

The interpreter runs outside the plumber: `avmCompleted` is its future finishing.
Call requests, call results and statistics are produced and consumed by the
interpreter and the service functions and never read by the plumber, so they are
left out.
-/

namespace Nox.Aquamarine

/-- What one interpreter run hands back: the peers to route the particle to next,
    and whether the VM survived (`false`: lost to a panic or a cancellation). -/
structure AvmOutcome where
  nextPeers : List PeerId
  vmReturned : Bool
deriving DecidableEq, Repr

/-- Modelled from the spec: the execution in flight, with the VM moved into its
    future and the future's outcome once it has finished. -/
structure InFlight where
  particle : Particle
  vmId : VmId
  outcome : Option AvmOutcome
deriving DecidableEq, Repr

/-- `ParticleEffects`, the part the plumber reads. -/
structure ParticleEffects where
  particle : Particle
  nextPeers : List PeerId
deriving DecidableEq, Repr

/-- Modelled from the spec: `StepResult`; `runtime` is the `vm_id` with whether the
    VM came back (`(vm_id, Some vm)`) or was lost (`(vm_id, None)`). -/
structure StepResult where
  effects : ParticleEffects
  runtime : VmId × Bool
deriving DecidableEq, Repr

/-- Modelled from the spec: `ActorPoll`. -/
inductive ActorPoll
  | vm (vmId : VmId)
  | executing
deriving DecidableEq, Repr

/-- `(particle_id, current_peer_id, signature, deal_id or "")`. -/
abbrev CleanupKey := String × PeerId × List UInt8 × String

/-- Modelled from the spec: `Actor`. `particle` is the particle it was created for,
    and `deadline` is that particle's deadline, which decides expiry (§2, §4.5). -/
structure Actor where
  mailbox : List Particle
  current : Option InFlight
  function : Option ServiceFunction
  particle : Particle
  currentPeerId : PeerId
  particleToken : List UInt8
  keyPair : KeyPair
  dealId : Option DealId
  spawner : Spawner
  deadline : Deadline
deriving DecidableEq, Repr

namespace Actor

/-- Modelled from the spec: `Actor::new`, with an empty mailbox and nothing in flight. -/
def new (particle : Particle) (currentPeerId : PeerId) (particleToken : List UInt8)
    (keyPair : KeyPair) (dealId : Option DealId) (spawner : Spawner) : Actor :=
  ⟨[], none, none, particle, currentPeerId, particleToken, keyPair, dealId, spawner,
    Deadline.fromParticle particle⟩

/-- Modelled from the spec: `ingest` appends to the mailbox. -/
def ingest (a : Actor) (p : Particle) : Actor := { a with mailbox := a.mailbox ++ [p] }

/-- Modelled from the spec: `set_function` installs or replaces the override. -/
def setFunction (a : Actor) (f : ServiceFunction) : Actor := { a with function := some f }

/-- Modelled from the spec: `is_executing`. -/
def isExecuting (a : Actor) : Bool := a.current.isSome

/-- Modelled from the spec: `is_expired(now)`. -/
def isExpired (a : Actor) (now : UInt64) : Bool := a.deadline.isExpired now

/-- Modelled from the spec: `cleanup_key`. -/
def cleanupKey (a : Actor) : CleanupKey :=
  (a.particle.id, a.currentPeerId, a.particle.signature, a.dealId.getD "")

/-- Modelled from the spec: `poll_next(vm_id, vm)`. An idle actor with mail pops the
    head of its mailbox and starts executing it on the VM; otherwise the VM comes back. -/
def pollNext (a : Actor) (vmId : VmId) : ActorPoll × Actor :=
  match a.current, a.mailbox with
  | none, p :: rest => (.executing, { a with mailbox := rest, current := some ⟨p, vmId, none⟩ })
  | _, _ => (.vm vmId, a)

/-- Modelled from the spec: `poll_completed`. A finished execution is collected and
    the actor is idle again; otherwise `Pending`. -/
def pollCompleted (a : Actor) : Option StepResult × Actor :=
  match a.current with
  | some ⟨p, vmId, some out⟩ =>
    (some ⟨⟨p, out.nextPeers⟩, (vmId, out.vmReturned)⟩, { a with current := none })
  | _ => (none, a)

/-- The interpreter future of the execution in flight finishing with `out`. -/
def avmCompleted (a : Actor) (out : AvmOutcome) : Actor :=
  match a.current with
  | some ⟨p, vmId, none⟩ => { a with current := some ⟨p, vmId, some out⟩ }
  | _ => a

/-- The VM the actor holds: the one moved into its execution in flight. -/
def heldVms (a : Actor) : List VmId := (a.current.map (·.vmId)).toList

/-- The execution in flight has finished and waits for `poll_completed`. -/
def isCompleted (a : Actor) : Bool :=
  match a.current with
  | some ⟨_, _, some _⟩ => true
  | _ => false

/-- Idle with mail: `poll_next` would start an execution. -/
def isReady (a : Actor) : Bool := !a.isExecuting && !a.mailbox.isEmpty

@[simp] theorem heldVms_new (p : Particle) (peer : PeerId) (token : List UInt8) (kp : KeyPair)
    (deal : Option DealId) (sp : Spawner) : (Actor.new p peer token kp deal sp).heldVms = [] := rfl
@[simp] theorem heldVms_ingest (a : Actor) (p : Particle) : (a.ingest p).heldVms = a.heldVms := rfl
@[simp] theorem heldVms_setFunction (a : Actor) (f : ServiceFunction) :
    (a.setFunction f).heldVms = a.heldVms := rfl
@[simp] theorem current_ingest (a : Actor) (p : Particle) : (a.ingest p).current = a.current := rfl
@[simp] theorem current_setFunction (a : Actor) (f : ServiceFunction) :
    (a.setFunction f).current = a.current := rfl

theorem isCompleted_iff {a : Actor} :
    a.isCompleted = true ↔ ∃ p i out, a.current = some ⟨p, i, some out⟩ := by
  unfold isCompleted; split <;> simp_all

theorem isReady_iff {a : Actor} :
    a.isReady = true ↔ a.current = none ∧ ∃ p rest, a.mailbox = p :: rest := by
  unfold isReady isExecuting
  cases a.current <;> cases a.mailbox <;> simp

theorem heldVms_avmCompleted (a : Actor) (out : AvmOutcome) :
    (a.avmCompleted out).heldVms = a.heldVms := by
  unfold avmCompleted; split <;> simp_all [heldVms]

/-- `poll_completed` on an actor whose execution has finished: the step result, its VM,
    and the actor idle again. -/
theorem pollCompleted_of_current {a : Actor} {p : Particle} {i : VmId} {out : AvmOutcome}
    (h : a.current = some ⟨p, i, some out⟩) :
    a.pollCompleted = (some ⟨⟨p, out.nextPeers⟩, (i, out.vmReturned)⟩, { a with current := none }) := by
  simp [pollCompleted, h]

/-- `poll_completed` is `Pending` and changes nothing unless an execution has finished. -/
theorem pollCompleted_of_not_completed {a : Actor} (h : a.isCompleted = false) :
    a.pollCompleted = (none, a) := by
  unfold isCompleted at h; unfold pollCompleted; split <;> simp_all

/-- After `poll_completed` no finished execution is left waiting. -/
@[simp] theorem isCompleted_pollCompleted (a : Actor) : a.pollCompleted.2.isCompleted = false := by
  cases hc : a.isCompleted
  · rw [pollCompleted_of_not_completed hc]; exact hc
  · obtain ⟨p, i, out, h⟩ := isCompleted_iff.mp hc
    rw [pollCompleted_of_current h]; rfl

/-- An execution that has finished is not changed by a second completion. -/
theorem avmCompleted_of_current {a : Actor} {p : Particle} {i : VmId} {out : AvmOutcome}
    (h : a.current = some ⟨p, i, some out⟩) (out' : AvmOutcome) : a.avmCompleted out' = a := by
  simp [avmCompleted, h]

/-- `poll_next` on an idle actor with mail starts the head of the mailbox on the VM. -/
theorem pollNext_of_ready {a : Actor} {p : Particle} {rest : List Particle} (i : VmId)
    (hc : a.current = none) (hm : a.mailbox = p :: rest) :
    a.pollNext i = (.executing, { a with mailbox := rest, current := some ⟨p, i, none⟩ }) := by
  simp [pollNext, hc, hm]

/-- `poll_next` on an actor that is not ready hands the VM back and changes nothing. -/
theorem pollNext_of_not_ready {a : Actor} (h : a.isReady = false) (i : VmId) :
    a.pollNext i = (.vm i, a) := by
  unfold isReady isExecuting at h; unfold pollNext; split <;> simp_all

end Actor

end Nox.Aquamarine
