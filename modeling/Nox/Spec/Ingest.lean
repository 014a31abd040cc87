import Nox.Spec.VmConservation

/-!
# What `ingest` delivers

`ingest` checks, in order, that the particle has not expired, that it verifies, and that
a worker scope is active or reached by a manager or the host. Then `get_or_create_actor`
finds or creates the actor for the particle's signature, and the particle joins its
mailbox. This file says what each path leaves.

A particle turned away by a check leaves the state as it was, with an event for the
first two checks. A failed `get_or_create_actor` leaves every actor as it was, but for a
worker it has already inserted the worker's bucket (`entry(worker_id).or_insert`), so a
worker that had no bucket gets an empty one.

For a worker, `get_or_create_actor` looks up the deal id and the runtime handle before it
looks for the actor. A worker whose deal or runtime handle is gone therefore drops the
particles of an actor it already has, although the spec needs these lookups only to
create an actor. The host makes no such lookups. With them found, a particle joins the
existing actor's mailbox, behind the particles already there, or a new actor's.

## Key results

- `ingest_outcomes`: every path of `ingest`, with the state it leaves: four drop the
  particle, and the fifth appends it to its actor's mailbox.
- `failed_ingest_adds_bucket`: a failed creation adds an empty bucket.
- `ingest_existing_actor`: an existing actor gets the particle exactly when the registry
  has the worker's deal id and runtime handle.
- `ingest_new_actor`: the first particle of a signature makes one new actor, and nothing
  else changes.
-/

namespace Nox.Aquamarine

/-- What `ingest` does to the particle's actor: `actor.ingest(particle)`, then
    `actor.set_function(function)` when an override is given. -/
def Actor.ingestWith (a : Actor) (p : Particle) (f : Option ServiceFunction) : Actor :=
  match f with
  | some g => (a.ingest p).setFunction g
  | none => a.ingest p

@[simp] theorem Actor.mailbox_ingestWith (a : Actor) (p : Particle) (f : Option ServiceFunction) :
    (a.ingestWith p f).mailbox = a.mailbox ++ [p] := by
  cases f <;> rfl

@[simp] theorem Actor.function_ingestWith (a : Actor) (p : Particle) (f : Option ServiceFunction) :
    (a.ingestWith p f).function = f.or a.function := by
  cases f <;> rfl

@[simp] theorem Actor.current_ingestWith (a : Actor) (p : Particle) (f : Option ServiceFunction) :
    (a.ingestWith p f).current = a.current := by
  cases f <;> rfl

namespace Plumber

/-- `ingest` at `env` lets `p` past its three checks for `sc`: it is not expired, it
    verifies, and it may reach the worker. -/
def Admits (env : Env) (p : Particle) (sc : PeerScope) : Prop :=
  (Deadline.fromParticle p).isExpired env.now = false ∧ env.verify p = none ∧
    rejectsInactive env p sc = false

instance (env : Env) (p : Particle) (sc : PeerScope) : Decidable (Admits env p sc) :=
  inferInstanceAs (Decidable (_ ∧ _ ∧ _))

/-- The worker registry has a deal id and a runtime handle for the scope's worker. -/
def registryFinds (env : Env) : PeerScope → Bool
  | .host => true
  | .workerId w => (env.getDealId w).isSome && (env.getRuntimeHandle w).isSome

/-- What `get_or_create_actor` leaves when it fails: the state, with the worker's bucket
    inserted for a worker scope. -/
def afterFailedCreate (s : Plumber) : PeerScope → Plumber
  | .host => s
  | .workerId w => { s with workerActors := s.workerActors.orInsert w .empty }

/-- Past its checks, `ingest` hands the particle to the actor `get_or_create_actor`
    returns, or drops it. -/
theorem ingest_of_admits {env : Env} {p : Particle} {sc : PeerScope} (h : Admits env p sc)
    (s : Plumber) (f : Option ServiceFunction) :
    s.ingest env p f sc =
      match (s.getOrCreateActor env sc ⟨p.signature⟩ p).2 with
      | .ok () => (s.getOrCreateActor env sc ⟨p.signature⟩ p).1.modifyActor sc ⟨p.signature⟩
          (·.ingestWith p f)
      | .error _ => (s.getOrCreateActor env sc ⟨p.signature⟩ p).1 := by
  obtain ⟨h₁, h₂, h₃⟩ := h
  simp only [ingest, h₁, h₂, h₃, Bool.false_eq_true, ite_false]
  rcases (s.getOrCreateActor env sc ⟨p.signature⟩ p).2 with _ | ⟨⟨⟩⟩ <;> rfl

/-- A particle turned away by one of the three checks leaves every actor as it was. -/
theorem actorsOf_ingest_of_not_admits {env : Env} {s : Plumber} {p : Particle} {sc : PeerScope}
    (f : Option ServiceFunction) (h : ¬ Admits env p sc) (sc' : PeerScope) :
    (s.ingest env p f sc).actorsOf sc' = s.actorsOf sc' := by
  unfold ingest
  split
  · cases sc' <;> rfl
  · rename_i hexp
    split
    · cases sc' <;> rfl
    · rename_i hver
      split
      · rfl
      · exact absurd ⟨Bool.eq_false_iff.mpr hexp, hver, Bool.eq_false_iff.mpr ‹_›⟩ h

/-- What a failed `get_or_create_actor` leaves: the state, with the worker's bucket
    inserted for a worker scope. -/
theorem getOrCreateActor_error {env : Env} {s : Plumber} {sc : PeerScope} {key : ActorKey}
    {p : Particle} {e : ActorError} (h : (s.getOrCreateActor env sc key p).2 = .error e) :
    (s.getOrCreateActor env sc key p).1 = s.afterFailedCreate sc := by
  cases sc with
  | host =>
    simp only [getOrCreateActor] at h ⊢
    cases hc : createActor env s.hostActors
      ⟨key, p, .host, env.hostPeerId, none, .root env.rootRuntimeHandle⟩ <;> simp only [hc] at h ⊢
    · rfl
    · cases h
  | workerId w =>
    -- a worker: the bucket is inserted before the lookups
    cases hd : env.getDealId w with
    | none => simp [getOrCreateActor, hd, afterFailedCreate]
    | some d =>
      cases hr : env.getRuntimeHandle w with
      | none => simp [getOrCreateActor, hd, hr, afterFailedCreate]
      | some r =>
        simp only [getOrCreateActor, hd, hr] at h ⊢
        split at h
        · cases h
        · rename_i he
          simp only [he]; rfl

/-- `create_actor` fails only on a vacant key, for want of the scope's key pair or of
    the particle token. -/

private theorem createActor_error {env : Env} {m : Actors} {params : ActorParams} {e : ActorError}
    (hc : createActor env m params = .error e) :
    m.get? params.key = none ∧
      (env.getKeypair params.peerScope = none ∧ e = .noKeyPair params.peerScope ∨
        env.signRoot params.particle.signature = none ∧ e = .particleToken) := by
  unfold createActor at hc
  split at hc
  · cases hc
  · refine ⟨‹_›, ?_⟩
    split at hc
    · cases hc; exact .inl ⟨‹_›, rfl⟩
    · cases ht : env.signRoot params.particle.signature <;> simp [getParticleToken, ht] at hc
      exact .inr ⟨rfl, hc.symm⟩

/-- Every failure of `get_or_create_actor` is one of the lookups it makes: the worker's
    deal id, the worker's runtime handle, and, for a key with no actor yet, the scope's
    key pair and the particle token. -/
theorem getOrCreateActor_error_cause {env : Env} {s : Plumber} {sc : PeerScope} {key : ActorKey}
    {p : Particle} {e : ActorError} (h : (s.getOrCreateActor env sc key p).2 = .error e) :
    (∃ w, sc = .workerId w ∧ env.getDealId w = none ∧ e = .noDeal w) ∨
      (∃ w, sc = .workerId w ∧ env.getRuntimeHandle w = none ∧ e = .noRuntimeHandle w) ∨
      ((s.actorsOf sc).get? key = none ∧ env.getKeypair sc = none ∧ e = .noKeyPair sc) ∨
      ((s.actorsOf sc).get? key = none ∧ env.signRoot p.signature = none ∧
        e = .particleToken) := by
  cases sc with
  | host =>
    -- the host makes no lookup: only `create_actor` can fail
    simp only [getOrCreateActor] at h
    split at h
    · cases h
    · cases h; exact .inr (.inr (and_or_left.mp (createActor_error ‹_›)))
  | workerId w =>
    cases hd : env.getDealId w with
    | none =>
      -- a worker's deal id is looked up first
      simp only [getOrCreateActor, hd] at h
      cases h; exact .inl ⟨w, rfl, hd, rfl⟩
    | some d =>
      cases hr : env.getRuntimeHandle w with
      | none =>
        simp only [getOrCreateActor, hd, hr] at h
        -- then its runtime handle
        cases h; exact .inr (.inl ⟨w, rfl, hr, rfl⟩)
      | some r =>
        simp only [getOrCreateActor, hd, hr] at h
        split at h
        · cases h
        · -- then `create_actor` on the bucket, which is empty if it was just inserted
          rename_i hc
          cases h
          rw [← actorsOf_orInsert_empty s w] at *
          exact .inr (.inr (and_or_left.mp (createActor_error hc)))

/-- With the actor already there, `get_or_create_actor` changes nothing and succeeds,
    once the registry has the worker's deal id and runtime handle. -/
theorem getOrCreateActor_of_mem {env : Env} {s : Plumber} {sc : PeerScope} {key : ActorKey}
    {a : Actor} (p : Particle) (ha : (s.actorsOf sc).get? key = some a)
    (hreg : registryFinds env sc = true) : s.getOrCreateActor env sc key p = (s, .ok ()) := by
  cases sc with
  | host =>
    have ha' : s.hostActors.get? key = some a := ha
    simp only [getOrCreateActor, createActor, ha']
  | workerId w =>
    simp only [registryFinds, Bool.and_eq_true, Option.isSome_iff_exists] at hreg
    obtain ⟨⟨d, hd⟩, ⟨r, hr⟩⟩ := hreg
    cases hb : s.workerActors.get? w with
    | none => simp [actorsOf, hb, HashMap.get?_empty] at ha
    | some b =>
      have ha' : b.get? key = some a := by simpa [actorsOf, hb] using ha
      have hor : s.workerActors.orInsert w .empty = s.workerActors := by
        simp [HashMap.orInsert, HashMap.containsKey, hb]
      simp only [getOrCreateActor, hd, hr, hor, hb, Option.getD_some, createActor, ha',
        HashMap.insert_of_get? hb]

/-- A worker whose registry entry is gone: `get_or_create_actor` fails at the lookup,
    after inserting the bucket. -/
theorem getOrCreateActor_of_not_registryFinds {env : Env} {w : WorkerId}
    (hreg : registryFinds env (.workerId w) = false) (s : Plumber) (key : ActorKey) (p : Particle) :
    ∃ e, s.getOrCreateActor env (.workerId w) key p =
      (s.afterFailedCreate (.workerId w), .error e) := by
  cases hd : env.getDealId w with
  | none => exact ⟨.noDeal w, by simp [getOrCreateActor, hd, afterFailedCreate]⟩
  | some d =>
    cases hr : env.getRuntimeHandle w with
    | none => exact ⟨.noRuntimeHandle w, by simp [getOrCreateActor, hd, hr, afterFailedCreate]⟩
    | some r => simp [registryFinds, hd, hr] at hreg

/-- A failed `get_or_create_actor` leaves a state where the worker's bucket was already
    there as it was. -/
private theorem afterFailedCreate_of_mem {s : Plumber} {sc : PeerScope} {key : ActorKey} {a : Actor}
    (ha : (s.actorsOf sc).get? key = some a) : s.afterFailedCreate sc = s := by
  cases sc with
  | host => rfl
  | workerId w =>
    cases hb : s.workerActors.get? w with
    | none => simp [actorsOf, hb, HashMap.get?_empty] at ha
    | some b => simp [afterFailedCreate, HashMap.orInsert, HashMap.containsKey, hb]

/-- Into an actor that is already there, with the registry entry found, `ingest`
    delivers the particle and changes nothing else. -/
theorem ingest_of_mem {env : Env} {s : Plumber} {p : Particle} {sc : PeerScope} {a : Actor}
    (f : Option ServiceFunction) (hadm : Admits env p sc)
    (ha : (s.actorsOf sc).get? ⟨p.signature⟩ = some a) (hreg : registryFinds env sc = true) :
    s.ingest env p f sc = s.modifyActor sc ⟨p.signature⟩ (·.ingestWith p f) := by
  rw [ingest_of_admits hadm, getOrCreateActor_of_mem p ha hreg]

/-- Into an actor that is already there, without the worker's registry entry, `ingest`
    drops the particle and changes nothing. -/
theorem ingest_of_mem_of_not_registryFinds {env : Env} {s : Plumber} {p : Particle} {w : WorkerId}
    {a : Actor} (f : Option ServiceFunction) (hadm : Admits env p (.workerId w))
    (ha : (s.actorsOf (.workerId w)).get? ⟨p.signature⟩ = some a)
    (hreg : registryFinds env (.workerId w) = false) : s.ingest env p f (.workerId w) = s := by
  obtain ⟨e, he⟩ := getOrCreateActor_of_not_registryFinds hreg s ⟨p.signature⟩ p
  rw [ingest_of_admits hadm, he]
  exact afterFailedCreate_of_mem ha

/-- Into an actor that is already there, `ingest` delivers the particle exactly when the
    registry has the worker's deal id and runtime handle; the host always has them.
    Otherwise it drops the particle and changes nothing. -/
theorem ingest_existing_actor (env : Env) (s : Plumber) (p : Particle) (f : Option ServiceFunction)
    (sc : PeerScope) {a : Actor} (hadm : Admits env p sc)
    (ha : (s.actorsOf sc).get? ⟨p.signature⟩ = some a) :
    s.ingest env p f sc =
      if registryFinds env sc then s.modifyActor sc ⟨p.signature⟩ (·.ingestWith p f) else s := by
  split
  · exact ingest_of_mem f hadm ha ‹_›
  · cases sc with
    | host => exact absurd rfl ‹_›
    | workerId w => exact ingest_of_mem_of_not_registryFinds f hadm ha (Bool.eq_false_iff.mpr ‹_›)

/-- `create_actor` on a vacant key inserts a new actor for the particle. -/
private theorem createActor_of_get?_none {env : Env} {m m' : Actors} {params : ActorParams}
    (h : m.get? params.key = none) (hc : createActor env m params = .ok m') :
    ∃ tok kp, m' = m.insert params.key
      (Actor.new params.particle params.currentPeerId tok kp params.dealId params.spawner) := by
  simp only [createActor, h] at hc
  split at hc
  · cases hc
  · rename_i kp _
    split at hc
    · cases hc
    · rename_i tok _
      cases hc
      exact ⟨tok, kp, rfl⟩

/-- A `get_or_create_actor` that succeeds for a key with no actor inserts a new one,
    idle, with an empty mailbox and no override. -/
theorem actorsOf_getOrCreateActor_new {env : Env} {s : Plumber} {sc : PeerScope} {key : ActorKey}
    {p : Particle} (hnone : (s.actorsOf sc).get? key = none)
    (hok : (s.getOrCreateActor env sc key p).2 = .ok ()) :
    ∃ a, a.mailbox = [] ∧ a.current = none ∧ a.function = none ∧
      (s.getOrCreateActor env sc key p).1.actorsOf sc = (s.actorsOf sc).insert key a := by
  cases sc with
  | host =>
    cases hc : createActor env s.hostActors
        ⟨key, p, .host, env.hostPeerId, none, .root env.rootRuntimeHandle⟩ with
    | error e => simp [getOrCreateActor, hc] at hok
    | ok m' =>
      -- the key was vacant, so `create_actor` inserted `Actor::new`
      obtain ⟨tok, kp, rfl⟩ := createActor_of_get?_none hnone hc
      exact ⟨_, rfl, rfl, rfl, by simp only [getOrCreateActor, hc]; rfl⟩
  | workerId w =>
    cases hd : env.getDealId w with
    | none => simp [getOrCreateActor, hd] at hok
    | some d =>
      cases hr : env.getRuntimeHandle w with
      | none => simp [getOrCreateActor, hd, hr] at hok
      | some r =>
        -- both lookups found: `create_actor` on the bucket, whose actors are those of the scope
        have hb : ((s.workerActors.orInsert w .empty).get? w).getD .empty =
            s.actorsOf (.workerId w) := actorsOf_orInsert_empty s w (.workerId w)
        cases hc : createActor env (((s.workerActors.orInsert w .empty).get? w).getD .empty)
            ⟨key, p, .workerId w, w.peerId, some d, .worker r w⟩ with
        | error e => simp [getOrCreateActor, hd, hr, hc] at hok
        | ok m' =>
          obtain ⟨tok, kp, rfl⟩ := createActor_of_get?_none (hb ▸ hnone) hc
          refine ⟨Actor.new p w.peerId tok kp (some d) (.worker r w), rfl, rfl, rfl, ?_⟩
          simp only [getOrCreateActor, hd, hr, hc]
          -- the bucket written back is the map `create_actor` returned
          show (((_ : HashMap WorkerId Actors).insert w _).get? w).getD .empty = _
          rw [HashMap.get?_insert, if_pos rfl, Option.getD_some, hb]

/-- `ingest` of a particle whose actor does not exist yet, when `get_or_create_actor`
    succeeds: one new actor under its signature, idle, with mailbox `[p]`, and nothing else
    changes. -/
theorem ingest_new_actor (env : Env) (s : Plumber) (p : Particle) (f : Option ServiceFunction)
    (sc : PeerScope) (hadm : Admits env p sc) (hnone : (s.actorsOf sc).get? ⟨p.signature⟩ = none)
    (hok : (s.getOrCreateActor env sc ⟨p.signature⟩ p).2 = .ok ()) :
    ∃ a, a.mailbox = [p] ∧ a.current = none ∧ a.function = f ∧
      ((s.ingest env p f sc).actorsOf sc).get? ⟨p.signature⟩ = some a ∧
      (∀ k, k ≠ ⟨p.signature⟩ →
        ((s.ingest env p f sc).actorsOf sc).get? k = (s.actorsOf sc).get? k) ∧
      (∀ sc', sc' ≠ sc → (s.ingest env p f sc).actorsOf sc' = s.actorsOf sc') ∧
      (s.ingest env p f sc).events = s.events := by
  obtain ⟨a, hm, hc, hf, hins⟩ := actorsOf_getOrCreateActor_new hnone hok
  -- `get_or_create_actor` inserted the new actor, and `ingest` then hands it `p`
  have hing : s.ingest env p f sc = (s.getOrCreateActor env sc ⟨p.signature⟩ p).1.modifyActor sc
      ⟨p.signature⟩ (·.ingestWith p f) := by
    rw [ingest_of_admits hadm, hok]
  refine ⟨a.ingestWith p f, by simp [hm], by simp [hc], by simp [hf], ?_, fun k hk => ?_,
    fun sc' hsc => ?_, by rw [hing]; simp⟩
  · rw [hing, actorsOf_modifyActor, if_pos rfl, hins, HashMap.get?_modify, if_pos rfl,
      HashMap.get?_insert, if_pos rfl]; rfl
  · rw [hing, actorsOf_modifyActor, if_pos rfl, hins, HashMap.get?_modify, if_neg hk,
      HashMap.get?_insert, if_neg hk]
  · rw [hing, actorsOf_modifyActor, if_neg hsc]
    rcases actorsOf_getOrCreateActor env s sc ⟨p.signature⟩ p sc' with h | ⟨h, -⟩
    · exact h
    · exact absurd h hsc

/-- Past its checks, with `get_or_create_actor` succeeding, `ingest` appends the particle
    to the mailbox of its actor: the one that was there, or a new one. -/
theorem ingest_delivers {env : Env} {s : Plumber} {p : Particle} {sc : PeerScope}
    (f : Option ServiceFunction) (hadm : Admits env p sc)
    (hok : (s.getOrCreateActor env sc ⟨p.signature⟩ p).2 = .ok ()) :
    ∃ a', ((s.ingest env p f sc).actorsOf sc).get? ⟨p.signature⟩ = some a' ∧
      a'.mailbox = (((s.actorsOf sc).get? ⟨p.signature⟩).map (·.mailbox)).getD [] ++ [p] := by
  cases ha : (s.actorsOf sc).get? ⟨p.signature⟩ with
  -- no actor yet: a new one, with `p` alone in its mailbox
  | none =>
    obtain ⟨a, hm, -, -, hget, -⟩ := ingest_new_actor env s p f sc hadm ha hok
    exact ⟨a, hget, by simp [hm]⟩
  -- an actor already there: it is kept, and `p` joins its mailbox
  | some a =>
    have hing : s.ingest env p f sc = (s.getOrCreateActor env sc ⟨p.signature⟩ p).1.modifyActor sc
        ⟨p.signature⟩ (·.ingestWith p f) := by
      rw [ingest_of_admits hadm, hok]
    refine ⟨a.ingestWith p f, ?_, by simp⟩
    rw [hing, actorsOf_modifyActor, if_pos rfl, HashMap.get?_modify, if_pos rfl,
      getOrCreateActor_get? env s sc _ p ha]
    rfl

end Plumber

/-- A particle that is valid now and verifies. -/
def probeParticle : Particle := ⟨"p", 1, 0, 1000, [1]⟩

/-- The registry of `permissiveEnv` with every deal removed. -/
def noDealEnv : Env := { permissiveEnv with getDealId := fun _ => none }

open Plumber in
/-- Every way an `ingest` can end, in the order of its checks: the three checks and a
    failed `get_or_create_actor` drop the particle, each leaving the state given here (a
    failed `get_or_create_actor` for one of the causes given), and otherwise the particle
    joins the mailbox of its actor. -/
theorem ingest_outcomes (env : Env) (s : Plumber) (p : Particle) (f : Option ServiceFunction)
    (sc : PeerScope) :
    ((Deadline.fromParticle p).isExpired env.now = true →
      s.ingest env p f sc = { s with events := s.events ++ [.error (.particleExpired p.id)] }) ∧
    (∀ err, (Deadline.fromParticle p).isExpired env.now = false → env.verify p = some err →
      s.ingest env p f sc =
        { s with events := s.events ++ [.error (.signatureVerificationFailed p.id err)] }) ∧
    ((Deadline.fromParticle p).isExpired env.now = false → env.verify p = none →
      rejectsInactive env p sc = true → s.ingest env p f sc = s) ∧
    (∀ e, (Deadline.fromParticle p).isExpired env.now = false → env.verify p = none →
      rejectsInactive env p sc = false → (s.getOrCreateActor env sc ⟨p.signature⟩ p).2 = .error e →
      s.ingest env p f sc = s.afterFailedCreate sc ∧
        ((∃ w, sc = .workerId w ∧ env.getDealId w = none ∧ e = .noDeal w) ∨
          (∃ w, sc = .workerId w ∧ env.getRuntimeHandle w = none ∧ e = .noRuntimeHandle w) ∨
          ((s.actorsOf sc).get? ⟨p.signature⟩ = none ∧ env.getKeypair sc = none ∧ e = .noKeyPair sc) ∨
          ((s.actorsOf sc).get? ⟨p.signature⟩ = none ∧ env.signRoot p.signature = none ∧
            e = .particleToken))) ∧
    ((Deadline.fromParticle p).isExpired env.now = false → env.verify p = none →
      rejectsInactive env p sc = false → (s.getOrCreateActor env sc ⟨p.signature⟩ p).2 = .ok () →
      ∃ a', ((s.ingest env p f sc).actorsOf sc).get? ⟨p.signature⟩ = some a' ∧
        a'.mailbox = (((s.actorsOf sc).get? ⟨p.signature⟩).map (·.mailbox)).getD [] ++ [p]) := by
  refine ⟨fun h => by simp [ingest, h], fun err h₁ h₂ => by simp [ingest, h₁, h₂],
    fun h₁ h₂ h₃ => by simp [ingest, h₁, h₂, h₃], fun e h₁ h₂ h₃ h₄ => ?_,
    fun h₁ h₂ h₃ h₄ => ingest_delivers f ⟨h₁, h₂, h₃⟩ h₄⟩
  rw [ingest_of_admits ⟨h₁, h₂, h₃⟩, h₄]
  exact ⟨getOrCreateActor_error h₄, getOrCreateActor_error_cause h₄⟩

open Plumber in
theorem ingest_outcomes_probe :
    (∃ a', (((Plumber.new (VmPool.new 0)).ingest permissiveEnv probeParticle none .host).actorsOf
          .host).get? ⟨probeParticle.signature⟩ = some a' ∧
        a'.mailbox = ((((Plumber.new (VmPool.new 0)).actorsOf .host).get?
          ⟨probeParticle.signature⟩).map (·.mailbox)).getD [] ++ [probeParticle]) ∧
      (Plumber.new (VmPool.new 0)).ingest noDealEnv probeParticle none (.workerId ⟨7⟩) =
        (Plumber.new (VmPool.new 0)).afterFailedCreate (.workerId ⟨7⟩) :=
  ⟨(ingest_outcomes permissiveEnv _ probeParticle none .host).2.2.2.2 rfl rfl rfl (by decide),
    ((ingest_outcomes noDealEnv _ probeParticle none (.workerId ⟨7⟩)).2.2.2.1 (.noDeal ⟨7⟩) rfl rfl
      rfl (by decide)).1⟩

theorem failed_ingest_adds_bucket :
    ¬ ∀ (env : Env) (s : Plumber) (p : Particle) (f : Option ServiceFunction) (sc : PeerScope)
      (e : ActorError), (Deadline.fromParticle p).isExpired env.now = false →
      env.verify p = none → Plumber.rejectsInactive env p sc = false →
      (s.getOrCreateActor env sc ⟨p.signature⟩ p).2 = .error e →
      ∀ w, (s.ingest env p f sc).workerActors.containsKey w = s.workerActors.containsKey w := by
  intro h
  have := h noDealEnv (Plumber.new (VmPool.new 0)) probeParticle none (.workerId ⟨7⟩) (.noDeal ⟨7⟩)
    (by decide) rfl (by decide) rfl ⟨7⟩
  revert this
  decide

/-- Worker `7` has an actor for `probeParticle`, created while its deal was registered. -/
def dealGoneState : Plumber :=
  (Plumber.new (VmPool.new 0)).ingest permissiveEnv probeParticle none (.workerId ⟨7⟩)

open Plumber in
theorem ingest_drops_after_deal_removed :
    Admits noDealEnv probeParticle (.workerId ⟨7⟩) ∧
      (dealGoneState.actorsOf (.workerId ⟨7⟩)).get? ⟨probeParticle.signature⟩ =
        some ((Actor.new probeParticle 7 [1] 0 (some "deal") (.worker 0 ⟨7⟩)).ingest probeParticle) ∧
      dealGoneState.ingest noDealEnv probeParticle none (.workerId ⟨7⟩) = dealGoneState :=
  ⟨by decide, by decide,
    (ingest_existing_actor noDealEnv dealGoneState probeParticle none (.workerId ⟨7⟩) (by decide)
      (by decide : (dealGoneState.actorsOf (.workerId ⟨7⟩)).get? ⟨probeParticle.signature⟩ =
        some ((Actor.new probeParticle 7 [1] 0 (some "deal") (.worker 0 ⟨7⟩)).ingest
          probeParticle))).trans (if_neg (by decide))⟩

end Nox.Aquamarine
