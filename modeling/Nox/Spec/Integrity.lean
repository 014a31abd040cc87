import Nox.Spec.Start
import Nox.Spec.Cleanup
import Nox.Spec.Ingest

/-!
# What the plumber does to an actor

An actor of the plumber comes into being in `create_actor`, for the particle being
ingested, under that particle's signature in the map of the particle's scope. From then
on the plumber does five things to it and nothing else: `ingest` appends a particle of
the same signature to its mailbox (with the function override, if any), `poll_completed`
collects its finished execution, `poll_next` starts the head of its mailbox, its
interpreter future finishes, and `cleanup` removes it. `ActorStep P` says that a property
`P` of an actor, its scope and its key holds of every actor `create_actor` makes and is
kept by the four changes; `allActors_reachable` transfers such a `P` to every actor of
every reachable state.

The instance that matters is `Actor.Serves`: every particle in an actor's mailbox or in
flight has the actor's key as its signature, so no particle is ever run by another
signature's actor; and a worker's actor was made for that worker (its peer id, a deal,
the worker's runtime). From it, the keys of one cleanup batch are pairwise distinct, as
long as no host actor carries the peer id of a worker.

## Key results

- `allActors_reachable`: the transfer theorem.
- `actors_serve_their_key`: `Actor.Serves` over every reachable state.
- `cleanup_batch_keys_nodup`: no key twice in the batch of a cleanup pass.
-/

namespace Nox.Aquamarine

/-- What `get_or_create_actor` gives an actor it makes for a scope: a host actor has no
    deal and runs on the root runtime; a worker's actor has the worker's peer id and a
    deal, and runs on the worker's runtime. -/
def Actor.MadeFor (a : Actor) : PeerScope → Prop
  | .host => a.dealId = none ∧ ∃ h, a.spawner = .root h
  | .workerId w => a.currentPeerId = w.peerId ∧ a.dealId.isSome ∧ ∃ h, a.spawner = .worker h w

/-- The actors `create_actor` makes, called from `get_or_create_actor`, for particle `p`
    in scope `sc`. -/
def Actor.BornIn (p : Particle) (a : Actor) : PeerScope → Prop
  | .host => ∃ peer tok kp h, a = Actor.new p peer tok kp none (.root h)
  | .workerId w => ∃ tok kp d h, a = Actor.new p w.peerId tok kp (some d) (.worker h w)

/-- A property of an actor, its scope and its key that every actor `create_actor` makes
    has and that each change the plumber makes to an actor keeps. -/
structure ActorStep (P : PeerScope → ActorKey → Actor → Prop) : Prop where
  born : ∀ sc p a, a.BornIn p sc → P sc ⟨p.signature⟩ a
  ingest : ∀ sc p f a, P sc ⟨p.signature⟩ a → P sc ⟨p.signature⟩ (a.ingestWith p f)
  completed : ∀ sc k a, P sc k a → P sc k a.pollCompleted.2
  started : ∀ sc k a a', P sc k a → a.Started a' → P sc k a'
  avmCompleted : ∀ sc k a out, P sc k a → P sc k (a.avmCompleted out)

namespace Plumber

/-- Every actor of `s` has `P` for the scope and the key it is stored under. -/
def AllActors (P : PeerScope → ActorKey → Actor → Prop) (s : Plumber) : Prop :=
  ∀ sc k a, (s.actorsOf sc).get? k = some a → P sc k a

section Transfer

variable {P : PeerScope → ActorKey → Actor → Prop} {s : Plumber}

theorem allActors_of_eq {s' : Plumber} (hh : s'.hostActors = s.hostActors)
    (hw : s'.workerActors = s.workerActors) (h : AllActors P s) : AllActors P s' := by
  intro sc k a hk
  cases sc <;> simp only [actorsOf, hh, hw] at hk <;> exact h _ k a hk

theorem allActors_modifyActor {sc : PeerScope} {key : ActorKey} {f : Actor → Actor}
    (hf : ∀ a, P sc key a → P sc key (f a)) (h : AllActors P s) :
    AllActors P (s.modifyActor sc key f) := by
  intro sc' k a hk
  rw [actorsOf_modifyActor] at hk
  split at hk
  · subst_vars
    rw [HashMap.get?_modify] at hk
    split at hk
    · subst_vars
      obtain ⟨a₀, h₀, rfl⟩ := Option.map_eq_some'.mp hk
      exact hf a₀ (h _ _ _ h₀)
    · exact h _ _ _ hk
  · exact h _ _ _ hk

/-- `create_actor` keeps every actor there was and adds at most the one it makes, under
    the key of its parameters. -/
private theorem createActor_get?_cases {env : Env} {m m' : Actors} {params : ActorParams}
    (hc : createActor env m params = .ok m') {k : ActorKey} {a : Actor}
    (hk : m'.get? k = some a) :
    m.get? k = some a ∨ k = params.key ∧ ∃ tok kp,
      a = Actor.new params.particle params.currentPeerId tok kp params.dealId params.spawner := by
  unfold createActor at hc
  split at hc
  · cases hc; exact .inl hk
  · split at hc
    · cases hc
    · split at hc
      · cases hc
      · cases hc
        rw [HashMap.get?_insert] at hk
        split at hk
        · cases hk; exact .inr ⟨‹_›, _, _, rfl⟩
        · exact .inl hk

/-- An actor after `get_or_create_actor` for particle `p` was there before, or is the one
    it made for `p` in its scope. -/
theorem getOrCreateActor_get?_cases {env : Env} {sc : PeerScope} {p : Particle} {sc' : PeerScope}
    {k : ActorKey} {a : Actor}
    (hk : ((s.getOrCreateActor env sc ⟨p.signature⟩ p).1.actorsOf sc').get? k = some a) :
    (s.actorsOf sc').get? k = some a ∨ sc' = sc ∧ k = ⟨p.signature⟩ ∧ a.BornIn p sc := by
  cases sc with
  | host =>
    simp only [getOrCreateActor] at hk
    split at hk
    · rename_i hc
      cases sc' with
      | host =>
        rcases createActor_get?_cases hc hk with h | ⟨rfl, tok, kp, rfl⟩
        · exact .inl h
        · exact .inr ⟨rfl, rfl, _, tok, kp, _, rfl⟩
      | workerId w => exact .inl hk
    · exact .inl hk
  | workerId w =>
    -- a worker: the bucket inserted first is empty, so only `create_actor`'s map is new
    have hor := actorsOf_orInsert_empty s w
    simp only [getOrCreateActor] at hk
    split at hk
    · exact .inl (hor sc' ▸ hk)
    · split at hk
      · exact .inl (hor sc' ▸ hk)
      · split at hk
        · rename_i hc
          cases sc' with
          | host => exact .inl hk
          | workerId w' =>
            simp only [actorsOf, HashMap.get?_insert] at hk
            split at hk
            · subst_vars
              rw [Option.getD_some] at hk
              rcases createActor_get?_cases hc hk with h | ⟨rfl, tok, kp, rfl⟩
              · exact .inl (hor _ ▸ h)
              · exact .inr ⟨rfl, rfl, tok, kp, _, _, rfl⟩
            · exact .inl (hor (.workerId w') ▸ hk)
        · exact .inl (hor sc' ▸ hk)

theorem allActors_host {m : Actors} {pool : VmPool}
    (hm : ∀ k a', m.get? k = some a' →
      ∃ a, s.hostActors.get? k = some a ∧ (P .host k a → P .host k a'))
    (h : AllActors P s) : AllActors P { s with hostActors := m, hostVmPool := pool } := by
  intro sc k a' hk
  cases sc with
  | host => obtain ⟨a, ha, himp⟩ := hm k a' hk; exact himp (h .host k a ha)
  | workerId w => exact h _ k a' hk

/-- A pass over the buckets with their pools keeps `P` when its body turns every actor
    of a bucket into one that has `P` if the old one had. -/
private theorem allActors_mapAccumWith {R : Type} (g : R → WorkerId → Actors → VmPool → R × Actors × VmPool)
    (hg : ∀ r r' w b p, (g r w b p).2 = (g r' w b p).2)
    (hb : ∀ r w b pool k a', (g r w b pool).2.1.get? k = some a' →
      ∃ a, b.get? k = some a ∧ (P (.workerId w) k a → P (.workerId w) k a'))
    (r : R) (h : AllActors P s) :
    AllActors P { s with
      workerActors := (s.workerActors.mapAccumWith g r s.workerVmPools).2.1,
      workerVmPools := (s.workerActors.mapAccumWith g r s.workerVmPools).2.2 } := by
  intro sc k a' hk
  cases sc with
  | host => exact h .host k a' hk
  | workerId w =>
    have key := HashMap.get?_mapAccumWith g hg r s.workerActors s.workerVmPools w
    simp only [actorsOf] at hk
    cases hbw : s.workerActors.get? w <;> cases hp : s.workerVmPools.get? w <;>
      simp only [hbw, hp, Prod.mk.injEq] at key <;> rw [key.1] at hk
    · simp at hk
    · simp at hk
    · exact h (.workerId w) k a' (by simpa [actorsOf, hbw] using hk)
    · obtain ⟨a, ha, himp⟩ := hb r w _ _ k a' hk
      exact himp (h (.workerId w) k a (by simpa [actorsOf, hbw] using ha))

/-- `cleanup` only removes actors. -/
theorem allActors_cleanup (env : Env) (h : AllActors P s) : AllActors P (s.cleanup env) := by
  rcases cleanup_cases env s with ⟨_, _, _, he⟩ | ⟨_, hpass⟩
  · rwa [he]
  · intro sc k a hk
    exact h sc k a (mem_actorList_iff.mp (hpass.sublist.subset (mem_actorList_iff.mpr hk)))

variable (hP : ActorStep P)
include hP

theorem allActors_getOrCreateActor (env : Env) (sc : PeerScope) (p : Particle)
    (h : AllActors P s) : AllActors P (s.getOrCreateActor env sc ⟨p.signature⟩ p).1 := by
  intro sc' k a hk
  rcases getOrCreateActor_get?_cases hk with hk | ⟨rfl, rfl, hb⟩
  · exact h _ _ _ hk
  · exact hP.born _ _ _ hb

theorem allActors_ingest (env : Env) (p : Particle) (f : Option ServiceFunction)
    (sc : PeerScope) (h : AllActors P s) : AllActors P (s.ingest env p f sc) := by
  have hc := allActors_getOrCreateActor hP env sc p h
  unfold ingest
  split
  · exact allActors_of_eq rfl rfl h
  · split
    · exact allActors_of_eq rfl rfl h
    · split
      · exact h
      · dsimp only
        split
        · exact allActors_modifyActor (fun a ha => hP.ingest sc p f a ha) hc
        · exact hc

theorem allActors_collect (env : Env) (h : AllActors P s) : AllActors P (s.collect env).1 := by
  have hpoll : ∀ (sc : PeerScope) (r : Routing) (m : Actors) (pool : VmPool) k a',
      (pollActors env r m pool).2.1.get? k = some a' →
        ∃ a, m.get? k = some a ∧ (P sc k a → P sc k a') := by
    intro sc r m pool k a' hk
    rw [pollActors_actors, HashMap.get?_mapValues] at hk
    obtain ⟨a, ha, rfl⟩ := Option.map_eq_some'.mp hk
    exact ⟨a, ha, hP.completed sc k a⟩
  exact allActors_mapAccumWith _ (fun r r' _ b p => pollActors_snd_eq env r r' b p)
    (fun r w b pool => hpoll (.workerId w) r b pool) _ (allActors_host (hpoll .host _ _ _) h)

theorem allActors_startAndRoute (env : Env) (routing : Routing) (h : AllActors P s) :
    AllActors P (s.startAndRoute env routing) := by
  have hstart : ∀ (sc : PeerScope) (m : Actors) (pool : VmPool) k a',
      (pollNextActors m pool).1.get? k = some a' →
        ∃ a, m.get? k = some a ∧ (P sc k a → P sc k a') := by
    intro sc m pool k a' hk
    obtain ⟨a, ha, rfl | hs⟩ := (pollNextActors_spec m pool).actors k a' hk
    · exact ⟨_, ha, id⟩
    · exact ⟨a, ha, fun h => hP.started sc k a a' h hs⟩
  have h₁ : AllActors P s.pollNextHostMessages := allActors_host (hstart .host _ _) h
  have h₂ : AllActors P s.pollNextHostMessages.pollNextWorkerMessages :=
    allActors_mapAccumWith _ (fun _ _ _ _ _ => rfl) (fun _ w b pool => hstart (.workerId w) b pool)
      () h₁
  exact allActors_of_eq rfl rfl (reingest_induction env (AllActors P)
    (fun _ p sc hs => allActors_ingest hP env p none sc hs) routing.localEffects _ h₂)

theorem allActors_poll (env : Env) (h : AllActors P s) : AllActors P (s.poll env).2 := by
  have h₀ : AllActors P s.pollPools := allActors_of_eq rfl rfl h
  rw [poll_eq]
  split
  · exact allActors_of_eq rfl rfl h₀
  · exact allActors_startAndRoute hP env _ (allActors_cleanup env (allActors_collect hP env h₀))

theorem allActors_step (env : Env) (a : Action) (h : AllActors P s) :
    AllActors P (s.step env a) := by
  cases a with
  | ingest p f sc => exact allActors_ingest hP env p f sc h
  | poll => exact allActors_poll hP env h
  | createWorkerPool w n => exact allActors_of_eq rfl rfl h
  | removeWorkerPool w => exact allActors_of_eq rfl rfl h
  | vmCreated sc i => cases sc <;> exact allActors_of_eq rfl rfl h
  | avmCompleted sc key out =>
    exact allActors_modifyActor (fun a ha => hP.avmCompleted sc key a out ha) h
  | cleanupCompleted => exact allActors_of_eq rfl rfl h

end Transfer

end Plumber

open Plumber in
/-- A property of actors that `create_actor` gives every actor it makes and that the
    plumber's changes to an actor keep holds of every actor of every reachable state. -/
theorem allActors_reachable {P : PeerScope → ActorKey → Actor → Prop} (hP : ActorStep P)
    {s : Plumber} (hs : Reachable s) : AllActors P s := by
  induction hs with
  | init n => intro sc k a hk; cases sc <;> simp [Plumber.new, actorsOf] at hk
  | step env a _ ih => exact allActors_step hP env a ih

/-! ### Each actor serves its own key -/

/-- The actor stored under `key` in the map of `sc` runs only particles of signature
    `key`: the particle it was made for, every particle of its mailbox and the one in
    flight; and it was made for `sc`. -/
structure Actor.Serves (sc : PeerScope) (key : ActorKey) (a : Actor) : Prop where
  particle : a.particle.signature = key.signature
  mailbox : ∀ p ∈ a.mailbox, p.signature = key.signature
  current : ∀ c ∈ a.current, c.particle.signature = key.signature
  madeFor : a.MadeFor sc

/-- `Serves` reads the fields the plumber never writes, the mailbox and the execution. -/
theorem Actor.Serves.of_fields {sc : PeerScope} {key : ActorKey} {a a' : Actor}
    (h : a.Serves sc key) (hp : a'.particle = a.particle) (hc : a'.currentPeerId = a.currentPeerId)
    (hd : a'.dealId = a.dealId) (hs : a'.spawner = a.spawner)
    (hm : ∀ p ∈ a'.mailbox, p.signature = key.signature)
    (hcur : ∀ c ∈ a'.current, c.particle.signature = key.signature) : a'.Serves sc key := by
  refine ⟨hp ▸ h.particle, hm, hcur, ?_⟩
  have := h.madeFor
  cases sc <;> simpa only [Actor.MadeFor, hc, hd, hs] using this

theorem serves_actorStep : ActorStep Actor.Serves where
  born sc p a hb := by
    cases sc with
    | host =>
      obtain ⟨peer, tok, kp, h, rfl⟩ := hb
      exact ⟨rfl, by simp [Actor.new], by simp [Actor.new], rfl, _, rfl⟩
    | workerId w =>
      obtain ⟨tok, kp, d, h, rfl⟩ := hb
      exact ⟨rfl, by simp [Actor.new], by simp [Actor.new], rfl, rfl, _, rfl⟩
  ingest sc p f a h := by
    refine h.of_fields (by cases f <;> rfl) (by cases f <;> rfl) (by cases f <;> rfl)
      (by cases f <;> rfl) (fun q hq => ?_) (by simpa using h.current)
    rcases List.mem_append.mp ((Actor.mailbox_ingestWith a p f) ▸ hq) with hq | hq
    · exact h.mailbox q hq
    · rw [List.mem_singleton.mp hq]
  completed sc k a h := by
    unfold Actor.pollCompleted
    split
    · exact h.of_fields rfl rfl rfl rfl h.mailbox (by simp)
    · exact h
  started sc k a a' h := by
    rintro ⟨p, rest, i, -, hm, rfl⟩
    have hp : p.signature = k.signature := h.mailbox p (by simp [hm])
    refine h.of_fields rfl rfl rfl rfl (fun q hq => h.mailbox q (by simp [hm, hq])) ?_
    intro c hc
    cases Option.mem_some_iff.mp hc
    exact hp
  avmCompleted sc k a out h := by
    unfold Actor.avmCompleted
    split
    · rename_i p i hc
      refine h.of_fields rfl rfl rfl rfl h.mailbox fun c hc' => ?_
      cases Option.mem_some_iff.mp hc'
      exact h.current ⟨p, i, none⟩ (by rw [hc]; rfl)
    · exact h

/-- Over every run, every particle an actor holds, in its mailbox or in flight, has the
    actor's key as its signature; and every actor of a worker's bucket has the worker's
    peer id, a deal and the worker's runtime, every host actor no deal and the root
    runtime. -/
theorem actors_serve_their_key {s : Plumber} (hs : Reachable s) (sc : PeerScope) (key : ActorKey)
    (a : Actor) (ha : (s.actorsOf sc).get? key = some a) :
    a.particle.signature = key.signature ∧ (∀ p ∈ a.mailbox, p.signature = key.signature) ∧
      (∀ c ∈ a.current, c.particle.signature = key.signature) ∧ a.MadeFor sc :=
  let h := allActors_reachable serves_actorStep hs sc key a ha
  ⟨h.particle, h.mailbox, h.current, h.madeFor⟩

/-- One particle ingested into the host and into worker `7`. -/
def twoScopeTrace : List (Env × Action) :=
  [(permissiveEnv, .ingest probeParticle none .host),
   (permissiveEnv, .ingest probeParticle none (.workerId ⟨7⟩))]

def twoScopeState : Plumber := (Plumber.new (VmPool.new 0)).run twoScopeTrace

theorem actors_serve_their_key_twoScope :
    (twoScopeState.actorsOf (.workerId ⟨7⟩)).get? ⟨[1]⟩ =
        some ((Actor.new probeParticle 7 [1] 0 (some "deal") (.worker 0 ⟨7⟩)).ingest probeParticle) ∧
      probeParticle.signature = [1] ∧ (∀ p ∈ [probeParticle], p.signature = [1]) ∧
      (∀ c ∈ (none : Option InFlight), c.particle.signature = [1]) ∧
      (Actor.new probeParticle 7 [1] 0 (some "deal") (.worker 0 ⟨7⟩)).MadeFor (.workerId ⟨7⟩) :=
  ⟨by decide, actors_serve_their_key ((Reachable.init 0).run twoScopeTrace) (.workerId ⟨7⟩) ⟨[1]⟩
    ((Actor.new probeParticle 7 [1] 0 (some "deal") (.worker 0 ⟨7⟩)).ingest probeParticle)
    (by decide)⟩

/-! ### The keys of a cleanup batch -/

namespace Plumber

/-- `actorList` has each actor once. -/
theorem actorList_nodup (s : Plumber) : s.actorList.Nodup := by
  have hent : ∀ m : Actors, m.entries.Nodup := fun m => m.nodupKeys.of_map _
  refine List.nodup_append.mpr ⟨(hent _).map (Prod.mk.inj_left _),
    List.nodup_flatMap.mpr ⟨fun b _ => (hent b.2).map (Prod.mk.inj_left _), ?_⟩, ?_⟩
  · refine (List.pairwise_map.mp s.workerActors.nodupKeys).imp fun hne x hx hy => ?_
    obtain ⟨_, -, rfl⟩ := List.mem_map.mp hx
    obtain ⟨_, -, h⟩ := List.mem_map.mp hy
    exact hne (PeerScope.workerId.inj (Prod.mk.inj h).1).symm
  · intro x hx hy
    obtain ⟨_, -, rfl⟩ := List.mem_map.mp hx
    obtain ⟨w, -, h⟩ := scope_of_mem_flatMap_bucketEntries hy
    cases h

/-- The cleanup key of an actor names it among the actors of `s`, when every actor
    serves its key and no host actor carries the peer id of a worker that has actors. -/
theorem cleanupKey_inj {s : Plumber} (hs : AllActors Actor.Serves s)
    (hhost : ∀ x ∈ s.actorList, x.1 = .host →
      ∀ y ∈ s.actorList, y.1 ≠ .workerId ⟨x.2.2.currentPeerId⟩)
    {x y : ActorEntry} (hx : x ∈ s.actorList) (hy : y ∈ s.actorList)
    (h : x.2.2.cleanupKey = y.2.2.cleanupKey) : x = y := by
  obtain ⟨sx, kx, ax⟩ := x
  obtain ⟨sy, ky, ay⟩ := y
  have hx' := mem_actorList_iff.mp hx
  have hy' := mem_actorList_iff.mp hy
  have Sx := hs _ _ _ hx'
  have Sy := hs _ _ _ hy'
  simp only [Actor.cleanupKey, Prod.mk.injEq] at h
  -- both keys are the signature of the particle in the cleanup key
  have hk : kx.signature = ky.signature := Sx.particle.symm.trans (h.2.2.1.trans Sy.particle)
  obtain ⟨_⟩ := kx
  obtain ⟨_⟩ := ky
  cases hk
  -- the scopes agree: the current peer id tells the host from each worker
  cases sx with
  | host =>
    cases sy with
    | host => cases Option.some.inj (hx'.symm.trans hy'); rfl
    | workerId w =>
      refine absurd ?_ (hhost _ hx rfl _ hy)
      rw [h.2.1, Sy.madeFor.1]
  | workerId w =>
    cases sy with
    | host =>
      refine absurd ?_ (hhost _ hy rfl _ hx)
      rw [← h.2.1, Sx.madeFor.1]
    | workerId w' =>
      have hw : w.peerId = w'.peerId := Sx.madeFor.1.symm.trans (h.2.1.trans Sy.madeFor.1)
      obtain ⟨_⟩ := w
      obtain ⟨_⟩ := w'
      cases hw
      cases Option.some.inj (hx'.symm.trans hy'); rfl

theorem cleanupVictims_keys_nodup {s : Plumber} (hs : AllActors Actor.Serves s)
    (hhost : ∀ x ∈ s.actorList, x.1 = .host →
      ∀ y ∈ s.actorList, y.1 ≠ .workerId ⟨x.2.2.currentPeerId⟩) (now : UInt64) :
    ((s.cleanupVictims now).map (·.2.2.cleanupKey)).Nodup := by
  have hsub : (s.cleanupVictims now).Sublist s.actorList :=
    (List.take_sublist _ _).trans (List.filter_sublist _)
  exact (hsub.nodup s.actorList_nodup).map_on fun x hx y hy h =>
    cleanupKey_inj hs hhost (hsub.subset hx) (hsub.subset hy) h

end Plumber

/-- The clock of `permissiveEnv` past `probeParticle`'s deadline. -/
def lateEnv : Env := { permissiveEnv with now := 2000 }

end Nox.Aquamarine
