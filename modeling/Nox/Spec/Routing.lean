import Nox.Spec.Cleanup
import Nox.Spec.VmConservation

/-!
# Routing the effects of finished executions

Each execution the collection phase of a tick collects hands back a particle `p` and
its next peers `L`. `poll_actors` splits `L` by `scopes.scope`: the peers it does not
resolve are remote, in `L`'s order, and become one `RemoteRoutingEffects` if there are
any; the scopes of the others, in `L`'s order, become one `LocalRoutingEffects` if
there are any. After the start phase, `poll` calls `ingest(p, None, s)` for each local
scope `s` of each effect, in order, and then appends the remote effects to `events`,
wrapped in `Ok`.

So a tick that does not return early makes exactly these `ingest` calls, and adds to
`events` the errors those calls report followed by exactly one `Ok` per execution with
remote peers, in the order the executions were collected. Every peer of `L` goes one
way: remote or local, once.

## Key results

- `tick_routes_completed_effects`: the routing of a tick, whole.
-/

namespace Nox.Aquamarine

/-- The peers of `L` that resolve to no local scope, in order: the remote peers of the
    spec's routing, tied to `poll_actors` by `splitPeers_eq`. -/
def remotePeers (env : Env) (L : List PeerId) : List PeerId := L.filter fun q => (env.scope q).isNone

/-- The local scopes the other peers of `L` resolve to, in order. -/
def localScopes (env : Env) (L : List PeerId) : List PeerScope := L.filterMap env.scope

/-- The remote effect of one finished execution, if it has remote peers. -/
def remoteEffect (env : Env) (e : ParticleEffects) : Option RemoteRoutingEffects :=
  if remotePeers env e.nextPeers = [] then none else some ⟨e.particle, remotePeers env e.nextPeers⟩

/-- The local effect of one finished execution, if it has local peers. -/
def localEffect (env : Env) (e : ParticleEffects) : Option LocalRoutingEffects :=
  if localScopes env e.nextPeers = [] then none else some ⟨e.particle, localScopes env e.nextPeers⟩

/-- The effects of the finished executions of a list of actors, in order. -/
def effectsOf (l : List (ActorKey × Actor)) : List ParticleEffects :=
  l.filterMap fun e => e.2.pollCompleted.1.map (·.effects)

namespace Plumber

/-- The effects the collection phase over `t` gathers, in the order it visits the
    actors: the host actors, then each bucket whose worker has a pool. -/
def completedEffects (t : Plumber) : List ParticleEffects :=
  effectsOf t.hostActors.entries ++
    (t.workerActors.entries.filter fun b => t.workerVmPools.containsKey b.1).flatMap
      (effectsOf ·.2.entries)

/-- The `ingest(p, None, s)` calls for the local scopes of each effect, in order. -/
def localCalls (env : Env) (effects : List ParticleEffects) : List (Particle × PeerScope) :=
  effects.flatMap fun e => (localScopes env e.nextPeers).map (e.particle, ·)

/-- `ingest(p, None, s)` for each call, in order. -/
def ingestAll (env : Env) (s : Plumber) (calls : List (Particle × PeerScope)) : Plumber :=
  calls.foldl (fun s c => s.ingest env c.1 none c.2) s

end Plumber

/-! ### Splitting the next peers -/

/-- Every peer goes one way, once. -/
theorem length_remotePeers_add_length_localScopes (env : Env) (L : List PeerId) :
    (remotePeers env L).length + (localScopes env L).length = L.length := by
  induction L with
  | nil => rfl
  | cons q L ih =>
    cases h : env.scope q <;>
      simp [remotePeers, localScopes, List.filter_cons, List.filterMap_cons, h] at ih ⊢ <;> omega

private theorem foldl_splitPeers (env : Env) : ∀ (L : List PeerId) (acc : List PeerId × List PeerScope),
    L.foldl (fun acc q =>
      match env.scope q with
      | none => (acc.1 ++ [q], acc.2)
      | some sc => (acc.1, acc.2 ++ [sc])) acc =
      (acc.1 ++ remotePeers env L, acc.2 ++ localScopes env L)
  | [], acc => by simp [remotePeers, localScopes]
  | q :: L, acc => by
    rw [List.foldl_cons, foldl_splitPeers env L]
    cases h : env.scope q <;> simp [remotePeers, localScopes, List.filter_cons, List.filterMap_cons, h]

/-- The loop over `next_peers` computes the remote peers and the local scopes. -/
theorem splitPeers_eq (env : Env) (L : List PeerId) :
    splitPeers env L = (remotePeers env L, localScopes env L) := by
  simpa using foldl_splitPeers env L ([], [])

/-! ### What `poll_actors` gathers -/

private theorem effectsOf_cons (e : ActorKey × Actor) (l : List (ActorKey × Actor)) :
    effectsOf (e :: l) = effectsOf [e] ++ effectsOf l := by
  simp only [effectsOf, List.filterMap_cons, List.filterMap_nil]
  split <;> rfl

/-- Polling one actor adds the effects of its finished execution, if any. -/
theorem pollActor_routing (env : Env) (st : VmPool × Routing) (k : ActorKey) (a : Actor) :
    (pollActor env st a).1.2 =
      ⟨st.2.remoteEffects ++ (effectsOf [(k, a)]).filterMap (remoteEffect env),
        st.2.localEffects ++ (effectsOf [(k, a)]).filterMap (localEffect env)⟩ := by
  cases hc : a.isCompleted
  · simp [pollActor, effectsOf, Actor.pollCompleted_of_not_completed hc]
  · obtain ⟨p, i, out, hcur⟩ := Actor.isCompleted_iff.mp hc
    simp only [pollActor, effectsOf, Actor.pollCompleted_of_current hcur, splitPeers_eq,
      List.filterMap_cons, List.filterMap_nil, Option.map_some', remoteEffect, localEffect,
      List.isEmpty_iff]
    split <;> split <;> simp_all

theorem pollActors_routing (env : Env) (r : Routing) (m : Actors) (pool : VmPool) :
    (pollActors env r m pool).1 =
      ⟨r.remoteEffects ++ (effectsOf m.entries).filterMap (remoteEffect env),
        r.localEffects ++ (effectsOf m.entries).filterMap (localEffect env)⟩ := by
  suffices h : ∀ (l : List (ActorKey × Actor)) (st : VmPool × Routing),
      (HashMap.mapAccumEntries (fun st _ a => pollActor env st a) st l).1.2 =
        ⟨st.2.remoteEffects ++ (effectsOf l).filterMap (remoteEffect env),
          st.2.localEffects ++ (effectsOf l).filterMap (localEffect env)⟩ from h m.entries (pool, r)
  intro l
  induction l with
  | nil => intro st; simp [HashMap.mapAccumEntries, effectsOf]
  | cons e rest ih =>
    intro st
    obtain ⟨k, a⟩ := e
    simp only [HashMap.mapAccumEntries, ih, pollActor_routing env st k a]
    rw [effectsOf_cons (k, a) rest, List.filterMap_append, List.filterMap_append]
    simp only [List.append_assoc]

/-- Folding the buckets' effects into the routing is appending them. -/
private theorem foldl_bucketRouting (env : Env) :
    ∀ (L : List (WorkerId × Actors)) (r : Routing),
      L.foldl (fun r b =>
        (⟨r.remoteEffects ++ (effectsOf b.2.entries).filterMap (remoteEffect env),
          r.localEffects ++ (effectsOf b.2.entries).filterMap (localEffect env)⟩ : Routing)) r =
        ⟨r.remoteEffects ++ (L.flatMap (effectsOf ·.2.entries)).filterMap (remoteEffect env),
          r.localEffects ++ (L.flatMap (effectsOf ·.2.entries)).filterMap (localEffect env)⟩
  | [], r => by simp
  | b :: L, r => by
    rw [List.foldl_cons, foldl_bucketRouting env L]
    simp [List.filterMap_append]

namespace Plumber

/-- The collection phase gathers the effects of every execution it collects, split. -/
theorem collect_routing (env : Env) (t : Plumber) :
    (t.collect env).2 =
      ⟨t.completedEffects.filterMap (remoteEffect env), t.completedEffects.filterMap (localEffect env)⟩ := by
  have hw := HashMap.fst_mapAccumWith (fun r _ actors pool => pollActors env r actors pool)
    (fun r _ b => ⟨r.remoteEffects ++ (effectsOf b.entries).filterMap (remoteEffect env),
      r.localEffects ++ (effectsOf b.entries).filterMap (localEffect env)⟩)
    (fun r _ b p => pollActors_routing env r b p) (t.pollHostActors env ⟨[], []⟩).2
    (t.pollHostActors env ⟨[], []⟩).1.workerActors (t.pollHostActors env ⟨[], []⟩).1.workerVmPools
  simp only [collect, pollWorkersActors]
  rw [hw]
  simp only [foldl_bucketRouting, pollHostActors, pollActors_routing, completedEffects,
    List.filterMap_append, List.nil_append]

/-! ### Re-ingesting and the event queue -/

/-- The re-ingest loop is one `ingest` per local scope of each effect, in order. -/
theorem reingest_eq_ingestAll (env : Env) :
    ∀ (effects : List ParticleEffects) (s : Plumber),
      s.reingest env (effects.filterMap (localEffect env)) = s.ingestAll env (localCalls env effects)
  | [], s => rfl
  | e :: rest, s => by
    have ih := reingest_eq_ingestAll env rest
    by_cases h : localScopes env e.nextPeers = []
    · have hl : localEffect env e = none := by simp [localEffect, h]
      simp only [List.filterMap_cons, hl, localCalls, List.flatMap_cons, h, List.map_nil,
        List.nil_append]
      exact ih s
    · have hl : localEffect env e = some ⟨e.particle, localScopes env e.nextPeers⟩ := by
        simp [localEffect, h]
      simp only [reingest, ingestAll, localCalls] at ih
      simp only [reingest, ingestAll, localCalls, List.filterMap_cons, hl, List.foldl_cons,
        List.flatMap_cons, List.foldl_append, List.foldl_map]
      exact ih _

/-- `ingest` adds only error events. -/
theorem ingest_events (env : Env) (s : Plumber) (p : Particle) (f : Option ServiceFunction)
    (sc : PeerScope) :
    ∃ errs, (s.ingest env p f sc).events = s.events ++ errs ∧ ∀ e ∈ errs, ∃ err, e = .error err := by
  rcases ingest_cases env s p f sc with ⟨e, h⟩ | h | h | ⟨g, -, h⟩ <;> rw [h]
  · exact ⟨_, rfl, by simp⟩
  all_goals exact ⟨[], by simp, by simp⟩

theorem ingestAll_events (env : Env) :
    ∀ (calls : List (Particle × PeerScope)) (s : Plumber),
      ∃ errs, (s.ingestAll env calls).events = s.events ++ errs ∧ ∀ e ∈ errs, ∃ err, e = .error err
  | [], s => ⟨[], by simp [ingestAll], by simp⟩
  | c :: rest, s => by
    obtain ⟨e₁, h₁, herr₁⟩ := ingest_events env s c.1 none c.2
    obtain ⟨e₂, h₂, herr₂⟩ := ingestAll_events env rest (s.ingest env c.1 none c.2)
    refine ⟨e₁ ++ e₂, ?_, fun e he => ?_⟩
    · simp only [ingestAll, List.foldl_cons] at h₂ ⊢; rw [h₂, h₁, List.append_assoc]
    · rcases List.mem_append.mp he with he | he
      · exact herr₁ e he
      · exact herr₂ e he

theorem events_cleanup (env : Env) (t : Plumber) : (t.cleanup env).events = t.events := by
  rcases cleanup_cases env t with ⟨_, _, _, heq⟩ | ⟨_, hspec⟩
  · rw [heq]
  · exact hspec.frame.1

end Plumber

open Plumber in
theorem tick_routes_completed_effects (env : Env) (s : Plumber) (h : s.pollPools.events = []) :
    (∀ L, (remotePeers env L).length + (localScopes env L).length = L.length) ∧
    (s.poll env).1 = .pending ∧
    ∃ v, v = ((s.pollPools.collect env).1.cleanup env).pollNextHostMessages.pollNextWorkerMessages.ingestAll
        env (localCalls env s.pollPools.completedEffects) ∧
      (s.poll env).2 = { v with
        events := v.events ++ (s.pollPools.completedEffects.filterMap (remoteEffect env)).map .ok } ∧
      ∀ e ∈ v.events, ∃ err, e = .error err := by
  refine ⟨length_remotePeers_add_length_localScopes env, by rw [poll_eq, h], _, rfl, ?_, ?_⟩
  · rw [poll_eq, h]
    simp only [startAndRoute, collect_routing, reingest_eq_ingestAll]
  · obtain ⟨errs, he, herr⟩ := ingestAll_events env (localCalls env s.pollPools.completedEffects)
      ((s.pollPools.collect env).1.cleanup env).pollNextHostMessages.pollNextWorkerMessages
    have h₀ : ((s.pollPools.collect env).1.cleanup env).pollNextHostMessages.pollNextWorkerMessages.events
        = [] := by
      rw [← h]; exact events_cleanup env _
    rw [he, h₀, List.nil_append]
    exact herr

/-- A host particle executes on the host's one VM and finishes with the next peers
    `[1, 2]`. -/
def routedTrace : List (Env × Action) :=
  [(permissiveEnv, .vmCreated .host 0), (permissiveEnv, .ingest ⟨"p", 1, 0, 1000, [1]⟩ none .host),
   (permissiveEnv, .poll), (permissiveEnv, .avmCompleted .host ⟨[1]⟩ ⟨[1, 2], true⟩)]

/-- Peer `1` is the host, and every other peer is remote. -/
def routingEnv : Env := { permissiveEnv with scope := fun q => if q = 1 then some .host else none }

theorem tick_routes_completed_effects_routedTrace :
    ((Plumber.new (VmPool.new 1)).run routedTrace).pollPools.events = [] ∧
      ((∀ L, (remotePeers routingEnv L).length + (localScopes routingEnv L).length = L.length) ∧
      (((Plumber.new (VmPool.new 1)).run routedTrace).poll routingEnv).1 = .pending ∧
      ∃ v, v = ((((Plumber.new (VmPool.new 1)).run routedTrace).pollPools.collect routingEnv).1.cleanup
          routingEnv).pollNextHostMessages.pollNextWorkerMessages.ingestAll routingEnv
          (Plumber.localCalls routingEnv
            ((Plumber.new (VmPool.new 1)).run routedTrace).pollPools.completedEffects) ∧
        (((Plumber.new (VmPool.new 1)).run routedTrace).poll routingEnv).2 = { v with
          events := v.events ++
            (((Plumber.new (VmPool.new 1)).run routedTrace).pollPools.completedEffects.filterMap
              (remoteEffect routingEnv)).map .ok } ∧
        ∀ e ∈ v.events, ∃ err, e = .error err) :=
  ⟨by decide, tick_routes_completed_effects routingEnv _ (by decide)⟩

end Nox.Aquamarine
