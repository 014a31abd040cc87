import Nox.Aquamarine.Step

/-!
# VM conservation

Every `vm_id` of a pool is, at every moment, in exactly one place: the pool's free
list, its pending creations, or the execution in flight of one actor of the pool's
scope. `Conserves` states this for one pool and `ScopeConserves` for the pool a scope
selects.

Every operation of the plumber moves ids between these places without losing or
copying one, with one exception: `create_worker_pool` installs a fresh pool whatever
the worker's actors hold. If one of them is executing, the id it holds is also pending
in the new pool, and when it comes back it is put into the new pool a second time.
So conservation holds for the host pool in every reachable state, and for every pool
in every run that replaces a worker's pool only while none of its actors holds a VM.

## Key results

- `vm_ids_conserved`: the host pool in every reachable state; every pool in every
  run whose `create_worker_pool` calls find the worker's actors idle.
- `vm_ids_duplicated_by_pool_replacement`: a reachable state where a worker's pool
  and one of its actors both account for the same id.
-/

namespace Nox.Aquamarine

/-- The VM ids held by the executing actors of a map. -/
def heldVms (actors : Actors) : List VmId := actors.entries.flatMap (·.2.heldVms)

/-- The free, pending and held ids are `0, …, poolSize - 1`, each exactly once. -/
def Conserves (pool : VmPool) (held : List VmId) : Prop :=
  (pool.runtimes ++ pool.pendingIds ++ held).Perm (List.range pool.poolSize)

instance (pool : VmPool) (held : List VmId) : Decidable (Conserves pool held) :=
  inferInstanceAs (Decidable (List.Perm _ _))

@[simp] theorem heldVms_empty : heldVms .empty = [] := rfl

/-! ### One pool and its actors -/

theorem conserves_poll {pool : VmPool} {held : List VmId} (h : Conserves pool held) :
    Conserves pool.poll held :=
  (pool.poll_perm.append_right held).trans h

theorem conserves_finishCreation {pool : VmPool} {held : List VmId} (i : VmId)
    (h : Conserves pool held) : Conserves (pool.finishCreation i) held := by
  simpa [Conserves] using h

theorem conserves_new (n : Nat) : Conserves (VmPool.new n) [] := by
  simp [Conserves, VmPool.new, VmPool.pendingIds, List.map_map, Function.comp_def]

private theorem pollActor_poolSize (env : Env) (st : VmPool × Routing) (a : Actor) :
    (pollActor env st a).1.1.poolSize = st.1.poolSize := by
  unfold pollActor; split <;> simp; split <;> simp

/-- Collecting a finished execution moves its id from the actor back to the pool. -/
private theorem pollActor_perm (env : Env) (st : VmPool × Routing) (a : Actor) :
    ((pollActor env st a).1.1.runtimes ++ (pollActor env st a).1.1.pendingIds ++
        (pollActor env st a).2.heldVms).Perm (st.1.runtimes ++ st.1.pendingIds ++ a.heldVms) := by
  cases hc : a.isCompleted
  · simp [pollActor, Actor.pollCompleted_of_not_completed hc]
  · obtain ⟨p, i, out, hcur⟩ := Actor.isCompleted_iff.mp hc
    have hheld : a.heldVms = [i] := by simp [Actor.heldVms, hcur]
    simp only [pollActor, Actor.pollCompleted_of_current hcur, hheld]
    cases out.vmReturned
    · simp [Actor.heldVms]
    · simpa [Actor.heldVms] using
        (List.perm_append_singleton i (st.1.runtimes ++ st.1.pendingIds)).symm

theorem conserves_pollActors (env : Env) (r : Routing) (actors : Actors) (pool : VmPool)
    (h : Conserves pool (heldVms actors)) :
    Conserves (pollActors env r actors pool).2.2 (heldVms (pollActors env r actors pool).2.1) := by
  have hp := HashMap.perm_mapAccumEntries (fun st : VmPool × Routing => st.1.runtimes ++ st.1.pendingIds)
    Actor.heldVms (fun st _ a => pollActor env st a) (fun st _ a => pollActor_perm env st a)
    (pool, r) actors.entries
  have hs := HashMap.mapAccumEntries_state_invariant
    (fun st : VmPool × Routing => st.1.poolSize = pool.poolSize) (fun st _ a => pollActor env st a)
    (fun st _ a h => (pollActor_poolSize env st a).trans h) (pool, r) rfl actors.entries
  simp only [Conserves, pollActors, HashMap.mapAccum, heldVms] at hs hp h ⊢
  rw [hs]; exact hp.trans h

/-- Offering a VM to an actor either starts it there or puts the VM back. -/
private theorem pollNextActor_perm {pool : VmPool} {a : Actor} {r : VmPool × Actor}
    (h : pollNextActor pool a = some r) :
    r.1.poolSize = pool.poolSize ∧
      (r.1.runtimes ++ r.1.pendingIds ++ r.2.heldVms).Perm (pool.runtimes ++ pool.pendingIds ++ a.heldVms) := by
  unfold pollNextActor at h
  cases hv : pool.getVm with
  | none => simp [hv] at h
  | some q =>
    obtain ⟨i, pool'⟩ := q
    obtain ⟨rest, hr, rfl⟩ := VmPool.getVm_eq_some_iff.mp hv
    simp only [hv] at h
    cases hready : a.isReady
    · rw [Actor.pollNext_of_not_ready hready] at h
      cases h; simp [hr, VmPool.pendingIds, VmPool.putVm]
    · obtain ⟨hc, p, ms, hm⟩ := Actor.isReady_iff.mp hready
      rw [Actor.pollNext_of_ready i hc hm] at h
      cases h
      simpa [hr, Actor.heldVms, hc, VmPool.pendingIds] using
        (List.perm_append_singleton i (rest ++ pool.creatingRuntimes.map (·.1)))

theorem conserves_pollNextActors (actors : Actors) (pool : VmPool)
    (h : Conserves pool (heldVms actors)) :
    Conserves (pollNextActors actors pool).2 (heldVms (pollNextActors actors pool).1) := by
  have hp := HashMap.perm_mapAccumBreakEntries (fun pool : VmPool => pool.runtimes ++ pool.pendingIds)
    Actor.heldVms (fun pool _ a => pollNextActor pool a)
    (fun _ _ _ _ hr => (pollNextActor_perm hr).2) pool actors.entries
  have hs := HashMap.mapAccumBreakEntries_state_invariant
    (fun p : VmPool => p.poolSize = pool.poolSize) (fun pool _ a => pollNextActor pool a)
    (fun _ _ _ _ hr h => (pollNextActor_perm hr).1.trans h) pool rfl actors.entries
  simp only [Conserves, pollNextActors, HashMap.mapAccumBreak, heldVms] at hs hp h ⊢
  rw [hs]; exact hp.trans h

/-- Removed actors are idle, so `cleanup_actors` keeps every held id. -/
theorem heldVms_cleanupActors (now : UInt64) (keys : List CleanupKey) (m : Actors) :
    heldVms (cleanupActors now keys m).2 = heldVms m := by
  simp only [cleanupActors, HashMap.retainAccum, heldVms]
  generalize m.entries = l
  induction l generalizing keys with
  | nil => rfl
  | cons e rest ih =>
    obtain ⟨k, a⟩ := e
    simp only [HashMap.retainAccumEntries, cleanupActor]
    split <;> (try split) <;> simp_all [Actor.isExecuting, Actor.heldVms]

namespace Plumber

/-- Conservation for the pool of a scope, when it has one. -/
def ScopeConserves (s : Plumber) (sc : PeerScope) : Prop :=
  ∀ pool, s.poolOf sc = some pool → Conserves pool (heldVms (s.actorsOf sc))

theorem ScopeConserves.of_eq {s s' : Plumber} {sc : PeerScope} (hp : s'.poolOf sc = s.poolOf sc)
    (hh : heldVms (s'.actorsOf sc) = heldVms (s.actorsOf sc)) (h : s.ScopeConserves sc) :
    s'.ScopeConserves sc := by
  intro pool hpool; rw [hh]; exact h pool (hp ▸ hpool)

/-! ### The held ids through `ingest` -/

theorem heldVms_createActor {env : Env} {m m' : Actors} {params : ActorParams}
    (h : createActor env m params = .ok m') : heldVms m' = heldVms m := by
  unfold createActor at h
  split at h
  · cases h; rfl
  · rename_i hnone
    split at h
    · cases h
    · split at h
      · cases h
      · cases h
        simp [heldVms, HashMap.flatMap_insert_of_get?_eq_none _ _ _ _ hnone]

theorem heldVms_getOrCreateActor (env : Env) (s : Plumber) (sc : PeerScope) (key : ActorKey)
    (p : Particle) (sc' : PeerScope) :
    heldVms ((s.getOrCreateActor env sc key p).1.actorsOf sc') = heldVms (s.actorsOf sc') := by
  rcases actorsOf_getOrCreateActor env s sc key p sc' with h | ⟨rfl, _, h⟩
  · rw [h]
  · exact heldVms_createActor h

theorem heldVms_ingest (env : Env) (s : Plumber) (p : Particle) (f : Option ServiceFunction)
    (sc sc' : PeerScope) :
    heldVms ((s.ingest env p f sc).actorsOf sc') = heldVms (s.actorsOf sc') := by
  have hcreate := heldVms_getOrCreateActor env s sc ⟨p.signature⟩ p
  rcases ingest_cases env s p f sc with ⟨e, h⟩ | h | h | ⟨g, hg, h⟩ <;> rw [h]
  · cases sc' <;> rfl
  · exact hcreate sc'
  · rw [actorsOf_modifyActor]
    split
    · subst_vars
      rw [heldVms, HashMap.flatMap_modify _ _ _ _ (fun a => by simp only [Actor.heldVms, hg])]
      exact hcreate _
    · exact hcreate sc'

/-! ### The phases of a tick -/

section Phases

variable (env : Env) {sc : PeerScope}

theorem scopeConserves_ingest {s : Plumber} (p : Particle) (f : Option ServiceFunction)
    (sc' : PeerScope) (h : s.ScopeConserves sc) : (s.ingest env p f sc').ScopeConserves sc :=
  h.of_eq (by simp) (heldVms_ingest env s p f sc' sc)

theorem scopeConserves_pollPools {s : Plumber} (h : s.ScopeConserves sc) :
    s.pollPools.ScopeConserves sc := by
  intro pool hpool
  cases sc with
  | host =>
    simp only [poolOf, pollPools, Option.some.injEq] at hpool
    subst hpool; exact conserves_poll (h _ rfl)
  | workerId w =>
    simp only [poolOf, pollPools, HashMap.get?_mapValues, Option.map_eq_some'] at hpool
    obtain ⟨p, hp, rfl⟩ := hpool
    exact conserves_poll (h p hp)

theorem scopeConserves_pollHostActors {s : Plumber} (r : Routing) (h : s.ScopeConserves sc) :
    (s.pollHostActors env r).1.ScopeConserves sc := by
  cases sc with
  | host =>
    intro pool hpool
    simp only [poolOf, pollHostActors, Option.some.injEq] at hpool
    subst hpool; exact conserves_pollActors env r _ _ (h _ rfl)
  | workerId w => exact h

/-- Conservation through a loop over the buckets that visits each with its pool, when
    each visit conserves. -/
private theorem scopeConserves_mapAccumWith {R : Type} (g : R → WorkerId → Actors → VmPool → R × Actors × VmPool)
    (hg : ∀ r r' w b p, (g r w b p).2 = (g r' w b p).2)
    (hc : ∀ r w b p, Conserves p (heldVms b) → Conserves (g r w b p).2.2 (heldVms (g r w b p).2.1))
    (r : R) {s : Plumber} {w : WorkerId} (h : s.ScopeConserves (.workerId w)) (pool : VmPool)
    (hpool : (s.workerActors.mapAccumWith g r s.workerVmPools).2.2.get? w = some pool) :
    Conserves pool
      (heldVms (((s.workerActors.mapAccumWith g r s.workerVmPools).2.1.get? w).getD .empty)) := by
  have key := HashMap.get?_mapAccumWith g hg r s.workerActors s.workerVmPools w
  simp only [ScopeConserves, poolOf, actorsOf] at h
  cases hb : s.workerActors.get? w <;> cases hp : s.workerVmPools.get? w <;>
    simp only [hb, hp, Prod.mk.injEq] at key h <;> rw [key.1] <;> rw [key.2] at hpool <;>
    cases hpool
  · exact h _ rfl
  · exact hc r w _ _ (h _ rfl)

theorem scopeConserves_pollWorkersActors {s : Plumber} (r : Routing) (h : s.ScopeConserves sc) :
    (s.pollWorkersActors env r).1.ScopeConserves sc := by
  cases sc with
  | host => exact h
  | workerId w =>
    exact scopeConserves_mapAccumWith _ (fun r r' _ a p => pollActors_snd_eq env r r' a p)
      (fun r _ b p => conserves_pollActors env r b p) r h

theorem heldVms_cleanupWorkerActors (t : Plumber) (keys : List CleanupKey) (now : UInt64)
    (sc : PeerScope) :
    heldVms ((t.cleanupWorkerActors keys now).1.actorsOf sc) = heldVms (t.actorsOf sc) := by
  unfold cleanupWorkerActors
  split
  · rfl
  · cases sc with
    | host => rfl
    | workerId w =>
      simp only [actorsOf, HashMap.retainAccum, HashMap.get?]
      rcases HashMap.lookup_retainAccumEntries _ t.workerActors.entries t.workerActors.nodupKeys keys w
        with ⟨h1, h2⟩ | ⟨st, b, h1, h2⟩
      · rw [h1, h2]
      · rw [h1, h2, Option.getD_some, ← heldVms_cleanupActors now st b]
        simp only [cleanupBucket]
        split
        · rfl
        · rename_i hkeep
          simp only [HashMap.isEmpty, Bool.or_eq_true, Bool.not_eq_true', not_or,
            Bool.not_eq_false, List.isEmpty_iff] at hkeep
          simp [heldVms, hkeep.1, HashMap.empty]

theorem scopeConserves_cleanup {s : Plumber} (h : s.ScopeConserves sc) :
    (s.cleanup env).ScopeConserves sc := by
  have hpass : ∀ t : Plumber, t.ScopeConserves sc → (t.cleanupPass env).ScopeConserves sc := by
    intro t ht
    have hh : heldVms (((t.cleanupHostActors [] env.now).1.cleanupWorkerActors
        (t.cleanupHostActors [] env.now).2 env.now).1.actorsOf sc) = heldVms (t.actorsOf sc) := by
      rw [heldVms_cleanupWorkerActors]
      cases sc with
      | host => exact heldVms_cleanupActors env.now [] _
      | workerId w => rfl
    rw [cleanupPass_eq]
    exact ht.of_eq (by cases sc <;> simp [poolOf]) hh
  have h₀ : s.takeFinishedCleanup.ScopeConserves sc := by
    rw [takeFinishedCleanup_eq]; exact h
  unfold cleanup
  dsimp only
  split
  · exact h₀
  · exact hpass _ h₀

theorem scopeConserves_pollNextHostMessages {s : Plumber} (h : s.ScopeConserves sc) :
    s.pollNextHostMessages.ScopeConserves sc := by
  cases sc with
  | host =>
    intro pool hpool
    simp only [poolOf, pollNextHostMessages, Option.some.injEq] at hpool
    subst hpool; exact conserves_pollNextActors _ _ (h _ rfl)
  | workerId w => exact h

theorem scopeConserves_pollNextWorkerMessages {s : Plumber} (h : s.ScopeConserves sc) :
    s.pollNextWorkerMessages.ScopeConserves sc := by
  cases sc with
  | host => exact h
  | workerId w =>
    exact scopeConserves_mapAccumWith (fun _ _ actors pool => ((), pollNextActors actors pool))
      (fun _ _ _ _ _ => rfl) (fun _ _ b p => conserves_pollNextActors b p) () h

theorem scopeConserves_poll {s : Plumber} (h : s.ScopeConserves sc) :
    (s.poll env).2.ScopeConserves sc := by
  have h₁ := scopeConserves_pollPools h
  unfold poll
  dsimp only
  split
  · exact h₁
  · have h₂ := scopeConserves_pollWorkersActors env (s.pollPools.pollHostActors env ⟨[], []⟩).2
      (scopeConserves_pollHostActors env ⟨[], []⟩ h₁)
    have h₃ := scopeConserves_pollNextWorkerMessages
      (scopeConserves_pollNextHostMessages (scopeConserves_cleanup env h₂))
    exact reingest_induction env (·.ScopeConserves sc)
      (fun _ p sc' hs => scopeConserves_ingest env p none sc' hs) _ _ h₃

end Phases

/-! ### Runs -/

/-- A step a guarded run may take: `create_worker_pool` only while none of the
    worker's actors holds a VM. -/
def SafeStep (s : Plumber) : Action → Prop
  | .createWorkerPool w _ => heldVms (s.actorsOf (.workerId w)) = []
  | _ => True

theorem scopeConserves_step (env : Env) {s : Plumber} {sc : PeerScope} (a : Action)
    (ha : sc ≠ .host → s.SafeStep a) (h : s.ScopeConserves sc) : (s.step env a).ScopeConserves sc := by
  cases a with
  | ingest p f sc' => exact scopeConserves_ingest env p f sc' h
  | poll => exact scopeConserves_poll env h
  | createWorkerPool w n =>
    intro pool hpool
    cases sc with
    | host => exact h pool hpool
    | workerId w' =>
      simp only [step, createWorkerPool, poolOf, HashMap.get?_insert] at hpool
      split at hpool
      · subst_vars; cases hpool
        -- the new pool is whole, and the guard says no actor of the worker holds a VM
        have hw : heldVms (s.actorsOf (.workerId w')) = [] := ha (by simp)
        change Conserves _ (heldVms (s.actorsOf (.workerId w')))
        rw [hw]; exact conserves_new n
      · exact h pool hpool
  | removeWorkerPool w =>
    intro pool hpool
    cases sc with
    | host => exact h pool hpool
    | workerId w' =>
      simp only [step, removeWorkerPool, poolOf, HashMap.get?_remove] at hpool
      split at hpool
      · cases hpool
      · exact h pool hpool
  | vmCreated sc' i =>
    intro pool hpool
    cases sc' <;> cases sc <;> simp only [step, modifyPool, poolOf, HashMap.get?_modify] at hpool
    · cases hpool; exact conserves_finishCreation i (h _ rfl)
    · exact h pool hpool
    · exact h pool hpool
    · split at hpool
      · subst_vars
        obtain ⟨q, hq, rfl⟩ := Option.map_eq_some'.mp hpool
        exact conserves_finishCreation i (h q hq)
      · exact h pool hpool
  | avmCompleted sc' key out =>
    refine h.of_eq (by simp [step]) ?_
    simp only [step, actorsOf_modifyActor]
    split
    · subst_vars
      -- the interpreter finishing keeps the VM the actor holds
      exact HashMap.flatMap_modify _ _ _ _ (fun a => a.heldVms_avmCompleted out)
    · rfl
  | cleanupCompleted => exact h

end Plumber

/-- The states of the runs whose `create_worker_pool` calls find the worker's actors
    idle. -/
inductive SafeReachable : Plumber → Prop
  | init (n : Nat) : SafeReachable (Plumber.new (VmPool.new n))
  | step {s : Plumber} (env : Env) (a : Action) :
      s.SafeStep a → SafeReachable s → SafeReachable (s.step env a)

theorem scopeConserves_new (n : Nat) (sc : PeerScope) :
    (Plumber.new (VmPool.new n)).ScopeConserves sc := by
  intro pool hpool
  cases sc with
  | host => cases hpool; exact conserves_new n
  | workerId w => cases hpool

theorem vm_ids_conserved :
    (∀ s, Reachable s → s.ScopeConserves .host) ∧
      (∀ s, SafeReachable s → ∀ sc, s.ScopeConserves sc) := by
  refine ⟨fun s hs => ?_, fun s hs sc => ?_⟩
  · induction hs with
    | init n => exact scopeConserves_new n .host
    | step env a _ ih => exact Plumber.scopeConserves_step env a (fun h => absurd rfl h) ih
  · induction hs with
    | init n => exact scopeConserves_new n sc
    | step env a ha _ ih => exact Plumber.scopeConserves_step env a (fun _ => ha) ih

/-- A registry that accepts everything: active workers, a deal and a runtime for every
    worker, a key pair for every scope, no peer routed locally. -/
def permissiveEnv : Env :=
  ⟨0, fun _ => none, fun _ => true, fun _ => false, fun _ => false, 0, fun _ => none,
    fun _ => some "deal", fun _ => some 0, fun _ => some 0, fun s => some s, 0⟩

/-- Worker `7` gets a one-VM pool and the host pool two VMs, and a particle starts
    executing at each. -/
def busyTrace : List (Env × Action) :=
  let w : WorkerId := ⟨7⟩
  let p : Particle := ⟨"p", 1, 0, 1000, [1]⟩
  [(permissiveEnv, .createWorkerPool w 1), (permissiveEnv, .vmCreated .host 0),
   (permissiveEnv, .vmCreated .host 1), (permissiveEnv, .vmCreated (.workerId w) 0),
   (permissiveEnv, .ingest p none .host), (permissiveEnv, .ingest p none (.workerId w)),
   (permissiveEnv, .poll)]

/-- The state `busyTrace` reaches: host VM `0` and the worker's VM `0` held by executing
    actors, host VM `1` free. -/
def busyState : Plumber := (Plumber.new (VmPool.new 2)).run busyTrace

theorem vm_ids_conserved_busy :
    (heldVms (busyState.actorsOf .host) = [0] ∧ busyState.hostVmPool.runtimes = [1] ∧
      heldVms (busyState.actorsOf (.workerId ⟨7⟩)) = [0]) ∧
    Reachable busyState ∧ busyState.ScopeConserves .host ∧ SafeReachable busyState ∧
      ∀ sc, busyState.ScopeConserves sc := by
  have hr : Reachable busyState := (Reachable.init 2).run busyTrace
  have hs : SafeReachable busyState :=
    .step _ .poll trivial <| .step _ (.ingest _ _ _) trivial <| .step _ (.ingest _ _ _) trivial <|
      .step _ (.vmCreated _ _) trivial <| .step _ (.vmCreated _ _) trivial <|
      .step _ (.vmCreated _ _) trivial <| .step _ (.createWorkerPool _ _) rfl (.init 2)
  exact ⟨by decide, hr, vm_ids_conserved.1 _ hr, hs, vm_ids_conserved.2 _ hs⟩

/-! ### Replacing a busy worker's pool -/

/-- Worker `7` gets a one-VM pool, a particle starts executing on VM `0`, and the pool
    is replaced while the execution is in flight. -/
def replacePoolTrace : List (Env × Action) :=
  let w : WorkerId := ⟨7⟩
  [(permissiveEnv, .createWorkerPool w 1), (permissiveEnv, .vmCreated (.workerId w) 0),
   (permissiveEnv, .ingest ⟨"p", 1, 0, 1000, [1]⟩ none (.workerId w)), (permissiveEnv, .poll),
   (permissiveEnv, .createWorkerPool w 1)]

theorem vm_ids_duplicated_by_pool_replacement :
    ¬ ∀ s, Reachable s → ∀ sc, s.ScopeConserves sc := by
  intro h
  have hs := h _ ((Reachable.init 1).run replacePoolTrace) (.workerId ⟨7⟩)
  have hpool : ((Plumber.new (VmPool.new 1)).run replacePoolTrace).poolOf (.workerId ⟨7⟩) =
      some ⟨1, [], [(0, false)]⟩ := by decide
  have := hs _ hpool
  revert this
  decide

end Nox.Aquamarine
