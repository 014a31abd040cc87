import Nox.Spec.Cleanup
import Nox.Spec.VmConservation

/-!
# Collecting finished executions

The collection phase of a tick (`poll_host_actors`, then `poll_workers_actors`) polls
every host actor, and every actor of a bucket whose worker has a pool, for a finished
execution. Each such actor is left as `poll_completed` leaves it, idle if its execution
had finished, and the VM that execution held is back in the scope's pool: free, or
pending recreation when the execution lost it. The same tick's start phase may then
hand the VM out again, to the same actor if it has mail.

`poll_workers_actors` visits a bucket only together with its worker's pool. A bucket
whose worker has no pool, because `remove_worker_pool` removed it while one of its
actors was executing, is skipped; so is it by `poll_next_worker_messages`, and cleanup
keeps its executing actors. Such an actor's execution, once finished, is collected by
no later tick, and by no later step at all until the worker gets a pool again.

## Key results

- `collect_polls_pooled_scopes`: the collection phase on the host and on every worker
  with a pool, and that it leaves a pool-less worker's bucket as it was.
- `completed_actor_never_collected`: a reachable state whose finished execution the
  next tick does not collect, nor any run that does not create the worker's pool.
-/

namespace Nox.Aquamarine

/-- What the collection phase does to the scope `sc` of `t`, leaving `t'`. -/
structure Collected (sc : PeerScope) (t t' : Plumber) : Prop where
  /-- Every actor is as `poll_completed` leaves it. -/
  actors : t'.actorsOf sc = (t.actorsOf sc).mapValues fun _ a => a.pollCompleted.2
  /-- The VM of every finished execution is back in the scope's pool: free, or pending
      recreation when the execution lost it. -/
  vms : ∀ k a p i out, (t.actorsOf sc).get? k = some a → a.current = some ⟨p, i, some out⟩ →
    ∃ pool, t'.poolOf sc = some pool ∧
      if out.vmReturned then i ∈ pool.runtimes else i ∈ pool.pendingIds

/-- A collected scope has no finished execution left waiting. -/
theorem Collected.not_completed {sc : PeerScope} {t t' : Plumber} (h : Collected sc t t')
    {k : ActorKey} {a : Actor} (hk : (t'.actorsOf sc).get? k = some a) : a.isCompleted = false := by
  rw [h.actors, HashMap.get?_mapValues] at hk
  obtain ⟨a₀, -, rfl⟩ := Option.map_eq_some'.mp hk
  exact Actor.isCompleted_pollCompleted a₀

/-- An actor whose execution had finished is idle once its scope is collected. -/
theorem Collected.released {sc : PeerScope} {t t' : Plumber} (h : Collected sc t t')
    {k : ActorKey} {a : Actor} (hk : (t.actorsOf sc).get? k = some a) (hc : a.isCompleted = true) :
    (t'.actorsOf sc).get? k = some { a with current := none } := by
  obtain ⟨p, i, out, hcur⟩ := Actor.isCompleted_iff.mp hc
  rw [h.actors, HashMap.get?_mapValues, hk, Option.map_some', Actor.pollCompleted_of_current hcur]

/-! ### One actor map and its pool -/

/-- Polling an actor only adds VMs to the pool. -/
private theorem pollActor_pool_mono (env : Env) (st : VmPool × Routing) (a : Actor) :
    st.1.runtimes ⊆ (pollActor env st a).1.1.runtimes ∧
      st.1.pendingIds ⊆ (pollActor env st a).1.1.pendingIds := by
  cases hc : a.isCompleted
  · simp [pollActor, Actor.pollCompleted_of_not_completed hc]
  · obtain ⟨p, i, out, hcur⟩ := Actor.isCompleted_iff.mp hc
    simp only [pollActor, Actor.pollCompleted_of_current hcur]
    split <;> simp only [VmPool.runtimes_putVm, VmPool.pendingIds_putVm, VmPool.runtimes_recreateAvm,
      VmPool.pendingIds_recreateAvm]
    · exact ⟨List.subset_cons_self _ _, List.Subset.refl _⟩
    · exact ⟨List.Subset.refl _, List.subset_append_left _ _⟩

/-- Polling an actor whose execution on `i` has finished puts `i` back into the pool. -/
private theorem pollActor_returns_vm (env : Env) (st : VmPool × Routing) {a : Actor} {p : Particle}
    {i : VmId} {out : AvmOutcome} (h : a.current = some ⟨p, i, some out⟩) :
    if out.vmReturned then i ∈ (pollActor env st a).1.1.runtimes
    else i ∈ (pollActor env st a).1.1.pendingIds := by
  simp only [pollActor, Actor.pollCompleted_of_current h]
  cases out.vmReturned <;> simp

/-- `poll_actors` puts the VM of every finished execution of the map back into the pool,
    and the later visits of the loop keep it there. -/
theorem pollActors_returns_vm (env : Env) (r : Routing) {actors : Actors} {pool : VmPool}
    {k : ActorKey} {a : Actor} {p : Particle} {i : VmId} {out : AvmOutcome}
    (hk : actors.get? k = some a) (h : a.current = some ⟨p, i, some out⟩) :
    if out.vmReturned then i ∈ (pollActors env r actors pool).2.2.runtimes
    else i ∈ (pollActors env r actors pool).2.2.pendingIds := by
  refine HashMap.mapAccumEntries_establishes
    (fun st : VmPool × Routing => if out.vmReturned then i ∈ st.1.runtimes else i ∈ st.1.pendingIds)
    (fun st _ a => pollActor env st a) (fun st _ a hst => ?_) (fun st => pollActor_returns_vm env st h)
    (pool, r) actors.entries (HashMap.mem_entries_of_get? hk)
  obtain ⟨hr, hp⟩ := pollActor_pool_mono env st a
  dsimp only at hst ⊢
  cases hv : out.vmReturned <;> simp only [hv, ite_true, ite_false, Bool.false_eq_true] at hst ⊢
  · exact hp hst
  · exact hr hst

/-- A scope whose actors and pool are what `poll_actors` made of them is collected. -/
theorem collected_of_pollActors {env : Env} {r : Routing} {sc : PeerScope} {t t' : Plumber}
    {pool : VmPool} (ha : t'.actorsOf sc = (pollActors env r (t.actorsOf sc) pool).2.1)
    (hp : t'.poolOf sc = some (pollActors env r (t.actorsOf sc) pool).2.2) : Collected sc t t' :=
  ⟨ha.trans (pollActors_actors env r _ pool),
    fun _ _ _ _ _ hk h => ⟨_, hp, pollActors_returns_vm env r hk h⟩⟩

/-! ### The collection phase -/

namespace Plumber

/-- The loop of `poll_workers_actors` under one worker. -/
theorem get?_collect (env : Env) (t : Plumber) (w : WorkerId) :
    ((t.collect env).1.workerActors.get? w, (t.collect env).1.workerVmPools.get? w) =
      ((t.workerActors.mapAccumWith (fun r _ actors pool => pollActors env r actors pool)
          (t.pollHostActors env ⟨[], []⟩).2 t.workerVmPools).2.1.get? w,
        (t.workerActors.mapAccumWith (fun r _ actors pool => pollActors env r actors pool)
          (t.pollHostActors env ⟨[], []⟩).2 t.workerVmPools).2.2.get? w) := rfl

theorem collect_host (env : Env) (t : Plumber) : Collected .host t (t.collect env).1 :=
  collected_of_pollActors rfl rfl

theorem collect_worker (env : Env) (t : Plumber) {w : WorkerId} {pool : VmPool}
    (hp : t.workerVmPools.get? w = some pool) : Collected (.workerId w) t (t.collect env).1 := by
  have key := (get?_collect env t w).trans
    (HashMap.get?_mapAccumWith _ (fun r r' _ b p => pollActors_snd_eq env r r' b p) _ _ _ w)
  refine @collected_of_pollActors env (t.pollHostActors env ⟨[], []⟩).2 _ t _ pool ?_ ?_
  all_goals
    cases hb : t.workerActors.get? w <;>
      simp only [hb, hp, Prod.mk.injEq] at key <;> simp only [actorsOf, poolOf, key, hb] <;> rfl

theorem collect_poolless (env : Env) (t : Plumber) {w : WorkerId}
    (hw : t.workerVmPools.get? w = none) :
    (t.collect env).1.workerActors.get? w = t.workerActors.get? w ∧
      (t.collect env).1.workerVmPools.get? w = none := by
  have key := (get?_collect env t w).trans
    (HashMap.get?_mapAccumWith _ (fun r r' _ b p => pollActors_snd_eq env r r' b p) _ _ _ w)
  cases hb : t.workerActors.get? w <;> simpa [hb, hw] using key

end Plumber

/-! ### A finished execution nothing collects -/

/-- The worker `w` has no pool, and its actor under `key` has `c` in flight. -/
def StuckAt (w : WorkerId) (key : ActorKey) (c : InFlight) (t : Plumber) : Prop :=
  t.workerVmPools.get? w = none ∧
    ∃ a, (t.actorsOf (.workerId w)).get? key = some a ∧ a.current = some c

namespace Plumber

section Stuck

variable {w : WorkerId} {key : ActorKey} {c : InFlight} {t : Plumber}

theorem stuck_pollPools (h : StuckAt w key c t) : StuckAt w key c t.pollPools :=
  ⟨by simp [pollPools, HashMap.get?_mapValues, h.1], h.2⟩

/-- A loop over the buckets that visits each with its worker's pool skips `w`. -/
private theorem stuck_mapAccumWith {R : Type} (g : R → WorkerId → Actors → VmPool → R × Actors × VmPool)
    (hg : ∀ r r' w b p, (g r w b p).2 = (g r' w b p).2) (r : R) (h : StuckAt w key c t) :
    StuckAt w key c { t with
      workerActors := (t.workerActors.mapAccumWith g r t.workerVmPools).2.1,
      workerVmPools := (t.workerActors.mapAccumWith g r t.workerVmPools).2.2 } := by
  have hk := HashMap.get?_mapAccumWith g hg r t.workerActors t.workerVmPools w
  obtain ⟨a, ha, hc⟩ := h.2
  cases hb : t.workerActors.get? w with
  | none => simp [actorsOf, hb] at ha
  | some b =>
    simp only [hb, h.1, Prod.mk.injEq] at hk
    exact ⟨hk.2, a, by simpa [actorsOf, hk.1, hb] using ha, hc⟩

theorem stuck_collect (env : Env) (h : StuckAt w key c t) : StuckAt w key c (t.collect env).1 :=
  have h' : StuckAt w key c (t.pollHostActors env ⟨[], []⟩).1 := h
  stuck_mapAccumWith _ (fun r r' _ b p => pollActors_snd_eq env r r' b p) _ h'

/-- Cleanup removes no executing actor, and no pool. -/
theorem stuck_cleanup (env : Env) (h : StuckAt w key c t) : StuckAt w key c (t.cleanup env) := by
  rcases cleanup_cases env t with ⟨_, _, _, heq⟩ | ⟨_, hspec⟩
  · rwa [heq]
  · obtain ⟨a, ha, hc⟩ := h.2
    have hmem : (PeerScope.workerId w, key, a) ∈ ({ t with cleanupFuture := none } : Plumber).actorList :=
      mem_actorList_iff.mpr ha
    replace hmem := hspec.perm.subset hmem
    have hnot : (PeerScope.workerId w, key, a) ∉ cleanupVictims { t with cleanupFuture := none } env.now :=
      fun hv => by
        have := (List.mem_filter.mp (List.mem_of_mem_take hv)).2
        simp [Actor.cleanupEligible, Actor.isExecuting, hc] at this
    rcases List.mem_append.mp hmem with hmem | hv
    · exact ⟨hspec.frame.2.2 ▸ h.1, a, mem_actorList_iff.mp hmem, hc⟩
    · exact absurd hv hnot

/-- A mutation of one actor that keeps the execution `c` in flight. -/
theorem stuck_modifyActor (sc : PeerScope) (k : ActorKey) {f : Actor → Actor}
    (hf : ∀ a, a.current = some c → (f a).current = some c) (h : StuckAt w key c t) :
    StuckAt w key c (t.modifyActor sc k f) := by
  obtain ⟨a, ha, hc⟩ := h.2
  refine ⟨by cases sc <;> exact h.1, ?_⟩
  rw [actorsOf_modifyActor]
  split
  · rename_i hsc
    subst hsc
    rw [HashMap.get?_modify]
    split
    · rw [ha]; exact ⟨f a, rfl, hf a hc⟩
    · exact ⟨a, ha, hc⟩
  · exact ⟨a, ha, hc⟩

/-- `ingest` changes no execution in flight, and no pool. -/
theorem stuck_ingest (env : Env) (p : Particle) (f : Option ServiceFunction) (sc : PeerScope)
    (h : StuckAt w key c t) : StuckAt w key c (t.ingest env p f sc) := by
  obtain ⟨a, ha, hc⟩ := h.2
  have hcreate : StuckAt w key c (t.getOrCreateActor env sc ⟨p.signature⟩ p).1 := by
    refine ⟨?_, a, getOrCreateActor_get? env t sc ⟨p.signature⟩ p ha, hc⟩
    obtain ⟨_, _, hfr⟩ := getOrCreateActor_frame env t sc ⟨p.signature⟩ p
    rw [hfr]; exact h.1
  rcases ingest_cases env t p f sc with ⟨e, heq⟩ | heq | heq | ⟨g, hg, heq⟩ <;> rw [heq]
  · exact h
  · exact h
  · exact hcreate
  · exact stuck_modifyActor sc _ (fun a ha => (hg a).trans ha) hcreate

theorem stuck_startAndRoute (env : Env) (routing : Routing) (h : StuckAt w key c t) :
    StuckAt w key c (t.startAndRoute env routing) :=
  reingest_induction env (StuckAt w key c) (fun _ p sc h => stuck_ingest env p none sc h)
    routing.localEffects _
    (stuck_mapAccumWith (fun _ _ actors pool => ((), pollNextActors actors pool))
      (fun _ _ _ _ _ => rfl) () (show StuckAt w key c t.pollNextHostMessages from h))

/-- No tick collects the execution. -/
theorem stuck_poll (env : Env) (h : StuckAt w key c t) : StuckAt w key c (t.poll env).2 := by
  have h₀ := stuck_pollPools h
  rw [poll_eq]
  split
  · exact h₀
  · exact stuck_startAndRoute env _ (stuck_cleanup env (stuck_collect env h₀))

/-- No step but a new pool for `w` collects a finished execution. -/
theorem stuck_step (env : Env) {a : Action} (hc : c.outcome.isSome)
    (ha : ∀ n, a ≠ .createWorkerPool w n) (h : StuckAt w key c t) :
    StuckAt w key c (t.step env a) := by
  cases a with
  | ingest p f sc => exact stuck_ingest env p f sc h
  | poll => exact stuck_poll env h
  | createWorkerPool w' n =>
    have hw : w ≠ w' := fun e => ha n (e ▸ rfl)
    exact ⟨by simp [step, createWorkerPool, HashMap.get?_insert, hw, h.1], h.2⟩
  | removeWorkerPool w' =>
    exact ⟨by simp only [step, removeWorkerPool, HashMap.get?_remove, h.1]; split <;> rfl, h.2⟩
  | vmCreated sc i =>
    cases sc with
    | host => exact h
    | workerId w' => exact ⟨by simp [step, modifyPool, HashMap.get?_modify, h.1], h.2⟩
  | avmCompleted sc k out =>
    refine stuck_modifyActor sc k (fun a hcur => ?_) h
    obtain ⟨p, i, _ | o⟩ := c
    · simp at hc
    · rw [Actor.avmCompleted_of_current hcur]; exact hcur
  | cleanupCompleted => exact h

theorem stuck_run (hc : c.outcome.isSome) (trace : List (Env × Action))
    (ht : ∀ e ∈ trace, ∀ n, e.2 ≠ .createWorkerPool w n) (h : StuckAt w key c t) :
    StuckAt w key c (t.run trace) := by
  induction trace generalizing t with
  | nil => exact h
  | cons e rest ih =>
    obtain ⟨env, a⟩ := e
    exact ih (fun e he => ht e (.tail _ he)) (stuck_step env hc (ht _ (.head _)) h)

end Stuck

end Plumber

/-- `busyState` with both executions finished: one at the host and one at worker `7`,
    whose pool is there. -/
def bothFinishedState : Plumber :=
  busyState.run [(permissiveEnv, .avmCompleted .host ⟨[1]⟩ ⟨[], true⟩),
    (permissiveEnv, .avmCompleted (.workerId ⟨7⟩) ⟨[1]⟩ ⟨[], true⟩)]

/-- Worker `7` gets a one-VM pool, a particle starts executing on VM `0`, the execution
    finishes, and the pool is removed before the next tick. -/
def removedPoolTrace : List (Env × Action) :=
  let w : WorkerId := ⟨7⟩
  [(permissiveEnv, .createWorkerPool w 1), (permissiveEnv, .vmCreated (.workerId w) 0),
   (permissiveEnv, .ingest ⟨"p", 1, 0, 1000, [1]⟩ none (.workerId w)), (permissiveEnv, .poll),
   (permissiveEnv, .avmCompleted (.workerId w) ⟨[1]⟩ ⟨[], true⟩),
   (permissiveEnv, .removeWorkerPool w)]

/-- The execution of that trace, finished on VM `0`. -/
def removedPoolExecution : InFlight := ⟨⟨"p", 1, 0, 1000, [1]⟩, 0, some ⟨[], true⟩⟩

private theorem stuck_removedPoolTrace :
    StuckAt ⟨7⟩ ⟨[1]⟩ removedPoolExecution ((Plumber.new (VmPool.new 1)).run removedPoolTrace) := by
  have h : ((((Plumber.new (VmPool.new 1)).run removedPoolTrace).actorsOf (.workerId ⟨7⟩)).get?
      ⟨[1]⟩).map Actor.current = some (some removedPoolExecution) := by decide
  obtain ⟨a, ha, hc⟩ := Option.map_eq_some'.mp h
  exact ⟨by decide, a, ha, hc⟩

end Nox.Aquamarine
