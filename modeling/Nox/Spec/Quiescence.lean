import Nox.Spec.Cleanup
import Nox.Spec.VmConservation

/-!
# A tick with nothing to do

A plumber is quiescent at `now` when no event is queued, every actor is idle with an
empty mailbox and not expired, and no pool has a VM creation outstanding. A tick at
`now` then returns `Pending`, and every actor, pool and event stays as it was: no
execution has finished, every actor hands the VM it is offered straight back, so each
free list ends as it began, and there is nothing to route.

Two things still change. A cleanup future that has finished is dropped (`cleanup`
takes it), and once no cleanup future is outstanding the cleanup pass runs and drops
every empty bucket whose worker has no pool, such as the one an `ingest` leaves behind
when it finds no deal id or runtime handle for the worker. No scope's actors change:
those buckets were empty.

## Key results

- `quiescent_poll`: the state after the tick, exactly.
- `quiescent_poll_drops_finished_cleanup`: a reachable quiescent state whose cleanup
  future the tick drops.
-/

namespace Nox.Aquamarine

/-- An actor with nothing to do at `now`: nothing in flight, an empty mailbox, and a
    deadline still ahead. -/
def Actor.isIdle (now : UInt64) (a : Actor) : Bool :=
  a.current.isNone && a.mailbox.isEmpty && !a.isExpired now

/-- Nothing for a tick at `now` to do: no queued event, every actor idle, and no pool
    with a VM creation outstanding. -/
def Quiescent (now : UInt64) (s : Plumber) : Prop :=
  s.events = [] ∧ (∀ x ∈ s.actorList, x.2.2.isIdle now = true) ∧
    s.hostVmPool.creatingRuntimes = [] ∧ ∀ e ∈ s.workerVmPools.entries, e.2.creatingRuntimes = []

instance (now : UInt64) (s : Plumber) : Decidable (Quiescent now s) :=
  inferInstanceAs (Decidable (_ ∧ _ ∧ _ ∧ _))

/-- Every actor of a map is idle at `now`. -/
def AllIdle (now : UInt64) (m : Actors) : Prop := ∀ e ∈ m.entries, e.2.isIdle now = true

namespace Actor

variable {now : UInt64} {a : Actor}

theorem isCompleted_of_isIdle (h : a.isIdle now = true) : a.isCompleted = false := by
  simp only [isIdle, Bool.and_eq_true, Option.isNone_iff_eq_none] at h
  simp [isCompleted, h.1.1]

theorem isReady_of_isIdle (h : a.isIdle now = true) : a.isReady = false := by
  simp only [isIdle, Bool.and_eq_true] at h
  simp [isReady, h.1.2]

theorem cleanupEligible_of_isIdle (h : a.isIdle now = true) : a.cleanupEligible now = false := by
  simp only [isIdle, Bool.and_eq_true, Bool.not_eq_true'] at h
  simp [cleanupEligible, h.2]

end Actor

/-! ### The loops over one idle map -/

section Idle

variable {now : UInt64} {m : Actors}

theorem pollActors_of_allIdle (env : Env) (r : Routing) (pool : VmPool) (h : AllIdle now m) :
    pollActors env r m pool = (r, m, pool) := by
  have hm := HashMap.mapAccum_of_fixed (fun st _ a => pollActor env st a) (pool, r) m fun e he => by
    simp [pollActor, Actor.pollCompleted_of_not_completed (Actor.isCompleted_of_isIdle (h e he))]
  simp only [pollActors, hm]

/-- An actor that is not ready hands the VM it is offered straight back. -/
private theorem pollNextActor_of_not_ready (pool : VmPool) {a : Actor} (h : a.isReady = false) :
    pollNextActor pool a = none ∨ pollNextActor pool a = some (pool, a) := by
  unfold pollNextActor
  cases hg : pool.getVm with
  | none => exact .inl rfl
  | some r =>
    obtain ⟨i, pool'⟩ := r
    obtain ⟨rest, hr, rfl⟩ := VmPool.getVm_eq_some_iff.mp hg
    refine .inr ?_
    simp only [Actor.pollNext_of_not_ready h]
    rw [VmPool.putVm, ← hr]

theorem pollNextActors_of_allIdle (pool : VmPool) (h : AllIdle now m) :
    pollNextActors m pool = (m, pool) := by
  have hm := HashMap.mapAccumBreak_of_fixed (fun pool _ a => pollNextActor pool a) pool m
    fun e he => pollNextActor_of_not_ready pool (Actor.isReady_of_isIdle (h e he))
  simp only [pollNextActors, hm]

theorem cleanupActors_of_allIdle (keys : List CleanupKey) (h : AllIdle now m) :
    cleanupActors now keys m = (keys, m) := by
  have hm := HashMap.retainAccum_of_fixed (cleanupActor now) (fun _ _ => true) keys m fun e he => by
    have := Actor.keep_eq_not_cleanupEligible now e.2
    rw [Actor.cleanupEligible_of_isIdle (h e he)] at this
    simp [cleanupActor, this]
  have hf : m.filter (fun _ _ => true) = m := HashMap.ext (List.filter_true _)
  rw [cleanupActors, hm, hf]

end Idle

/-- What `Quiescent` says of the loops: each actor map is idle. -/
theorem Quiescent.host {now : UInt64} {s : Plumber} (h : Quiescent now s) :
    AllIdle now s.hostActors :=
  fun e he => h.2.1 (.host, e) (List.mem_append_left _ (List.mem_map_of_mem _ he))

theorem Quiescent.buckets {now : UInt64} {s : Plumber} (h : Quiescent now s) :
    ∀ b ∈ s.workerActors.entries, AllIdle now b.2 :=
  fun b hb e he => h.2.1 (.workerId b.1, e)
    (List.mem_append_right _ (List.mem_flatMap.mpr ⟨b, hb, List.mem_map_of_mem _ he⟩))

namespace Plumber

/-- The buckets a cleanup pass that removes no actor keeps: those with actors, and those
    whose worker has a pool. -/
def keptBuckets (s : Plumber) : HashMap WorkerId Actors :=
  s.workerActors.filter fun w b => !b.isEmpty || s.workerVmPools.containsKey w

/-- Dropping empty buckets changes no worker's actors. -/
private theorem getD_keptBuckets (s : Plumber) (w : WorkerId) :
    (s.keptBuckets.get? w).getD .empty = (s.workerActors.get? w).getD .empty := by
  rw [keptBuckets, HashMap.get?_filter]
  cases s.workerActors.get? w with
  | none => rfl
  | some b =>
    simp only [Option.filter]
    split
    · rfl
    · rename_i hkeep
      simp only [Bool.or_eq_true, Bool.not_eq_true', not_or, Bool.not_eq_false] at hkeep
      exact (HashMap.ext (List.isEmpty_iff.mp hkeep.1)).symm

theorem pollPools_of_quiescent {now : UInt64} {s : Plumber} (h : Quiescent now s) :
    s.pollPools = s := by
  have hpool : ∀ pool : VmPool, pool.creatingRuntimes = [] → pool.poll = pool := by
    rintro ⟨n, rs, cs⟩ (rfl : cs = []); rfl
  have hw : s.workerVmPools.mapValues (fun _ pool => pool.poll) = s.workerVmPools :=
    HashMap.ext ((List.map_congr_left fun e he => by dsimp only; rw [hpool _ (h.2.2.2 e he)]; rfl).trans
      (List.map_id _))
  simp only [pollPools, hpool _ h.2.2.1, hw]

section Idle

variable {now : UInt64} {t : Plumber} (hh : AllIdle now t.hostActors)
  (hb : ∀ b ∈ t.workerActors.entries, AllIdle now b.2)
include hh hb

theorem collect_of_allIdle (env : Env) : t.collect env = (t, ⟨[], []⟩) := by
  have hw := HashMap.mapAccumWith_of_fixed (fun r _ actors pool => pollActors env r actors pool)
    ⟨[], []⟩ t.workerActors t.workerVmPools fun b hb' pool _ => pollActors_of_allIdle env _ pool (hb b hb')
  simp only [collect, pollHostActors, pollActors_of_allIdle env _ _ hh]
  simp only [pollWorkersActors, hw]

/-- A cleanup pass over idle actors removes nothing but the empty buckets of workers
    without a pool. -/
theorem cleanupPass_of_allIdle (env : Env) (hnow : now = env.now) :
    t.cleanupPass env = { t with workerActors := t.keptBuckets } := by
  subst hnow
  have hw := HashMap.retainAccum_of_fixed (cleanupBucket t.workerVmPools env.now)
    (fun w b => !b.isEmpty || t.workerVmPools.containsKey w) [] t.workerActors fun b hb' => by
      simp [cleanupBucket, cleanupActors_of_allIdle [] (hb b hb')]
  simp only [cleanupPass, cleanupHostActors, cleanupActors_of_allIdle [] hh]
  simp only [cleanupWorkerActors, List.length_nil, maxCleanupKeysSize]
  simp [hw, keptBuckets]

theorem startAndRoute_of_allIdle (env : Env) : t.startAndRoute env ⟨[], []⟩ = t := by
  have hw := HashMap.mapAccumWith_of_fixed (fun _ _ actors pool => ((), pollNextActors actors pool))
    () t.workerActors t.workerVmPools fun b hb' pool _ => by
      simp [pollNextActors_of_allIdle pool (hb b hb')]
  simp only [startAndRoute, pollNextHostMessages, pollNextActors_of_allIdle _ hh]
  simp [pollNextWorkerMessages, hw, reingest]

end Idle

end Plumber

open Plumber in
theorem quiescent_poll (env : Env) (s : Plumber) (h : Quiescent env.now s) :
    s.poll env = (.pending, { s with
      cleanupFuture := s.cleanupFuture.filter (!·.ready),
      workerActors := if s.cleanupFuture.all (·.ready) then s.keptBuckets else s.workerActors }) ∧
    ∀ sc, (s.poll env).2.actorsOf sc = s.actorsOf sc := by
  have hpoll : s.poll env = (.pending, { s with
      cleanupFuture := s.cleanupFuture.filter (!·.ready),
      workerActors := if s.cleanupFuture.all (·.ready) then s.keptBuckets else s.workerActors }) := by
    -- each phase on idle actors: the pass drops only empty buckets without a pool, and the start phase hands every VM back
    have hfilt : ∀ b ∈ s.keptBuckets.entries, AllIdle env.now b.2 :=
      fun b hb => h.buckets b (List.mem_filter.mp hb).1
    have hpass := @cleanupPass_of_allIdle env.now { s with cleanupFuture := none } h.host h.buckets
      env rfl
    have hrest := @startAndRoute_of_allIdle env.now
      { s with cleanupFuture := none, workerActors := s.keptBuckets } h.host hfilt env
    have hkeep := fun f => @startAndRoute_of_allIdle env.now { s with cleanupFuture := some f }
      h.host h.buckets env
    rw [poll_eq, pollPools_of_quiescent h]
    split
    · rename_i e rest he; simp [h.1] at he
    · simp only [collect_of_allIdle h.host h.buckets, cleanup, takeFinishedCleanup_eq]
      -- no cleanup future, an outstanding one, or a finished one
      rcases hf : s.cleanupFuture with _ | ⟨keys, _ | _⟩ <;>
        simp only [Option.filter, Bool.not_true, Bool.not_false, Bool.false_eq_true, eq_self_iff_true,
          ite_true, ite_false]
      · rw [hpass]; exact congrArg (Prod.mk Poll.pending) hrest
      · exact congrArg (Prod.mk Poll.pending) (hkeep _)
      · rw [hpass]; exact congrArg (Prod.mk Poll.pending) hrest
  refine ⟨hpoll, fun sc => ?_⟩
  rw [hpoll]
  -- the buckets dropped were empty, so no scope's actors change
  cases sc with
  | host => rfl
  | workerId w =>
    show ((if _ then s.keptBuckets else s.workerActors).get? w).getD .empty = _
    split
    · exact getD_keptBuckets s w
    · rfl

/-- `busyState` after both executions finish and a tick collects them: an idle actor at
    the host and one at worker `7`, and every VM free. -/
def idleState : Plumber :=
  busyState.run [(permissiveEnv, .avmCompleted .host ⟨[1]⟩ ⟨[], true⟩),
    (permissiveEnv, .avmCompleted (.workerId ⟨7⟩) ⟨[1]⟩ ⟨[], true⟩), (permissiveEnv, .poll)]

theorem quiescent_poll_idleActors :
    (idleState.actorList.length = 2 ∧ idleState.hostVmPool.runtimes.length = 2 ∧
      (idleState.poolOf (.workerId ⟨7⟩)).map (·.runtimes.length) = some 1) ∧
    Quiescent permissiveEnv.now idleState ∧
      (idleState.poll permissiveEnv =
        (.pending, { idleState with
          cleanupFuture := idleState.cleanupFuture.filter (!·.ready),
          workerActors := if idleState.cleanupFuture.all (·.ready) then idleState.keptBuckets
            else idleState.workerActors }) ∧
      ∀ sc, (idleState.poll permissiveEnv).2.actorsOf sc = idleState.actorsOf sc) :=
  ⟨by decide, by decide, quiescent_poll permissiveEnv _ (by decide)⟩

/-- A host particle with deadline `10` is ingested at `0` by a plumber with no host VM,
    a tick at `20` cleans its actor up, and the data store finishes the batch. -/
def finishedCleanupTrace : List (Env × Action) :=
  [(permissiveEnv, .ingest ⟨"p", 1, 0, 10, [1]⟩ none .host),
   ({ permissiveEnv with now := 20 }, .poll), (permissiveEnv, .cleanupCompleted)]

/-- The state `finishedCleanupTrace` reaches: no actor, and a finished cleanup future. -/
def finishedCleanupState : Plumber := (Plumber.new (VmPool.new 0)).run finishedCleanupTrace

theorem quiescent_poll_drops_finished_cleanup :
    ¬ ∀ (env : Env) (s : Plumber), Reachable s → Quiescent env.now s →
      (s.poll env).1 = .pending ∧ (s.poll env).2.hostActors = s.hostActors ∧
      (s.poll env).2.workerActors = s.workerActors ∧ (s.poll env).2.events = s.events ∧
      (s.poll env).2.cleanupFuture.isSome = s.cleanupFuture.isSome ∧
      ∀ sc pool, s.poolOf sc = some pool →
        ∃ pool', (s.poll env).2.poolOf sc = some pool' ∧ pool'.runtimes.Perm pool.runtimes := by
  intro h
  have := (h { permissiveEnv with now := 20 } finishedCleanupState
    ((Reachable.init 0).run finishedCleanupTrace) (by decide)).2.2.2.2.1
  revert this
  decide

end Nox.Aquamarine
