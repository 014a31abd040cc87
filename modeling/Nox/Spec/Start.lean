import Nox.Spec.VmConservation

/-!
# Starting executions

The start phase of a tick (`poll_next_host_messages`, then `poll_next_worker_messages`)
offers each actor of a map, in visiting order, a VM from the map's pool, until the pool
is empty. A ready actor (idle, with mail) keeps the VM and starts the head of its
mailbox; any other actor hands the VM straight back, to the head of the free list,
where the next actor is offered it again.

So with `f` free VMs and `r` ready actors, exactly `min f r` actors start, on the first
`min f r` VMs of the free list, and the free list loses exactly those. If `r > f`, the
ready actors after the `f`-th go without, whatever the other workers have. A worker's
bucket is served by its own pool only: what the phase does to one worker is a function
of that worker's bucket and pool.

## Key results

- `start_phase_min_free_ready`: the phase on the host and on every worker with a pool.
-/

namespace Nox.Aquamarine

/-- `a'` is `a` having started the head of its mailbox on some VM. -/
def Actor.Started (a a' : Actor) : Prop :=
  ∃ p rest i, a.current = none ∧ a.mailbox = p :: rest ∧
    a' = { a with mailbox := rest, current := some ⟨p, i, none⟩ }

/-- What the start loop over the map `m` and its pool leaves: `m'` and `pool'`. -/
structure StartSpec (m : Actors) (pool : VmPool) (m' : Actors) (pool' : VmPool) : Prop where
  /-- `min f r` more actors are executing, with `f` free VMs and `r` ready actors. -/
  started : m'.entries.countP (·.2.isExecuting) =
    m.entries.countP (·.2.isExecuting) + min pool.freeVms (m.entries.countP (·.2.isReady))
  /-- The started actors took the first `min f r` free VMs; every other VM is back. -/
  pool : pool' = { pool with
    runtimes := pool.runtimes.drop (min pool.freeVms (m.entries.countP (·.2.isReady))) }
  /-- Every actor is as it was, or has started. -/
  actors : ∀ k a', m'.get? k = some a' → ∃ a, m.get? k = some a ∧ (a' = a ∨ a.Started a')

/-- The loop of `pollNextActors` over a list of entries. -/
def startEntries (pool : VmPool) (l : List (ActorKey × Actor)) : VmPool × List (ActorKey × Actor) :=
  HashMap.mapAccumBreakEntries (fun pool _ a => pollNextActor pool a) pool l

/-- The start loop, entry by entry: a ready actor takes the head of the free list, any
    other actor gives it back, and the loop stops when the list is empty. -/
private theorem startEntries_spec : ∀ (pool : VmPool) (l : List (ActorKey × Actor)),
    (startEntries pool l).2.countP (·.2.isExecuting) =
        l.countP (·.2.isExecuting) + min pool.freeVms (l.countP (·.2.isReady)) ∧
      (startEntries pool l).1 =
        { pool with runtimes := pool.runtimes.drop (min pool.freeVms (l.countP (·.2.isReady))) } ∧
      ∀ e' ∈ (startEntries pool l).2, ∃ e ∈ l, e.1 = e'.1 ∧ (e'.2 = e.2 ∨ e.2.Started e'.2)
  | pool, [] => ⟨by simp [startEntries, HashMap.mapAccumBreakEntries],
      by simp [startEntries, HashMap.mapAccumBreakEntries], fun _ h => by cases h⟩
  | ⟨n, rs, cs⟩, (k, a) :: rest => by
    cases rs with
    | nil =>
      -- no free VM: the loop breaks and nothing more starts
      have hstep : pollNextActor ⟨n, [], cs⟩ a = none := rfl
      simp only [startEntries, HashMap.mapAccumBreakEntries, hstep]
      exact ⟨by simp [VmPool.freeVms], by simp [VmPool.freeVms], fun e' he' => ⟨e', he', rfl, .inl rfl⟩⟩
    | cons i F =>
      have hget : VmPool.getVm ⟨n, i :: F, cs⟩ = some (i, ⟨n, F, cs⟩) := rfl
      cases hready : a.isReady
      · -- an actor that is not ready hands the VM straight back
        have hstep : pollNextActor ⟨n, i :: F, cs⟩ a = some (⟨n, i :: F, cs⟩, a) := by
          simp only [pollNextActor, hget, Actor.pollNext_of_not_ready hready]; rfl
        obtain ⟨ih₁, ih₂, ih₃⟩ := startEntries_spec ⟨n, i :: F, cs⟩ rest
        simp only [startEntries, HashMap.mapAccumBreakEntries, hstep] at ih₁ ih₂ ih₃ ⊢
        simp only [List.countP_cons, hready, Bool.false_eq_true, ite_false, Nat.add_zero]
        refine ⟨by rw [ih₁]; omega, ih₂, ?_⟩
        rintro e' (_ | ⟨_, he'⟩)
        · exact ⟨(k, a), .head _, rfl, .inl rfl⟩
        · obtain ⟨e, he, h₁, h₂⟩ := ih₃ e' he'
          exact ⟨e, .tail _ he, h₁, h₂⟩
      · -- a ready actor starts its head particle on the first free VM
        obtain ⟨hc, p, ms, hm⟩ := Actor.isReady_iff.mp hready
        have hstep : pollNextActor ⟨n, i :: F, cs⟩ a =
            some (⟨n, F, cs⟩, { a with mailbox := ms, current := some ⟨p, i, none⟩ }) := by
          simp only [pollNextActor, hget, Actor.pollNext_of_ready i hc hm]
        obtain ⟨ih₁, ih₂, ih₃⟩ := startEntries_spec ⟨n, F, cs⟩ rest
        simp only [startEntries, HashMap.mapAccumBreakEntries, hstep] at ih₁ ih₂ ih₃ ⊢
        have hmin : min (F.length + 1) (rest.countP (·.2.isReady) + 1) =
            min F.length (rest.countP (·.2.isReady)) + 1 := by omega
        simp only [List.countP_cons, hready, Bool.false_eq_true, ite_true, ite_false,
          VmPool.freeVms, List.length_cons, hmin, List.drop_succ_cons, Actor.isExecuting, hc,
          Option.isSome_some, Option.isSome_none] at ih₁ ih₂ ⊢
        refine ⟨by rw [ih₁]; omega, ih₂, ?_⟩
        rintro e' (_ | ⟨_, he'⟩)
        · exact ⟨(k, a), .head _, rfl, .inr ⟨p, ms, i, hc, hm, rfl⟩⟩
        · obtain ⟨e, he, h₁, h₂⟩ := ih₃ e' he'
          exact ⟨e, .tail _ he, h₁, h₂⟩

/-- `pollNextActors` on any map and pool. -/
theorem pollNextActors_spec (m : Actors) (pool : VmPool) :
    StartSpec m pool (pollNextActors m pool).1 (pollNextActors m pool).2 := by
  obtain ⟨h₁, h₂, h₃⟩ := startEntries_spec pool m.entries
  refine ⟨h₁, h₂, fun k a' hk => ?_⟩
  obtain ⟨e, he, rfl, hrel⟩ := h₃ (k, a') (HashMap.mem_entries_of_get? hk)
  exact ⟨e.2, HashMap.get?_of_mem he, hrel⟩

open Plumber in
theorem start_phase_min_free_ready (t : Plumber) :
    StartSpec t.hostActors t.hostVmPool t.pollNextHostMessages.pollNextWorkerMessages.hostActors
        t.pollNextHostMessages.pollNextWorkerMessages.hostVmPool ∧
      ∀ w b pool, t.workerActors.get? w = some b → t.workerVmPools.get? w = some pool →
        t.pollNextHostMessages.pollNextWorkerMessages.workerActors.get? w =
            some (pollNextActors b pool).1 ∧
          t.pollNextHostMessages.pollNextWorkerMessages.workerVmPools.get? w =
            some (pollNextActors b pool).2 ∧
          StartSpec b pool (pollNextActors b pool).1 (pollNextActors b pool).2 := by
  refine ⟨pollNextActors_spec _ _, fun w b pool hb hp => ?_⟩
  have key := HashMap.get?_mapAccumWith (fun _ _ actors pool => ((), pollNextActors actors pool))
    (fun _ _ _ _ _ => rfl) () t.workerActors t.workerVmPools w
  simp only [hb, hp, Prod.mk.injEq] at key
  exact ⟨key.1, key.2, pollNextActors_spec b pool⟩


/-- `busyTrace` up to its tick, with the pools polled: at the host and at worker `7` one
    actor with mail and free VMs, as the start phase of the tick finds them. -/
def readyState : Plumber := ((Plumber.new (VmPool.new 2)).run (busyTrace.take 6)).pollPools

open Plumber in
theorem start_phase_min_free_ready_busy :
    ((readyState.workerVmPools.get? ⟨7⟩).map (·.freeVms) = some 1 ∧
      (readyState.workerActors.get? ⟨7⟩).map (·.entries.countP (·.2.isReady)) = some 1) ∧
    StartSpec readyState.hostActors readyState.hostVmPool
      readyState.pollNextHostMessages.pollNextWorkerMessages.hostActors
      readyState.pollNextHostMessages.pollNextWorkerMessages.hostVmPool ∧
    ∃ b pool, readyState.workerActors.get? ⟨7⟩ = some b ∧ readyState.workerVmPools.get? ⟨7⟩ = some pool ∧
      StartSpec b pool (pollNextActors b pool).1 (pollNextActors b pool).2 := by
  obtain ⟨b, hb⟩ : ∃ b, readyState.workerActors.get? ⟨7⟩ = some b := ⟨_, rfl⟩
  obtain ⟨pool, hp⟩ : ∃ pool, readyState.workerVmPools.get? ⟨7⟩ = some pool := ⟨_, rfl⟩
  have h := start_phase_min_free_ready readyState
  exact ⟨by decide, h.1, b, pool, hb, hp, (h.2 _ b pool hb hp).2.2⟩

end Nox.Aquamarine
