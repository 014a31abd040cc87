import Nox.Aquamarine.Step

/-!
# Cleanup of expired actors

An actor leaves the plumber only in `cleanup`, and only when at that tick's clock it is
expired and not executing. A cleanup pass visits the host actors and then every worker
bucket, and removes the first `MAX_CLEANUP_KEYS_SIZE` eligible actors in that order.
Their `cleanup_key`s, in the same order, are the batch handed to `batch_cleanup_data`,
and no pass runs while an earlier batch is outstanding. A bucket is dropped only when
the pass removed all of its actors and its worker has no pool.

`KeepsActors s s'` says that no actor, no bucket and no batch goes between `s` and `s'`:
it holds across every step of a run except the `cleanup` inside a tick. `PassSpec`
says what one pass does.

## Key results

- `cleanupActors_spec`, `retainBuckets_spec`: the two retain loops of a pass.
- `cleanupPass_spec`: a pass removes exactly `cleanupVictims`, and they are its batch.
- `cleanup_removes_only_eligible`: every step of a run keeps all actors, or is a tick
  whose only removals are its cleanup; and `cleanup` either waits for the outstanding
  batch or makes one pass.
-/

namespace Nox.Aquamarine

/-- The spec's cleanup eligibility: an actor is eligible at `now` when its deadline has
    passed and it is not executing. `keep_eq_not_cleanupEligible` ties it to the filter
    of `cleanup_actors`. -/
def Actor.cleanupEligible (now : UInt64) (a : Actor) : Bool := a.isExpired now && !a.isExecuting

/-- `cleanup_actors` keeps exactly the actors that are not eligible. -/
theorem Actor.keep_eq_not_cleanupEligible (now : UInt64) (a : Actor) :
    (!a.isExpired now || a.isExecuting) = !a.cleanupEligible now := by
  unfold cleanupEligible; cases a.isExpired now <;> cases a.isExecuting <;> rfl

/-- An actor of the plumber with its scope and its key. -/
abbrev ActorEntry := PeerScope × ActorKey × Actor

/-- The actors of one worker bucket, tagged with the worker's scope. -/
def bucketEntries (b : WorkerId × Actors) : List ActorEntry :=
  b.2.entries.map fun e => (.workerId b.1, e)

theorem scope_of_mem_flatMap_bucketEntries {L : List (WorkerId × Actors)} {x : ActorEntry}
    (h : x ∈ L.flatMap bucketEntries) : ∃ w ∈ L.map Prod.fst, x.1 = .workerId w := by
  simp only [List.mem_flatMap, bucketEntries, List.mem_map] at h
  obtain ⟨b, hb, e, -, rfl⟩ := h
  exact ⟨b.1, List.mem_map_of_mem _ hb, rfl⟩

/-- The first `n` items of `l₁ ++ l₂` that pass `p` are taken from `l₁` first. -/
private theorem take_filter_append {α : Type} (p : α → Bool) (n : Nat) (l₁ l₂ : List α) :
    ((l₁ ++ l₂).filter p).take n =
      (l₁.filter p).take n ++ (l₂.filter p).take (n - ((l₁.filter p).take n).length) := by
  rw [List.filter_append, List.take_append_eq_append_take, List.length_take]
  congr 2
  omega

private theorem perm_append_append_swap {α : Type} (a b c d : List α) :
    ((a ++ c) ++ (b ++ d)).Perm ((a ++ b) ++ (c ++ d)) := by
  simpa only [List.append_assoc] using (List.perm_append_comm_assoc c b d).append_left a

namespace Plumber

/-- Every actor, in the order a cleanup pass visits them: the host actors, then each
    worker bucket. -/
def actorList (s : Plumber) : List ActorEntry :=
  s.hostActors.entries.map (fun e => (.host, e)) ++ s.workerActors.entries.flatMap bucketEntries

/-- The actors of `s` that are eligible for cleanup at `now`, in visiting order. -/
def eligibleActors (s : Plumber) (now : UInt64) : List ActorEntry :=
  s.actorList.filter (·.2.2.cleanupEligible now)

/-- The actors a pass over `s` at `now` removes: the first `MAX_CLEANUP_KEYS_SIZE`
    eligible ones. -/
def cleanupVictims (s : Plumber) (now : UInt64) : List ActorEntry :=
  (s.eligibleActors now).take maxCleanupKeysSize

/-- The entries of `actorList` are the actors of each scope. -/
theorem mem_actorList_iff {s : Plumber} {sc : PeerScope} {k : ActorKey} {a : Actor} :
    (sc, k, a) ∈ s.actorList ↔ (s.actorsOf sc).get? k = some a := by
  cases sc with
  | host => simp [actorList, bucketEntries, HashMap.get?_eq_some_iff]
  | workerId w =>
    simp only [actorList, bucketEntries, actorsOf, List.mem_append, List.mem_map,
      List.mem_flatMap, Prod.mk.injEq, reduceCtorEq, false_and, and_false, exists_false,
      false_or, PeerScope.workerId.injEq, Prod.exists, ← HashMap.get?_eq_some_iff]
    constructor
    · rintro ⟨_, b, hb, _, _, hk, rfl, rfl, rfl⟩; simp [hb, hk]
    · intro h
      cases hb : s.workerActors.get? w with
      | none => simp [hb] at h
      | some b => exact ⟨w, b, hb, k, a, by simpa [hb] using h, rfl, rfl, rfl⟩

/-- What one cleanup pass over `t` at `now` leaves in `t'`. -/
structure PassSpec (now : UInt64) (t t' : Plumber) : Prop where
  /-- The actors left are those there were, in the same order, less the victims. -/
  sublist : t'.actorList.Sublist t.actorList
  perm : t.actorList.Perm (t'.actorList ++ t.cleanupVictims now)
  /-- `min(|E|, MAX_CLEANUP_KEYS_SIZE)` actors go, `E` the eligible ones. -/
  count : t.actorList.length =
    t'.actorList.length + min (t.eligibleActors now).length maxCleanupKeysSize
  /-- The victims' keys, in order, are the new batch, if there are victims. -/
  batch : t'.cleanupFuture =
    if t.cleanupVictims now = [] then t.cleanupFuture
    else some ⟨(t.cleanupVictims now).map (·.2.2.cleanupKey), false⟩
  batch_size : ∀ f, t.cleanupFuture = none → t'.cleanupFuture = some f →
    1 ≤ f.keys.length ∧ f.keys.length ≤ maxCleanupKeysSize
  /-- No bucket is added; one is dropped only when the pass removed all its actors and
      its worker has no pool. -/
  buckets : ∀ w, t'.workerActors.containsKey w → t.workerActors.containsKey w
  dropped : ∀ w, t.workerActors.containsKey w → t'.workerActors.containsKey w = false →
    t.workerVmPools.get? w = none ∧
      ∀ x ∈ t.actorList, x.1 = .workerId w → x ∈ t.cleanupVictims now
  /-- Only the actor maps and the cleanup future change. -/
  frame : t'.events = t.events ∧ t'.hostVmPool = t.hostVmPool ∧ t'.workerVmPools = t.workerVmPools

end Plumber

/-! ### The two retain loops -/

/-- `cleanup_actors` removes the first eligible actors until the batch has
    `MAX_CLEANUP_KEYS_SIZE` keys, and pushes their keys in order. -/
theorem cleanupActors_spec (now : UInt64) (keys : List CleanupKey) (m : Actors) :
    (cleanupActors now keys m).1 = keys ++
        ((m.entries.filter (·.2.cleanupEligible now)).take
          (maxCleanupKeysSize - keys.length)).map (·.2.cleanupKey) ∧
      (cleanupActors now keys m).2.entries.Sublist m.entries ∧
      m.entries.Perm ((cleanupActors now keys m).2.entries ++
        (m.entries.filter (·.2.cleanupEligible now)).take (maxCleanupKeysSize - keys.length)) := by
  simp only [cleanupActors, HashMap.retainAccum]
  generalize m.entries = l
  induction l generalizing keys with
  | nil => simp [HashMap.retainAccumEntries]
  | cons e rest ih =>
    obtain ⟨k, a⟩ := e
    simp only [HashMap.retainAccumEntries, cleanupActor, Actor.keep_eq_not_cleanupEligible]
    -- with the batch full every actor stays; otherwise an eligible one is a victim
    by_cases hfull : maxCleanupKeysSize ≤ keys.length
    · obtain ⟨h1, h2, h3⟩ := ih keys
      have h0 : maxCleanupKeysSize - keys.length = 0 := by omega
      simp only [hfull, ite_true, h0, List.take_zero, List.map_nil, List.append_nil] at h1 h3 ⊢
      exact ⟨h1, h2.cons₂ _, h3.cons _⟩
    · cases he : a.cleanupEligible now
      · obtain ⟨h1, h2, h3⟩ := ih keys
        simp only [hfull, he, ite_false, Bool.not_false, ite_true, List.filter_cons]
        exact ⟨h1, h2.cons₂ _, h3.cons _⟩
      · obtain ⟨h1, h2, h3⟩ := ih (keys ++ [a.cleanupKey])
        have hn : maxCleanupKeysSize - keys.length =
            (maxCleanupKeysSize - (keys ++ [a.cleanupKey]).length) + 1 := by
          simp only [List.length_append, List.length_singleton]; omega
        simp only [hfull, he, ite_false, Bool.not_true, List.filter_cons, ite_true, hn,
          List.take_succ_cons]
        refine ⟨by simp [h1], h2.cons _, (h3.cons _).trans List.perm_middle.symm⟩

/-- The bucket entries of what `retain` left: a dropped bucket was empty. -/
private theorem flatMap_bucketEntries_retained (pools : HashMap WorkerId VmPool) (now : UInt64)
    (keys : List CleanupKey) (w : WorkerId) (m : Actors) (rest : List (WorkerId × Actors)) :
    (if (cleanupBucket pools now keys w m).2.2 then (w, (cleanupBucket pools now keys w m).2.1) :: rest
      else rest).flatMap bucketEntries =
      (cleanupActors now keys m).2.entries.map (fun e => (.workerId w, e)) ++
        rest.flatMap bucketEntries := by
  simp only [cleanupBucket]
  split
  · rfl
  · rename_i hkeep
    simp only [HashMap.isEmpty, Bool.or_eq_true, Bool.not_eq_true', not_or, Bool.not_eq_false,
      List.isEmpty_iff] at hkeep
    simp [hkeep.1]

/-- The retain loop of `cleanup_worker_actors`, with the key vector threaded from bucket
    to bucket: the eligible actors of all buckets are removed, in order, until the batch
    is full, and a bucket is dropped only when all its actors went and it has no pool. -/
theorem retainBuckets_spec (now : UInt64) (pools : HashMap WorkerId VmPool) :
    ∀ (keys : List CleanupKey) (L : List (WorkerId × Actors)), (L.map Prod.fst).Nodup →
      (HashMap.retainAccumEntries (cleanupBucket pools now) keys L).1 = keys ++
          (((L.flatMap bucketEntries).filter (·.2.2.cleanupEligible now)).take
            (maxCleanupKeysSize - keys.length)).map (·.2.2.cleanupKey) ∧
      ((HashMap.retainAccumEntries (cleanupBucket pools now) keys L).2.flatMap bucketEntries).Sublist
        (L.flatMap bucketEntries) ∧
      (L.flatMap bucketEntries).Perm
        ((HashMap.retainAccumEntries (cleanupBucket pools now) keys L).2.flatMap bucketEntries ++
          ((L.flatMap bucketEntries).filter (·.2.2.cleanupEligible now)).take
            (maxCleanupKeysSize - keys.length)) ∧
      ∀ w ∈ L.map Prod.fst,
        w ∉ (HashMap.retainAccumEntries (cleanupBucket pools now) keys L).2.map Prod.fst →
        pools.containsKey w = false ∧ ∀ x ∈ L.flatMap bucketEntries, x.1 = .workerId w →
          x ∈ ((L.flatMap bucketEntries).filter (·.2.2.cleanupEligible now)).take
            (maxCleanupKeysSize - keys.length) := by
  intro keys L hL
  induction L generalizing keys with
  | nil => simp [HashMap.retainAccumEntries]
  | cons b rest ih =>
    obtain ⟨w, m⟩ := b
    simp only [List.map_cons, List.nodup_cons] at hL
    -- the pass over this bucket, then the rest with the keys it leaves
    obtain ⟨c1, c2, c3⟩ := cleanupActors_spec now keys m
    obtain ⟨t1, t2, t3, t4⟩ := ih (cleanupActors now keys m).1 hL.2
    -- the batch's victims: this bucket's, then the rest's in the room left
    have hrem : ((bucketEntries (w, m) ++ rest.flatMap bucketEntries).filter
        (·.2.2.cleanupEligible now)).take (maxCleanupKeysSize - keys.length) =
        ((m.entries.filter (·.2.cleanupEligible now)).take
          (maxCleanupKeysSize - keys.length)).map (fun e => (.workerId w, e)) ++
        ((rest.flatMap bucketEntries).filter (·.2.2.cleanupEligible now)).take
          (maxCleanupKeysSize - (cleanupActors now keys m).1.length) := by
      rw [take_filter_append, c1]
      simp only [bucketEntries, List.filter_map, Function.comp_def, List.length_take,
        List.length_map, List.map_take, List.length_append, List.append_cancel_left_eq,
        List.take_eq_take]
      omega
    have hb1 : (cleanupBucket pools now keys w m).1 = (cleanupActors now keys m).1 := rfl
    simp only [HashMap.retainAccumEntries, List.flatMap_cons, List.map_cons, hrem, hb1]
    rw [flatMap_bucketEntries_retained]
    -- name the two victim lists and the result over the rest
    generalize (List.filter (fun x => Actor.cleanupEligible now x.2) m.entries).take
      (maxCleanupKeysSize - keys.length) = rb at c1 c3 ⊢
    generalize ((rest.flatMap bucketEntries).filter (fun x => Actor.cleanupEligible now x.2.2)).take
      (maxCleanupKeysSize - (cleanupActors now keys m).1.length) = rt at t1 t3 t4 ⊢
    generalize HashMap.retainAccumEntries (cleanupBucket pools now) (cleanupActors now keys m).1 rest
      = t at t1 t2 t3 t4 ⊢
    have hc3 : (bucketEntries (w, m)).Perm
        ((cleanupActors now keys m).2.entries.map (fun e => (PeerScope.workerId w, e)) ++
          rb.map (fun e => (PeerScope.workerId w, e))) := by
      simpa [bucketEntries] using c3.map (fun e => (PeerScope.workerId w, e))
    refine ⟨by simp [t1, c1, List.map_map, Function.comp_def], (c2.map _).append t2,
      (hc3.append t3).trans (perm_append_append_swap _ _ _ _), fun w' hw' hnot => ?_⟩
    have hnot' : w' ∉ t.2.map Prod.fst := fun h => hnot (by split <;> simp [h])
    -- a dropped bucket is this one, every actor of which was a victim, or one of the rest
    rcases List.mem_cons.mp hw' with rfl | hw'
    · have hdrop : (cleanupBucket pools now keys w' m).2.2 = false := by
        by_contra hk; simp [hk] at hnot
      simp only [cleanupBucket, Bool.or_eq_false_iff, Bool.not_eq_false', HashMap.isEmpty,
        List.isEmpty_iff] at hdrop
      refine ⟨hdrop.2, fun x hx hx1 => ?_⟩
      rcases List.mem_append.mp hx with hx | hx
      · simp only [bucketEntries, List.mem_map] at hx
        obtain ⟨e, he, rfl⟩ := hx
        have : e ∈ rb := by simpa [hdrop.1] using c3.subset he
        exact List.mem_append_left _ (List.mem_map_of_mem _ this)
      · obtain ⟨w'', hw'', hx''⟩ := scope_of_mem_flatMap_bucketEntries hx
        rw [hx1, PeerScope.workerId.injEq] at hx''
        exact absurd (hx'' ▸ hw'') hL.1
    · obtain ⟨hp, hx⟩ := t4 w' hw' hnot'
      refine ⟨hp, fun x hx' hx1 => ?_⟩
      rcases List.mem_append.mp hx' with hx' | hx'
      · simp only [bucketEntries, List.mem_map] at hx'
        obtain ⟨e, -, rfl⟩ := hx'
        cases hx1; exact absurd hw' hL.1
      · exact List.mem_append_right _ (hx x hx' hx1)

/-- `cleanup_worker_actors`: the early return on a full batch agrees with the loop,
    which then removes nothing. -/
theorem cleanupWorkerActors_spec (t : Plumber) (keys : List CleanupKey) (now : UInt64) :
    (t.cleanupWorkerActors keys now).2 = keys ++
        (((t.workerActors.entries.flatMap bucketEntries).filter (·.2.2.cleanupEligible now)).take
          (maxCleanupKeysSize - keys.length)).map (·.2.2.cleanupKey) ∧
      ((t.cleanupWorkerActors keys now).1.workerActors.entries.flatMap bucketEntries).Sublist
        (t.workerActors.entries.flatMap bucketEntries) ∧
      (t.workerActors.entries.flatMap bucketEntries).Perm
        ((t.cleanupWorkerActors keys now).1.workerActors.entries.flatMap bucketEntries ++
          ((t.workerActors.entries.flatMap bucketEntries).filter (·.2.2.cleanupEligible now)).take
            (maxCleanupKeysSize - keys.length)) ∧
      (∀ w, (t.cleanupWorkerActors keys now).1.workerActors.containsKey w →
        t.workerActors.containsKey w) ∧
      (∀ w, t.workerActors.containsKey w →
        (t.cleanupWorkerActors keys now).1.workerActors.containsKey w = false →
        t.workerVmPools.containsKey w = false ∧
          ∀ x ∈ t.workerActors.entries.flatMap bucketEntries, x.1 = .workerId w →
            x ∈ ((t.workerActors.entries.flatMap bucketEntries).filter
              (·.2.2.cleanupEligible now)).take (maxCleanupKeysSize - keys.length)) ∧
      (t.cleanupWorkerActors keys now).1 =
        { t with workerActors := (t.cleanupWorkerActors keys now).1.workerActors } := by
  unfold Plumber.cleanupWorkerActors
  split
  · -- the batch is full: the early return removes nothing
    have h0 : maxCleanupKeysSize - keys.length = 0 := by omega
    simp only [h0, List.take_zero, List.map_nil, List.append_nil]
    exact ⟨trivial, List.Sublist.refl _, List.Perm.refl _, fun _ h => h,
      fun _ h h' => absurd h (by simp [h']), trivial⟩
  · -- otherwise the loop over the buckets
    obtain ⟨r1, r2, r3, r4⟩ := retainBuckets_spec now t.workerVmPools keys _ t.workerActors.nodupKeys
    have hkeys : ∀ w, w ∈ (HashMap.retainAccumEntries (cleanupBucket t.workerVmPools now) keys
        t.workerActors.entries).2.map Prod.fst → w ∈ t.workerActors.entries.map Prod.fst :=
      fun _ h => (HashMap.map_fst_retainAccumEntries_sublist _ _ _).subset h
    refine ⟨r1, r2, r3, fun w h => ?_, fun w h h' => ?_, rfl⟩
    · rw [← HashMap.mem_keys_iff] at h ⊢; exact hkeys w h
    · rw [← HashMap.mem_keys_iff] at h
      have : w ∉ (HashMap.retainAccumEntries (cleanupBucket t.workerVmPools now) keys
          t.workerActors.entries).2.map Prod.fst := by
        intro hw; rw [← Bool.not_eq_true, ← HashMap.mem_keys_iff] at h'; exact h' hw
      exact r4 w h this

namespace Plumber

/-- The victims of a pass are the host victims, then the workers' victims up to the cap
    the host pass left. -/
theorem cleanupVictims_eq (t : Plumber) (now : UInt64) :
    t.cleanupVictims now =
      ((t.hostActors.entries.filter (·.2.cleanupEligible now)).take maxCleanupKeysSize).map
          (fun e => (PeerScope.host, e)) ++
        ((t.workerActors.entries.flatMap bucketEntries).filter (·.2.2.cleanupEligible now)).take
          (maxCleanupKeysSize -
            ((t.hostActors.entries.filter (·.2.cleanupEligible now)).take maxCleanupKeysSize).length) := by
  rw [cleanupVictims, eligibleActors, actorList, take_filter_append, List.filter_map,
    ← List.map_take, List.length_map]
  rfl

/-- One pass removes exactly the victims, and their keys are its batch. -/
theorem cleanupPass_spec (env : Env) (t : Plumber) : PassSpec env.now t (t.cleanupPass env) := by
  obtain ⟨h1, h2, h3⟩ := cleanupActors_spec env.now [] t.hostActors
  obtain ⟨w1, w2, w3, w4, w5, w6⟩ := cleanupWorkerActors_spec (t.cleanupHostActors [] env.now).1
    (t.cleanupHostActors [] env.now).2 env.now
  -- the host pass, then the workers' pass with the keys it left
  rw [cleanupPass_eq]
  dsimp only
  generalize (t.cleanupHostActors [] env.now).1.cleanupWorkerActors (t.cleanupHostActors [] env.now).2
    env.now = W at w1 w2 w3 w4 w5 w6 ⊢
  have hk : (t.cleanupHostActors [] env.now).2 = (cleanupActors env.now [] t.hostActors).1 := rfl
  simp only [cleanupHostActors_workerActors, cleanupHostActors_workerVmPools, hk, h1,
    List.nil_append, List.length_map, List.length_nil, Nat.sub_zero] at w1 w2 w3 w4 w5 w6 h3
  have hv := cleanupVictims_eq t env.now
  have hW2 : W.2 = (t.cleanupVictims env.now).map (·.2.2.cleanupKey) := by
    rw [w1, hv]; simp [List.map_map, Function.comp_def]
  have hha : W.1.hostActors = (cleanupActors env.now [] t.hostActors).2 := by rw [w6]; rfl
  have hcf : W.1.cleanupFuture = t.cleanupFuture := by rw [w6]; rfl
  -- the host victims, then the worker victims: together `cleanupVictims`
  generalize (t.hostActors.entries.filter (·.2.cleanupEligible env.now)).take maxCleanupKeysSize
    = rh at hv h3 w3 w5
  generalize ((t.workerActors.entries.flatMap bucketEntries).filter
    (·.2.2.cleanupEligible env.now)).take (maxCleanupKeysSize - rh.length) = rw at hv w3 w5
  have hh3 : (t.hostActors.entries.map (fun e => (PeerScope.host, e))).Perm
      ((cleanupActors env.now [] t.hostActors).2.entries.map (fun e => (PeerScope.host, e)) ++
        rh.map (fun e => (PeerScope.host, e))) := by
    simpa using h3.map (fun e => (PeerScope.host, e))
  have hperm : t.actorList.Perm ((cleanupActors env.now [] t.hostActors).2.entries.map
      (fun e => (PeerScope.host, e)) ++ W.1.workerActors.entries.flatMap bucketEntries ++
        t.cleanupVictims env.now) := by
    rw [hv]; exact (hh3.append w3).trans (perm_append_append_swap _ _ _ _)
  -- a batch is recorded exactly when there are victims
  have hbatch : (if W.2.isEmpty = true then W.1.cleanupFuture else some ⟨W.2, false⟩) =
      if t.cleanupVictims env.now = [] then t.cleanupFuture
      else some ⟨(t.cleanupVictims env.now).map (·.2.2.cleanupKey), false⟩ := by
    simp [hW2, hcf, List.isEmpty_iff]
  generalize (if W.2.isEmpty = true then W.1.cleanupFuture else some ⟨W.2, false⟩) = cf at hbatch ⊢
  have hact : ({ W.1 with cleanupFuture := cf } : Plumber).actorList =
      (cleanupActors env.now [] t.hostActors).2.entries.map (fun e => (PeerScope.host, e)) ++
        W.1.workerActors.entries.flatMap bucketEntries := by
    simp only [actorList, hha]
  refine ⟨?_, ?_, ?_, ?_, ?_, w4, fun w hw hdrop => ?_, ?_⟩
  · rw [hact]; exact (h2.map _).append w2
  · rw [hact]; exact hperm
  · rw [hact, hperm.length_eq, List.length_append, cleanupVictims, List.length_take, Nat.min_comm]
  · exact hbatch
  · intro f hnone hsome
    dsimp only at hsome; rw [hbatch] at hsome
    split at hsome
    · rw [hnone] at hsome; cases hsome
    · rename_i hne
      cases hsome
      simp only [List.length_map]
      exact ⟨List.length_pos.mpr hne, List.length_take_le _ _⟩
  · obtain ⟨hp, hx⟩ := w5 w hw hdrop
    refine ⟨by simpa [HashMap.containsKey] using hp, fun x hmem hx1 => ?_⟩
    rcases List.mem_append.mp hmem with hmem | hmem
    · obtain ⟨e, -, rfl⟩ := List.mem_map.mp hmem; cases hx1
    · rw [hv]; exact List.mem_append_right _ (hx x hmem hx1)
  · have hev : W.1.events = t.events := by rw [w6]; rfl
    have hhp : W.1.hostVmPool = t.hostVmPool := by rw [w6]; rfl
    exact ⟨hev, hhp, by rw [w6]⟩

/-- `cleanup` changes nothing while the outstanding batch is pending; otherwise it drops
    the finished batch, if any, and makes one pass. -/
theorem cleanup_cases (env : Env) (s : Plumber) :
    (∃ f, s.cleanupFuture = some f ∧ f.ready = false ∧ s.cleanup env = s) ∨
      (s.cleanupFuture.all (·.ready) = true ∧
        PassSpec env.now { s with cleanupFuture := none } (s.cleanup env)) := by
  rcases s with ⟨_, _, _, _, _, _ | ⟨_, _ | _⟩⟩
  · exact .inr ⟨rfl, cleanupPass_spec env _⟩
  · exact .inl ⟨_, rfl, rfl, rfl⟩
  · exact .inr ⟨rfl, cleanupPass_spec env _⟩

/-! ### Every other phase keeps the actors -/

/-- No actor, no bucket and no batch goes between `s` and `s'`. -/
structure KeepsActors (s s' : Plumber) : Prop where
  actors : ∀ sc k, (s.actorsOf sc).containsKey k → (s'.actorsOf sc).containsKey k
  buckets : ∀ w, s.workerActors.containsKey w → s'.workerActors.containsKey w
  batch : s'.cleanupFuture.map (·.keys) = s.cleanupFuture.map (·.keys)

theorem KeepsActors.refl (s : Plumber) : KeepsActors s s := ⟨fun _ _ h => h, fun _ h => h, rfl⟩

theorem KeepsActors.trans {s₁ s₂ s₃ : Plumber} (h₁ : KeepsActors s₁ s₂) (h₂ : KeepsActors s₂ s₃) :
    KeepsActors s₁ s₃ :=
  ⟨fun sc k h => h₂.actors sc k (h₁.actors sc k h), fun w h => h₂.buckets w (h₁.buckets w h),
    h₂.batch.trans h₁.batch⟩

theorem KeepsActors.of_eq {s s' : Plumber} (hh : s'.hostActors = s.hostActors)
    (hw : s'.workerActors = s.workerActors) (hc : s'.cleanupFuture = s.cleanupFuture) :
    KeepsActors s s' := by
  refine ⟨fun sc k h => ?_, fun w h => hw ▸ h, by rw [hc]⟩
  cases sc <;> simpa [actorsOf, hh, hw] using h

theorem keepsActors_modifyActor (s : Plumber) (sc : PeerScope) (key : ActorKey)
    (f : Actor → Actor) : KeepsActors s (s.modifyActor sc key f) := by
  refine ⟨fun sc' k h => ?_, fun w h => ?_, by cases sc <;> rfl⟩
  · rw [actorsOf_modifyActor]; split <;> (try subst_vars) <;> simpa using h
  · cases sc <;> simpa [modifyActor] using h

theorem keepsActors_getOrCreateActor (env : Env) (s : Plumber) (sc : PeerScope) (key : ActorKey)
    (p : Particle) : KeepsActors s (s.getOrCreateActor env sc key p).1 := by
  obtain ⟨_, _, hframe⟩ := getOrCreateActor_frame env s sc key p
  refine ⟨fun sc' k => HashMap.containsKey_of_get? fun _ => getOrCreateActor_get? env s sc key p,
    fun w' hw => ?_, by rw [hframe]⟩
  cases sc with
  | host => simp only [getOrCreateActor]; split <;> exact hw
  | workerId w =>
    have hor : (s.workerActors.orInsert w .empty).containsKey w' := by
      rw [HashMap.containsKey_orInsert]; split <;> simp_all
    simp only [getOrCreateActor]
    split
    · exact hor
    · split
      · exact hor
      · split
        · rw [HashMap.containsKey_insert]; split <;> simp_all
        · exact hor

theorem keepsActors_ingest (env : Env) (s : Plumber) (p : Particle) (f : Option ServiceFunction)
    (sc : PeerScope) : KeepsActors s (s.ingest env p f sc) := by
  have hcreate := keepsActors_getOrCreateActor env s sc ⟨p.signature⟩ p
  rcases ingest_cases env s p f sc with ⟨e, h⟩ | h | h | ⟨g, -, h⟩ <;> rw [h]
  · exact .of_eq rfl rfl rfl
  · exact .refl s
  · exact hcreate
  · exact hcreate.trans (keepsActors_modifyActor _ _ _ _)

/-- A pass over the buckets that visits each with its pool and keeps its keys keeps
    every actor. -/
private theorem keepsActors_mapAccumWith {R : Type}
    (g : R → WorkerId → Actors → VmPool → R × Actors × VmPool)
    (hg : ∀ r r' w b p, (g r w b p).2 = (g r' w b p).2)
    (hk : ∀ r w b p, (g r w b p).2.1.keys = b.keys) (r : R) (s : Plumber) :
    KeepsActors s { s with
      workerActors := (s.workerActors.mapAccumWith g r s.workerVmPools).2.1,
      workerVmPools := (s.workerActors.mapAccumWith g r s.workerVmPools).2.2 } := by
  refine ⟨fun sc k h => ?_, fun w h => ?_, rfl⟩
  · cases sc with
    | host => exact h
    | workerId w =>
      have key := HashMap.get?_mapAccumWith g hg r s.workerActors s.workerVmPools w
      simp only [actorsOf] at h ⊢
      cases hb : s.workerActors.get? w <;> cases hp : s.workerVmPools.get? w <;>
        simp only [hb, hp, Prod.mk.injEq] at key h <;> rw [key.1] <;> try exact h
      rw [Option.getD_some, HashMap.containsKey_of_keys_eq (hk _ _ _ _)]; exact h
  · rwa [HashMap.containsKey_of_keys_eq (HashMap.keys_mapAccumWith _ _ _ _)]

theorem keepsActors_collect (env : Env) (s : Plumber) : KeepsActors s (s.collect env).1 := by
  have h₁ : KeepsActors s (s.pollHostActors env ⟨[], []⟩).1 := by
    refine ⟨fun sc k h => ?_, fun _ h => h, rfl⟩
    cases sc
    · rwa [actorsOf_host, pollHostActors, HashMap.containsKey_of_keys_eq (keys_pollActors _ _ _ _)]
    · exact h
  exact h₁.trans (keepsActors_mapAccumWith _ (fun r r' _ b p => pollActors_snd_eq env r r' b p)
    (fun _ _ _ _ => keys_pollActors _ _ _ _) _ _)

theorem keepsActors_startAndRoute (env : Env) (s : Plumber) (routing : Routing) :
    KeepsActors s (s.startAndRoute env routing) := by
  have h₁ : KeepsActors s s.pollNextHostMessages := by
    refine ⟨fun sc k h => ?_, fun _ h => h, rfl⟩
    cases sc
    · rwa [actorsOf_host, pollNextHostMessages,
        HashMap.containsKey_of_keys_eq (keys_pollNextActors _ _)]
    · exact h
  have h₂ := h₁.trans (keepsActors_mapAccumWith (fun _ _ actors pool => ((), pollNextActors actors pool))
    (fun _ _ _ _ _ => rfl) (fun _ _ _ _ => keys_pollNextActors _ _) () s.pollNextHostMessages)
  have h₃ := reingest_induction env (KeepsActors s) (fun _ p sc h => h.trans (keepsActors_ingest env _ p none sc))
    routing.localEffects _ h₂
  exact h₃.trans (.of_eq rfl rfl rfl)

/-- Every step of a run keeps every actor, except a tick, which can lose actors only in
    its `cleanup`. -/
theorem step_keepsActors_or_cleanup (env : Env) (s : Plumber) (a : Action) :
    KeepsActors s (s.step env a) ∨
      (a = .poll ∧ s.pollPools.events = [] ∧ KeepsActors s (s.pollPools.collect env).1 ∧
        KeepsActors ((s.pollPools.collect env).1.cleanup env) (s.step env a)) := by
  cases a with
  | ingest p f sc => exact .inl (keepsActors_ingest env s p f sc)
  | poll =>
    have h₀ : KeepsActors s s.pollPools := .of_eq rfl rfl rfl
    simp only [step, poll_eq]
    cases he : s.pollPools.events with
    -- a queued event: the tick returns before cleanup
    | cons e rest => exact .inl (h₀.trans (.of_eq rfl rfl rfl))
    | nil =>
      exact .inr ⟨trivial, rfl, h₀.trans (keepsActors_collect env _), keepsActors_startAndRoute env _ _⟩
  | createWorkerPool w n => exact .inl (.of_eq rfl rfl rfl)
  | removeWorkerPool w => exact .inl (.of_eq rfl rfl rfl)
  | vmCreated sc i => cases sc <;> exact .inl (.of_eq rfl rfl rfl)
  | avmCompleted sc key out => exact .inl (keepsActors_modifyActor s sc key _)
  | cleanupCompleted =>
    refine .inl ⟨fun sc _ h => by cases sc <;> exact h, fun _ h => h, ?_⟩
    simp only [step]; cases s.cleanupFuture <;> rfl

end Plumber

end Nox.Aquamarine
