import Mathlib.Data.List.Perm.Basic
import Mathlib.Data.List.Range

/-!
# The VM pool

Modelled from the spec (§3, §4.3): `crate::vm_pool` is not among the sources.
A pool holds `poolSize` interpreters, each tagged with a stable `vm_id`, and the model
keeps the ids. `runtimes` is the free list (`get_vm` pops its head, `put_vm` pushes
onto it); `creatingRuntimes` holds the ids whose interpreter is being (re)built, each
with whether its creation future has finished. `poll` moves the finished ones to the
free list. A creation that fails stays pending, the spec's "retries on next poll",
so a pool never loses an id.
-/

namespace Nox.Aquamarine

/-- The `vm_id` of an interpreter instance. -/
abbrev VmId := Nat

/-- Modelled from the spec: `VmPool`, by the ids of its interpreters. -/
structure VmPool where
  poolSize : Nat
  runtimes : List VmId
  creatingRuntimes : List (VmId × Bool)
deriving DecidableEq, Repr

namespace VmPool

/-- Modelled from the spec: `VmPool::new(pool_size, …)`. The interpreters are built
    lazily, so every id starts out pending. -/
def new (poolSize : Nat) : VmPool :=
  ⟨poolSize, [], (List.range poolSize).map (·, false)⟩

/-- Modelled from the spec: `get_vm` pops the free list. -/
def getVm (pool : VmPool) : Option (VmId × VmPool) :=
  match pool.runtimes with
  | [] => none
  | vmId :: rest => some (vmId, { pool with runtimes := rest })

/-- Modelled from the spec: `put_vm` pushes onto the free list. -/
def putVm (pool : VmPool) (vmId : VmId) : VmPool :=
  { pool with runtimes := vmId :: pool.runtimes }

/-- Modelled from the spec: `recreate_avm` moves an id to pending creation. -/
def recreateAvm (pool : VmPool) (vmId : VmId) : VmPool :=
  { pool with creatingRuntimes := pool.creatingRuntimes ++ [(vmId, false)] }

/-- Modelled from the spec: `poll` moves the finished creations to the free list. -/
def poll (pool : VmPool) : VmPool :=
  { pool with
    runtimes := (pool.creatingRuntimes.filter (·.2)).map (·.1) ++ pool.runtimes
    creatingRuntimes := pool.creatingRuntimes.filter (fun c => !c.2) }

/-- The creation future of `vmId` finishing: an event of the runtime, not a call of
    the plumber. -/
def finishCreation (pool : VmPool) (vmId : VmId) : VmPool :=
  { pool with
    creatingRuntimes := pool.creatingRuntimes.map (fun c => if c.1 = vmId then (vmId, true) else c) }

/-- `free_vms`. -/
def freeVms (pool : VmPool) : Nat := pool.runtimes.length

/-- The ids whose interpreter is being (re)built. -/
def pendingIds (pool : VmPool) : List VmId := pool.creatingRuntimes.map (·.1)

@[simp] theorem poolSize_putVm (pool : VmPool) (i : VmId) : (pool.putVm i).poolSize = pool.poolSize := rfl
@[simp] theorem runtimes_putVm (pool : VmPool) (i : VmId) :
    (pool.putVm i).runtimes = i :: pool.runtimes := rfl
@[simp] theorem pendingIds_putVm (pool : VmPool) (i : VmId) :
    (pool.putVm i).pendingIds = pool.pendingIds := rfl
@[simp] theorem poolSize_recreateAvm (pool : VmPool) (i : VmId) :
    (pool.recreateAvm i).poolSize = pool.poolSize := rfl
@[simp] theorem runtimes_recreateAvm (pool : VmPool) (i : VmId) :
    (pool.recreateAvm i).runtimes = pool.runtimes := rfl
@[simp] theorem pendingIds_recreateAvm (pool : VmPool) (i : VmId) :
    (pool.recreateAvm i).pendingIds = pool.pendingIds ++ [i] := by
  simp [recreateAvm, pendingIds]

@[simp] theorem poolSize_poll (pool : VmPool) : pool.poll.poolSize = pool.poolSize := rfl
@[simp] theorem poolSize_finishCreation (pool : VmPool) (i : VmId) :
    (pool.finishCreation i).poolSize = pool.poolSize := rfl
@[simp] theorem runtimes_finishCreation (pool : VmPool) (i : VmId) :
    (pool.finishCreation i).runtimes = pool.runtimes := rfl

@[simp] theorem pendingIds_finishCreation (pool : VmPool) (i : VmId) :
    (pool.finishCreation i).pendingIds = pool.pendingIds := by
  simp only [finishCreation, pendingIds, List.map_map]
  congr 1; funext c; by_cases h : c.1 = i <;> simp [h]

/-- `get_vm` succeeds exactly on a non-empty free list, and hands out its head. -/
theorem getVm_eq_some_iff {pool pool' : VmPool} {i : VmId} :
    pool.getVm = some (i, pool') ↔
      ∃ rest, pool.runtimes = i :: rest ∧ pool' = { pool with runtimes := rest } := by
  unfold getVm
  split <;> rename_i h
  · simp [h]
  · simp only [h, Option.some.injEq, Prod.mk.injEq, List.cons.injEq]
    constructor
    · rintro ⟨rfl, rfl⟩; exact ⟨_, ⟨rfl, rfl⟩, rfl⟩
    · rintro ⟨_, ⟨rfl, rfl⟩, rfl⟩; exact ⟨rfl, rfl⟩

@[simp] theorem getVm_eq_none_iff {pool : VmPool} : pool.getVm = none ↔ pool.runtimes = [] := by
  unfold getVm; split <;> simp_all

/-- `poll` only moves ids from pending creation to the free list. -/
theorem poll_perm (pool : VmPool) :
    (pool.poll.runtimes ++ pool.poll.pendingIds).Perm (pool.runtimes ++ pool.pendingIds) := by
  have h := (List.filter_append_perm (·.2) pool.creatingRuntimes).map Prod.fst
  rw [List.map_append] at h
  simp only [poll, pendingIds]
  refine (List.perm_append_comm.append_right _).trans ?_
  rw [List.append_assoc]
  exact h.append_left _

end VmPool

end Nox.Aquamarine
