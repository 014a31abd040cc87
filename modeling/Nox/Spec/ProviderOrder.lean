import Nox.Spec.Providers
import Mathlib.Data.List.Sort

/-!
# Providers in order of distance

`add_provider` inserts the record of a new provider before the first record whose
provider is farther from the key, or at the end while there is room, and drops the
farthest record once the list is longer than `max_providers_per_key`. The test
`providers_ordered_by_distance_to_key` compares this with every record added, sorted by
distance with Rust's stable `sort_by` and truncated. Here the two are equal for every run
that adds records of distinct providers for a key, removes none of its providers, and
gets no error from those calls, whatever the calls on other keys, for every keyspace,
ties of distance included.

The insert of one record is `orderedInsert` with the strict comparison of distances, and
keeping the first `m` records commutes with it (`take_orderedInsert_take`). A stable sort
of `l ++ [x]` is the same insert of `x` into the stable sort of `l`: `x` comes last, so it
goes after every record no farther (`mergeSort_append_singleton`). Stability is used as
"the records of each distance keep their order" (`filter_mergeSort`), and two sorted
lists with that property are equal (`eq_of_sorted_of_filter_eq`).

## Key results

- `providers_sorted_truncated`: after such a run, the providers of the key are the
  records added for it, stably sorted by distance and truncated.
-/

namespace Nox.Kademlia

section Stable

variable {α : Type} (d : α → Nat)

/-- In a list with the same records of each distance as `a :: S`, sorted, no record is
    nearer than `a`. -/
private theorem le_of_filter_eq {a : α} {S T : List α} (hS : (a :: S).Pairwise (d · ≤ d ·))
    (h : ∀ n, (a :: S).filter (d · = n) = T.filter (d · = n)) {b : α} (hb : b ∈ T) :
    d a ≤ d b := by
  have hb' : b ∈ (a :: S).filter (d · = d b) := by
    rw [h]; exact List.mem_filter.mpr ⟨hb, decide_eq_true rfl⟩
  rcases List.mem_cons.mp (List.mem_filter.mp hb').1 with rfl | hb'
  · exact le_rfl
  · exact List.rel_of_pairwise_cons hS hb'

/-- Two lists sorted by `d` that hold the records of each distance in the same order are
    equal. -/
theorem eq_of_sorted_of_filter_eq : ∀ {S T : List α}, S.Pairwise (d · ≤ d ·) →
    T.Pairwise (d · ≤ d ·) → (∀ n, S.filter (d · = n) = T.filter (d · = n)) → S = T
  | [], [], _, _, _ => rfl
  | [], b :: _, _, _, h => by simpa using h (d b)
  | a :: _, [], _, _, h => by simpa using h (d a)
  | a :: S, b :: T, hS, hT, h => by
    have hab : d a = d b := Nat.le_antisymm (le_of_filter_eq d hS h (.head _))
      (le_of_filter_eq d hT (fun n => (h n).symm) (.head _))
    have hhead := h (d b)
    simp only [List.filter_cons, hab, decide_True, ite_true, List.cons.injEq] at hhead
    have htail : ∀ n, S.filter (d · = n) = T.filter (d · = n) := fun n => by
      by_cases hn : d b = n
      · exact hn ▸ hhead.2
      · simpa [List.filter_cons, hab, hn] using h n
    rw [hhead.1, eq_of_sorted_of_filter_eq hS.of_cons hT.of_cons htail]

private theorem distance_le_trans (a b c : α) (hab : decide (d a ≤ d b) = true)
    (hbc : decide (d b ≤ d c) = true) : decide (d a ≤ d c) = true := by
  simp only [decide_eq_true_eq] at *; omega

private theorem distance_le_total (a b : α) : (decide (d a ≤ d b) || decide (d b ≤ d a)) = true := by
  simp only [Bool.or_eq_true, decide_eq_true_eq]; omega

/-- `mergeSort` by `d a ≤ d b` sorts by `d`. -/
theorem sorted_mergeSort_distance (l : List α) :
    (l.mergeSort (fun a b => d a ≤ d b)).Pairwise (d · ≤ d ·) :=
  (List.sorted_mergeSort (distance_le_trans d) (distance_le_total d) l).imp (of_decide_eq_true ·)

/-- `mergeSort` is stable: the records of each distance keep their order. -/
theorem filter_mergeSort (l : List α) (n : Nat) :
    (l.mergeSort (fun a b => d a ≤ d b)).filter (d · = n) = l.filter (d · = n) := by
  have hc : (l.filter (d · = n)).Pairwise (fun a b => decide (d a ≤ d b) = true) :=
    List.pairwise_of_forall_mem_list fun a ha b hb => by
      simp only [List.mem_filter, decide_eq_true_eq] at ha hb
      simp [ha.2, hb.2]
  have hsub := (List.sublist_mergeSort (distance_le_trans d) (distance_le_total d) hc
    (List.filter_sublist l)).filter (d · = n)
  rw [List.filter_filter] at hsub
  simp only [Bool.and_self] at hsub
  exact (hsub.eq_of_length
    ((List.mergeSort_perm l _).filter (d · = n)).length_eq.symm).symm

/-- The insert before the first strictly farther record keeps a list sorted. -/
private theorem pairwise_orderedInsert (x : α) : ∀ {S : List α}, S.Pairwise (d · ≤ d ·) →
    (S.orderedInsert (d · < d ·) x).Pairwise (d · ≤ d ·)
  | [], _ => List.pairwise_singleton _ _
  | b :: S, hS => by
    rw [List.orderedInsert]
    split
    · rename_i hx
      refine List.Pairwise.cons (fun y hy => ?_) hS
      rcases List.mem_cons.mp hy with rfl | hy
      · exact hx.le
      · exact hx.le.trans (List.rel_of_pairwise_cons hS hy)
    · rename_i hx
      refine List.Pairwise.cons (fun y hy => ?_) (pairwise_orderedInsert x hS.of_cons)
      rcases (List.mem_orderedInsert _).mp hy with rfl | hy
      · omega
      · exact List.rel_of_pairwise_cons hS hy

/-- Into a sorted list, the insert puts `x` after every record at its distance. -/
private theorem filter_orderedInsert (x : α) (n : Nat) : ∀ {S : List α}, S.Pairwise (d · ≤ d ·) →
    (S.orderedInsert (d · < d ·) x).filter (d · = n) = (S ++ [x]).filter (d · = n)
  | [], _ => rfl
  | b :: S, hS => by
    rw [List.orderedInsert]
    split
    · rename_i hx
      by_cases hn : d x = n
      · have hnone : (b :: S).filter (d · = n) = [] := List.filter_eq_nil_iff.mpr fun y hy => by
          rcases List.mem_cons.mp hy with rfl | hy
          · simp only [decide_eq_true_eq]; omega
          · have := List.rel_of_pairwise_cons hS hy
            simp only [decide_eq_true_eq]; omega
        rw [List.filter_cons_of_pos (by simpa using hn), List.filter_append, hnone]
        simp [hn]
      · rw [List.filter_cons_of_neg (by simpa using hn), List.filter_append]
        simp [hn]
    · simp only [List.cons_append, List.filter_cons, filter_orderedInsert x n hS.of_cons]

/-- A stable sort of `l ++ [x]` inserts `x` into the stable sort of `l` before the first
    record farther than `x`. -/
theorem mergeSort_append_singleton (l : List α) (x : α) :
    (l ++ [x]).mergeSort (fun a b => d a ≤ d b) =
      (l.mergeSort (fun a b => d a ≤ d b)).orderedInsert (d · < d ·) x := by
  refine eq_of_sorted_of_filter_eq d (sorted_mergeSort_distance d _)
    (pairwise_orderedInsert d x (sorted_mergeSort_distance d l)) fun n => ?_
  rw [filter_mergeSort, filter_orderedInsert d x n (sorted_mergeSort_distance d l),
    List.filter_append, List.filter_append, filter_mergeSort]

end Stable

section Insert

variable {α : Type} (r : α → α → Prop) [DecidableRel r] (x : α)

/-- Keeping the first `m` records before the insert or after it keeps the same `m`. -/
theorem take_orderedInsert_take :
    ∀ (m : Nat) (S : List α), ((S.take m).orderedInsert r x).take m = (S.orderedInsert r x).take m
  | 0, _ => by simp
  | _ + 1, [] => rfl
  | m + 1, b :: S => by
    simp only [List.take_succ_cons, List.orderedInsert]
    split
    · cases m with
      | zero => rfl
      | succ m => simp [List.take_take]
    · rw [List.take_succ_cons, List.take_succ_cons, take_orderedInsert_take m S]

/-- Past records that are not after `x`, the insert goes on into the rest. -/
private theorem orderedInsert_append : ∀ {pre : List α} (l : List α), (∀ y ∈ pre, ¬ r x y) →
    (pre ++ l).orderedInsert r x = pre ++ l.orderedInsert r x
  | [], _, _ => rfl
  | y :: pre, l, h => by
    rw [List.cons_append, List.orderedInsert, if_neg (h y (.head _)),
      orderedInsert_append l fun z hz => h z (.tail _ hz), List.cons_append]

variable {r x}

/-- `add_provider` finds the position with `findIdx?`: the first record after `x`. -/
private theorem insertIdx_eq_orderedInsert {l : List α} {i : Nat}
    (h : l.findIdx? (fun y => decide (r x y)) = some i) : l.insertIdx i x = l.orderedInsert r x := by
  obtain ⟨pre, y, post, rfl, rfl, hpre, hy⟩ := findIdx?_eq_some_split h
  rw [Nat.zero_add, insertIdx_length_append,
    orderedInsert_append r x _ fun z hz => by simpa using hpre z hz]
  simp only [List.orderedInsert, if_pos (of_decide_eq_true hy)]

/-- With no record after `x`, the insert pushes `x`. -/
private theorem orderedInsert_eq_append {l : List α} (h : l.findIdx? (fun y => decide (r x y)) = none) :
    l.orderedInsert r x = l ++ [x] := by
  simpa using orderedInsert_append r x [] fun z hz => by
    simpa using List.findIdx?_eq_none_iff.mp h z hz

end Insert

/-! ### The spec's list of providers -/

/-- The records a sequence of calls adds for `k`, in call order. -/
def addedProviders (k : Key) : List Op → List ProviderRecord
  | [] => []
  | .addProvider r :: rest => if r.key = k then r :: addedProviders k rest else addedProviders k rest
  | _ :: rest => addedProviders k rest

/-- The records `rs` stably sorted by the XOR distance of their
    provider to `k` (Rust's `sort_by`), and the first `m` of them (`truncate`). -/
def sortedProviders (ks : Keyspace) (k : Key) (m : Nat) (rs : List ProviderRecord) :
    List ProviderRecord :=
  (rs.mergeSort fun a b => ks.distance a.provider k ≤ ks.distance b.provider k).take m

/-- No `add_provider` call for `k` in the run of `ops` from `s`
    returns `Err`. -/
def addsSucceed (codec : RecordCodec) (ks : Keyspace) (k : Key) : MemoryStore → List Op → Bool
  | _, [] => true
  | s, op :: rest =>
    (match op with
     | .addProvider r => r.key != k || (s.addProvider ks r).2.isOk
     | _ => true) && addsSucceed codec ks k (s.step codec ks op) rest

namespace MemoryStore

variable (ks : Keyspace)

/-- `add_provider` past the entry lookup leaves the entries of the other keys. -/
theorem providers_get?_addToEntry (s : MemoryStore) (record : ProviderRecord) {k : Key}
    (hk : k ≠ record.key) : (s.addToEntry ks record).1.providers.get? k = s.providers.get? k := by
  rcases addToEntry_cases ks s record with ⟨_, _, heq⟩ | ⟨_, _, _, heq⟩ | ⟨_, _, heq⟩ <;>
    rw [heq] <;> (try split) <;> simp [HashMap.get?_insert, HashMap.get?_orInsert, hk]

/-- `add_provider` for another key leaves the providers of `k`. -/
theorem providersOf_addProvider_of_ne (s : MemoryStore) (record : ProviderRecord) {k : Key}
    (hk : k ≠ record.key) : (s.addProvider ks record).1.providersOf k = s.providersOf k := by
  unfold addProvider providersOf
  split
  · rw [providers_get?_addToEntry ks s record hk]
  · split
    · rfl
    · rw [providers_get?_addToEntry ks s record hk]

/-- An `add_provider` that succeeds went past the entry lookup. -/
theorem addProvider_eq_addToEntry {s : MemoryStore} {record : ProviderRecord}
    (h : (s.addProvider ks record).2.isOk = true) :
    s.addProvider ks record = s.addToEntry ks record := by
  unfold addProvider at h ⊢
  split
  · rfl
  · rename_i hk
    simp only [hk] at h
    split
    · rename_i hfull; simp [hfull, Except.isOk, Except.toBool] at h
    · rfl

/-- `remove_provider` for another key leaves the providers of `k`. -/
theorem providersOf_removeProvider_of_ne (s : MemoryStore) (key : Key) (provider : PeerId) {k : Key}
    (hk : k ≠ key) : (s.removeProvider key provider).providersOf k = s.providersOf k := by
  unfold removeProvider providersOf
  split
  · rfl
  · dsimp only; split <;> simp [HashMap.get?_remove, HashMap.get?_insert, hk]

/-- `add_provider` past the entry lookup, for a provider the key's list does not have yet
    and a list within its bound: the first `max_providers_per_key` records of the list
    with the new one inserted before the first record whose provider is farther. -/
theorem providersOf_addToEntry (s : MemoryStore) (record : ProviderRecord)
    (hnew : ∀ p ∈ s.providersOf record.key, p.provider ≠ record.provider)
    (hlen : (s.providersOf record.key).length ≤ s.config.maxProvidersPerKey) :
    (s.addToEntry ks record).1.providersOf record.key =
      ((s.providersOf record.key).orderedInsert (fun a b =>
        ks.distance a.provider record.key < ks.distance b.provider record.key) record).take
        s.config.maxProvidersPerKey := by
  have hget : ∀ L, (((s.providers.orInsert record.key []).insert record.key L).get?
      record.key).getD [] = L := fun L => by simp [HashMap.get?_insert]
  have hkeep : ((s.providers.orInsert record.key []).get? record.key).getD [] =
      s.providersOf record.key := by simp [providersOf, HashMap.get?_orInsert]
  rcases addToEntry_cases ks s record with ⟨i, hi, -⟩ | ⟨_, i, hi, heq⟩ | ⟨_, hfar, heq⟩
  · -- no in-place update: the provider is new
    obtain ⟨pre, x, post, hps, -, -, hx⟩ := findIdx?_eq_some_split hi
    exact absurd (of_decide_eq_true hx) (hnew x (by rw [hps]; simp))
  · have hins : (s.providersOf record.key).insertIdx i record =
        (s.providersOf record.key).orderedInsert (fun a b =>
          ks.distance a.provider record.key < ks.distance b.provider record.key) record :=
      insertIdx_eq_orderedInsert hi
    have hl := List.orderedInsert_length (fun a b =>
      ks.distance a.provider record.key < ks.distance b.provider record.key)
      (s.providersOf record.key) record
    rw [providersOf, heq, hget, hins, hl]
    split
    · rw [List.dropLast_eq_take, hl]; congr 1; omega
    · exact (List.take_of_length_le (by omega)).symm
  · rw [providersOf, heq, orderedInsert_eq_append hfar]
    split
    · rw [hget, List.take_of_length_le (by simp; omega)]
    · rw [hkeep, List.take_left' (by omega)]

/-- A call that is no `add_provider` and no `remove_provider` for `k` leaves the
    providers of `k`. -/
theorem providersOf_step_of_ne (codec : RecordCodec) (s : MemoryStore) {k : Key} {op : Op}
    (hadd : ∀ r, op = .addProvider r → k ≠ r.key) (hrm : ∀ p, op ≠ .removeProvider k p) :
    (s.step codec ks op).providersOf k = s.providersOf k := by
  cases op with
  | put r => obtain ⟨_, h⟩ := put_frame codec s r; simp only [step, h]; rfl
  | remove _ => rfl
  | retain _ => rfl
  | addProvider r => exact providersOf_addProvider_of_ne ks s r (hadd r rfl)
  | removeProvider key p =>
    exact providersOf_removeProvider_of_ne s key p fun h => hrm p (h ▸ rfl)

end MemoryStore

/-! ### The refinement -/

section Run

variable (codec : RecordCodec) (ks : Keyspace)

/-- One `add_provider` for `k` that succeeds, of a provider not among the records `A`
    added before: the sorted, truncated list of `A` becomes that of `A ++ [r]`. -/
theorem providersOf_addProvider_sorted {s : MemoryStore} {r : ProviderRecord}
    {A : List ProviderRecord}
    (h : s.providersOf r.key = sortedProviders ks r.key s.config.maxProvidersPerKey A)
    (hnew : r.provider ∉ A.map (·.provider)) (hok : (s.addProvider ks r).2.isOk = true) :
    (s.addProvider ks r).1.providersOf r.key =
      sortedProviders ks r.key s.config.maxProvidersPerKey (A ++ [r]) := by
  have hnew' : ∀ p ∈ s.providersOf r.key, p.provider ≠ r.provider := fun p hp he => by
    rw [h, sortedProviders] at hp
    exact hnew (List.mem_map.mpr ⟨p, List.mem_mergeSort.mp (List.mem_of_mem_take hp), he⟩)
  have hlen : (s.providersOf r.key).length ≤ s.config.maxProvidersPerKey := by
    rw [h, sortedProviders]; exact List.length_take_le _ _
  rw [MemoryStore.addProvider_eq_addToEntry ks hok,
    MemoryStore.providersOf_addToEntry ks s r hnew' hlen, h, sortedProviders, sortedProviders,
    take_orderedInsert_take,
    ← mergeSort_append_singleton (fun p => ks.distance p.provider r.key) A r]

/-- The providers of `k` over a run, from a store whose providers of `k` are those of the
    records `A`. -/
theorem providersOf_run (k : Key) : ∀ (s : MemoryStore) (A : List ProviderRecord) (ops : List Op),
    s.providersOf k = sortedProviders ks k s.config.maxProvidersPerKey A →
    (∀ op ∈ ops, ∀ p, op ≠ .removeProvider k p) →
    ((A ++ addedProviders k ops).map (·.provider)).Nodup →
    addsSucceed codec ks k s ops = true →
    (s.run codec ks ops).providersOf k =
      sortedProviders ks k s.config.maxProvidersPerKey (A ++ addedProviders k ops)
  | s, A, [], h, _, _, _ => by simpa [MemoryStore.run, addedProviders] using h
  | s, A, op :: rest, h, hrm, hnd, hok => by
    simp only [addsSucceed, Bool.and_eq_true] at hok
    have hcfg := MemoryStore.config_step codec ks s op
    have hrm' : ∀ op ∈ rest, ∀ p, op ≠ .removeProvider k p :=
      fun op hop => hrm op (.tail _ hop)
    rw [MemoryStore.run]
    by_cases hadd : ∃ r, op = .addProvider r ∧ r.key = k
    · -- an `add_provider` for `k`: its record joins the list, and the run goes on
      obtain ⟨r, rfl, rfl⟩ := hadd
      simp only [bne_self_eq_false, Bool.false_or] at hok
      simp only [addedProviders, if_true, List.map_append, List.map_cons] at hnd
      have hnew : r.provider ∉ A.map (·.provider) := fun hm =>
        List.disjoint_of_nodup_append hnd hm (.head _)
      have hstep := providersOf_addProvider_sorted ks h hnew hok.1
      rw [← hcfg] at hstep
      have := providersOf_run r.key _ (A ++ [r]) rest hstep hrm' (by simpa using hnd) hok.2
      simpa [addedProviders, hcfg] using this
    · -- any other call leaves the providers of `k` as they were
      have hsame := MemoryStore.providersOf_step_of_ne ks codec s
        (fun r hr hk => hadd ⟨r, hr, hk.symm⟩) (hrm op (.head _))
      have hA : addedProviders k (op :: rest) = addedProviders k rest := by
        cases op with
        | addProvider r =>
          have hk : r.key ≠ k := fun hk => hadd ⟨r, rfl, hk⟩
          simp [addedProviders, hk]
        | _ => rfl
      rw [hA, ← hcfg]
      exact providersOf_run k _ A rest (hsame.trans (hcfg ▸ h)) hrm' (hA ▸ hnd) hok.2

end Run

/-- The incremental insert with eviction refines sort-then-truncate. -/
theorem providers_sorted_truncated (codec : RecordCodec) (ks : Keyspace) (k : Key) (s : MemoryStore)
    (ops : List Op) (hk : s.providersOf k = [])
    (hrm : ∀ op ∈ ops, ∀ p, op ≠ .removeProvider k p)
    (hnd : ((addedProviders k ops).map (·.provider)).Nodup)
    (hok : addsSucceed codec ks k s ops = true) :
    (s.run codec ks ops).providersOf k =
      sortedProviders ks k s.config.maxProvidersPerKey (addedProviders k ops) :=
  providersOf_run codec ks k s [] ops (by simpa [sortedProviders] using hk) hrm hnd hok

/-- Peers `2 n` and `2 n + 1` are equally far from every key. -/
def pairedKeyspace : Keyspace := ⟨fun p => BitVec.ofNat 256 (p / 2), fun _ => 0⟩

/-- Records for `[0]` of providers `3`, `2` (as far as `3`) and `0` (nearer), with one for
    `[1]` in between, into a store that keeps two providers per key. -/
def evictionOps : List Op :=
  [.addProvider ⟨[0], 3, none⟩, .addProvider ⟨[1], 5, none⟩,
   .addProvider ⟨[0], 2, none⟩, .addProvider ⟨[0], 0, none⟩]

/-- The store `evictionOps` starts from. -/
def evictionStore : MemoryStore :=
  .withConfig 1 { MemoryStoreConfig.default with maxProvidersPerKey := 2 }

theorem providers_sorted_truncated_eviction :
    evictionStore.providersOf [0] = [] ∧
      ((addedProviders [0] evictionOps).map (·.provider)).Nodup ∧
      addsSucceed plainCodec pairedKeyspace [0] evictionStore evictionOps = true ∧
      (evictionStore.run plainCodec pairedKeyspace evictionOps).providersOf [0] =
        sortedProviders pairedKeyspace [0] evictionStore.config.maxProvidersPerKey
          (addedProviders [0] evictionOps) :=
  ⟨by decide, by decide, by decide,
    providers_sorted_truncated plainCodec pairedKeyspace [0] evictionStore evictionOps (by decide)
      (by simp [evictionOps]) (by decide) (by decide)⟩

/-- Provider `0` evicts provider `2`, which came after `3` at the same distance. -/
example : (evictionStore.run plainCodec pairedKeyspace evictionOps).providersOf [0] =
    [⟨[0], 0, none⟩, ⟨[0], 3, none⟩] := by decide

end Nox.Kademlia
