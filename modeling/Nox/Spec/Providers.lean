import Nox.Kademlia.MemoryStore

/-!
# Provider records

For every key, `add_provider` keeps at most `max_providers_per_key` records, all of
that key and of distinct providers, in non-decreasing XOR distance of the provider to
the key, and it keeps at most `max_provided_keys` keys; `remove_provider` and the
record operations keep all of it. `add_provider` refuses only a new key when the map
is full, and then leaves the store as it was.

`provided` is meant to hold exactly the local peer's records of `providers`. It does
not: an in-place update of a local record leaves the old record in `provided`, and a
later `remove_provider` removes only the new one.

## Key results

- `providers_wellFormed`: the invariant over every run, and what a refusal means.
- `provided_out_of_sync`: a run after which `provided` holds a record no key has.
-/

namespace Nox.Kademlia

/-! ### Lists split at their first match -/

theorem findIdx?_eq_some_split {α : Type} {q : α → Bool} :
    ∀ {l : List α} {s i : Nat}, l.findIdx? q s = some i →
      ∃ pre x post, l = pre ++ x :: post ∧ s + pre.length = i ∧
        (∀ y ∈ pre, q y = false) ∧ q x = true
  | [], _, _, h => by simp at h
  | y :: ys, s, i, h => by
    rw [List.findIdx?_cons] at h
    split at h
    · cases h; exact ⟨[], y, ys, rfl, rfl, by simp, ‹_›⟩
    · rename_i hy
      obtain ⟨pre, x, post, rfl, hl, hpre, hx⟩ := findIdx?_eq_some_split h
      refine ⟨y :: pre, x, post, rfl, by simp only [List.length_cons]; omega, ?_, hx⟩
      intro z hz
      rcases List.mem_cons.mp hz with rfl | hz
      · simpa using hy
      · exact hpre z hz

theorem insertIdx_length_append {α : Type} (pre l : List α) (a : α) :
    (pre ++ l).insertIdx pre.length a = pre ++ a :: l := by
  induction pre with
  | nil => exact List.insertIdx_zero l a
  | cons b pre ih => simp [List.insertIdx_succ_cons, ih]

section WellFormed

variable (ks : Keyspace) (config : MemoryStoreConfig)

/-- The providers of key `k` in the order `add_provider` keeps them. -/
structure SortedProviders (k : Key) (ps : List ProviderRecord) : Prop where
  key : ∀ r ∈ ps, r.key = k
  distinct : (ps.map (·.provider)).Nodup
  sorted : ((ps.map (·.provider)).map (ks.distance · k)).Pairwise (· ≤ ·)

/-- The provider map of a store as `add_provider` and `remove_provider` keep it. -/
structure ProvidersWF (providers : HashMap Key (List ProviderRecord)) : Prop where
  sorted : ∀ k ps, providers.get? k = some ps → SortedProviders ks k ps
  bounded : ∀ k ps, providers.get? k = some ps → ps.length ≤ config.maxProvidersPerKey
  keys : providers.len ≤ config.maxProvidedKeys

variable {ks config}

theorem SortedProviders.nil (k : Key) : SortedProviders ks k [] := ⟨by simp, by simp, by simp⟩

theorem SortedProviders.sublist {k : Key} {ps ps' : List ProviderRecord}
    (h : SortedProviders ks k ps) (hs : ps'.Sublist ps) : SortedProviders ks k ps' :=
  ⟨fun r hr => h.key r (hs.subset hr), (hs.map _).nodup h.distinct,
    h.sorted.sublist ((hs.map _).map _)⟩

/-- The in-place update of a provider's record keeps the order: the distance is the
    provider's. -/
theorem SortedProviders.set {k : Key} {ps : List ProviderRecord} {record : ProviderRecord}
    {i : Nat} (h : SortedProviders ks k ps) (hk : record.key = k)
    (hi : ps.findIdx? (·.provider = record.provider) = some i) :
    SortedProviders ks k (ps.set i record) ∧ (ps.set i record).length = ps.length := by
  obtain ⟨pre, x, post, rfl, rfl, -, hx⟩ := findIdx?_eq_some_split hi
  simp only [decide_eq_true_eq] at hx
  have hmap : (pre ++ record :: post).map (·.provider) = (pre ++ x :: post).map (·.provider) := by
    simp [hx]
  simp only [Nat.zero_add, List.set_append_right _ _ (Nat.le_refl _), Nat.sub_self,
    List.set_cons_zero, List.length_append, List.length_cons, and_true]
  refine ⟨fun r hr => ?_, hmap ▸ h.distinct, hmap ▸ h.sorted⟩
  rcases List.mem_append.mp hr with hr | hr
  · exact h.key r (by simp [hr])
  · rcases List.mem_cons.mp hr with rfl | hr
    · exact hk
    · exact h.key r (by simp [hr])

/-- A new provider inserted before the first provider farther from the key keeps the
    order. -/
theorem SortedProviders.insertIdx {ps : List ProviderRecord} {record : ProviderRecord} {i : Nat}
    (h : SortedProviders ks record.key ps)
    (hnew : ps.findIdx? (·.provider = record.provider) = none)
    (hi : ps.findIdx? (fun p => ks.distance record.provider record.key <
      ks.distance p.provider record.key) = some i) :
    SortedProviders ks record.key (ps.insertIdx i record) ∧
      (ps.insertIdx i record).length = ps.length + 1 := by
  -- the record goes in front of `x`, the first record farther than it
  obtain ⟨pre, x, post, rfl, rfl, hpre, hx⟩ := findIdx?_eq_some_split hi
  simp only [List.findIdx?_eq_none_iff, decide_eq_false_iff_not] at hnew
  simp only [decide_eq_false_iff_not, not_lt] at hpre
  simp only [decide_eq_true_eq] at hx
  have hs := h.sorted
  simp only [List.map_append, List.map_cons, List.pairwise_append, List.pairwise_cons,
    List.mem_cons, List.mem_map] at hs
  rw [Nat.zero_add, insertIdx_length_append]
  refine ⟨⟨fun r hr => ?_, ?_, ?_⟩, by simp only [List.length_append, List.length_cons]; omega⟩
  · -- every record is for the key
    rcases List.mem_append.mp hr with hr | hr
    · exact h.key r (by simp [hr])
    · rcases List.mem_cons.mp hr with rfl | hr
      · rfl
      · exact h.key r (by simp [hr])
  · -- the providers stay distinct: the record's provider is new
    have hd := h.distinct
    simp only [List.map_append, List.map_cons] at hd ⊢
    refine List.nodup_middle.mpr (List.nodup_cons.mpr ⟨fun hm => ?_, hd⟩)
    simp only [← List.map_cons, ← List.map_append, List.mem_map] at hm
    obtain ⟨y, hy, he⟩ := hm
    exact hnew y hy he
  · simp only [List.map_append, List.map_cons, List.pairwise_append, List.pairwise_cons,
      List.mem_cons, List.mem_map]
    -- the distances stay sorted: `pre` is no farther, `x :: post` is farther
    refine ⟨hs.1, ⟨?_, hs.2.1⟩, ?_⟩
    · rintro b (rfl | ⟨_, ⟨y, hy, rfl⟩, rfl⟩)
      · exact hx.le
      · exact hx.le.trans (hs.2.1.1 _ ⟨_, ⟨y, hy, rfl⟩, rfl⟩)
    · rintro a ⟨_, ⟨y, hy, rfl⟩, rfl⟩ b (rfl | hb)
      · exact hpre y hy
      · exact hs.2.2 _ ⟨_, ⟨y, hy, rfl⟩, rfl⟩ b hb

/-- A new provider no nearer than any other keeps the order at the end. -/
theorem SortedProviders.push {ps : List ProviderRecord} {record : ProviderRecord}
    (h : SortedProviders ks record.key ps)
    (hnew : ps.findIdx? (·.provider = record.provider) = none)
    (hfar : ps.findIdx? (fun p => ks.distance record.provider record.key <
      ks.distance p.provider record.key) = none) :
    SortedProviders ks record.key (ps ++ [record]) := by
  simp only [List.findIdx?_eq_none_iff, decide_eq_false_iff_not, not_lt] at hnew hfar
  refine ⟨fun r hr => ?_, ?_, ?_⟩
  · rcases List.mem_append.mp hr with hr | hr
    · exact h.key r hr
    · simp only [List.mem_singleton] at hr; exact hr ▸ rfl
  · simp only [List.map_append, List.map_cons, List.map_nil]
    refine List.nodup_append.mpr ⟨h.distinct, List.nodup_singleton _, ?_⟩
    simp only [List.disjoint_singleton, List.mem_map, not_exists, not_and]
    exact fun y hy he => hnew y hy he
  · simp only [List.map_append, List.map_cons, List.map_nil, List.pairwise_append,
      List.pairwise_singleton, List.mem_singleton, List.mem_map, true_and]
    refine ⟨h.sorted, ?_⟩
    rintro a ⟨_, ⟨y, hy, rfl⟩, rfl⟩ b rfl
    exact hfar y hy

end WellFormed

/-! ### The provider map through the calls -/

section Store

variable {ks : Keyspace} {config : MemoryStoreConfig}

/-- The list `add_provider` works on: the key's providers, or none for a new key. -/
theorem entry_wf {m : HashMap Key (List ProviderRecord)} (hwf : ProvidersWF ks config m)
    (key : Key) : SortedProviders ks key ((m.get? key).getD []) ∧
      ((m.get? key).getD []).length ≤ config.maxProvidersPerKey := by
  cases h : m.get? key with
  | none => exact ⟨.nil key, Nat.zero_le _⟩
  | some ps => exact ⟨hwf.sorted key ps h, hwf.bounded key ps h⟩

theorem ProvidersWF.insert {m : HashMap Key (List ProviderRecord)} (hwf : ProvidersWF ks config m)
    {key : Key} {L : List ProviderRecord} (hkey : m.containsKey key)
    (hL : SortedProviders ks key L) (hlen : L.length ≤ config.maxProvidersPerKey) :
    ProvidersWF ks config (m.insert key L) := by
  refine ⟨fun k ps h => ?_, fun k ps h => ?_, ?_⟩
  · rw [HashMap.get?_insert] at h
    split at h
    · cases h; subst_vars; exact hL
    · exact hwf.sorted k ps h
  · rw [HashMap.get?_insert] at h
    split at h
    · cases h; exact hlen
    · exact hwf.bounded k ps h
  · rw [HashMap.len_insert, if_pos hkey]; exact hwf.keys

theorem ProvidersWF.orInsert {m : HashMap Key (List ProviderRecord)} (hwf : ProvidersWF ks config m)
    {key : Key} (hlen : (m.orInsert key []).len ≤ config.maxProvidedKeys) :
    ProvidersWF ks config (m.orInsert key []) := by
  refine ⟨fun k ps h => ?_, fun k ps h => ?_, hlen⟩
  · rw [HashMap.get?_orInsert] at h
    split at h
    · cases h; subst_vars; exact (entry_wf hwf _).1
    · exact hwf.sorted k ps h
  · rw [HashMap.get?_orInsert] at h
    split at h
    · cases h; exact (entry_wf hwf _).2
    · exact hwf.bounded k ps h

theorem ProvidersWF.remove {m : HashMap Key (List ProviderRecord)} (hwf : ProvidersWF ks config m)
    (key : Key) : ProvidersWF ks config (m.remove key) := by
  refine ⟨fun k ps h => ?_, fun k ps h => ?_, (HashMap.len_remove_le m key).trans hwf.keys⟩
  · rw [HashMap.get?_remove] at h
    split at h
    · cases h
    · exact hwf.sorted k ps h
  · rw [HashMap.get?_remove] at h
    split at h
    · cases h
    · exact hwf.bounded k ps h

namespace MemoryStore

/-- `add_provider` past the entry lookup changes only `providers` and `provided`, and
    succeeds. -/
theorem addToEntry_frame (ks : Keyspace) (s : MemoryStore) (record : ProviderRecord) :
    ∃ ps pd, s.addToEntry ks record = ({ s with providers := ps, provided := pd }, .ok ()) := by
  unfold addToEntry
  dsimp only
  split
  · exact ⟨_, _, rfl⟩
  · split
    · split
      · split <;> exact ⟨_, _, rfl⟩
      · exact ⟨_, _, rfl⟩
    · split
      · exact ⟨_, _, rfl⟩
      · exact ⟨_, _, rfl⟩

/-- What `add_provider` past the entry lookup does to the providers, with `ps` the key's
    list and `m` the bound: an in-place update of the provider's record; an insert before
    the first provider farther from the key, the last dropped past `m`; a push while the
    list is shorter than `m`; or only the entry, inserted empty. -/

theorem addToEntry_cases (ks : Keyspace) (s : MemoryStore) (record : ProviderRecord) :
    (∃ i, (s.providersOf record.key).findIdx? (·.provider = record.provider) = some i ∧
      (s.addToEntry ks record).1.providers = (s.providers.orInsert record.key []).insert record.key
        ((s.providersOf record.key).set i record)) ∨
    ((s.providersOf record.key).findIdx? (·.provider = record.provider) = none ∧
      ∃ i, (s.providersOf record.key).findIdx? (fun p => ks.distance record.provider record.key <
          ks.distance p.provider record.key) = some i ∧
        (s.addToEntry ks record).1.providers = (s.providers.orInsert record.key []).insert record.key
          (if s.config.maxProvidersPerKey < ((s.providersOf record.key).insertIdx i record).length
            then ((s.providersOf record.key).insertIdx i record).dropLast
            else (s.providersOf record.key).insertIdx i record)) ∨
    ((s.providersOf record.key).findIdx? (·.provider = record.provider) = none ∧
      (s.providersOf record.key).findIdx? (fun p => ks.distance record.provider record.key <
          ks.distance p.provider record.key) = none ∧
      (s.addToEntry ks record).1.providers =
        if (s.providersOf record.key).length < s.config.maxProvidersPerKey then
          (s.providers.orInsert record.key []).insert record.key ((s.providersOf record.key) ++ [record])
        else s.providers.orInsert record.key []) := by
  have hps : ((s.providers.orInsert record.key []).get? record.key).getD [] =
      s.providersOf record.key := by
    simp [HashMap.get?_orInsert, providersOf]
  unfold addToEntry
  dsimp only
  rw [hps]
  split
  · -- the provider is there: its record is replaced in place
    exact .inl ⟨_, ‹_›, rfl⟩
  · refine .inr ?_
    split
    · -- a farther record exists: insert before it, dropping the last past the bound
      refine .inl ⟨‹_›, _, ‹_›, ?_⟩
      split
      · split
        · rfl
        · rename_i hlast
          rw [List.getLast?_eq_none_iff] at hlast
          rw [hlast]; rfl
      · rfl
    · -- no farther record: push at the end while there is room
      refine .inr ⟨‹_›, ‹_›, ?_⟩
      split <;> simp_all

/-- `add_provider` refuses only a new key once the map has `max_provided_keys` keys,
    and then changes nothing. -/
theorem addProvider_error {ks : Keyspace} {s : MemoryStore} {record : ProviderRecord} {e : Error}
    (h : (s.addProvider ks record).2 = .error e) :
    s.providers.get? record.key = none ∧ s.providers.len = s.config.maxProvidedKeys ∧
      (s.addProvider ks record).1 = s := by
  obtain ⟨ps, pd, hr⟩ := addToEntry_frame ks s record
  unfold addProvider at h ⊢
  split at h
  · rw [hr] at h; cases h
  · rename_i hk
    split at h
    · rename_i hfull; rw [if_pos hfull]; exact ⟨hk, hfull.symm, rfl⟩
    · rw [hr] at h; cases h

theorem providersWF_addToEntry {s : MemoryStore} (hwf : ProvidersWF ks s.config s.providers)
    (record : ProviderRecord)
    (hkeys : (s.providers.orInsert record.key []).len ≤ s.config.maxProvidedKeys) :
    ProvidersWF ks s.config (s.addToEntry ks record).1.providers := by
  have h0 := hwf.orInsert hkeys
  have hc : (s.providers.orInsert record.key []).containsKey record.key := by
    simp [HashMap.containsKey_orInsert]
  obtain ⟨hs, hl⟩ : SortedProviders ks record.key (s.providersOf record.key) ∧
      (s.providersOf record.key).length ≤ s.config.maxProvidersPerKey := entry_wf hwf record.key
  rcases addToEntry_cases ks s record with ⟨i, hi, heq⟩ | ⟨hnew, i, hi, heq⟩ | ⟨hnew, hfar, heq⟩ <;>
    rw [heq]
  · obtain ⟨hs', hl'⟩ := hs.set rfl hi
    exact h0.insert hc hs' (hl' ▸ hl)
  · obtain ⟨hs', hl'⟩ := hs.insertIdx hnew hi
    split
    · exact h0.insert hc (hs'.sublist (List.dropLast_sublist _))
        (by rw [List.length_dropLast, hl']; omega)
    · exact h0.insert hc hs' (by omega)
  · split
    · exact h0.insert hc (hs.push hnew hfar)
        (by rw [List.length_append, List.length_singleton]; omega)
    · exact h0

theorem providersWF_addProvider {s : MemoryStore} (hwf : ProvidersWF ks s.config s.providers)
    (record : ProviderRecord) : ProvidersWF ks s.config (s.addProvider ks record).1.providers := by
  unfold addProvider
  split
  · rename_i ps hk
    refine providersWF_addToEntry hwf record ?_
    rw [HashMap.len_orInsert, if_pos (by simp [HashMap.containsKey, hk])]
    exact hwf.keys
  · rename_i hk
    split
    · exact hwf
    · rename_i hfull
      refine providersWF_addToEntry hwf record ?_
      rw [HashMap.len_orInsert, if_neg (by simp [HashMap.containsKey, hk])]
      have := hwf.keys
      omega

theorem providersWF_removeProvider {s : MemoryStore} (hwf : ProvidersWF ks s.config s.providers)
    (key : Key) (provider : PeerId) :
    ProvidersWF ks s.config (s.removeProvider key provider).providers := by
  unfold removeProvider
  split
  · exact hwf
  · rename_i ps hps
    have hc : s.providers.containsKey key := by simp [HashMap.containsKey, hps]
    have hsub : ∀ r : List ProviderRecord × Finset ProviderRecord, r.1.Sublist ps →
        ProvidersWF ks s.config
          (if r.1.isEmpty then { s with providers := s.providers.remove key, provided := r.2 }
            else { s with providers := s.providers.insert key r.1, provided := r.2 }).providers := by
      intro r hr
      split
      · exact hwf.remove key
      · exact hwf.insert hc ((hwf.sorted key ps hps).sublist hr)
          (hr.length_le.trans (hwf.bounded key ps hps))
    apply hsub
    split
    · split <;> exact List.eraseIdx_sublist _ _
    · exact List.Sublist.refl _

@[simp] theorem config_addProvider (ks : Keyspace) (s : MemoryStore) (record : ProviderRecord) :
    (s.addProvider ks record).1.config = s.config := by
  obtain ⟨ps, pd, hr⟩ := addToEntry_frame ks s record
  unfold addProvider
  split
  · rw [hr]
  · split
    · rfl
    · rw [hr]

@[simp] theorem config_removeProvider (s : MemoryStore) (key : Key) (provider : PeerId) :
    (s.removeProvider key provider).config = s.config := by
  unfold removeProvider
  split
  · rfl
  · dsimp only; split <;> rfl

theorem put_frame (codec : RecordCodec) (s : MemoryStore) (r : Record) :
    ∃ records, (s.put codec r).1 = { s with records := records } := by
  unfold put
  split
  · exact ⟨_, rfl⟩
  · dsimp only
    split
    · split <;> exact ⟨_, rfl⟩
    · split
      · exact ⟨_, rfl⟩
      · split <;> exact ⟨_, rfl⟩

@[simp] theorem config_step (codec : RecordCodec) (ks : Keyspace) (s : MemoryStore) (op : Op) :
    (s.step codec ks op).config = s.config := by
  cases op with
  | put r => obtain ⟨_, h⟩ := put_frame codec s r; simp only [step, h]
  | remove k => rfl
  | retain f => rfl
  | addProvider record => exact config_addProvider ks s record
  | removeProvider key provider => exact config_removeProvider s key provider

theorem providersWF_step (codec : RecordCodec) {s : MemoryStore}
    (hwf : ProvidersWF ks s.config s.providers) (op : Op) :
    ProvidersWF ks (s.step codec ks op).config (s.step codec ks op).providers := by
  rw [config_step]
  cases op with
  | put r => obtain ⟨_, h⟩ := put_frame codec s r; simp only [step, h]; exact hwf
  | remove k => exact hwf
  | retain f => exact hwf
  | addProvider record => exact providersWF_addProvider hwf record
  | removeProvider key provider => exact providersWF_removeProvider hwf key provider

end MemoryStore

end Store

theorem providers_wellFormed (codec : RecordCodec) (ks : Keyspace) :
    ∀ s, Reachable codec ks s →
      ProvidersWF ks s.config s.providers ∧
      ∀ record e, (s.addProvider ks record).2 = .error e →
        s.providers.get? record.key = none ∧ s.providers.len = s.config.maxProvidedKeys ∧
          (s.addProvider ks record).1 = s := by
  intro s hs
  refine ⟨?_, fun _ _ h => MemoryStore.addProvider_error h⟩
  induction hs with
  | init localId config =>
    exact ⟨fun _ _ h => (by cases h), fun _ _ h => (by cases h), Nat.zero_le _⟩
  | step op _ ih => exact MemoryStore.providersWF_step codec ih op

/-! ### `provided` out of sync -/

/-- A codec with no multi-records. -/
def plainCodec : RecordCodec := ⟨fun _ => none, fun k _ => ⟨k, [], none, none⟩⟩

/-- A keyspace where a provider's distance to every key is its peer id. -/
def flatKeyspace : Keyspace := ⟨fun p => BitVec.ofNat 256 p, fun _ => 0⟩

/-- The local peer's record for key `[0]` is added, updated in place with an expiry,
    and the local provider of `[0]` is removed. -/
def staleProvidedOps : List Op :=
  [.addProvider ⟨[0], 1, none⟩, .addProvider ⟨[0], 1, some 5⟩, .removeProvider [0] 1]

/-- The store `staleProvidedOps` leaves. -/
def staleProvidedStore : MemoryStore := (MemoryStore.new 1).run plainCodec flatKeyspace staleProvidedOps

theorem providers_wellFormed_after_update :
    ProvidersWF flatKeyspace staleProvidedStore.config staleProvidedStore.providers ∧
      ∀ record e, (staleProvidedStore.addProvider flatKeyspace record).2 = .error e →
        staleProvidedStore.providers.get? record.key = none ∧
        staleProvidedStore.providers.len = staleProvidedStore.config.maxProvidedKeys ∧
        (staleProvidedStore.addProvider flatKeyspace record).1 = staleProvidedStore :=
  providers_wellFormed plainCodec flatKeyspace _ ((Reachable.init 1 _).run staleProvidedOps)

/-- The local peer's provider records among the stored ones: what `provided` is to be
    "kept in sync with". -/
def MemoryStore.localProviders (s : MemoryStore) : Finset ProviderRecord :=
  ((s.providers.entries.flatMap (·.2)).filter (·.provider = s.localKey)).toFinset

theorem provided_out_of_sync (codec : RecordCodec) (ks : Keyspace) :
    ((MemoryStore.new 1).run codec ks staleProvidedOps).provided = {⟨[0], 1, none⟩} ∧
      ((MemoryStore.new 1).run codec ks staleProvidedOps).localProviders = ∅ ∧
      ((MemoryStore.new 1).run codec ks staleProvidedOps).providers.len = 0 := by
  have hp : ((MemoryStore.new 1).run codec ks staleProvidedOps).providers.entries = [] := rfl
  exact ⟨rfl, by simp [MemoryStore.localProviders, hp], by simp [HashMap.len, hp]⟩

end Nox.Kademlia
