import Nox.Spec.Records
import Nox.Spec.Provided

/-!
# Calls made twice

A Kademlia node republishes its records and its provider records on a timer, and the
same request can reach a store twice. Every call of `MemoryStore`, made twice in a row,
leaves the store as one call does.

`put` and `add_provider` also answer the second time as they did the first, from any
state. An accepted record's expansion is already in the set under its key. A provider
record that `add_provider` stored is the first record of its provider in the key's list,
so the second call updates it in place to itself; one it dropped because the list was
full of nearer providers is dropped again. `remove_provider` needs the providers of a
key to be distinct, as they are in every reachable store: from a list with two records
of one provider, the second call would remove the second one.

## Key results

- `put_put`, `addProvider_addProvider`: the second call answers as the first and
  changes nothing.
- `calls_idempotent`: every call, from every reachable store.
-/

namespace Nox.Kademlia

/-- The first match of `q` in a list is where the list splits at it. -/
private theorem findIdx?_append_cons {α : Type} {q : α → Bool} {pre post : List α} {x : α}
    (hpre : ∀ y ∈ pre, q y = false) (hx : q x = true) :
    (pre ++ x :: post).findIdx? q = some pre.length := by
  simp [List.findIdx?_eq_none_iff.mpr hpre, hx]

namespace MemoryStore

/-! ### `put` -/

/-- A record `put` accepted is accepted again, and its second `put` changes nothing. -/
theorem put_put (codec : RecordCodec) (s : MemoryStore) (r : Record) :
    (s.put codec r).1.put codec r = s.put codec r := by
  obtain ⟨hiff, herr, hok⟩ := put_spec codec s r
  by_cases h : (s.put codec r).2 = .ok ()
  · have hs' := hok h
    have hget : (s.put codec r).1.records.get? r.key =
        some ((s.records.get? r.key).getD ∅ ∪ expansion codec r) := by
      rw [hs', HashMap.get?_insert, if_pos rfl]
    obtain ⟨hiff', -, hok'⟩ := put_spec codec (s.put codec r).1 r
    have h' : ((s.put codec r).1.put codec r).2 = .ok () := by
      by_contra hne
      rcases hiff'.mp hne with hbig | ⟨hnone, -⟩ | hparse
      · rw [hs'] at hbig; exact hiff.mpr (.inl hbig) h
      · rw [hget] at hnone; cases hnone
      · exact hiff.mpr (.inr (.inr hparse)) h
    refine Prod.ext ?_ (h'.trans h.symm)
    rw [hok' h', hget, Option.getD_some, Finset.union_assoc, Finset.union_idempotent,
      HashMap.insert_of_get? hget]
  · rw [herr h]

/-! ### `add_provider` -/

/-- What `add_provider` leaves in the list of `record.key`: `record` as the first record
    of its provider, or no record of its provider and none farther from the key, in a
    list of `maxProviders` or more. -/
def Settled (ks : Keyspace) (maxProviders : Nat) (record : ProviderRecord)
    (ps : List ProviderRecord) : Prop :=
  (∃ pre post, ps = pre ++ record :: post ∧ ∀ y ∈ pre, y.provider ≠ record.provider) ∨
    (ps.findIdx? (·.provider = record.provider) = none ∧
      ps.findIdx? (fun p => ks.distance record.provider record.key <
        ks.distance p.provider record.key) = none ∧
      maxProviders ≤ ps.length)

section Providers

variable (ks : Keyspace)

/-- Past the entry lookup, `add_provider` of a record already settled changes nothing. -/
theorem addToEntry_of_settled {s : MemoryStore} {record : ProviderRecord} {ps : List ProviderRecord}
    (hps : s.providers.get? record.key = some ps)
    (h : Settled ks s.config.maxProvidersPerKey record ps) :
    s.addToEntry ks record = (s, .ok ()) := by
  have hor : s.providers.orInsert record.key [] = s.providers := by
    simp [HashMap.orInsert, HashMap.containsKey, hps]
  unfold addToEntry
  simp only [hor, hps, Option.getD_some]
  rcases h with ⟨pre, post, rfl, hpre⟩ | ⟨hnew, hfar, hfull⟩
  · rw [findIdx?_append_cons (by simpa using hpre) (by simp)]
    dsimp only
    rw [List.set_append_right _ _ (Nat.le_refl _), Nat.sub_self, List.set_cons_zero,
      HashMap.insert_of_get? hps]
  · rw [hnew, hfar, if_neg (Nat.not_lt.mpr hfull)]

/-- Past the entry lookup, `add_provider` settles the record it is given. -/
theorem settled_addToEntry (s : MemoryStore) (record : ProviderRecord) :
    ∃ ps, (s.addToEntry ks record).1.providers.get? record.key = some ps ∧
      Settled ks s.config.maxProvidersPerKey record ps := by
  have hins : ∀ L, ((s.providers.orInsert record.key []).insert record.key L).get? record.key =
      some L := fun L => by rw [HashMap.get?_insert, if_pos rfl]
  have hnot : ∀ {ps : List ProviderRecord}, ps.findIdx? (·.provider = record.provider) = none →
      ∀ y ∈ ps, y.provider ≠ record.provider := fun h y hy => by
    simpa using List.findIdx?_eq_none_iff.mp h y hy
  rcases addToEntry_cases ks s record with ⟨i, hi, heq⟩ | ⟨hnew, i, hi, heq⟩ | ⟨hnew, hfar, heq⟩
  · -- in place: the record takes the place of the first record of its provider
    obtain ⟨pre, x, post, hps, rfl, hpre, -⟩ := findIdx?_eq_some_split hi
    refine ⟨_, heq ▸ hins _, .inl ⟨pre, post, ?_, fun y hy => by simpa using hpre y hy⟩⟩
    rw [hps, Nat.zero_add, List.set_append_right _ _ (Nat.le_refl _), Nat.sub_self,
      List.set_cons_zero]
  · -- inserted before the first provider farther away; a drop past the bound keeps it
    obtain ⟨pre, x, post, hps, rfl, -, -⟩ := findIdx?_eq_some_split hi
    have hpre : ∀ y ∈ pre, y.provider ≠ record.provider :=
      fun y hy => hnot hnew y (hps ▸ List.mem_append_left _ hy)
    refine ⟨_, heq ▸ hins _, .inl ?_⟩
    rw [hps, Nat.zero_add, insertIdx_length_append]
    split
    · exact ⟨pre, (x :: post).dropLast, by rw [List.dropLast_append_cons, List.dropLast_cons₂],
        hpre⟩
    · exact ⟨pre, x :: post, rfl, hpre⟩
  · -- pushed at the end while there is room, dropped otherwise
    split at heq
    · exact ⟨_, heq ▸ hins _, .inl ⟨_, [], rfl, hnot hnew⟩⟩
    · rename_i hfull
      refine ⟨s.providersOf record.key, ?_, .inr ⟨hnew, hfar, Nat.not_lt.mp hfull⟩⟩
      rw [heq, HashMap.get?_orInsert, if_pos rfl]
      rfl

/-- A provider record `add_provider` accepted is accepted again, and its second
    `add_provider` changes nothing; one it refused is refused again. -/
theorem addProvider_addProvider (s : MemoryStore) (record : ProviderRecord) :
    (s.addProvider ks record).1.addProvider ks record = s.addProvider ks record := by
  cases h : (s.addProvider ks record).2 with
  | error e => rw [(addProvider_error h).2.2]
  | ok u =>
    have h1 : s.addProvider ks record = s.addToEntry ks record :=
      addProvider_eq_addToEntry ks (by rw [h]; rfl)
    rw [h1]
    obtain ⟨ps, pd, hr⟩ := addToEntry_frame ks s record
    obtain ⟨L, hL, hset⟩ := settled_addToEntry ks s record
    have hcfg : (s.addToEntry ks record).1.config = s.config := by rw [hr]
    simp only [addProvider, hL]
    rw [addToEntry_of_settled ks hL (hcfg ▸ hset), hr]

end Providers

/-! ### The other calls -/

theorem remove_remove (s : MemoryStore) (k : Key) : (s.remove k).remove k = s.remove k := by
  simp only [remove, HashMap.remove, List.filter_filter, Bool.and_self]

theorem retain_retain (s : MemoryStore) (f : Key → Record → Bool) :
    (s.retain f).retain f = s.retain f := by
  simp only [retain, HashMap.mapValues, List.map_map, Function.comp_def, Finset.filter_filter,
    and_self]

/-- `remove_provider` where `provider` has no record under `key`, and `key` no empty list,
    changes nothing. -/
theorem removeProvider_of_absent {s : MemoryStore} {key : Key} {provider : PeerId}
    (habs : ∀ x ∈ s.providersOf key, x.provider ≠ provider)
    (hne : s.providers.get? key ≠ some []) : s.removeProvider key provider = s := by
  unfold removeProvider
  split
  · rfl
  · rename_i ps hps
    have hnone : ps.findIdx? (·.provider = provider) = none :=
      List.findIdx?_eq_none_iff.mpr fun x hx => by
        simpa using habs x (by simp [providersOf, hps, hx])
    have hps' : ps ≠ [] := fun h => hne (h ▸ hps)
    simp only [hnone, List.isEmpty_iff, hps', if_false, HashMap.insert_of_get? hps]

/-- `remove_provider` of a key with distinct providers leaves no record of `provider`
    under `key`, and no empty list: a second call changes nothing. -/
theorem removeProvider_removeProvider (s : MemoryStore) (key : Key) (provider : PeerId)
    (hd : ((s.providersOf key).map (·.provider)).Nodup) :
    (s.removeProvider key provider).removeProvider key provider = s.removeProvider key provider := by
  -- after the first call, no record of the key has the provider
  obtain ⟨L, hL, hget, hkey⟩ : ∃ L : List ProviderRecord, (∀ x ∈ L, x.provider ≠ provider) ∧
      (s.removeProvider key provider).providersOf key = L ∧
      ((s.removeProvider key provider).providers.containsKey key = true ↔ L ≠ []) := by
    have hw := removeEntry_providersOf s key
    unfold removeProvider
    split
    · rename_i hnone
      exact ⟨[], by simp, by simp [providersOf, hnone], by simp [HashMap.containsKey, hnone]⟩
    · rename_i ps hps
      have hd' : (ps.map (·.provider)).Nodup := by simpa [providersOf, hps] using hd
      split
      · rename_i i hi
        split
        · rename_i p hp
          obtain ⟨-, hpv, -, hne⟩ := eraseIdx_findIdx? hd' hi hp
          exact ⟨_, hpv ▸ hne, (hw _ _).1, (hw _ _).2.2⟩
        · rename_i hnone
          obtain ⟨pre, x, post, rfl, rfl, -, -⟩ := findIdx?_eq_some_split hi
          simp at hnone
      · rename_i hnone
        exact ⟨_, fun x hx => by simpa using List.findIdx?_eq_none_iff.mp hnone x hx,
          (hw _ _).1, (hw _ _).2.2⟩
  -- so the second finds nothing to remove, and a key without records is gone
  refine removeProvider_of_absent (hget ▸ hL) fun h => ?_
  have hnil : L = [] := by rw [← hget]; simp [providersOf, h]
  exact hkey.mp (by simp [HashMap.containsKey, h]) hnil

/-- The providers of every key of a reachable store are distinct. -/
theorem providersOf_nodup_of_reachable {codec : RecordCodec} {ks : Keyspace} {s : MemoryStore}
    (hs : Reachable codec ks s) (key : Key) : ((s.providersOf key).map (·.provider)).Nodup := by
  have hwf : ProvidersWF ks s.config s.providers := by
    induction hs with
    | init localId config => exact ⟨fun _ _ h => (by cases h), fun _ _ h => (by cases h), Nat.zero_le _⟩
    | step op _ ih => exact providersWF_step codec ih op
  unfold providersOf
  cases hps : s.providers.get? key with
  | none => exact List.nodup_nil
  | some ps => exact (hwf.sorted key ps hps).distinct

end MemoryStore

open MemoryStore in
/-- From every reachable store, every call made twice in a row leaves the store as one
    call does, and a second `put` or `add_provider` answers as the first. -/
theorem calls_idempotent (codec : RecordCodec) (ks : Keyspace) (s : MemoryStore)
    (hs : Reachable codec ks s) :
    (∀ op, (s.step codec ks op).step codec ks op = s.step codec ks op) ∧
      (∀ r, (s.put codec r).1.put codec r = s.put codec r) ∧
      ∀ record, (s.addProvider ks record).1.addProvider ks record = s.addProvider ks record := by
  refine ⟨fun op => ?_, put_put codec s, addProvider_addProvider ks s⟩
  cases op with
  | put r => exact congrArg Prod.fst (put_put codec s r)
  | remove k => exact remove_remove s k
  | retain f => exact retain_retain s f
  | addProvider record => exact congrArg Prod.fst (addProvider_addProvider ks s record)
  | removeProvider key provider =>
    exact removeProvider_removeProvider s key provider (providersOf_nodup_of_reachable hs key)

/-- Two providers of key `[0]`, one of them the local peer, and a record. -/
def republishOps : List Op :=
  [.addProvider ⟨[0], 1, none⟩, .addProvider ⟨[0], 4, none⟩, .put ⟨[0], [7], none, none⟩]

theorem calls_idempotent_republish :
    (∀ op, (((MemoryStore.new 1).run plainCodec flatKeyspace republishOps).step plainCodec
        flatKeyspace op).step plainCodec flatKeyspace op =
        ((MemoryStore.new 1).run plainCodec flatKeyspace republishOps).step plainCodec
          flatKeyspace op) ∧
      (∀ r, (((MemoryStore.new 1).run plainCodec flatKeyspace republishOps).put plainCodec r).1.put
          plainCodec r = ((MemoryStore.new 1).run plainCodec flatKeyspace republishOps).put
            plainCodec r) ∧
      ∀ record, (((MemoryStore.new 1).run plainCodec flatKeyspace republishOps).addProvider
          flatKeyspace record).1.addProvider flatKeyspace record =
        ((MemoryStore.new 1).run plainCodec flatKeyspace republishOps).addProvider flatKeyspace
          record :=
  calls_idempotent plainCodec flatKeyspace _ ((Reachable.init 1 _).run republishOps)

end Nox.Kademlia
