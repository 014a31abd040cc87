import Nox.Spec.Providers

/-!
# Regular records

`put` refuses a record exactly when its value is too large, when its key is new and the
store already has `max_records` keys, or when it is a multi-record that does not parse;
a refused `put` leaves the store as it was, and an accepted one only adds the record's
expansion to the set under its key. So no run of the store has more than `max_records`
keys.

A key can be left with no record: `retain` empties sets but keeps their keys, and `get`
then answers with the reduction of the empty set.

## Key results

- `records_bounded_put_spec`: the bound over every run, and `put` exactly.
- `retain_keeps_emptied_key`: a key whose records `retain` removed is still found.
-/

namespace Nox.Kademlia

/-- What an accepted `put r` adds to the set under `r.key`: the records of a
    multi-record, or `r` itself. -/
def expansion (codec : RecordCodec) (r : Record) : Finset Record :=
  match codec.expandRecordSet r with
  | some (.ok rs) => rs.toFinset
  | some (.error _) => ∅
  | none => {r}

namespace MemoryStore

theorem insert_eq_ok_iff (codec : RecordCodec) (set : Finset Record) (r : Record) :
    (∀ e, codec.expandRecordSet r ≠ some (.error e)) ↔
      insert codec set r = .ok (set ∪ expansion codec r) := by
  unfold insert expansion
  cases codec.expandRecordSet r with
  | none => simp [Finset.insert_eq, Finset.union_comm]
  | some x => cases x <;> simp

/-- `put` exactly: when it refuses, and what it stores when it accepts. -/
theorem put_spec (codec : RecordCodec) (s : MemoryStore) (r : Record) :
    ((s.put codec r).2 ≠ .ok () ↔
        s.config.maxValueBytes ≤ r.value.length ∨
        (s.records.get? r.key = none ∧ s.config.maxRecords ≤ s.records.len) ∨
        ∃ e, codec.expandRecordSet r = some (.error e)) ∧
      ((s.put codec r).2 ≠ .ok () → (s.put codec r).1 = s) ∧
      ((s.put codec r).2 = .ok () → (s.put codec r).1 =
        { s with records := s.records.insert r.key ((s.records.get? r.key).getD ∅ ∪ expansion codec r) }) := by
  unfold put
  split
  · -- a value too large is refused first
    rename_i hbig; simp [hbig]
  · rename_i hbig
    dsimp only
    by_cases hp : ∃ e, codec.expandRecordSet r = some (.error e)
    · -- a multi-record that does not parse: refused whether the key is new or not
      obtain ⟨e, he⟩ := hp
      have hins : ∀ set, insert codec set r = .error .maxRecords := by
        intro set; unfold insert; rw [he]
      split
      · rw [hins]; simp [hbig, he]
      · split
        · simp [hbig, *]
        · rw [hins]; simp [hbig, he]
    · -- otherwise refused only for a new key with the store full
      have hok : ∀ set, insert codec set r = .ok (set ∪ expansion codec r) := fun set =>
        (insert_eq_ok_iff codec set r).mp (fun e h => hp ⟨e, h⟩)
      split
      · rename_i set hset; rw [hok]; simp [hbig, hp, hset]
      · rename_i hnone
        split
        · rename_i hfull; simp [hbig, hnone, hfull]
        · rename_i hroom; rw [hok]; simp [hbig, hp, hnone, hroom]

theorem len_put_le {codec : RecordCodec} {s : MemoryStore} (hs : s.records.len ≤ s.config.maxRecords)
    (r : Record) : (s.put codec r).1.records.len ≤ s.config.maxRecords := by
  unfold put
  split
  · exact hs
  · dsimp only
    split
    · rename_i set hset
      split
      · rw [HashMap.len_insert, if_pos (by simp [HashMap.containsKey, hset])]; exact hs
      · exact hs
    · rename_i hnone
      split
      · exact hs
      · rename_i hroom
        split
        · rw [HashMap.len_insert, if_neg (by simp [HashMap.containsKey, hnone])]; omega
        · exact hs

@[simp] theorem records_addProvider (ks : Keyspace) (s : MemoryStore) (record : ProviderRecord) :
    (s.addProvider ks record).1.records = s.records := by
  obtain ⟨ps, pd, hr⟩ := addToEntry_frame ks s record
  unfold addProvider
  split
  · rw [hr]
  · split
    · rfl
    · rw [hr]

@[simp] theorem records_removeProvider (s : MemoryStore) (key : Key) (provider : PeerId) :
    (s.removeProvider key provider).records = s.records := by
  unfold removeProvider
  split
  · rfl
  · dsimp only; split <;> rfl

theorem len_step_le (codec : RecordCodec) (ks : Keyspace) {s : MemoryStore}
    (hs : s.records.len ≤ s.config.maxRecords) (op : Op) :
    (s.step codec ks op).records.len ≤ (s.step codec ks op).config.maxRecords := by
  rw [config_step]
  cases op with
  | put r => exact len_put_le hs r
  | remove k => exact (HashMap.len_remove_le _ k).trans hs
  | retain f => simpa [step, retain] using hs
  | addProvider record => simpa [step] using hs
  | removeProvider key provider => simpa [step] using hs

end MemoryStore

theorem records_bounded_put_spec (codec : RecordCodec) (ks : Keyspace) :
    (∀ s, Reachable codec ks s → s.records.len ≤ s.config.maxRecords) ∧
    ∀ (s : MemoryStore) (r : Record),
      ((s.put codec r).2 ≠ .ok () ↔
        s.config.maxValueBytes ≤ r.value.length ∨
        (s.records.get? r.key = none ∧ s.config.maxRecords ≤ s.records.len) ∨
        ∃ e, codec.expandRecordSet r = some (.error e)) ∧
      ((s.put codec r).2 ≠ .ok () → (s.put codec r).1 = s) ∧
      ((s.put codec r).2 = .ok () → (s.put codec r).1 =
        { s with records := s.records.insert r.key ((s.records.get? r.key).getD ∅ ∪ expansion codec r) }) := by
  refine ⟨fun s hs => ?_, MemoryStore.put_spec codec⟩
  induction hs with
  | init localId config => exact Nat.zero_le _
  | step op _ ih => exact MemoryStore.len_step_le codec ks ih op

/-- A store with room for one key, holding one. -/
def oneKeyStore : MemoryStore :=
  (MemoryStore.withConfig 1 ⟨1, 10, 20, 10⟩).run plainCodec flatKeyspace [.put ⟨[0], [1], none, none⟩]

theorem records_bounded_put_spec_full :
    oneKeyStore.records.len = 1 ∧ oneKeyStore.records.len ≤ oneKeyStore.config.maxRecords ∧
      (oneKeyStore.put plainCodec ⟨[2], [1], none, none⟩).2 ≠ .ok () ∧
      (oneKeyStore.put plainCodec ⟨[2], [1], none, none⟩).1 = oneKeyStore := by
  have h := records_bounded_put_spec plainCodec flatKeyspace
  have hfull : (oneKeyStore.put plainCodec ⟨[2], [1], none, none⟩).2 ≠ .ok () :=
    (h.2 _ _).1.mpr (.inr (.inl ⟨by decide, by decide⟩))
  exact ⟨by decide, h.1 _ ((Reachable.init _ _).run _), hfull, (h.2 _ _).2.1 hfull⟩

/-! ### A key left with no record -/

/-- One plain record put under `[0]`, then a `retain` that keeps nothing. -/
def emptiedKeyOps : List Op := [.put ⟨[0], [], none, none⟩, .retain fun _ _ => false]

theorem retain_keeps_emptied_key (reduce : Key → Finset Record → Record) (ks : Keyspace) :
    ((MemoryStore.new 1).run ⟨fun _ => none, reduce⟩ ks emptiedKeyOps).records.get? [0] = some ∅ ∧
      ((MemoryStore.new 1).run ⟨fun _ => none, reduce⟩ ks emptiedKeyOps).get
        ⟨fun _ => none, reduce⟩ [0] = some (reduce [0] ∅) :=
  ⟨rfl, rfl⟩

end Nox.Kademlia
