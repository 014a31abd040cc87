import Nox.Spec.ProviderOrder

/-!
# The local peer's provider records

`provided` is meant to hold exactly the local peer's records of `providers`, and it does
not (`provided_out_of_sync`): an in-place update leaves the old record in it, and a later
`remove_provider` removes only the new one. What does hold over every run is what
`RecordStore::provided` is read for, the republishing of the local peer's records: every
record of `provided` is the local peer's, and every key the local peer provides has a
record of the local peer in `provided`, possibly an outdated one.

This file also has what `add_provider` and `remove_provider` do to the list of one key:
`add_provider` can return `Ok` without storing the record, exactly when the list is full
and every provider in it is at least as near to the key; `remove_provider` removes the
provider's record, keeps the order of the others, and drops a key it leaves empty.

## Key results

- `provided_covers_local_providers`: the invariant of `provided` over every run.
- `addProvider_stores_iff`: when a successful `add_provider` stores its record.
- `removeProvider_spec`: `remove_provider` on a list of distinct providers.
-/

namespace Nox.Kademlia

/-- `provided` as the calls keep it: only the local peer's records, and for every key and
    every local provider record of that key in `providers`, a record of the key and the
    local peer. -/
structure ProvidedWF (s : MemoryStore) : Prop where
  onlyLocal : ∀ r ∈ s.provided, r.provider = s.localKey
  covers : ∀ k, ∀ r ∈ s.providersOf k, r.provider = s.localKey →
    ∃ q ∈ s.provided, q.key = k ∧ q.provider = r.provider

namespace ProvidedWF

/-- A change to the providers of `key` keeps `ProvidedWF` when what it adds to `provided`
    is local, the local providers of `key` are covered afterwards, and no record of
    another key leaves `provided`. -/
theorem of_change {s s' : MemoryStore} (key : Key) (h : ProvidedWF s)
    (hloc : s'.localKey = s.localKey)
    (hother : ∀ k, k ≠ key → s'.providersOf k = s.providersOf k)
    (hadd : ∀ r ∈ s'.provided, r ∈ s.provided ∨ r.provider = s.localKey)
    (hcov : ∀ r ∈ s'.providersOf key, r.provider = s.localKey →
      ∃ q ∈ s'.provided, q.key = key ∧ q.provider = r.provider)
    (hkeep : ∀ q ∈ s.provided, q.key ≠ key → q ∈ s'.provided) : ProvidedWF s' := by
  refine ⟨fun r hr => ?_, fun k r hr hl => ?_⟩
  · rw [hloc]
    rcases hadd r hr with h' | h'
    · exact h.onlyLocal r h'
    · exact h'
  · rw [hloc] at hl
    by_cases hk : k = key
    · subst hk; exact hcov r hr hl
    · rw [hother k hk] at hr
      obtain ⟨q, hq, hqk, hqp⟩ := h.covers k r hr hl
      exact ⟨q, hkeep q hq fun h' => hk (hqk ▸ h'), hqk, hqp⟩

end ProvidedWF

namespace MemoryStore

/-- The providers of a key whose entry was written with `L`. -/
theorem providersOf_entry (s : MemoryStore) (key k : Key) (L : List ProviderRecord)
    (pd : Finset ProviderRecord) :
    ({ s with providers := (s.providers.orInsert key []).insert key L, provided := pd } :
      MemoryStore).providersOf k = if k = key then L else s.providersOf k := by
  simp only [providersOf, HashMap.get?_insert, HashMap.get?_orInsert]
  split <;> simp

private theorem providersOf_orInsert (s : MemoryStore) (key k : Key) :
    ({ s with providers := s.providers.orInsert key [] } : MemoryStore).providersOf k =
      s.providersOf k := by
  simp only [providersOf, HashMap.get?_orInsert]
  split <;> simp_all

section Add

variable {ks : Keyspace} {s : MemoryStore} (h : ProvidedWF s)
include h

/-- The pushes and inserts of `add_provider` without an eviction: a list of old providers
    of the key and `record`, with `record` added to `provided` when it is local. -/
theorem providedWF_store (record : ProviderRecord) (L : List ProviderRecord)
    (hL : ∀ r ∈ L, r = record ∨ r ∈ s.providersOf record.key) :
    ProvidedWF { s with
      providers := (s.providers.orInsert record.key []).insert record.key L,
      provided := if s.localKey = record.provider then Insert.insert record s.provided
        else s.provided } := by
  have hsub : s.provided ⊆
      if s.localKey = record.provider then Insert.insert record s.provided else s.provided := by
    split
    · exact Finset.subset_insert _ _
    · exact subset_rfl
  -- only `record.key`'s entry changes, and `provided` only gains `record`
  refine h.of_change record.key rfl (fun k hk => by rw [providersOf_entry, if_neg hk])
    (fun r hr => ?_) (fun r hr hl => ?_) (fun q hq _ => hsub hq)
  · split at hr
    · rename_i hl
      rcases Finset.mem_insert.mp hr with rfl | hr
      · exact .inr hl.symm
      · exact .inl hr
    · exact .inl hr
  · rw [providersOf_entry, if_pos rfl] at hr
    rcases hL r hr with rfl | hr
    · exact ⟨r, by rw [if_pos hl.symm]; exact Finset.mem_insert_self _ _, rfl, rfl⟩
    · obtain ⟨q, hq, hqk, hqp⟩ := h.covers _ r hr hl
      exact ⟨q, hsub hq, hqk, hqp⟩

/-- The insert of `add_provider` with an eviction: the list less its last record `p`,
    which leaves `provided`. -/
theorem providedWF_evict (record : ProviderRecord) (L : List ProviderRecord) {p : ProviderRecord}
    (hp : L.getLast? = some p) (hd : (L.map (·.provider)).Nodup)
    (hL : ∀ r ∈ L, r = record ∨ r ∈ s.providersOf record.key) (hpk : p.key = record.key) :
    ProvidedWF { s with
      providers := (s.providers.orInsert record.key []).insert record.key L.dropLast,
      provided := (if s.localKey = record.provider then Insert.insert record s.provided
        else s.provided).erase p } := by
  -- the farthest record `p` goes, and no record left has its provider
  have hsplit : L.dropLast ++ [p] = L := List.dropLast_append_getLast? p hp
  have hfar : ∀ r ∈ L.dropLast, r.provider ≠ p.provider := by
    rw [← hsplit, List.map_append, List.nodup_append] at hd
    exact fun r hr he => hd.2.2 (List.mem_map_of_mem _ hr) (by simp [he])
  have hsub : ∀ q ∈ s.provided, q ≠ p → q ∈
      (if s.localKey = record.provider then Insert.insert record s.provided else s.provided).erase p := by
    intro q hq hne
    refine Finset.mem_erase.mpr ⟨hne, ?_⟩
    split
    · exact Finset.mem_insert_of_mem hq
    · exact hq
  -- only `record.key`'s entry changes; `provided` gains `record` and loses `p`
  refine h.of_change record.key rfl (fun k hk => by rw [providersOf_entry, if_neg hk])
    (fun r hr => ?_) (fun r hr hl => ?_) (fun q hq hqk => hsub q hq fun he => hqk (he ▸ hpk))
  · have hr := Finset.mem_of_mem_erase hr
    split at hr
    · rename_i hl
      rcases Finset.mem_insert.mp hr with rfl | hr
      · exact .inr hl.symm
      · exact .inl hr
    · exact .inl hr
  · rw [providersOf_entry, if_pos rfl] at hr
    have hne := hfar r hr
    rcases hL r ((List.dropLast_sublist L).subset hr) with rfl | hr'
    · refine ⟨r, Finset.mem_erase.mpr ⟨fun he => hne (he ▸ rfl), ?_⟩, rfl, rfl⟩
      rw [if_pos hl.symm]; exact Finset.mem_insert_self _ _
    · obtain ⟨q, hq, hqk, hqp⟩ := h.covers _ r hr' hl
      exact ⟨q, hsub q hq fun he => hne (hqp ▸ he ▸ rfl), hqk, hqp⟩

/-- `add_provider` past the entry lookup keeps `ProvidedWF`. -/
theorem providedWF_addToEntry (hwf : ProvidersWF ks s.config s.providers)
    (record : ProviderRecord) : ProvidedWF (s.addToEntry ks record).1 := by
  obtain ⟨hs, -⟩ : SortedProviders ks record.key (s.providersOf record.key) ∧
      (s.providersOf record.key).length ≤ s.config.maxProvidersPerKey := entry_wf hwf record.key
  have hps : ((s.providers.orInsert record.key []).get? record.key).getD [] =
      s.providersOf record.key := by
    simp [HashMap.get?_orInsert, providersOf]
  unfold addToEntry
  dsimp only
  rw [hps]
  split
  · -- the provider's record, updated in place: the old one still covers it
    rename_i i hi
    obtain ⟨pre, x, post, hpsx, -, -, hx⟩ := findIdx?_eq_some_split hi
    refine h.of_change record.key rfl (fun k hk => by rw [providersOf_entry, if_neg hk])
      (fun r hr => .inl hr) (fun r hr hl => ?_) (fun q hq _ => hq)
    rw [providersOf_entry, if_pos rfl] at hr
    rcases List.mem_or_eq_of_mem_set hr with hr | rfl
    · exact h.covers _ r hr hl
    · have hxp : x.provider = r.provider := of_decide_eq_true hx
      obtain ⟨q, hq, hqk, hqp⟩ := h.covers _ x (by rw [hpsx]; simp) (hxp ▸ hl)
      exact ⟨q, hq, hqk, hqp.trans hxp⟩
  · -- a new provider: inserted at its place, then the entry is truncated or stored
    rename_i hnew
    split
    · rename_i i hi
      obtain ⟨pre, x, post, hpsx, hi', -, -⟩ := findIdx?_eq_some_split hi
      have hlen : i ≤ (s.providersOf record.key).length := by
        rw [hpsx, List.length_append]; omega
      have hL : ∀ r ∈ (s.providersOf record.key).insertIdx i record,
          r = record ∨ r ∈ s.providersOf record.key := fun r hr => (List.mem_insertIdx hlen).mp hr
      split
      · split
        · rename_i p hp
          refine providedWF_evict h record _ hp (hs.insertIdx hnew hi).1.distinct hL ?_
          rcases hL p (List.mem_of_mem_getLast? hp) with rfl | hp'
          · rfl
          · exact hs.key p hp'
        · rename_i hnil
          have := (hs.insertIdx hnew hi).2
          rw [List.getLast?_eq_none_iff.mp hnil] at this
          simp at this
      · exact providedWF_store h record _ hL
    · split
      · exact providedWF_store h record _ fun r hr => by
          rcases List.mem_append.mp hr with hr | hr
          · exact .inr hr
          · exact .inl (List.mem_singleton.mp hr)
      · refine h.of_change record.key rfl (fun k _ => providersOf_orInsert s record.key k)
          (fun r hr => .inl hr) (fun r hr hl => ?_) (fun q hq _ => hq)
        rw [providersOf_orInsert] at hr
        exact h.covers _ r hr hl

end Add

private theorem eraseIdx_length_append {α : Type} (pre l : List α) (a : α) :
    (pre ++ a :: l).eraseIdx pre.length = pre ++ l := by
  rw [List.eraseIdx_append_of_length_le (Nat.le_refl _), Nat.sub_self, List.eraseIdx_cons_zero]

/-- `remove_provider` of the first record of `provider` in a list of distinct providers:
    what is left has no record of the removed one's provider. -/
theorem eraseIdx_findIdx? {ps : List ProviderRecord} {provider : PeerId} {i : Nat}
    {p : ProviderRecord} (hd : (ps.map (·.provider)).Nodup)
    (hi : ps.findIdx? (·.provider = provider) = some i) (hp : ps[i]? = some p) :
    p ∈ ps ∧ p.provider = provider ∧ ps.eraseIdx i = ps.filter (·.provider ≠ provider) ∧
      ∀ x ∈ ps.eraseIdx i, x.provider ≠ p.provider := by
  obtain ⟨pre, y, post, rfl, rfl, hpre, hy⟩ := findIdx?_eq_some_split hi
  rw [Nat.zero_add, List.getElem?_append_right (Nat.le_refl _), Nat.sub_self,
    List.getElem?_cons_zero] at hp
  cases hp
  have hy' : p.provider = provider := of_decide_eq_true hy
  rw [List.map_append, List.map_cons, List.nodup_middle, List.nodup_cons, ← List.map_append] at hd
  have hne : ∀ x ∈ pre ++ post, x.provider ≠ p.provider :=
    fun x hx he => hd.1 (he ▸ List.mem_map_of_mem _ hx)
  refine ⟨by simp, hy', ?_, by rw [Nat.zero_add, eraseIdx_length_append]; exact hne⟩
  rw [Nat.zero_add, eraseIdx_length_append, List.filter_append, List.filter_cons, hy',
    List.filter_eq_self.mpr, List.filter_eq_self.mpr]
  · simp
  · exact fun x hx => by simpa [hy'] using hne x (List.mem_append_right _ hx)
  · exact fun x hx => by simpa [hy'] using hne x (List.mem_append_left _ hx)

/-- What `remove_provider` writes for a key with providers `ps`: a sublist of `ps`, and
    `provided` as it was or less a record of `ps` whose provider is no longer there. -/
theorem providedWF_removeEntry {ks : Keyspace} {s : MemoryStore}
    (hwf : ProvidersWF ks s.config s.providers) (h : ProvidedWF s) {key : Key}
    {ps : List ProviderRecord} (hps : s.providers.get? key = some ps)
    (r : List ProviderRecord × Finset ProviderRecord)
    (hr : r.1.Sublist ps ∧ (r.2 = s.provided ∨
      ∃ p ∈ ps, r.2 = s.provided.erase p ∧ ∀ x ∈ r.1, x.provider ≠ p.provider)) :
    ProvidedWF (if r.1.isEmpty then { s with providers := s.providers.remove key, provided := r.2 }
      else { s with providers := s.providers.insert key r.1, provided := r.2 }) := by
  obtain ⟨hsub, hpd⟩ := hr
  have hs := hwf.sorted key ps hps
  have hpsk : s.providersOf key = ps := by simp [providersOf, hps]
  -- what `provided` became: as it was, or without the record removed
  have hadd : ∀ q ∈ r.2, q ∈ s.provided ∨ q.provider = s.localKey := by
    rcases hpd with hpd | ⟨p, -, hpd, -⟩ <;> rw [hpd]
    · exact fun q hq => .inl hq
    · exact fun q hq => .inl (Finset.mem_of_mem_erase hq)
  have hkeep : ∀ q ∈ s.provided, q.key ≠ key → q ∈ r.2 := by
    rcases hpd with hpd | ⟨p, hp, hpd, -⟩ <;> rw [hpd]
    · exact fun q hq _ => hq
    · exact fun q hq hqk => Finset.mem_erase.mpr ⟨fun he => hqk (he ▸ hs.key p hp), hq⟩
  split
  · refine h.of_change key rfl (fun k hk => ?_) hadd (fun x hx _ => ?_) hkeep
    · simp [providersOf, HashMap.get?_remove, hk]
    · simp [providersOf, HashMap.get?_remove] at hx
  · refine h.of_change key rfl (fun k hk => ?_) hadd (fun x hx hl => ?_) hkeep
    · simp [providersOf, HashMap.get?_insert, hk]
    · simp only [providersOf, HashMap.get?_insert, if_pos rfl, Option.getD_some] at hx
      obtain ⟨q, hq, hqk, hqp⟩ := h.covers key x (hpsk ▸ hsub.subset hx) hl
      refine ⟨q, ?_, hqk, hqp⟩
      rcases hpd with hpd | ⟨p, -, hpd, hne⟩ <;> rw [hpd]
      · exact hq
      · exact Finset.mem_erase.mpr ⟨fun he => hne x hx (hqp ▸ he ▸ rfl), hq⟩

/-- `remove_provider` keeps `ProvidedWF`. -/
theorem providedWF_removeProvider {ks : Keyspace} {s : MemoryStore}
    (hwf : ProvidersWF ks s.config s.providers) (h : ProvidedWF s) (key : Key) (provider : PeerId) :
    ProvidedWF (s.removeProvider key provider) := by
  unfold removeProvider
  split
  · exact h
  · rename_i ps hps
    refine providedWF_removeEntry hwf h hps _ ?_
    split
    · rename_i i hi
      split
      · rename_i p hp
        obtain ⟨hp, -, -, hne⟩ := eraseIdx_findIdx? (hwf.sorted key ps hps).distinct hi hp
        exact ⟨List.eraseIdx_sublist _ _, .inr ⟨p, hp, rfl, hne⟩⟩
      · exact ⟨List.eraseIdx_sublist _ _, .inl rfl⟩
    · exact ⟨List.Sublist.refl _, .inl rfl⟩

theorem providedWF_addProvider {ks : Keyspace} {s : MemoryStore}
    (hwf : ProvidersWF ks s.config s.providers) (h : ProvidedWF s) (record : ProviderRecord) :
    ProvidedWF (s.addProvider ks record).1 := by
  unfold addProvider
  split
  · exact providedWF_addToEntry h hwf record
  · split
    · exact h
    · exact providedWF_addToEntry h hwf record

theorem providedWF_step (codec : RecordCodec) {ks : Keyspace} {s : MemoryStore}
    (hwf : ProvidersWF ks s.config s.providers) (h : ProvidedWF s) (op : Op) :
    ProvidedWF (s.step codec ks op) := by
  cases op with
  | put r =>
    obtain ⟨_, hr⟩ := put_frame codec s r
    simp only [step, hr]
    exact ⟨h.onlyLocal, h.covers⟩
  | remove k => exact ⟨h.onlyLocal, h.covers⟩
  | retain f => exact ⟨h.onlyLocal, h.covers⟩
  | addProvider record => exact providedWF_addProvider hwf h record
  | removeProvider key provider => exact providedWF_removeProvider hwf h key provider

end MemoryStore

/-- Over every run, `provided` holds only the local peer's records, and for every key
    and every record of the local peer among the key's providers it holds a record of
    that key and the local peer: every key the local peer provides is republished,
    possibly with an outdated record. -/
theorem provided_covers_local_providers (codec : RecordCodec) (ks : Keyspace) (s : MemoryStore)
    (hs : Reachable codec ks s) :
    (∀ r ∈ s.provided, r.provider = s.localKey) ∧
      ∀ k, ∀ r ∈ s.providersOf k, r.provider = s.localKey →
        ∃ q ∈ s.provided, q.key = k ∧ q.provider = r.provider := by
  have h : ProvidersWF ks s.config s.providers ∧ ProvidedWF s := by
    induction hs with
    | init localId config =>
      refine ⟨⟨fun _ _ h => (by cases h), fun _ _ h => (by cases h), Nat.zero_le _⟩,
        ⟨fun _ h => absurd h (Finset.not_mem_empty _), fun _ _ h => ?_⟩⟩
      simp [MemoryStore.providersOf, MemoryStore.withConfig] at h
    | step op _ ih =>
      exact ⟨MemoryStore.providersWF_step codec ih.1 op, MemoryStore.providedWF_step codec ih.1 ih.2 op⟩
  exact ⟨h.2.onlyLocal, h.2.covers⟩

/-- The local peer `1` adds its record for key `[0]` and updates it in place. -/
def localUpdateOps : List Op := [.addProvider ⟨[0], 1, none⟩, .addProvider ⟨[0], 1, some 5⟩]

theorem provided_covers_local_providers_update :
    (∀ r ∈ ((MemoryStore.new 1).run plainCodec flatKeyspace localUpdateOps).provided,
        r.provider = ((MemoryStore.new 1).run plainCodec flatKeyspace localUpdateOps).localKey) ∧
      ∀ k, ∀ r ∈ ((MemoryStore.new 1).run plainCodec flatKeyspace localUpdateOps).providersOf k,
        r.provider = ((MemoryStore.new 1).run plainCodec flatKeyspace localUpdateOps).localKey →
        ∃ q ∈ ((MemoryStore.new 1).run plainCodec flatKeyspace localUpdateOps).provided,
          q.key = k ∧ q.provider = r.provider :=
  provided_covers_local_providers plainCodec flatKeyspace _ ((Reachable.init 1 _).run localUpdateOps)

/-! ### One key's list -/

/-- A successful `add_provider` stores its record exactly when the provider was already
    there (updated in place), some provider is farther from the key, or the list has
    room; otherwise it returns `Ok` and drops the record. -/
theorem addProvider_stores_iff (ks : Keyspace) (s : MemoryStore) (record : ProviderRecord)
    (hok : (s.addProvider ks record).2 = .ok ()) :
    record ∈ (s.addProvider ks record).1.providersOf record.key ↔
      (∃ p ∈ s.providersOf record.key, p.provider = record.provider ∨
        ks.distance record.provider record.key < ks.distance p.provider record.key) ∨
      (s.providersOf record.key).length < s.config.maxProvidersPerKey := by
  rw [MemoryStore.addProvider_eq_addToEntry ks (by rw [hok]; rfl)]
  change record ∈ ((s.addToEntry ks record).1.providers.get? record.key).getD [] ↔ _
  have hget : ∀ L, (((s.providers.orInsert record.key []).insert record.key L).get?
      record.key).getD [] = L := fun L => by simp [HashMap.get?_insert]
  rcases MemoryStore.addToEntry_cases ks s record with
    ⟨i, hi, heq⟩ | ⟨-, i, hi, heq⟩ | ⟨hnew, hfar, heq⟩ <;> rw [heq]
  · -- the provider's record, updated in place
    obtain ⟨pre, x, post, hps, rfl, -, hx⟩ := findIdx?_eq_some_split hi
    rw [hget]
    refine iff_of_true (List.mem_set _ _ (by rw [hps]; simp) record)
      (.inl ⟨x, by rw [hps]; simp, .inl (of_decide_eq_true hx)⟩)
  · -- inserted before the first farther provider, which stays
    obtain ⟨pre, x, post, hps, rfl, -, hx⟩ := findIdx?_eq_some_split hi
    have hL : (s.providersOf record.key).insertIdx (0 + pre.length) record =
        pre ++ record :: x :: post := by rw [hps, Nat.zero_add, insertIdx_length_append]
    rw [hget, hL]
    refine iff_of_true ?_ (.inl ⟨x, by rw [hps]; simp, .inr (of_decide_eq_true hx)⟩)
    split
    · rw [List.dropLast_append_cons]; simp
    · simp
  · -- pushed at the end while there is room, dropped otherwise
    simp only [List.findIdx?_eq_none_iff, decide_eq_false_iff_not, not_lt] at hnew hfar
    split
    · rw [hget]; exact iff_of_true (by simp) (.inr ‹_›)
    · rename_i hfull
      refine iff_of_false (fun h => hnew record ?_ rfl) ?_
      · simpa [HashMap.get?_orInsert, MemoryStore.providersOf] using h
      · rintro (⟨p, hp, hpp | hpd⟩ | hlt)
        · exact hnew p hp hpp
        · exact absurd (hfar p hp) (not_le.mpr hpd)
        · exact hfull hlt

/-- Key `[0]` holds provider `0`, with room for one provider. -/
def fullKeyStore : MemoryStore :=
  (MemoryStore.withConfig 1 { MemoryStoreConfig.default with maxProvidersPerKey := 1 }).run
    plainCodec flatKeyspace [.addProvider ⟨[0], 0, none⟩]

/-- Provider `5`, farther from `[0]` than provider `0`, gets `Ok` and is not stored. -/
theorem addProvider_stores_iff_full :
    (fullKeyStore.addProvider flatKeyspace ⟨[0], 5, none⟩).2 = .ok () ∧
      (⟨[0], 5, none⟩ ∈
          (fullKeyStore.addProvider flatKeyspace ⟨[0], 5, none⟩).1.providersOf [0] ↔
        (∃ p ∈ fullKeyStore.providersOf [0], p.provider = 5 ∨
          flatKeyspace.distance 5 [0] < flatKeyspace.distance p.provider [0]) ∨
        (fullKeyStore.providersOf [0]).length < fullKeyStore.config.maxProvidersPerKey) :=
  ⟨rfl, addProvider_stores_iff flatKeyspace fullKeyStore ⟨[0], 5, none⟩ rfl⟩

/-- The store `remove_provider` writes for a key: the list `L` under it, or no entry when
    `L` is empty. -/
theorem removeEntry_providersOf (s : MemoryStore) (key : Key) (L : List ProviderRecord)
    (pd : Finset ProviderRecord) :
    (if L.isEmpty then { s with providers := s.providers.remove key, provided := pd }
        else { s with providers := s.providers.insert key L, provided := pd } : MemoryStore).providersOf key = L ∧
      (∀ k, k ≠ key → (if L.isEmpty then { s with providers := s.providers.remove key, provided := pd }
        else { s with providers := s.providers.insert key L, provided := pd } : MemoryStore).providersOf k =
          s.providersOf k) ∧
      ((if L.isEmpty then { s with providers := s.providers.remove key, provided := pd }
        else { s with providers := s.providers.insert key L, provided := pd } : MemoryStore).providers.containsKey
          key = true ↔ L ≠ []) := by
  cases L with
  | nil =>
    simp +contextual [MemoryStore.providersOf, HashMap.get?_remove, HashMap.containsKey]
  | cons x L =>
    simp +contextual [MemoryStore.providersOf, HashMap.get?_insert, HashMap.containsKey]

/-- `remove_provider` on a key whose providers are distinct: the key's list loses the
    provider's record and keeps the others in order, the other keys keep theirs, and
    the key stays exactly when it has a provider left. -/
theorem removeProvider_spec (s : MemoryStore) (key : Key) (provider : PeerId)
    (hd : ((s.providersOf key).map (·.provider)).Nodup) :
    (s.removeProvider key provider).providersOf key =
        (s.providersOf key).filter (·.provider ≠ provider) ∧
      (∀ k, k ≠ key → (s.removeProvider key provider).providersOf k = s.providersOf k) ∧
      ((s.removeProvider key provider).providers.containsKey key = true ↔
        (s.providersOf key).filter (·.provider ≠ provider) ≠ []) := by
  unfold MemoryStore.removeProvider
  split
  · rename_i hnone
    -- no entry for the key: nothing to remove
    have hps : s.providersOf key = [] := by simp [MemoryStore.providersOf, hnone]
    simp [hps, HashMap.containsKey, hnone]
  · rename_i ps hps
    -- the provider's record, if found, is erased; the entry goes once empty
    have hpsk : s.providersOf key = ps := by simp [MemoryStore.providersOf, hps]
    rw [hpsk] at hd ⊢
    split
    · rename_i i hi
      split
      · rename_i p hp
        dsimp only
        rw [(MemoryStore.eraseIdx_findIdx? hd hi hp).2.2.1]
        exact removeEntry_providersOf s key _ _
      · rename_i hnone
        obtain ⟨pre, x, post, rfl, rfl, -, -⟩ := findIdx?_eq_some_split hi
        simp at hnone
    · rename_i hnone
      simp only [List.findIdx?_eq_none_iff, decide_eq_false_iff_not] at hnone
      have hf : ps.filter (·.provider ≠ provider) = ps :=
        List.filter_eq_self.mpr fun x hx => by simpa using hnone x hx
      dsimp only
      rw [hf]
      exact removeEntry_providersOf s key _ _

/-- Key `[0]` holds providers `0` and `3`. -/
def twoProvidersStore : MemoryStore :=
  (MemoryStore.new 1).run plainCodec flatKeyspace
    [.addProvider ⟨[0], 0, none⟩, .addProvider ⟨[0], 3, none⟩]

theorem removeProvider_spec_twoProviders :
    ((twoProvidersStore.providersOf [0]).map (·.provider)).Nodup ∧
      ((twoProvidersStore.removeProvider [0] 0).providersOf [0] =
          (twoProvidersStore.providersOf [0]).filter (·.provider ≠ 0) ∧
        (∀ k, k ≠ [0] → (twoProvidersStore.removeProvider [0] 0).providersOf k =
          twoProvidersStore.providersOf k) ∧
        ((twoProvidersStore.removeProvider [0] 0).providers.containsKey [0] = true ↔
          (twoProvidersStore.providersOf [0]).filter (·.provider ≠ 0) ≠ [])) :=
  ⟨by decide, removeProvider_spec twoProvidersStore [0] 0 (by decide)⟩

end Nox.Kademlia
