import Mathlib.Data.List.Nodup
import Mathlib.Data.List.Perm.Basic

/-!
# Hash maps as association lists

`std::collections::HashMap` is modelled by its live entries, in iteration order.
Key uniqueness is a field of the structure, so every map the model builds has
distinct keys and no theorem has to assume it.

A Rust map promises no iteration order. The model fixes one per map (the order of
`entries`), and every theorem about a loop over a map is stated for every list, so
it holds whatever order the Rust map visits its entries in.

The loops of the plumber visit a map with a body that threads some state:
`mapAccum` is `for (k, v) in map.iter_mut()`, `mapAccumBreak` is the same loop
with an early `break`, and `retainAccum` is `retain` with a closure that may mutate
both the value and what it captured.
-/

namespace Nox

/-- A `HashMap`: its live entries, with pairwise distinct keys. -/
@[ext]
structure HashMap (K V : Type) where
  entries : List (K × V)
  nodupKeys : (entries.map Prod.fst).Nodup

namespace HashMap

variable {K V σ : Type}

/-- `HashMap::default()`. -/
def empty : HashMap K V := ⟨[], List.nodup_nil⟩

/-- The keys, in iteration order. -/
def keys (m : HashMap K V) : List K := m.entries.map Prod.fst

/-- `HashMap::len`. -/
def len (m : HashMap K V) : Nat := m.entries.length

/-- `HashMap::is_empty`. -/
def isEmpty (m : HashMap K V) : Bool := m.entries.isEmpty

section Keyed

variable [DecidableEq K]

/-- `HashMap::get`. -/
def get? (m : HashMap K V) (k : K) : Option V := m.entries.lookup k

/-- `HashMap::contains_key`. -/
def containsKey (m : HashMap K V) (k : K) : Bool := (m.get? k).isSome

/-- A key that `get?` does not find is not a key of the entries. -/
private theorem not_mem_keys_of_get?_eq_none {m : HashMap K V} {k : K} (h : m.get? k = none) :
    k ∉ m.entries.map Prod.fst := by
  simp only [get?, List.lookup_eq_none_iff, bne_iff_ne, ne_eq] at h
  simp only [List.mem_map, not_exists, not_and]
  exact fun p hp hk => h p hp hk.symm

/-- Mutation through `get_mut(k)` (or an occupied `entry(k)`): the value under `k`,
    if any, becomes `f` of it. -/
def modify (m : HashMap K V) (k : K) (f : V → V) : HashMap K V :=
  ⟨m.entries.map (fun e => if e.1 = k then (e.1, f e.2) else e), by
    rw [List.map_map]
    convert m.nodupKeys using 2
    funext e; by_cases he : e.1 = k <;> simp [he]⟩

/-- `HashMap::insert`: the value under a present key is replaced in place, otherwise
    the entry is appended. -/
def insert (m : HashMap K V) (k : K) (v : V) : HashMap K V :=
  match h : m.get? k with
  | some _ => m.modify k fun _ => v
  | none => ⟨m.entries ++ [(k, v)], by
      rw [List.map_append, List.nodup_append]
      exact ⟨m.nodupKeys, List.nodup_singleton _,
        List.disjoint_singleton.mpr (not_mem_keys_of_get?_eq_none h)⟩⟩

/-- `HashMap::remove`. -/
def remove (m : HashMap K V) (k : K) : HashMap K V :=
  ⟨m.entries.filter (fun e => e.1 ≠ k),
    ((List.filter_sublist _).map Prod.fst).nodup m.nodupKeys⟩

/-- `entry(k).or_insert(v)`: an absent key gets `v`, a present one keeps its value. -/
def orInsert (m : HashMap K V) (k : K) (v : V) : HashMap K V :=
  if m.containsKey k then m else m.insert k v

/-- Rewriting every value, keys untouched (`iter_mut` with a stateless body). -/
def mapValues (m : HashMap K V) (f : K → V → V) : HashMap K V :=
  ⟨m.entries.map (fun e => (e.1, f e.1 e.2)), by
    rw [List.map_map]; exact m.nodupKeys⟩

/-- `HashMap::retain` with a closure that keeps no state and leaves the values. -/
def filter (m : HashMap K V) (p : K → V → Bool) : HashMap K V :=
  ⟨m.entries.filter (fun e => p e.1 e.2), ((List.filter_sublist _).map Prod.fst).nodup m.nodupKeys⟩

/-! ### Lookups through the operations -/

private theorem lookup_cons_ite (k a : K) (b : V) (l : List (K × V)) :
    ((a, b) :: l).lookup k = if k = a then some b else l.lookup k := by
  by_cases h : k = a
  · subst h; simp [List.lookup_cons]
  · have : (k == a) = false := by simpa using h
    simp [List.lookup_cons, this, h]

@[simp] theorem get?_empty (k : K) : (empty : HashMap K V).get? k = none := rfl

theorem get?_modify (m : HashMap K V) (k k' : K) (f : V → V) :
    (m.modify k f).get? k' = if k' = k then (m.get? k').map f else m.get? k' := by
  simp only [get?, modify]
  induction m.entries with
  | nil => simp
  | cons e l ih =>
    obtain ⟨a, b⟩ := e
    by_cases ha : a = k
    · subst ha; by_cases hk : k' = a <;> simp_all [lookup_cons_ite]
    · have : k ≠ a := Ne.symm ha
      by_cases hk : k' = a <;> simp_all [lookup_cons_ite]

theorem get?_insert (m : HashMap K V) (k k' : K) (v : V) :
    (m.insert k v).get? k' = if k' = k then some v else m.get? k' := by
  unfold insert
  split <;> rename_i h
  · rw [get?_modify]; split <;> simp_all
  · simp only [get?, List.lookup_append, lookup_cons_ite, List.lookup_nil]
    by_cases hk : k' = k
    · subst hk; simp only [get?] at h; simp [h]
    · simp [hk]

theorem get?_remove (m : HashMap K V) (k k' : K) :
    (m.remove k).get? k' = if k' = k then none else m.get? k' := by
  simp only [get?, remove]
  induction m.entries with
  | nil => simp
  | cons e l ih =>
    obtain ⟨a, b⟩ := e
    by_cases ha : a = k
    · subst ha
      simp only [List.filter_cons, ne_eq, not_true_eq_false, decide_False, Bool.false_eq_true,
        ite_false, ih, lookup_cons_ite]
      by_cases hk : k' = a <;> simp [hk]
    · simp only [List.filter_cons, ne_eq, ha, not_false_eq_true, decide_True, ite_true,
        lookup_cons_ite, ih]
      by_cases hk : k' = a
      · subst hk; simp [ha]
      · simp [hk]

theorem get?_orInsert (m : HashMap K V) (k k' : K) (v : V) :
    (m.orInsert k v).get? k' = if k' = k then some ((m.get? k).getD v) else m.get? k' := by
  unfold orInsert containsKey
  cases h : m.get? k <;> by_cases hk : k' = k <;> simp_all [get?_insert]

theorem get?_mapValues (m : HashMap K V) (f : K → V → V) (k : K) :
    (m.mapValues f).get? k = (m.get? k).map (f k) := by
  simp only [get?, mapValues]
  induction m.entries with
  | nil => simp
  | cons e l ih =>
    obtain ⟨a, b⟩ := e
    by_cases hk : k = a <;> simp_all [lookup_cons_ite]

theorem mem_entries_of_get? {m : HashMap K V} {k : K} {v : V} (h : m.get? k = some v) :
    (k, v) ∈ m.entries := by
  obtain ⟨l₁, l₂, he, -⟩ := List.lookup_eq_some_iff.mp h
  simp [he]

theorem get?_of_mem {m : HashMap K V} {k : K} {v : V} (h : (k, v) ∈ m.entries) :
    m.get? k = some v := by
  obtain ⟨l₁, l₂, he⟩ := List.append_of_mem h
  have hnd := m.nodupKeys
  rw [he, List.map_append, List.nodup_append] at hnd
  refine List.lookup_eq_some_iff.mpr ⟨l₁, l₂, he, fun p hp => ?_⟩
  have : k ≠ p.1 := fun hk => hnd.2.2 (List.mem_map_of_mem _ hp) (by simp [hk])
  simpa using this

theorem get?_eq_some_iff {m : HashMap K V} {k : K} {v : V} :
    m.get? k = some v ↔ (k, v) ∈ m.entries :=
  ⟨mem_entries_of_get?, get?_of_mem⟩

theorem get?_filter (m : HashMap K V) (p : K → V → Bool) (k : K) :
    (m.filter p).get? k = (m.get? k).filter (p k) := by
  apply Option.ext; intro v
  simp only [Option.mem_def, get?_eq_some_iff, filter, List.mem_filter]
  rw [← get?_eq_some_iff]
  cases m.get? k with
  | none => simp
  | some a =>
    simp only [Option.filter, Option.some.injEq]
    split <;> rename_i hp
    · exact ⟨fun ⟨h, _⟩ => by rw [h], fun h => ⟨Option.some.inj h, Option.some.inj h ▸ hp⟩⟩
    · exact ⟨fun ⟨h, hv⟩ => absurd (h ▸ hv) hp, fun h => absurd h (by simp)⟩

@[simp] theorem modify_empty (k : K) (f : V → V) : (empty : HashMap K V).modify k f = empty := rfl

/-- Inserting the value a key already has changes nothing. -/
theorem insert_of_get? {m : HashMap K V} {k : K} {v : V} (h : m.get? k = some v) :
    m.insert k v = m := by
  unfold insert
  split
  · refine HashMap.ext ((List.map_congr_left fun e he => ?_).trans (List.map_id _))
    split
    · rename_i hk
      have he' := get?_of_mem he
      rw [hk, h, Option.some.injEq] at he'
      rw [he']; rfl
    · rfl
  · simp_all

/-! ### Keys through the operations -/

theorem mem_keys_iff {m : HashMap K V} {k : K} : k ∈ m.keys ↔ m.containsKey k = true := by
  simp only [keys, containsKey, List.mem_map, Option.isSome_iff_exists, get?_eq_some_iff]
  constructor
  · rintro ⟨⟨k', v⟩, h, rfl⟩; exact ⟨v, h⟩
  · rintro ⟨v, h⟩; exact ⟨(k, v), h, rfl⟩

theorem containsKey_of_keys_eq {m m' : HashMap K V} (h : m'.keys = m.keys) (k : K) :
    m'.containsKey k = m.containsKey k := by
  rw [Bool.eq_iff_iff, ← mem_keys_iff, ← mem_keys_iff, h]

theorem containsKey_of_get? {m m' : HashMap K V} {k : K}
    (h : ∀ v, m.get? k = some v → m'.get? k = some v) : m.containsKey k → m'.containsKey k := by
  simp only [containsKey, Option.isSome_iff_exists]
  exact fun ⟨v, hv⟩ => ⟨v, h v hv⟩

@[simp] theorem containsKey_empty (k : K) : (empty : HashMap K V).containsKey k = false := rfl

@[simp] theorem containsKey_modify (m : HashMap K V) (k k' : K) (f : V → V) :
    (m.modify k f).containsKey k' = m.containsKey k' := by
  simp only [containsKey, get?_modify]; split <;> simp

theorem containsKey_insert (m : HashMap K V) (k k' : K) (v : V) :
    (m.insert k v).containsKey k' = if k' = k then true else m.containsKey k' := by
  simp only [containsKey, get?_insert]; split <;> rfl

theorem containsKey_orInsert (m : HashMap K V) (k k' : K) (v : V) :
    (m.orInsert k v).containsKey k' = if k' = k then true else m.containsKey k' := by
  simp only [containsKey, get?_orInsert]; split <;> rfl

/-! ### Sizes through the operations -/

theorem len_insert (m : HashMap K V) (k : K) (v : V) :
    (m.insert k v).len = if m.containsKey k then m.len else m.len + 1 := by
  unfold insert containsKey
  split <;> rename_i h <;> simp [h, len, modify]

theorem len_orInsert (m : HashMap K V) (k : K) (v : V) :
    (m.orInsert k v).len = if m.containsKey k then m.len else m.len + 1 := by
  unfold orInsert
  split <;> rename_i h
  · simp [h]
  · simp [h, len_insert]

theorem len_remove_le (m : HashMap K V) (k : K) : (m.remove k).len ≤ m.len :=
  List.length_filter_le _ _

omit [DecidableEq K] in
@[simp] theorem len_mapValues (m : HashMap K V) (f : K → V → V) : (m.mapValues f).len = m.len :=
  List.length_map _ _

/-! ### Sums over the values through the operations -/

theorem flatMap_modify {α : Type} (m : HashMap K V) (k : K) (f : V → V) (ν : V → List α)
    (hf : ∀ v, ν (f v) = ν v) :
    (m.modify k f).entries.flatMap (ν ·.2) = m.entries.flatMap (ν ·.2) := by
  simp only [modify, List.flatMap_map]
  congr 1; funext e; split <;> simp [hf]

theorem flatMap_insert_of_get?_eq_none {α : Type} (m : HashMap K V) (k : K) (v : V)
    (ν : V → List α) (h : m.get? k = none) :
    (m.insert k v).entries.flatMap (ν ·.2) = m.entries.flatMap (ν ·.2) ++ ν v := by
  unfold insert
  split
  · simp_all
  · simp

end Keyed

/-! ### Loops that thread a state -/

/-- The body of `for (k, v) in map.iter_mut()` run over a list of entries, threading
    the state the body mutates. -/
def mapAccumEntries (f : σ → K → V → σ × V) : σ → List (K × V) → σ × List (K × V)
  | st, [] => (st, [])
  | st, (k, v) :: rest =>
    let r := f st k v
    let t := mapAccumEntries f r.1 rest
    (t.1, (k, r.2) :: t.2)

/-- The same loop, left by `break` at the first entry where the body returns `none`;
    that entry and the rest are untouched. -/
def mapAccumBreakEntries (f : σ → K → V → Option (σ × V)) :
    σ → List (K × V) → σ × List (K × V)
  | st, [] => (st, [])
  | st, (k, v) :: rest =>
    match f st k v with
    | none => (st, (k, v) :: rest)
    | some r =>
      let t := mapAccumBreakEntries f r.1 rest
      (t.1, (k, r.2) :: t.2)

/-- `retain` with a closure that may mutate the value and its captured state; an
    entry is kept when the closure returns `true`. -/
def retainAccumEntries (f : σ → K → V → σ × V × Bool) : σ → List (K × V) → σ × List (K × V)
  | st, [] => (st, [])
  | st, (k, v) :: rest =>
    let r := f st k v
    let t := retainAccumEntries f r.1 rest
    (t.1, if r.2.2 then (k, r.2.1) :: t.2 else t.2)

@[simp] theorem map_fst_mapAccumEntries (f : σ → K → V → σ × V) (st : σ) (l : List (K × V)) :
    (mapAccumEntries f st l).2.map Prod.fst = l.map Prod.fst := by
  induction l generalizing st with
  | nil => rfl
  | cons e rest ih => simp [mapAccumEntries, ih]

@[simp] theorem map_fst_mapAccumBreakEntries (f : σ → K → V → Option (σ × V)) (st : σ)
    (l : List (K × V)) : (mapAccumBreakEntries f st l).2.map Prod.fst = l.map Prod.fst := by
  induction l generalizing st with
  | nil => rfl
  | cons e rest ih =>
    simp only [mapAccumBreakEntries]
    split <;> simp [ih]

theorem map_fst_retainAccumEntries_sublist (f : σ → K → V → σ × V × Bool) (st : σ)
    (l : List (K × V)) :
    ((retainAccumEntries f st l).2.map Prod.fst).Sublist (l.map Prod.fst) := by
  induction l generalizing st with
  | nil => exact List.Sublist.slnil
  | cons e rest ih =>
    simp only [retainAccumEntries]
    split
    · exact (ih _).cons₂ _
    · exact (ih _).cons _

/-- `for (k, v) in map.iter_mut() { body }`. -/
def mapAccum (f : σ → K → V → σ × V) (st : σ) (m : HashMap K V) : σ × HashMap K V :=
  let r := mapAccumEntries f st m.entries
  (r.1, ⟨r.2, by rw [map_fst_mapAccumEntries]; exact m.nodupKeys⟩)

/-- `for (k, v) in map.iter_mut() { … else { break } }`. -/
def mapAccumBreak (f : σ → K → V → Option (σ × V)) (st : σ) (m : HashMap K V) :
    σ × HashMap K V :=
  let r := mapAccumBreakEntries f st m.entries
  (r.1, ⟨r.2, by rw [map_fst_mapAccumBreakEntries]; exact m.nodupKeys⟩)

@[simp] theorem keys_mapAccum (f : σ → K → V → σ × V) (st : σ) (m : HashMap K V) :
    (m.mapAccum f st).2.keys = m.keys :=
  map_fst_mapAccumEntries f st m.entries

@[simp] theorem keys_mapAccumBreak (f : σ → K → V → Option (σ × V)) (st : σ) (m : HashMap K V) :
    (m.mapAccumBreak f st).2.keys = m.keys :=
  map_fst_mapAccumBreakEntries f st m.entries

/-- `map.retain(|k, v| body)` with a body that threads a state. -/
def retainAccum (f : σ → K → V → σ × V × Bool) (st : σ) (m : HashMap K V) :
    σ × HashMap K V :=
  let r := retainAccumEntries f st m.entries
  (r.1, ⟨r.2, (map_fst_retainAccumEntries_sublist f st m.entries).nodup m.nodupKeys⟩)

section With

variable {P R : Type} [DecidableEq K]

/-- The body of `mapAccumWith`: an entry whose key has a pool is visited with it. -/
def mapAccumWithBody (g : R → K → V → P → R × V × P) (st : HashMap K P × R) (k : K) (v : V) :
    (HashMap K P × R) × V :=
  match st.1.get? k with
  | none => (st, v)
  | some p =>
    let q := g st.2 k v p
    ((st.1.insert k q.2.2, q.1), q.2.1)

/-- The loop `for (k, v) in m.iter_mut() { if let Some(p) = pools.get_mut(k) { body } }`:
    every entry whose key also has an entry in `pools` is visited together with it, and
    the body threads an accumulator. -/
def mapAccumWith (g : R → K → V → P → R × V × P) (r : R) (m : HashMap K V)
    (pools : HashMap K P) : R × HashMap K V × HashMap K P :=
  let out := m.mapAccum (mapAccumWithBody g) (pools, r)
  (out.1.2, out.2, out.1.1)

@[simp] theorem keys_mapAccumWith (g : R → K → V → P → R × V × P) (r : R) (m : HashMap K V)
    (pools : HashMap K P) : (m.mapAccumWith g r pools).2.1.keys = m.keys :=
  keys_mapAccum _ _ m

end With

/-! ### Loop lemmas -/

section LoopLemmas

variable {α τ : Type}

/-- A loop whose body, seen through `π`, is the body `f'` is, seen through `π`, the loop
    of `f'`. -/
theorem mapAccumEntries_map_state (π : σ → τ) (f : σ → K → V → σ × V)
    (f' : τ → K → V → τ × V) (hf : ∀ st k v, (π (f st k v).1, (f st k v).2) = f' (π st) k v)
    (st : σ) (l : List (K × V)) :
    (π (mapAccumEntries f st l).1, (mapAccumEntries f st l).2) = mapAccumEntries f' (π st) l := by
  induction l generalizing st with
  | nil => rfl
  | cons e rest ih =>
    obtain ⟨k, v⟩ := e
    have h := hf st k v
    simp only [mapAccumEntries, ← h, ← ih]

/-- A loop whose body writes a value that does not depend on the state rewrites the
    values as `mapValues` does. -/
private theorem mapAccumEntries_snd_eq_map (f : σ → K → V → σ × V) (g : K → V → V)
    (hf : ∀ st k v, (f st k v).2 = g k v) (st : σ) (l : List (K × V)) :
    (mapAccumEntries f st l).2 = l.map (fun e => (e.1, g e.1 e.2)) := by
  induction l generalizing st with
  | nil => rfl
  | cons e rest ih => simp [mapAccumEntries, ih, hf]

theorem mapAccum_snd_eq_mapValues (f : σ → K → V → σ × V) (g : K → V → V)
    (hf : ∀ st k v, (f st k v).2 = g k v) (st : σ) (m : HashMap K V) :
    (m.mapAccum f st).2 = m.mapValues g :=
  HashMap.ext (mapAccumEntries_snd_eq_map f g hf st m.entries)

/-- A property of the state that every visit keeps holds after the loop. -/
theorem mapAccumEntries_state_invariant (I : σ → Prop) (f : σ → K → V → σ × V)
    (hf : ∀ st k v, I st → I (f st k v).1) (st : σ) (hst : I st) (l : List (K × V)) :
    I (mapAccumEntries f st l).1 := by
  induction l generalizing st with
  | nil => exact hst
  | cons e rest ih => exact ih _ (hf _ _ _ hst)

/-- What the visit of one entry makes true of the state, and every visit keeps, holds
    after the loop. -/
theorem mapAccumEntries_establishes (Q : σ → Prop) (f : σ → K → V → σ × V)
    (hkeep : ∀ st k v, Q st → Q (f st k v).1) {k : K} {v : V} (hest : ∀ st, Q (f st k v).1) :
    ∀ (st : σ) (l : List (K × V)), (k, v) ∈ l → Q (mapAccumEntries f st l).1
  | _, [], h => by cases h
  | st, e :: rest, h => by
    rcases List.mem_cons.mp h with rfl | h
    · exact mapAccumEntries_state_invariant Q f hkeep _ (hest st) rest
    · exact mapAccumEntries_establishes Q f hkeep hest _ rest h

/-- A loop whose body changes neither the state nor the entries it visits changes
    nothing. -/
private theorem mapAccumEntries_of_fixed (f : σ → K → V → σ × V) (st : σ) :
    ∀ l : List (K × V), (∀ e ∈ l, f st e.1 e.2 = (st, e.2)) → mapAccumEntries f st l = (st, l)
  | [], _ => rfl
  | (k, v) :: rest, h => by
    simp only [mapAccumEntries, h (k, v) (.head _),
      mapAccumEntries_of_fixed f st rest fun e he => h e (.tail _ he)]

/-- `mapAccumEntries_of_fixed` for the loop with `break`. -/
private theorem mapAccumBreakEntries_of_fixed (f : σ → K → V → Option (σ × V)) (st : σ) :
    ∀ l : List (K × V), (∀ e ∈ l, f st e.1 e.2 = none ∨ f st e.1 e.2 = some (st, e.2)) →
      mapAccumBreakEntries f st l = (st, l)
  | [], _ => rfl
  | (k, v) :: rest, h => by
    rcases h (k, v) (.head _) with hf | hf <;> simp only [mapAccumBreakEntries, hf]
    rw [mapAccumBreakEntries_of_fixed f st rest fun e he => h e (.tail _ he)]

/-- A `retain` whose closure changes neither its state nor the values is a filter. -/
private theorem retainAccumEntries_of_fixed (f : σ → K → V → σ × V × Bool) (p : K → V → Bool) (st : σ) :
    ∀ l : List (K × V), (∀ e ∈ l, f st e.1 e.2 = (st, e.2, p e.1 e.2)) →
      retainAccumEntries f st l = (st, l.filter fun e => p e.1 e.2)
  | [], _ => rfl
  | (k, v) :: rest, h => by
    simp only [retainAccumEntries, h (k, v) (.head _), List.filter_cons,
      retainAccumEntries_of_fixed f p st rest fun e he => h e (.tail _ he)]

theorem mapAccum_of_fixed (f : σ → K → V → σ × V) (st : σ) (m : HashMap K V)
    (h : ∀ e ∈ m.entries, f st e.1 e.2 = (st, e.2)) : m.mapAccum f st = (st, m) :=
  have hl := mapAccumEntries_of_fixed f st m.entries h
  Prod.ext (congrArg Prod.fst hl : (mapAccumEntries f st m.entries).1 = st)
    (HashMap.ext (congrArg Prod.snd hl : (mapAccumEntries f st m.entries).2 = m.entries))

theorem mapAccumBreak_of_fixed (f : σ → K → V → Option (σ × V)) (st : σ) (m : HashMap K V)
    (h : ∀ e ∈ m.entries, f st e.1 e.2 = none ∨ f st e.1 e.2 = some (st, e.2)) :
    m.mapAccumBreak f st = (st, m) :=
  have hl := mapAccumBreakEntries_of_fixed f st m.entries h
  Prod.ext (congrArg Prod.fst hl : (mapAccumBreakEntries f st m.entries).1 = st)
    (HashMap.ext (congrArg Prod.snd hl : (mapAccumBreakEntries f st m.entries).2 = m.entries))

theorem retainAccum_of_fixed (f : σ → K → V → σ × V × Bool) (p : K → V → Bool) (st : σ)
    (m : HashMap K V) (h : ∀ e ∈ m.entries, f st e.1 e.2 = (st, e.2, p e.1 e.2)) :
    m.retainAccum f st = (st, m.filter p) :=
  have hl := retainAccumEntries_of_fixed f p st m.entries h
  Prod.ext (congrArg Prod.fst hl : (retainAccumEntries f st m.entries).1 = st)
    (HashMap.ext (congrArg Prod.snd hl : (retainAccumEntries f st m.entries).2 = m.entries.filter fun e => p e.1 e.2))

/-- `mapAccumEntries_state_invariant` for the loop with `break`. -/
theorem mapAccumBreakEntries_state_invariant (I : σ → Prop) (f : σ → K → V → Option (σ × V))
    (hf : ∀ st k v r, f st k v = some r → I st → I r.1) (st : σ) (hst : I st)
    (l : List (K × V)) : I (mapAccumBreakEntries f st l).1 := by
  induction l generalizing st with
  | nil => exact hst
  | cons e rest ih =>
    obtain ⟨k, v⟩ := e
    simp only [mapAccumBreakEntries]
    split
    · exact hst
    · rename_i r hr; exact ih _ (hf _ _ _ _ hr hst)

/-- A multiset of items held by the state and by the values, which every visit only
    moves around, is the same after the loop. -/
theorem perm_mapAccumEntries (μ : σ → List α) (ν : V → List α) (f : σ → K → V → σ × V)
    (hf : ∀ st k v, (μ (f st k v).1 ++ ν (f st k v).2).Perm (μ st ++ ν v))
    (st : σ) (l : List (K × V)) :
    (μ (mapAccumEntries f st l).1 ++ (mapAccumEntries f st l).2.flatMap (ν ·.2)).Perm
      (μ st ++ l.flatMap (ν ·.2)) := by
  induction l generalizing st with
  | nil => simp [mapAccumEntries]
  | cons e rest ih =>
    obtain ⟨k, v⟩ := e
    simp only [mapAccumEntries, List.flatMap_cons]
    refine (List.perm_append_comm_assoc _ _ _).trans (((ih _).append_left _).trans ?_)
    rw [← List.append_assoc, ← List.append_assoc]
    exact (List.perm_append_comm.trans (hf st k v)).append_right _

/-- `perm_mapAccumEntries` for the loop with `break`. -/
theorem perm_mapAccumBreakEntries (μ : σ → List α) (ν : V → List α)
    (f : σ → K → V → Option (σ × V))
    (hf : ∀ st k v r, f st k v = some r → (μ r.1 ++ ν r.2).Perm (μ st ++ ν v))
    (st : σ) (l : List (K × V)) :
    (μ (mapAccumBreakEntries f st l).1 ++ (mapAccumBreakEntries f st l).2.flatMap (ν ·.2)).Perm
      (μ st ++ l.flatMap (ν ·.2)) := by
  induction l generalizing st with
  | nil => simp [mapAccumBreakEntries]
  | cons e rest ih =>
    obtain ⟨k, v⟩ := e
    simp only [mapAccumBreakEntries]
    split
    · exact List.Perm.refl _
    · rename_i r hr
      simp only [List.flatMap_cons]
      refine (List.perm_append_comm_assoc _ _ _).trans (((ih _).append_left _).trans ?_)
      rw [← List.append_assoc, ← List.append_assoc]
      exact (List.perm_append_comm.trans (hf st k v r hr)).append_right _

end LoopLemmas

section WithLemmas

variable {P R : Type} [DecidableEq K]

/-- A key the loop does not visit keeps its pool. -/
private theorem get?_mapAccumEntries_withBody_of_not_mem (g : R → K → V → P → R × V × P)
    (st : HashMap K P × R) (l : List (K × V)) {k : K} (hk : k ∉ l.map Prod.fst) :
    (mapAccumEntries (mapAccumWithBody g) st l).1.1.get? k = st.1.get? k := by
  induction l generalizing st with
  | nil => rfl
  | cons e rest ih =>
    obtain ⟨a, b⟩ := e
    simp only [List.map_cons, List.mem_cons, not_or] at hk
    simp only [mapAccumEntries, mapAccumWithBody]
    split
    · exact ih _ hk.2
    · rw [ih _ hk.2, get?_insert, if_neg hk.1]

private theorem lookup_mapAccumEntries_withBody (g : R → K → V → P → R × V × P)
    (hg : ∀ r r' k v p, (g r k v p).2 = (g r' k v p).2) (l : List (K × V))
    (hl : (l.map Prod.fst).Nodup) (pools : HashMap K P) (r : R) (k : K) :
    ((mapAccumEntries (mapAccumWithBody g) (pools, r) l).2.lookup k,
      (mapAccumEntries (mapAccumWithBody g) (pools, r) l).1.1.get? k) =
      match l.lookup k, pools.get? k with
      | some v, some p => (some (g r k v p).2.1, some (g r k v p).2.2)
      | v, p => (v, p) := by
  induction l generalizing pools r with
  | nil => cases h : pools.get? k <;> simp [mapAccumEntries, h]
  | cons e rest ih =>
    obtain ⟨a, b⟩ := e
    simp only [List.map_cons, List.nodup_cons] at hl
    have ih' := ih hl.2
    cases hp : pools.get? a with
    -- no pool for this entry's key: the entry is kept as it is
    | none =>
      simp only [mapAccumEntries, mapAccumWithBody, hp, lookup_cons_ite]
      by_cases hk : k = a
      · subst hk; rw [get?_mapAccumEntries_withBody_of_not_mem _ _ _ hl.1]; simp [hp]
      · simp only [hk, ite_false]; exact ih' _ _
    -- a pool: the entry and its pool are rewritten by `g`; the keys after it are distinct
    | some p =>
      simp only [mapAccumEntries, mapAccumWithBody, hp, lookup_cons_ite]
      by_cases hk : k = a
      · subst hk
        rw [get?_mapAccumEntries_withBody_of_not_mem _ _ _ hl.1, get?_insert]; simp [hp]
      · simp only [hk, ite_false]
        rw [ih', get?_insert, if_neg hk]
        cases rest.lookup k <;> cases pools.get? k <;> simp [hg (g r a b p).1 r]

/-- What the loop of `mapAccumWith` leaves under one key: the visit of that key alone,
    when the key has both an entry and a pool, whatever the other entries are. -/
theorem get?_mapAccumWith (g : R → K → V → P → R × V × P)
    (hg : ∀ r r' k v p, (g r k v p).2 = (g r' k v p).2) (r : R) (m : HashMap K V)
    (pools : HashMap K P) (k : K) :
    ((m.mapAccumWith g r pools).2.1.get? k, (m.mapAccumWith g r pools).2.2.get? k) =
      match m.get? k, pools.get? k with
      | some v, some p => (some (g r k v p).2.1, some (g r k v p).2.2)
      | v, p => (v, p) :=
  lookup_mapAccumEntries_withBody g hg m.entries m.nodupKeys pools r k

/-- The accumulator of `mapAccumWith`, when the body adds to it what the entry alone
    decides: the entries that have a pool, folded in in order. -/
theorem fst_mapAccumWith (g : R → K → V → P → R × V × P) (F : R → K → V → R)
    (hg : ∀ r k v p, (g r k v p).1 = F r k v) (r : R) (m : HashMap K V) (pools : HashMap K P) :
    (m.mapAccumWith g r pools).1 =
      (m.entries.filter fun e => pools.containsKey e.1).foldl (fun r e => F r e.1 e.2) r := by
  -- generalise over the pools, which the loop rewrites but only at keys it already has
  suffices h : ∀ (l : List (K × V)) (pools' : HashMap K P) (r : R),
      (∀ k, pools'.containsKey k = pools.containsKey k) →
      (mapAccumEntries (mapAccumWithBody g) (pools', r) l).1.2 =
        (l.filter fun e => pools.containsKey e.1).foldl (fun r e => F r e.1 e.2) r from
    h m.entries pools r fun _ => rfl
  intro l
  induction l with
  | nil => exact fun _ _ _ => rfl
  | cons e rest ih =>
    intro pools' r hp
    obtain ⟨k, v⟩ := e
    cases hk : pools'.get? k with
    | none =>
      have hc : pools.containsKey k = false := by rw [← hp]; simp [containsKey, hk]
      simp only [mapAccumEntries, mapAccumWithBody, hk, List.filter_cons, hc]
      exact ih pools' r hp
    | some p =>
      have hc : pools.containsKey k = true := by rw [← hp]; simp [containsKey, hk]
      simp only [mapAccumEntries, mapAccumWithBody, hk, List.filter_cons, hc, ite_true,
        List.foldl_cons, hg]
      refine ih _ _ fun k' => ?_
      rw [containsKey_insert]
      split
      · subst_vars; exact hc.symm
      · exact hp k'

/-- A loop over the entries with their pools whose body changes nothing changes nothing. -/
theorem mapAccumWith_of_fixed (g : R → K → V → P → R × V × P) (r : R) (m : HashMap K V)
    (pools : HashMap K P)
    (h : ∀ e ∈ m.entries, ∀ p, pools.get? e.1 = some p → g r e.1 e.2 p = (r, e.2, p)) :
    m.mapAccumWith g r pools = (r, m, pools) := by
  have hm := mapAccum_of_fixed (mapAccumWithBody g) (pools, r) m fun e he => by
    unfold mapAccumWithBody
    split
    · rfl
    · rename_i p hp
      simp only [h e he p hp, insert_of_get? hp]
  simp only [mapAccumWith, hm]

end WithLemmas

/-- Under each key, `retain` leaves what the closure made of the value, for the state the
    closure had at that key, if it kept the entry, and nothing otherwise. -/
theorem lookup_retainAccumEntries [DecidableEq K] (f : σ → K → V → σ × V × Bool)
    (l : List (K × V)) (hl : (l.map Prod.fst).Nodup) (st : σ) (k : K) :
    (l.lookup k = none ∧ (retainAccumEntries f st l).2.lookup k = none) ∨
      ∃ st' v, l.lookup k = some v ∧
        (retainAccumEntries f st l).2.lookup k =
          if (f st' k v).2.2 then some (f st' k v).2.1 else none := by
  induction l generalizing st with
  | nil => exact .inl ⟨rfl, rfl⟩
  | cons e rest ih =>
    obtain ⟨a, b⟩ := e
    simp only [List.map_cons, List.nodup_cons] at hl
    simp only [retainAccumEntries, lookup_cons_ite]
    by_cases hk : k = a
    · -- the key itself: its later occurrences are none, the keys being distinct
      subst hk
      refine .inr ⟨st, b, by simp, ?_⟩
      have hnot : (retainAccumEntries f (f st k b).1 rest).2.lookup k = none := by
        rw [List.lookup_eq_none_iff]
        intro p hp
        have := (map_fst_retainAccumEntries_sublist f (f st k b).1 rest).subset
          (List.mem_map_of_mem Prod.fst hp)
        simp only [bne_iff_ne, ne_eq]
        exact fun h => hl.1 (h ▸ this)
      split <;> simp [lookup_cons_ite, hnot]
    · have hrest : ∀ r : List (K × V), (if (f st a b).2.2 then (a, (f st a b).2.1) :: r else r).lookup k
          = r.lookup k := by
        intro r; split <;> simp [lookup_cons_ite, hk]
      simp only [hrest, hk, ite_false]
      exact ih hl.2 _

end HashMap

end Nox
