import Nox.Std.HashMap
import Mathlib.Data.Finset.Basic
import Mathlib.Data.List.InsertIdx

/-!
# The Kademlia record store

`MemoryStore` of `janus/server/src/kademlia/memory_store.rs`: regular records, grouped
in a set per key, and provider records, kept per key in order of XOR distance to the
key, with the set `provided` of the records whose provider is the local peer.

What the store takes from outside its file is a parameter here:

- `Keyspace`: the `kbucket::Key` images of peer ids and record keys (SHA-256 digests
  in libp2p) whose XOR is the distance `add_provider` orders providers by;
- `RecordCodec`: `expand_record_set` and `reduce_record_set` of `super::record`, which
  split a multi-record into its records and fold a set back into one record.

Every theorem holds for every keyspace and every codec. A Rust `HashSet` is a `Finset`,
a `SmallVec` a `List`. The `FnMut` predicate of `retain` visits each stored record once,
so whatever state it keeps, its decisions are those of one function of the key and the
record: `retain` takes that function.
-/

namespace Nox.Kademlia

/-- A peer id. -/
abbrev PeerId := Nat

/-- `kad::record::Key`. -/
abbrev Key := List UInt8

/-- An `Instant`, as a number of ticks. -/
abbrev Instant := Nat

/-- `kad::Record`. -/
structure Record where
  key : Key
  value : List UInt8
  publisher : Option PeerId
  expires : Option Instant
deriving DecidableEq, Repr

/-- `kad::ProviderRecord`. -/
structure ProviderRecord where
  key : Key
  provider : PeerId
  expires : Option Instant
deriving DecidableEq, Repr

/-- `MemoryStoreConfig`. -/
structure MemoryStoreConfig where
  maxRecords : Nat
  maxValueBytes : Nat
  maxProvidersPerKey : Nat
  maxProvidedKeys : Nat
deriving DecidableEq, Repr

/-- `K_VALUE`. -/
def kValue : Nat := 20

/-- `MemoryStoreConfig::default()`. -/
def MemoryStoreConfig.default : MemoryStoreConfig :=
  { maxRecords := 1024, maxValueBytes := 65 * 1024, maxProvidedKeys := 1024,
    maxProvidersPerKey := kValue }

/-- The variants of `store::Error` the store returns. -/
inductive Error
  | maxRecords
  | valueTooLarge
  | maxProvidedKeys
deriving DecidableEq, Repr

/-- The images of peer ids and record keys in the Kademlia keyspace. -/
structure Keyspace where
  peerHash : PeerId → BitVec 256
  keyHash : Key → BitVec 256

/-- `kbucket::Key::new(provider).distance(&kbucket::Key::new(key))`, as a number. -/
def Keyspace.distance (ks : Keyspace) (provider : PeerId) (key : Key) : Nat :=
  (ks.peerHash provider ^^^ ks.keyHash key).toNat

/-- `expand_record_set` and `reduce_record_set`. `expandRecordSet r` is `some (.ok rs)`
    for a multi-record that splits into `rs`, `some (.error e)` for one that does not
    parse, and `none` for a record that is not a multi-record, which Rust hands back as
    `Err(record)`. -/
structure RecordCodec where
  expandRecordSet : Record → Option (Except String (List Record))
  reduceRecordSet : Key → Finset Record → Record

/-- `MemoryStore`; `localKey` is the preimage of its `kbucket::Key`. -/
structure MemoryStore where
  localKey : PeerId
  config : MemoryStoreConfig
  records : HashMap Key (Finset Record)
  providers : HashMap Key (List ProviderRecord)
  provided : Finset ProviderRecord

namespace MemoryStore

/-- `MemoryStore::with_config`. -/
def withConfig (localId : PeerId) (config : MemoryStoreConfig) : MemoryStore :=
  ⟨localId, config, .empty, .empty, ∅⟩

/-- `MemoryStore::new`. -/
def new (localId : PeerId) : MemoryStore := withConfig localId .default

/-- `MemoryStore::retain`: every set keeps the records `f` accepts; the keys stay. -/
def retain (s : MemoryStore) (f : Key → Record → Bool) : MemoryStore :=
  { s with records := s.records.mapValues fun k set => set.filter (f k ·) }

section Codec

variable (codec : RecordCodec)

/-- `MemoryStore::insert`: a multi-record adds its records, a plain one itself; one that
    does not parse is refused, with the set untouched. -/
def insert (set : Finset Record) (record : Record) : Except Error (Finset Record) :=
  match codec.expandRecordSet record with
  | some (.ok records) => .ok (set ∪ records.toFinset)
  | some (.error _) => .error .maxRecords
  | none => .ok (Insert.insert record set)

/-- `RecordStore::get`. -/
def get (s : MemoryStore) (k : Key) : Option Record :=
  (s.records.get? k).map (codec.reduceRecordSet k)

/-- `RecordStore::put`. -/
def put (s : MemoryStore) (r : Record) : MemoryStore × Except Error Unit :=
  if s.config.maxValueBytes ≤ r.value.length then (s, .error .valueTooLarge)
  else
    let numRecords := s.records.len
    match s.records.get? r.key with
    | some set =>
      match insert codec set r with
      | .ok set => ({ s with records := s.records.insert r.key set }, .ok ())
      | .error e => (s, .error e)
    | none =>
      if s.config.maxRecords ≤ numRecords then (s, .error .maxRecords)
      else
        match insert codec ∅ r with
        | .ok set => ({ s with records := s.records.insert r.key set }, .ok ())
        | .error e => (s, .error e)

/-- `RecordStore::records`. -/
def recordList (s : MemoryStore) : List Record :=
  s.records.entries.map fun e => codec.reduceRecordSet e.1 e.2

end Codec

/-- `RecordStore::remove`. -/
def remove (s : MemoryStore) (k : Key) : MemoryStore :=
  { s with records := s.records.remove k }

section Providers

variable (ks : Keyspace)

/-- `add_provider` once the entry for `record.key` exists (`or_insert_with`): an
    in-place update of the record of the same provider, or a new record inserted before
    the first provider farther from the key, the farthest dropped past
    `max_providers_per_key`, or pushed at the end while there is room. -/
def addToEntry (s : MemoryStore) (record : ProviderRecord) : MemoryStore × Except Error Unit :=
  let providers := s.providers.orInsert record.key []
  let ps := (providers.get? record.key).getD []
  match ps.findIdx? (·.provider = record.provider) with
  | some i => ({ s with providers := providers.insert record.key (ps.set i record) }, .ok ())
  | none =>
    let d := ks.distance record.provider record.key
    match ps.findIdx? (fun p => d < ks.distance p.provider record.key) with
    | some i =>
      let provided :=
        if s.localKey = record.provider then Insert.insert record s.provided else s.provided
      let ps := ps.insertIdx i record
      if s.config.maxProvidersPerKey < ps.length then
        match ps.getLast? with
        | some p =>
          ({ s with providers := providers.insert record.key ps.dropLast,
                    provided := provided.erase p }, .ok ())
        | none => ({ s with providers := providers.insert record.key ps, provided }, .ok ())
      else ({ s with providers := providers.insert record.key ps, provided }, .ok ())
    | none =>
      if ps.length < s.config.maxProvidersPerKey then
        let provided :=
          if s.localKey = record.provider then Insert.insert record s.provided else s.provided
        ({ s with providers := providers.insert record.key (ps ++ [record]), provided }, .ok ())
      else ({ s with providers }, .ok ())

/-- `RecordStore::add_provider`: a new key is refused once `max_provided_keys` keys
    have providers. -/
def addProvider (s : MemoryStore) (record : ProviderRecord) : MemoryStore × Except Error Unit :=
  match s.providers.get? record.key with
  | some _ => s.addToEntry ks record
  | none =>
    if s.config.maxProvidedKeys = s.providers.len then (s, .error .maxProvidedKeys)
    else s.addToEntry ks record

end Providers

/-- `RecordStore::providers`. -/
def providersOf (s : MemoryStore) (key : Key) : List ProviderRecord :=
  (s.providers.get? key).getD []

/-- `RecordStore::remove_provider`: the record of `provider` leaves the key's list and
    `provided`, and a key left without providers is dropped. -/
def removeProvider (s : MemoryStore) (key : Key) (provider : PeerId) : MemoryStore :=
  match s.providers.get? key with
  | none => s
  | some ps =>
    let r : List ProviderRecord × Finset ProviderRecord :=
      match ps.findIdx? (·.provider = provider) with
      | some i =>
        match ps[i]? with
        | some p => (ps.eraseIdx i, s.provided.erase p)
        | none => (ps.eraseIdx i, s.provided)
      | none => (ps, s.provided)
    if r.1.isEmpty then { s with providers := s.providers.remove key, provided := r.2 }
    else { s with providers := s.providers.insert key r.1, provided := r.2 }

end MemoryStore

/-- A call on the store. -/
inductive Op
  | put (r : Record)
  | remove (k : Key)
  | retain (f : Key → Record → Bool)
  | addProvider (record : ProviderRecord)
  | removeProvider (key : Key) (provider : PeerId)

namespace MemoryStore

/-- The store after one call. -/
def step (codec : RecordCodec) (ks : Keyspace) (s : MemoryStore) : Op → MemoryStore
  | .put r => (s.put codec r).1
  | .remove k => s.remove k
  | .retain f => s.retain f
  | .addProvider record => (s.addProvider ks record).1
  | .removeProvider key provider => s.removeProvider key provider

/-- Replays a list of calls. -/
def run (codec : RecordCodec) (ks : Keyspace) (s : MemoryStore) : List Op → MemoryStore
  | [] => s
  | op :: rest => (s.step codec ks op).run codec ks rest

end MemoryStore

/-- The stores every sequence of calls reaches from `MemoryStore::with_config`. -/
inductive Reachable (codec : RecordCodec) (ks : Keyspace) : MemoryStore → Prop
  | init (localId : PeerId) (config : MemoryStoreConfig) :
      Reachable codec ks (MemoryStore.withConfig localId config)
  | step {s : MemoryStore} (op : Op) : Reachable codec ks s → Reachable codec ks (s.step codec ks op)

theorem Reachable.run {codec : RecordCodec} {ks : Keyspace} {s : MemoryStore}
    (hs : Reachable codec ks s) (ops : List Op) : Reachable codec ks (s.run codec ks ops) := by
  induction ops generalizing s with
  | nil => exact hs
  | cons op rest ih => exact ih (hs.step op)

end Nox.Kademlia
