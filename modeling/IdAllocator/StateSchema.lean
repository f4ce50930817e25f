/-
The state store: `kv_db.c` over a WiredTiger table.

The cursor of a schema is opened with `overwrite=false`, so that the value a key
is given first is the value it keeps.  The store of `VoteDurability` keeps the
last one, and it is said here when the two agree.
-/
import IdAllocator.VoteDurability
import IdAllocator.Lib.Codec

namespace IdAllocator

open Bytes

/-! ### Tables -/

/-- What a cursor returns from an insert. -/
inductive WtCode where
  | success
  | duplicateKey
deriving Repr, DecidableEq

/-- WiredTiger, as far as `kv_db.c` uses it.  The flag of `insert` is the
`overwrite` the cursor was opened with. -/
structure WiredTiger where
  Table : Type
  drop : Table → Table
  create : Table → Table
  insert : Bool → Table → List UInt8 → List UInt8 → WtCode × Table
  search : Table → List UInt8 → Option (List UInt8)
  insert_present : ∀ (table : Table) (key value old : List UInt8),
    search table key = some old → (insert false table key value).1 = .duplicateKey ∧
      ∀ k, search (insert false table key value).2 k = search table k
  insert_absent : ∀ (table : Table) (key value : List UInt8),
    search table key = none → (insert false table key value).1 = .success ∧
      ∀ k, search (insert false table key value).2 k =
        if k = key then some value else search table k

/-- `kv_schema_t`: the option of its cursor, and the table it is open on. -/
structure KvSchema (wt : WiredTiger) where
  overwrite : Bool
  table : wt.Table

section

variable {wt : WiredTiger}

/-- `kv_schema_alloc`, on what the database has under the name. -/
def kvSchemaAlloc (table : wt.Table) (isForceDrop : Bool) : KvSchema wt :=
  let table := if isForceDrop then wt.drop table else table
  { overwrite := false
    table := wt.create table }

/-- `kv_db_set`. -/
def kvDbSet (schema : KvSchema wt) (key value : List UInt8) : WtCode × KvSchema wt :=
  let (code, table) := wt.insert schema.overwrite schema.table key value
  (code, { schema with table := table })

/-- `kv_db_get`. -/
def kvDbGet (schema : KvSchema wt) (key : List UInt8) : Option (List UInt8) :=
  wt.search schema.table key

/-- A sequence of `kv_db_set` calls, whose return values nobody looks at. -/
def setAll (schema : KvSchema wt) (sets : List (List UInt8 × List UInt8)) : KvSchema wt :=
  sets.foldl (fun schema pair => (kvDbSet schema pair.1 pair.2).2) schema

/-- The values that a key is given, in the order of the calls. -/
def valuesOf (key : List UInt8) (sets : List (List UInt8 × List UInt8)) : List (List UInt8) :=
  sets.filterMap fun pair => if pair.1 = key then some pair.2 else none

/-! ### The persist callbacks -/

/-- The key `term`. -/
def termKey : List UInt8 := [116, 101, 114, 109]

/-- The key `voted_for`. -/
def votedForKey : List UInt8 := [118, 111, 116, 101, 100, 95, 102, 111, 114]

/-- An `int` as it lies in memory. -/
def intImage (v : Int) : List UInt8 :=
  intBytes (BitVec.ofInt 32 v)

/-- `raft_persist_term_cb`. -/
def raftPersistTermCb (schema : KvSchema wt) (currentTerm : Int) : WtCode × KvSchema wt :=
  kvDbSet schema termKey (intImage currentTerm)

/-- `raft_persist_vote_cb`. -/
def raftPersistVoteCb (schema : KvSchema wt) (votedFor : Int) : WtCode × KvSchema wt :=
  kvDbSet schema votedForKey (intImage votedFor)

/-- What the callbacks of a server do to the state schema. -/
def KvSchema.persist (schema : KvSchema wt) : Callback → KvSchema wt
  | .persistTerm currentTerm => (raftPersistTermCb schema currentTerm).2
  | .persistVote votedFor => (raftPersistVoteCb schema votedFor).2
  | _ => schema

/-- The term that a callback persists. -/
def Callback.term? : Callback → Option Int
  | .persistTerm term => some term
  | _ => none

/-- The schema has the term and the vote of a store that keeps the last
values. -/
def Stores (schema : KvSchema wt) (store : StateStore) : Prop :=
  (∀ term, store.term = some term → kvDbGet schema termKey = some (intImage term)) ∧
    ∀ votedFor, store.votedFor = some votedFor →
      kvDbGet schema votedForKey = some (intImage votedFor)

/-! ### The first value stays -/

theorem kvDbGet_kvDbSet {schema : KvSchema wt} (h : schema.overwrite = false)
    (key value k : List UInt8) :
    kvDbGet (kvDbSet schema key value).2 k =
      if k = key then (kvDbGet schema key).or (some value) else kvDbGet schema k := by
  simp only [kvDbGet, kvDbSet, h]
  cases hsearch : wt.search schema.table key with
  | none =>
      rw [(wt.insert_absent schema.table key value hsearch).2 k, Option.none_or]
  | some old =>
      rw [(wt.insert_present schema.table key value old hsearch).2 k, Option.some_or]
      split
      · rename_i hsame
        rw [hsame, hsearch]
      · rfl

theorem kvDbSet_overwrite (schema : KvSchema wt) (key value : List UInt8) :
    (kvDbSet schema key value).2.overwrite = schema.overwrite :=
  rfl

/-- Of the values a key is given, the schema keeps what it had, or else the
first. -/
theorem kvDbGet_setAll {schema : KvSchema wt} (h : schema.overwrite = false)
    (sets : List (List UInt8 × List UInt8)) (key : List UInt8) :
    kvDbGet (setAll schema sets) key = (kvDbGet schema key).or (valuesOf key sets).head? := by
  induction sets generalizing schema with
  | nil => simp [setAll, valuesOf]
  | cons pair rest ih =>
      have hrest := ih ((kvDbSet_overwrite schema pair.1 pair.2).trans h)
      rw [kvDbGet_kvDbSet h] at hrest
      rw [setAll, List.foldl_cons, ← setAll, hrest, valuesOf, valuesOf, List.filterMap_cons]
      by_cases hkey : key = pair.1
      · rw [if_pos hkey, if_pos hkey.symm, hkey, Option.or_assoc, Option.some_or,
          List.head?_cons]
      · rw [if_neg hkey, if_neg (Ne.symm hkey)]

/-- The pair that a callback stores. -/
def Callback.record? : Callback → Option (List UInt8 × List UInt8)
  | .persistTerm currentTerm => some (termKey, intImage currentTerm)
  | .persistVote votedFor => some (votedForKey, intImage votedFor)
  | _ => none

theorem foldl_persist (schema : KvSchema wt) (calls : List Callback) :
    calls.foldl KvSchema.persist schema = setAll schema (calls.filterMap Callback.record?) := by
  induction calls generalizing schema with
  | nil => rfl
  | cons call rest ih =>
      rw [List.foldl_cons, ih, List.filterMap_cons]
      cases call <;> rfl

theorem valuesOf_term (calls : List Callback) :
    valuesOf termKey (calls.filterMap Callback.record?) =
      (calls.filterMap Callback.term?).map intImage := by
  rw [valuesOf, List.filterMap_filterMap, List.map_filterMap]
  congr 1
  funext call
  cases call <;> rfl

theorem valuesOf_votedFor (calls : List Callback) :
    valuesOf votedForKey (calls.filterMap Callback.record?) =
      (calls.filterMap Callback.vote?).map intImage := by
  rw [valuesOf, List.filterMap_filterMap, List.map_filterMap]
  congr 1
  funext call
  cases call <;> rfl

/-- The store that keeps the last values. -/
theorem foldl_stateStore_persist (calls : List Callback) (store : StateStore) :
    calls.foldl StateStore.persist store =
      ⟨(calls.filterMap Callback.term?).getLast?.or store.term,
        (calls.filterMap Callback.vote?).getLast?.or store.votedFor⟩ := by
  induction calls generalizing store with
  | nil => rfl
  | cons call rest ih =>
      rw [List.foldl_cons, ih, List.filterMap_cons, List.filterMap_cons]
      cases call with
      | persistTerm term =>
          simp [StateStore.persist, Callback.term?, Callback.vote?, List.getLast?_cons]
      | persistVote votedFor =>
          simp [StateStore.persist, Callback.term?, Callback.vote?, List.getLast?_cons]
      | _ => rfl

/-! ### When the last value is kept -/

/-- A key that is set has its latest value exactly if that is also the value it
was given first, where a value from before the schema was opened comes before
all others.  The term and the vote that are persisted are such keys. -/
theorem latest_value_kept_iff (table : wt.Table) (isForceDrop : Bool) :
    (∀ (sets : List (List UInt8 × List UInt8)) (key value : List UInt8),
      (valuesOf key sets).getLast? = some value →
      (kvDbGet (setAll (kvSchemaAlloc table isForceDrop) sets) key = some value ↔
        (kvDbGet (kvSchemaAlloc table isForceDrop) key).or (valuesOf key sets).head? =
          some value)) ∧
    ∀ calls : List Callback,
      Stores (calls.foldl KvSchema.persist (kvSchemaAlloc table isForceDrop))
          (calls.foldl StateStore.persist ⟨none, none⟩) ↔
        (∀ term, (calls.filterMap Callback.term?).getLast? = some term →
          (kvDbGet (kvSchemaAlloc table isForceDrop) termKey).or
            ((calls.filterMap Callback.term?).head?.map intImage) = some (intImage term)) ∧
        ∀ votedFor, (calls.filterMap Callback.vote?).getLast? = some votedFor →
          (kvDbGet (kvSchemaAlloc table isForceDrop) votedForKey).or
            ((calls.filterMap Callback.vote?).head?.map intImage) = some (intImage votedFor) := by
  constructor
  · intro sets key value _
    rw [kvDbGet_setAll rfl]
  · intro calls
    rw [Stores, foldl_persist, kvDbGet_setAll rfl, kvDbGet_setAll rfl, valuesOf_term,
      valuesOf_votedFor, List.head?_map, List.head?_map, foldl_stateStore_persist,
      Option.or_none, Option.or_none]

end

/-- A table as a list of pairs, in which the first one with a key counts. -/
def pairsTable : WiredTiger where
  Table := List (List UInt8 × List UInt8)
  drop := fun _ => []
  create := id
  insert := fun overwrite table key value =>
    if ¬ overwrite ∧ (table.lookup key).isSome then (.duplicateKey, table)
    else (.success, (key, value) :: table)
  search := fun table key => table.lookup key
  insert_present := by
    intro table key value old hsearch
    simp [hsearch]
  insert_absent := by
    intro table key value hsearch
    simp only [hsearch, Option.isSome_none, and_false, if_false, true_and, Bool.false_eq_true]
    intro k
    rw [List.lookup_cons]
    by_cases hkey : k = key
    · simp [hkey]
    · simp [hkey, beq_false_of_ne hkey]

/-- The state schema of a database without tables. -/
def emptySchema : KvSchema pairsTable :=
  @kvSchemaAlloc pairsTable [] false

/-- A key that is set to one value twice, and a server that persists term 1 and
stays there. -/
theorem latest_value_kept_one_term :
    kvDbGet (setAll emptySchema [([7], [1]), ([8], [2]), ([7], [1])]) [7] = some [1] ∧
    Stores ([Callback.persistTerm 1, .persistVote 2].foldl KvSchema.persist emptySchema)
      { term := some 1, votedFor := some 2 } :=
  ⟨((@latest_value_kept_iff pairsTable [] false).1 [([7], [1]), ([8], [2]), ([7], [1])]
      [7] [1] (by decide)).mpr (by decide),
    ((@latest_value_kept_iff pairsTable [] false).2 [.persistTerm 1, .persistVote 2]).mpr
      ⟨by decide, by decide⟩⟩

/-- A server that goes on to term 2 still has term 1 stored. -/
theorem second_term_not_stored :
    kvDbGet ([Callback.persistTerm 1, .persistTerm 2].foldl KvSchema.persist emptySchema)
        termKey = some (intImage 1) ∧
    ¬ Stores ([Callback.persistTerm 1, .persistTerm 2].foldl KvSchema.persist emptySchema)
      ([Callback.persistTerm 1, .persistTerm 2].foldl StateStore.persist ⟨none, none⟩) := by
  have hfirst : kvDbGet ([Callback.persistTerm 1, .persistTerm 2].foldl KvSchema.persist
      emptySchema) termKey = some (intImage 1) := by
    decide
  refine ⟨hfirst, ?_⟩
  rintro ⟨hterm, _⟩
  have hlast := hterm 2 rfl
  rw [hfirst] at hlast
  exact absurd hlast (by decide)

end IdAllocator
