/-
A key-value store that keeps its records in the order of the keys.

A `put` overwrites, an `erase` drops a key, a cursor sees the records from the
smallest key to the largest, and a key behind all the others goes to the end.
-/
import Mathlib.Data.List.Pairwise
import Mathlib.Order.Lattice

universe u v

/-- Records in the strict order of their keys. -/
structure OrderedStore (K : Type u) (V : Type v) [LinearOrder K] where
  records : List (K × V)
  sorted : records.Pairwise fun r r' => r.1 < r'.1

namespace OrderedStore

variable {K : Type u} {V : Type v} [LinearOrder K]

/-- The store without records. -/
def empty : OrderedStore K V where
  records := []
  sorted := List.Pairwise.nil

/-- Put a record in its place, over the record with that key if there is one. -/
def insertRecord (k : K) (v : V) : List (K × V) → List (K × V)
  | [] => [(k, v)]
  | r :: rest =>
      if k < r.1 then (k, v) :: r :: rest
      else if k = r.1 then (k, v) :: rest
      else r :: insertRecord k v rest

theorem mem_of_mem_insertRecord {k : K} {v : V} {records : List (K × V)} {r : K × V}
    (h : r ∈ insertRecord k v records) : r = (k, v) ∨ r ∈ records := by
  induction records with
  | nil => exact Or.inl (List.mem_singleton.mp h)
  | cons head tail ih =>
      unfold insertRecord at h
      split at h
      · exact List.mem_cons.mp h
      split at h
      · rcases List.mem_cons.mp h with hnew | htail
        · exact Or.inl hnew
        · exact Or.inr (List.mem_cons_of_mem head htail)
      · rcases List.mem_cons.mp h with rfl | htail
        · exact Or.inr List.mem_cons_self
        · rcases ih htail with hnew | hold
          · exact Or.inl hnew
          · exact Or.inr (List.mem_cons_of_mem head hold)

theorem exists_key_insertRecord {k k' : K} {v : V} {records : List (K × V)}
    (h : k' = k ∨ ∃ r ∈ records, r.1 = k') :
    ∃ r ∈ insertRecord k v records, r.1 = k' := by
  induction records with
  | nil => simpa [insertRecord, eq_comm] using h
  | cons head tail ih =>
      unfold insertRecord
      split
      · simpa [eq_comm] using h
      split
      · rename_i hsame
        rcases h with rfl | ⟨r, hr, rfl⟩
        · exact ⟨(k', v), List.mem_cons_self, rfl⟩
        · rcases List.mem_cons.mp hr with rfl | htail
          · exact ⟨(k, v), List.mem_cons_self, hsame⟩
          · exact ⟨r, List.mem_cons_of_mem _ htail, rfl⟩
      · rcases h with rfl | ⟨r, hr, rfl⟩
        · obtain ⟨r, hr, hkey⟩ := ih (Or.inl rfl)
          exact ⟨r, List.mem_cons_of_mem head hr, hkey⟩
        · rcases List.mem_cons.mp hr with rfl | htail
          · exact ⟨r, List.mem_cons_self, rfl⟩
          · obtain ⟨r', hr', hkey⟩ := ih (Or.inr ⟨r, htail, rfl⟩)
            exact ⟨r', List.mem_cons_of_mem head hr', hkey⟩

theorem insertRecord_sorted {k : K} {v : V} {records : List (K × V)}
    (h : records.Pairwise fun r r' => r.1 < r'.1) :
    (insertRecord k v records).Pairwise fun r r' => r.1 < r'.1 := by
  induction records with
  | nil => exact List.pairwise_singleton _ _
  | cons head tail ih =>
      have hcons := List.pairwise_cons.mp h
      unfold insertRecord
      split
      · rename_i hlt
        refine List.pairwise_cons.mpr ⟨?_, h⟩
        intro r hr
        rcases List.mem_cons.mp hr with rfl | htail
        · exact hlt
        · exact lt_trans hlt (hcons.1 r htail)
      split
      · rename_i hsame
        refine List.pairwise_cons.mpr ⟨?_, hcons.2⟩
        intro r hr
        exact lt_of_eq_of_lt hsame (hcons.1 r hr)
      · rename_i hge hne
        refine List.pairwise_cons.mpr ⟨?_, ih hcons.2⟩
        intro r hr
        rcases mem_of_mem_insertRecord hr with rfl | htail
        · exact lt_of_le_of_ne (not_lt.mp hge) (Ne.symm hne)
        · exact hcons.1 r htail

theorem insertRecord_of_forall_lt {k : K} {v : V} {records : List (K × V)}
    (h : ∀ r ∈ records, r.1 < k) : insertRecord k v records = records ++ [(k, v)] := by
  induction records with
  | nil => rfl
  | cons head tail ih =>
      have hhead := h head List.mem_cons_self
      rw [insertRecord, if_neg (not_lt_of_gt hhead), if_neg (ne_of_gt hhead),
        ih fun r hr => h r (List.mem_cons_of_mem head hr), List.cons_append]

/-- Write a record. -/
def put (s : OrderedStore K V) (k : K) (v : V) : OrderedStore K V where
  records := insertRecord k v s.records
  sorted := insertRecord_sorted s.sorted

theorem mem_of_mem_put {s : OrderedStore K V} {k : K} {v : V} {r : K × V}
    (h : r ∈ (s.put k v).records) : r = (k, v) ∨ r ∈ s.records :=
  mem_of_mem_insertRecord h

theorem exists_key_put {s : OrderedStore K V} {k k' : K} {v : V}
    (h : k' = k ∨ ∃ r ∈ s.records, r.1 = k') : ∃ r ∈ (s.put k v).records, r.1 = k' :=
  exists_key_insertRecord h

/-- The keys of a store that was written to. -/
theorem exists_key_put_iff {s : OrderedStore K V} {k k' : K} {v : V} :
    (∃ r ∈ (s.put k v).records, r.1 = k') ↔ k' = k ∨ ∃ r ∈ s.records, r.1 = k' := by
  constructor
  · rintro ⟨r, hr, rfl⟩
    rcases mem_of_mem_put hr with rfl | hold
    · exact Or.inl rfl
    · exact Or.inr ⟨r, hold, rfl⟩
  · exact exists_key_put

theorem put_of_forall_lt {s : OrderedStore K V} {k : K} {v : V}
    (h : ∀ r ∈ s.records, r.1 < k) : (s.put k v).records = s.records ++ [(k, v)] :=
  insertRecord_of_forall_lt h

/-- Drop the record of a key. -/
def erase (s : OrderedStore K V) (k : K) : OrderedStore K V where
  records := s.records.filter fun r => r.1 ≠ k
  sorted := s.sorted.filter _

end OrderedStore
