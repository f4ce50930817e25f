/-
A list of slots, one of which is written: how the values that the items have
change, and when they stay distinct.
-/
import Mathlib.Data.List.Nodup

namespace Slots

universe u v

variable {α : Type u} {β : Type v}

theorem exists_split_set {l : List α} {i : Nat} {a : α} (h : l[i]? = some a) :
    ∃ before behind, l = before ++ a :: behind ∧ ∀ b, l.set i b = before ++ b :: behind := by
  obtain ⟨hlt, ha⟩ := List.getElem?_eq_some_iff.mp h
  refine ⟨l.take i, l.drop (i + 1), ?_, ?_⟩
  · rw [← ha, List.getElem_cons_drop, List.take_append_drop]
  · intro b
    rw [List.set_eq_take_append_cons_drop, if_pos hlt]

theorem mem_set_iff {l : List α} {i : Nat} {a b x : α} (h : l[i]? = some a) (ha : a ≠ x) :
    x ∈ l.set i b ↔ x ∈ l ∨ x = b := by
  obtain ⟨before, behind, rfl, hset⟩ := exists_split_set h
  rw [hset b]
  simp only [List.mem_append, List.mem_cons, ha.symm, false_or]
  rw [or_left_comm, or_comm]

theorem mem_filterMap_set {f : α → Option β} {l : List α} {i : Nat} {b : α} {x : β}
    (h : x ∈ (l.set i b).filterMap f) : x ∈ l.filterMap f ∨ f b = some x := by
  obtain ⟨a, ha, hx⟩ := List.mem_filterMap.mp h
  rcases List.mem_or_eq_of_mem_set ha with hold | rfl
  · exact Or.inl (List.mem_filterMap.mpr ⟨a, hold, hx⟩)
  · exact Or.inr hx

/-- A new item that has no value, the value of the old one, or a new value
keeps the values distinct. -/
theorem nodup_filterMap_set {f : α → Option β} {l : List α} {i : Nat} {a b : α}
    (ha : l[i]? = some a) (h : (l.filterMap f).Nodup)
    (hb : f b = none ∨ f b = f a ∨ ∃ x, f b = some x ∧ x ∉ l.filterMap f) :
    ((l.set i b).filterMap f).Nodup := by
  obtain ⟨before, behind, rfl, hset⟩ := exists_split_set ha
  have hsub : List.Sublist ((before ++ behind).filterMap f)
      ((before ++ a :: behind).filterMap f) :=
    List.Sublist.filterMap f
      (List.Sublist.append_left (List.sublist_cons_self a behind) before)
  rw [hset b]
  rcases hb with hnone | hsame | ⟨x, hx, hnew⟩
  · rw [List.filterMap_append, List.filterMap_cons_none hnone, ← List.filterMap_append]
    exact h.sublist hsub
  · simp only [List.filterMap_append, List.filterMap_cons, hsame] at h ⊢
    exact h
  · rw [List.filterMap_append, List.filterMap_cons_some hx, List.nodup_middle,
      ← List.filterMap_append]
    exact List.nodup_cons.mpr ⟨fun hmem => hnew (hsub.subset hmem), h.sublist hsub⟩

/-- A value that is given up is gone. -/
theorem notMem_filterMap_set {f : α → Option β} {l : List α} {i : Nat} {a b : α} {x : β}
    (ha : l[i]? = some a) (h : (l.filterMap f).Nodup) (hx : f a = some x) (hb : f b = none) :
    x ∉ (l.set i b).filterMap f := by
  obtain ⟨before, behind, rfl, hset⟩ := exists_split_set ha
  rw [List.filterMap_append, List.filterMap_cons_some hx, List.nodup_middle] at h
  rw [hset b, List.filterMap_append, List.filterMap_cons_none hb]
  exact (List.nodup_cons.mp h).1

end Slots
