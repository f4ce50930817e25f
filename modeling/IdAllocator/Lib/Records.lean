/-
Records in a list that are written through a key.
-/
import Mathlib.Data.List.Basic

namespace Records

universe u v w

variable {R : Type u} {K : Type v} {γ : Type w} [DecidableEq K] {key : R → K} {k : K}
  {f : R → R} {l : List R}

/-- Write to the records with the key. -/
def write (key : R → K) (k : K) (f : R → R) (l : List R) : List R :=
  l.map fun r => if key r = k then f r else r

theorem mem_write {r : R} : r ∈ write key k f l ↔
    (∃ old ∈ l, key old = k ∧ f old = r) ∨ (r ∈ l ∧ key r ≠ k) := by
  unfold write
  rw [List.mem_map]
  constructor
  · rintro ⟨old, hold, rfl⟩
    by_cases hkey : key old = k
    · rw [if_pos hkey]
      exact Or.inl ⟨old, hold, hkey, rfl⟩
    · rw [if_neg hkey]
      exact Or.inr ⟨hold, hkey⟩
  · rintro (⟨old, hold, hkey, rfl⟩ | ⟨hmem, hkey⟩)
    · exact ⟨old, hold, if_pos hkey⟩
    · exact ⟨r, hmem, if_neg hkey⟩

/-- What the write does not change is the same of all the records. -/
theorem map_write {g : R → γ} (hg : ∀ r, g (f r) = g r) :
    (write key k f l).map g = l.map g := by
  unfold write
  rw [List.map_map, List.map_inj_left]
  intro r _
  by_cases hkey : key r = k
  · simp [hkey, hg]
  · simp [hkey]

/-- Nothing is written where no record has the key. -/
theorem write_eq_self (h : k ∉ l.map key) : write key k f l = l := by
  have hkeeps : ∀ r ∈ l, (if key r = k then f r else r) = r := by
    intro r hr
    apply if_neg
    intro hkey
    exact h (hkey ▸ List.mem_map_of_mem hr)
  rw [write, List.map_congr_left hkeeps, List.map_id']

end Records
