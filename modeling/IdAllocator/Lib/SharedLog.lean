/-
A log that several readers follow.

Entries are only ever added at the end, and every reader is handed the entries in order, each of
them once.  This is what a group of servers that replicate a log looks like from outside.
-/
import Mathlib.Data.List.Infix
import Mathlib.Logic.Function.Basic
import Mathlib.Logic.Relation

universe u v

/-- The log, and how many of its entries each reader has been handed. -/
structure SharedLog (N : Type u) (E : Type v) where
  log : List E
  cursor : N → Nat
  cursor_le : ∀ x, cursor x ≤ log.length

namespace SharedLog

variable {N : Type u} {E : Type v} {s s' : SharedLog N E} {x y : N}

/-- The log without entries. -/
def empty (N : Type u) (E : Type v) : SharedLog N E where
  log := []
  cursor _ := 0
  cursor_le _ := Nat.zero_le _

/-- What reader `x` has been handed. -/
def seen (s : SharedLog N E) (x : N) : List E :=
  s.log.take (s.cursor x)

/-- An entry is added, or the next entry is handed to a reader. -/
inductive Step (s s' : SharedLog N E) : Prop
  | append (e : E) (hlog : s'.log = s.log ++ [e]) (hcursor : s'.cursor = s.cursor)
  | deliver (x : N) (hlog : s'.log = s.log) (hnext : s'.cursor x = s.cursor x + 1)
      (hothers : ∀ y, y ≠ x → s'.cursor y = s.cursor y)

/-- Any number of steps. -/
def Reaches : SharedLog N E → SharedLog N E → Prop :=
  Relation.ReflTransGen Step

/-- What steps leave behind: the log is longer, and no reader is taken back. -/
structure Extends (s s' : SharedLog N E) : Prop where
  log : s.log <+: s'.log
  cursor : ∀ x, s.cursor x ≤ s'.cursor x

theorem Step.extends (h : Step s s') : Extends s s' := by
  cases h with
  | append e hlog hcursor =>
      refine ⟨?_, fun x => le_of_eq (congrFun hcursor x).symm⟩
      rw [hlog]
      exact List.prefix_append s.log [e]
  | deliver x hlog hnext hothers =>
      refine ⟨by rw [hlog], ?_⟩
      intro y
      by_cases hy : y = x
      · rw [hy, hnext]
        exact Nat.le_succ _
      · exact le_of_eq (hothers y hy).symm

theorem Reaches.extends (h : Reaches s s') : Extends s s' := by
  induction h with
  | refl => exact ⟨ List.prefix_refl s.log, fun x => le_refl _⟩
  | tail _ hstep ih =>
      exact ⟨ih.log.trans hstep.extends.log,
        fun x => le_trans (ih.cursor x) (hstep.extends.cursor x)⟩

/-- What a reader has been handed is never changed. -/
theorem Reaches.seen_grows (h : Reaches s s') (x : N) : s.seen x <+: s'.seen x := by
  obtain ⟨rest, hrest⟩ := h.extends.log
  rw [seen, seen, ← hrest]
  refine List.IsPrefix.trans ?_ ( List.take_prefix_take_left (h.extends.cursor x))
  rw [List.take_append_of_le_length (s.cursor_le x)]

/-- Of two readers, one has been handed all that the other one has. -/
theorem seen_comparable (s : SharedLog N E) (x y : N) :
    s.seen x <+: s.seen y ∨ s.seen y <+: s.seen x :=
  List.prefix_or_prefix_of_prefix ( List.take_prefix _ _) ( List.take_prefix _ _)

/-- Entries are added one after the other. -/
theorem reaches_append (hlog : s.log <+: s'.log) (hcursor : s'.cursor = s.cursor) :
    Reaches s s' := by
  obtain ⟨rest, hrest⟩ := hlog
  induction rest using List.reverseRecOn generalizing s' with
  | nil =>
      rw [List.append_nil] at hrest
      obtain ⟨log, cursor, hle⟩ := s
      obtain ⟨log', cursor', hle'⟩ := s'
      cases hrest
      cases hcursor
      exact Relation.ReflTransGen.refl
  | append_singleton rest e ih =>
      have hle : ∀ x, s.cursor x ≤ (s.log ++ rest).length := by
        intro x
        rw [List.length_append]
        exact Nat.le_add_right_of_le (s.cursor_le x)
      have hmid : Reaches s ⟨s.log ++ rest, s.cursor, hle⟩ := ih rfl rfl
      refine hmid.tail (.append e ?_ hcursor)
      rw [← hrest, List.append_assoc]

variable [DecidableEq N]

/-- One reader is handed entries that are there. -/
theorem reaches_deliver (hlog : s'.log = s.log) (hnext : s.cursor x ≤ s'.cursor x)
    (hothers : ∀ y, y ≠ x → s'.cursor y = s.cursor y) : Reaches s s' := by
  obtain ⟨n, hn⟩ := Nat.exists_eq_add_of_le hnext
  induction n generalizing s' with
  | zero =>
      have hcursor : s'.cursor = s.cursor := by
        funext y
        by_cases hy : y = x
        · rw [hy]
          exact hn
        · exact hothers y hy
      exact reaches_append (by rw [hlog]) hcursor
  | succ n ih =>
      have hle : ∀ y, Function.update s.cursor x (s.cursor x + n) y ≤ s.log.length := by
        intro y
        by_cases hy : y = x
        · have hlast := s'.cursor_le x
          rw [hlog] at hlast
          rw [hy, Function.update_self]
          omega
        · rw [Function.update_of_ne hy]
          exact s.cursor_le y
      have hmid : Reaches s ⟨s.log, Function.update s.cursor x (s.cursor x + n), hle⟩ := by
        apply ih
        · rfl
        · simp only [Function.update_self]
          exact Nat.le_add_right _ _
        · intro y hy
          simp only [Function.update_of_ne hy]
        · simp only [Function.update_self]
      refine hmid.tail (.deliver x hlog ?_ ?_)
      · simp only [Function.update_self]
        omega
      · intro y hy
        simp only [Function.update_of_ne hy]
        exact hothers y hy

/-- Entries are added, and one reader is handed more of them. -/
theorem reaches_of_reader (hlog : s.log <+: s'.log) (hnext : s.cursor x ≤ s'.cursor x)
    (hothers : ∀ y, y ≠ x → s'.cursor y = s.cursor y) : Reaches s s' := by
  have hle : ∀ y, s.cursor y ≤ s'.log.length := by
    intro y
    exact le_trans (s.cursor_le y) hlog.length_le
  have hmid : Reaches s ⟨s'.log, s.cursor, hle⟩ := reaches_append hlog rfl
  exact hmid.trans (reaches_deliver rfl hnext hothers)

end SharedLog

/-! ### Lists that begin with each other -/

namespace SharedLog

variable {E : Type v}

theorem getElem?_of_prefix {l l' : List E} (h : l <+: l') {i : Nat} {e : E}
    (he : l[i]? = some e) : l'[i]? = some e := by
  obtain ⟨hlt, rfl⟩ := List.getElem?_eq_some_iff.mp he
  exact List.prefix_iff_getElem?.mp h i hlt

/-- A list of greatest length. -/
def longest : List (List E) → List E
  | [] => []
  | l :: rest => if (longest rest).length < l.length then l else longest rest

theorem longest_eq_nil_or_mem (ls : List (List E)) : longest ls = [] ∨ longest ls ∈ ls := by
  induction ls with
  | nil => exact Or.inl rfl
  | cons l rest ih =>
      unfold longest
      split
      · exact Or.inr List.mem_cons_self
      · rcases ih with hnil | hmem
        · exact Or.inl hnil
        · exact Or.inr (List.mem_cons_of_mem l hmem)

theorem length_le_longest {ls : List (List E)} {l : List E} (h : l ∈ ls) :
    l.length ≤ (longest ls).length := by
  induction ls with
  | nil => cases h
  | cons first rest ih =>
      unfold longest
      rcases List.mem_cons.mp h with rfl | hmem
      · split
        · exact le_refl _
        · omega
      · have hle := ih hmem
        split
        · omega
        · exact hle

/-- Where of any two lists one begins with the other, the longest one begins with all of them. -/
theorem prefix_longest {ls : List (List E)}
    (hcomparable : ∀ l ∈ ls, ∀ l' ∈ ls, l <+: l' ∨ l' <+: l) {l : List E} (h : l ∈ ls) :
    l <+: longest ls := by
  have hle := length_le_longest h
  rcases longest_eq_nil_or_mem ls with hnil | hmem
  · rw [hnil, List.length_nil, Nat.le_zero, List.length_eq_zero_iff] at hle
    rw [hle]
    exact List.nil_prefix
  · rcases hcomparable l h (longest ls) hmem with hbefore | hbehind
    · exact hbefore
    · rw [hbehind.eq_of_length_le hle]

end SharedLog
