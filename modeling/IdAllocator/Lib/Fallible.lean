/-
Computations that may stop with an error: assertions, dereferences, the rules
that invert a computation which returned or stopped, and the invariant rules
for a loop.
-/
import Mathlib.Data.List.Basic

namespace Fallible

universe u v

variable {ε : Type u} {α β : Type v}

/-- Stop with `error` unless the condition holds. -/
def assert (cond : Prop) [Decidable cond] (error : ε) : Except ε Unit :=
  if cond then .ok () else .error error

/-- Read through a pointer that may be null. -/
def deref (pointer : Option α) (error : ε) : Except ε α :=
  match pointer with
  | some a => .ok a
  | none => .error error

theorem assert_eq_ok {cond : Prop} [Decidable cond] {error : ε} {u : Unit} :
    assert cond error = .ok u ↔ cond := by
  unfold assert
  split <;> simp [*]

theorem deref_eq_ok {pointer : Option α} {error : ε} {a : α} :
    deref pointer error = .ok a ↔ pointer = some a := by
  cases pointer <;> simp [deref]

/-- A sequence of two computations returns exactly when both do. -/
theorem bind_eq_ok {x : Except ε α} {f : α → Except ε β} {b : β} :
    (x >>= f) = .ok b ↔ ∃ a, x = .ok a ∧ f a = .ok b := by
  cases x <;> simp [Bind.bind, Except.bind]

theorem assert_eq_error {cond : Prop} [Decidable cond] {error e : ε} :
    assert cond error = .error e ↔ ¬ cond ∧ error = e := by
  unfold assert
  split <;> simp [*]

theorem deref_eq_error {pointer : Option α} {error e : ε} :
    deref pointer error = .error e ↔ pointer = none ∧ error = e := by
  cases pointer <;> simp [deref]

/-- A sequence of two computations stops where the first of them does. -/
theorem bind_eq_error {x : Except ε α} {f : α → Except ε β} {e : ε} :
    (x >>= f) = .error e ↔ x = .error e ∨ ∃ a, x = .ok a ∧ f a = .error e := by
  cases x <;> simp [Bind.bind, Except.bind]

theorem pure_ne_error {a : α} {e : ε} : (pure a : Except ε α) ≠ .error e := by
  simp [pure, Except.pure]

theorem map_eq_ok {x : Except ε α} {f : α → β} {b : β} :
    x.map f = .ok b ↔ ∃ a, x = .ok a ∧ f a = b := by
  cases x <;> simp [Except.map]

/-- A computation whose second result is dropped. -/
theorem fst_map_eq_ok {x : Except ε (α × β)} {a : α} (h : Prod.fst <$> x = .ok a) :
    ∃ b, x = .ok (a, b) := by
  obtain ⟨pair, rfl, rfl⟩ := map_eq_ok.mp h
  exact ⟨pair.2, rfl⟩

theorem map_eq_error {x : Except ε α} {f : α → β} {e : ε} :
    x.map f = .error e ↔ x = .error e := by
  cases x <;> simp [Except.map]

theorem pure_eq_ok {a b : α} : (pure a : Except ε α) = .ok b ↔ a = b := by
  simp [pure, Except.pure]

theorem toOption_eq_some {x : Except ε α} {a : α} : x.toOption = some a ↔ x = .ok a := by
  cases x <;> simp [Except.toOption]

/-- What every round of a loop preserves, the whole loop preserves. -/
theorem foldlM_invariant {ι : Type v} {f : α → ι → Except ε α} {items : List ι}
    (P : α → Prop)
    (hstep : ∀ item ∈ items, ∀ a b, P a → f a item = .ok b → P b)
    {a b : α} (ha : P a) (hrun : items.foldlM f a = .ok b) : P b := by
  induction items generalizing a with
  | nil =>
      rw [List.foldlM_nil, pure_eq_ok] at hrun
      exact hrun ▸ ha
  | cons item rest ih =>
      rw [List.foldlM_cons, bind_eq_ok] at hrun
      obtain ⟨c, hc, hrest⟩ := hrun
      apply ih
      · intro later hlater
        exact hstep later (List.mem_cons_of_mem item hlater)
      · exact hstep item List.mem_cons_self a c ha hc
      · exact hrest

/-- A loop stops in one of its rounds, in a state that the rounds before it have
led to. -/
theorem foldlM_error {ι : Type v} {f : α → ι → Except ε α} {items : List ι}
    (P : α → Prop)
    (hstep : ∀ item ∈ items, ∀ a b, P a → f a item = .ok b → P b)
    {a : α} {e : ε} (ha : P a) (hrun : items.foldlM f a = .error e) :
    ∃ item ∈ items, ∃ b, P b ∧ f b item = .error e := by
  induction items generalizing a with
  | nil => exact absurd hrun pure_ne_error
  | cons item rest ih =>
      rw [List.foldlM_cons, bind_eq_error] at hrun
      rcases hrun with hstops | ⟨c, hc, hrest⟩
      · exact ⟨item, List.mem_cons_self, a, ha, hstops⟩
      · obtain ⟨later, hlater, b, hb, hstops⟩ := ih
          (fun later hlater => hstep later (List.mem_cons_of_mem item hlater))
          (hstep item List.mem_cons_self a c ha hc) hrest
        exact ⟨later, List.mem_cons_of_mem item hlater, b, hb, hstops⟩

/-- What one round establishes and the others keep, a loop with this round ends with. -/
theorem foldlM_established {ι : Type v} {f : α → ι → Except ε α} {items : List ι}
    (P Q : α → Prop)
    (hstep : ∀ item ∈ items, ∀ a b, P a → f a item = .ok b → P b)
    (hkept : ∀ item ∈ items, ∀ a b, Q a → f a item = .ok b → Q b)
    {item : ι} (hmem : item ∈ items) (hround : ∀ a b, P a → f a item = .ok b → Q b)
    {a b : α} (ha : P a) (hrun : items.foldlM f a = .ok b) : Q b := by
  induction items generalizing a with
  | nil => exact absurd hmem List.not_mem_nil
  | cons first rest ih =>
      rw [List.foldlM_cons, bind_eq_ok] at hrun
      obtain ⟨c, hc, hrest⟩ := hrun
      rcases List.mem_cons.mp hmem with rfl | hlater
      · apply foldlM_invariant Q _ (hround a c ha hc) hrest
        intro later hlater
        exact hkept later (List.mem_cons_of_mem item hlater)
      · apply ih _ _ hlater _ hrest
        · intro later hlater
          exact hstep later (List.mem_cons_of_mem first hlater)
        · intro later hlater
          exact hkept later (List.mem_cons_of_mem first hlater)
        · exact hstep first List.mem_cons_self a c ha hc

/-- In a loop that came to its end every round returned. -/
theorem foldlM_rounds_ok {ι : Type v} {f : α → ι → Except ε α} {items : List ι} {a b : α}
    (hrun : items.foldlM f a = .ok b) : ∀ item ∈ items, ∃ c d, f c item = .ok d := by
  induction items generalizing a with
  | nil => exact fun item hitem => absurd hitem List.not_mem_nil
  | cons first rest ih =>
      rw [List.foldlM_cons, bind_eq_ok] at hrun
      obtain ⟨c, hc, hrest⟩ := hrun
      intro item hitem
      rcases List.mem_cons.mp hitem with rfl | hlater
      · exact ⟨a, c, hc⟩
      · exact ih hrest item hlater

/-- Do a computation a number of times. -/
def rounds (step : α → Except ε α) : Nat → α → Except ε α
  | 0, a => .ok a
  | n + 1, a => step a >>= rounds step n

/-- Rounds that lower a measure as long as they are not done come to an end. -/
theorem rounds_reach {step : α → Except ε α} (measure : α → Nat) {P Q : α → Prop}
    (hstep : ∀ a, P a → ∃ b, step a = .ok b ∧ (Q b ∨ P b ∧ measure b < measure a))
    {a : α} (ha : P a) : ∃ n b, n ≤ measure a + 1 ∧ rounds step n a = .ok b ∧ Q b := by
  generalize hm : measure a = m
  induction m using Nat.strongRecOn generalizing a with
  | _ m ih =>
      obtain ⟨b, hb, hdone | ⟨hkept, hless⟩⟩ := hstep a ha
      · exact ⟨1, b, by omega, bind_eq_ok.mpr ⟨b, hb, rfl⟩, hdone⟩
      · obtain ⟨n, c, hn, hrun, hc⟩ := ih (measure b) (hm ▸ hless) hkept rfl
        exact ⟨n + 1, c, by omega, bind_eq_ok.mpr ⟨b, hb, hrun⟩, hc⟩

end Fallible
