/-
Loops that go on while a condition holds: the number of their rounds and the
state in which they end.  A round may fail, and then the loop has no end.
-/
import Mathlib.Data.Nat.Init

namespace Loops

universe u

variable {S : Type u}

/-- The loop ends after that many rounds, in the second state. -/
inductive Rounds (cond : S → Prop) (body : S → Option S) : Nat → S → S → Prop where
  | done {s : S} (hcond : ¬ cond s) : Rounds cond body 0 s s
  | round {n : Nat} {s mid s' : S} (hcond : cond s) (hbody : body s = some mid)
      (hrest : Rounds cond body n mid s') : Rounds cond body (n + 1) s s'

/-- The loop, nothing if it does not end within `fuel` rounds. -/
def run (cond : S → Prop) [DecidablePred cond] (body : S → Option S) : Nat → S → Option S
  | 0, s => if cond s then none else some s
  | fuel + 1, s => if cond s then (body s).bind (run cond body fuel) else some s

variable {cond cond' : S → Prop} {body : S → Option S} {n : Nat} {s s' : S}

theorem run_eq_some_iff [DecidablePred cond] {fuel : Nat} :
    run cond body fuel s = some s' ↔ ∃ n ≤ fuel, Rounds cond body n s s' := by
  induction fuel generalizing s with
  | zero =>
      unfold run
      constructor
      · intro hrun
        split at hrun
        · cases hrun
        · rename_i hcond
          cases hrun
          exact ⟨0, Nat.le_refl 0, Rounds.done hcond⟩
      · rintro ⟨n, hn, hrounds⟩
        obtain rfl := Nat.le_zero.mp hn
        cases hrounds with
        | done hcond => exact if_neg hcond
  | succ fuel ih =>
      unfold run
      constructor
      · intro hrun
        split at hrun
        · rename_i hcond
          obtain ⟨mid, hbody, hrest⟩ := Option.bind_eq_some_iff.mp hrun
          obtain ⟨n, hn, hrounds⟩ := ih.mp hrest
          exact ⟨n + 1, Nat.succ_le_succ hn, Rounds.round hcond hbody hrounds⟩
        · rename_i hcond
          cases hrun
          exact ⟨0, Nat.zero_le _, Rounds.done hcond⟩
      · rintro ⟨n, hn, hrounds⟩
        cases hrounds with
        | done hcond => exact if_neg hcond
        | round hcond hbody hrest =>
            rw [if_pos hcond, hbody]
            exact ih.mpr ⟨_, Nat.le_of_succ_le_succ hn, hrest⟩

/-- Neither the number of rounds nor the end is a matter of choice. -/
theorem Rounds.unique {m : Nat} {a b : S} (h : Rounds cond body n s a)
    (h' : Rounds cond body m s b) : n = m ∧ a = b := by
  induction h generalizing m b with
  | done hcond =>
      cases h' with
      | done _ => exact ⟨rfl, rfl⟩
      | round hgoes _ _ => exact absurd hgoes hcond
  | round hcond hbody _ ih =>
      cases h' with
      | done hends => exact absurd hcond hends
      | round _ hbody' hrest' =>
          rw [hbody, Option.some.injEq] at hbody'
          obtain ⟨rfl, rfl⟩ := ih (hbody' ▸ hrest')
          exact ⟨rfl, rfl⟩

theorem Rounds.not_cond (h : Rounds cond body n s s') : ¬ cond s' := by
  induction h with
  | done hcond => exact hcond
  | round _ _ _ ih => exact ih

/-- What every round preserves holds at the end. -/
theorem Rounds.invariant (P : S → Prop)
    (hround : ∀ s mid, P s → cond s → body s = some mid → P mid)
    (hs : P s) (h : Rounds cond body n s s') : P s' := by
  induction h with
  | done _ => exact hs
  | round hcond hbody _ ih => exact ih (hround _ _ hs hcond hbody)

/-- A loop ends if its rounds keep an invariant, do not fail and lower a measure. -/
theorem exists_rounds (P : S → Prop) (measure : S → Nat)
    (hround : ∀ s, P s → cond s → ∃ mid, body s = some mid ∧ P mid ∧ measure mid < measure s)
    (hs : P s) : ∃ n ≤ measure s, ∃ s', Rounds cond body n s s' ∧ P s' := by
  induction hm : measure s using Nat.strong_induction_on generalizing s with
  | h m ih =>
      by_cases hcond : cond s
      · obtain ⟨mid, hbody, hmid, hlt⟩ := hround s hs hcond
        obtain ⟨n, hn, s', hrest, hend⟩ := ih (measure mid) (hm ▸ hlt) hmid rfl
        exact ⟨n + 1, by omega, s', Rounds.round hcond hbody hrest, hend⟩
      · exact ⟨0, Nat.zero_le m, s, Rounds.done hcond, hs⟩

/-- Where a round takes exactly one from the measure, and the loop goes on until nothing is
left, the measure is the number of rounds. -/
theorem exists_rounds_eq (P : S → Prop) (measure : S → Nat)
    (hcond : ∀ s, P s → (cond s ↔ measure s ≠ 0))
    (hround : ∀ s, P s → cond s →
      ∃ mid, body s = some mid ∧ P mid ∧ measure mid + 1 = measure s)
    (hs : P s) : ∃ s', Rounds cond body (measure s) s s' ∧ P s' := by
  induction hm : measure s generalizing s with
  | zero => exact ⟨s, Rounds.done (by rw [hcond s hs, hm]; exact fun h => h rfl), hs⟩
  | succ m ih =>
      have hgoes : cond s := (hcond s hs).mpr (by omega)
      obtain ⟨mid, hbody, hmid, hlt⟩ := hround s hs hgoes
      obtain ⟨s', hrest, hend⟩ := ih hmid (by omega)
      exact ⟨s', Rounds.round hgoes hbody hrest, hend⟩

/-- A loop that goes on for longer passes through the end of the shorter one. -/
theorem Rounds.through (himp : ∀ s, cond s → cond' s) (h : Rounds cond' body n s s') :
    ∃ m mid k, Rounds cond body m s mid ∧ Rounds cond' body k mid s' := by
  induction h with
  | @done s hends => exact ⟨0, s, 0, Rounds.done (mt (himp s) hends), Rounds.done hends⟩
  | @round n s next s' hgoes hbody hrest ih =>
      by_cases hcond : cond s
      · obtain ⟨m, mid, k, hshort, hlong⟩ := ih
        exact ⟨m + 1, mid, k, Rounds.round hcond hbody hshort, hlong⟩
      · exact ⟨0, s, n + 1, Rounds.done hcond, Rounds.round hgoes hbody hrest⟩

end Loops
