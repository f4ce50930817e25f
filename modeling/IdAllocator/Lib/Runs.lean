/-
Runs of a machine whose steps may fail: a run is a list of actions, it may be
asked that every action is taken in a state that meets a condition, and what
every such step preserves holds at the end.
-/
import Mathlib.Data.List.Basic

namespace Runs

universe u v

variable {S : Type u} {A : Type v} (step : S → A → Option S)

/-- Take the actions one after the other. -/
def run (s : S) : List A → Option S
  | [] => some s
  | action :: rest => (step s action).bind fun s' => run s' rest

/-- Every action of the run is taken in a state that meets the condition. -/
def Meets (cond : S → A → Prop) (s : S) : List A → Prop
  | [] => True
  | action :: rest => cond s action ∧ ∀ s' ∈ step s action, Meets cond s' rest

instance decidableMeets (cond : S → A → Prop) [∀ s action, Decidable (cond s action)] :
    (s : S) → (actions : List A) → Decidable (Meets step cond s actions)
  | _, [] => .isTrue trivial
  | s, action :: rest =>
      have : DecidablePred fun s' => Meets step cond s' rest :=
        fun s' => decidableMeets cond s' rest
      inferInstanceAs (Decidable (cond s action ∧
        ∀ s' ∈ step s action, Meets step cond s' rest))

variable {step}

theorem meets_of_forall {cond : S → A → Prop} (h : ∀ s action, cond s action) (s : S)
    (actions : List A) : Meets step cond s actions := by
  induction actions generalizing s with
  | nil => trivial
  | cons action rest ih => exact ⟨h s action, fun s' _ => ih s'⟩

/-- A condition on the actions alone. -/
theorem meets_of_mem {p : A → Prop} {actions : List A} (h : ∀ action ∈ actions, p action)
    (s : S) : Meets step (fun _ action => p action) s actions := by
  induction actions generalizing s with
  | nil => trivial
  | cons action rest ih =>
      refine ⟨h action List.mem_cons_self, fun s' _ => ih ?_ s'⟩
      intro later hlater
      exact h later (List.mem_cons_of_mem action hlater)

theorem Meets.and {cond cond' : S → A → Prop} {s : S} {actions : List A}
    (h : Meets step cond s actions) (h' : Meets step cond' s actions) :
    Meets step (fun s action => cond s action ∧ cond' s action) s actions := by
  induction actions generalizing s with
  | nil => trivial
  | cons action rest ih =>
      exact ⟨⟨h.1, h'.1⟩, fun s' hstep => ih (h.2 s' hstep) (h'.2 s' hstep)⟩

theorem Meets.imp {cond cond' : S → A → Prop} (h : ∀ s action, cond s action → cond' s action)
    {s : S} {actions : List A} (hmeets : Meets step cond s actions) :
    Meets step cond' s actions := by
  induction actions generalizing s with
  | nil => trivial
  | cons action rest ih =>
      exact ⟨h s action hmeets.1, fun s' hstep => ih (hmeets.2 s' hstep)⟩

/-- Two conditions that are the same on the states of an invariant, which the steps that meet
them keep, are met by the same runs. -/
theorem meets_congr {cond cond' : S → A → Prop} (P : S → Prop)
    (hcond : ∀ s action, P s → (cond s action ↔ cond' s action))
    (hstep : ∀ s s' action, P s → cond s action → step s action = some s' → P s')
    {s : S} (hs : P s) (actions : List A) :
    Meets step cond s actions ↔ Meets step cond' s actions := by
  induction actions generalizing s with
  | nil => rfl
  | cons action rest ih =>
      unfold Meets
      rw [← hcond s action hs]
      constructor
      · rintro ⟨hmeets, hlater⟩
        exact ⟨hmeets, fun s' hs' =>
          (ih (hstep s s' action hs hmeets hs')).mp (hlater s' hs')⟩
      · rintro ⟨hmeets, hlater⟩
        exact ⟨hmeets, fun s' hs' =>
          (ih (hstep s s' action hs hmeets hs')).mpr (hlater s' hs')⟩

/-- What every step preserves, a run preserves. -/
theorem run_invariant {cond : S → A → Prop} (P : S → Prop)
    (hstep : ∀ s s' action, P s → cond s action → step s action = some s' → P s')
    {s s' : S} {actions : List A} (hs : P s) (hmeets : Meets step cond s actions)
    (hrun : run step s actions = some s') : P s' := by
  induction actions generalizing s with
  | nil =>
      rw [run, Option.some.injEq] at hrun
      exact hrun ▸ hs
  | cons action rest ih =>
      rw [run, Option.bind_eq_some_iff] at hrun
      obtain ⟨mid, hmid, hrest⟩ := hrun
      obtain ⟨hcond, hlater⟩ := hmeets
      exact ih (hstep s mid action hs hcond hmid) (hlater mid hmid) hrest

/-- The same, of steps in any state. -/
theorem run_keeps (P : S → Prop)
    (hstep : ∀ s s' action, P s → step s action = some s' → P s')
    {s s' : S} {actions : List A} (hs : P s) (hrun : run step s actions = some s') : P s' :=
  run_invariant P (fun s s' action hkept _ => hstep s s' action hkept) hs
    (meets_of_forall (fun _ _ => trivial) s actions) hrun

/-- A run whose steps are all possible and keep a property reaches an end that
has it. -/
theorem run_total {cond : S → A → Prop} (P : S → Prop)
    (hstep : ∀ s action, P s → cond s action → ∃ s', step s action = some s' ∧ P s')
    {s : S} {actions : List A} (hs : P s) (hmeets : Meets step cond s actions) :
    ∃ s', run step s actions = some s' ∧ P s' := by
  induction actions generalizing s with
  | nil => exact ⟨s, rfl, hs⟩
  | cons action rest ih =>
      obtain ⟨mid, hmid, hkept⟩ := hstep s action hs hmeets.1
      obtain ⟨s', hrest, hend⟩ := ih hkept (hmeets.2 mid hmid)
      exact ⟨s', Option.bind_eq_some_iff.mpr ⟨mid, hmid, hrest⟩, hend⟩

/-- A step that does not meet the condition leads from one invariant to another one, which
stays. -/
theorem run_meets_or {cond : S → A → Prop} (P Q : S → Prop)
    (hmeets : ∀ s s' action, P s → cond s action → step s action = some s' → P s')
    (hbroken : ∀ s s' action, P s → ¬cond s action → step s action = some s' → Q s')
    (hstays : ∀ s s' action, Q s → step s action = some s' → Q s')
    {s s' : S} {actions : List A} (hs : P s) (hrun : run step s actions = some s') :
    (Meets step cond s actions ∧ P s') ∨ (¬Meets step cond s actions ∧ Q s') := by
  induction actions generalizing s with
  | nil =>
      rw [run, Option.some.injEq] at hrun
      exact Or.inl ⟨trivial, hrun ▸ hs⟩
  | cons action rest ih =>
      rw [run, Option.bind_eq_some_iff] at hrun
      obtain ⟨mid, hmid, hrest⟩ := hrun
      by_cases hcond : cond s action
      · have hlater : Meets step cond s (action :: rest) ↔ Meets step cond mid rest := by
          refine ⟨fun hall => hall.2 mid hmid, fun hall => ⟨hcond, fun next hnext => ?_⟩⟩
          rw [Option.mem_def, hmid, Option.some.injEq] at hnext
          exact hnext ▸ hall
        rw [hlater]
        exact ih (hmeets s mid action hs hcond hmid) hrest
      · refine Or.inr ⟨fun hall => hcond hall.1, ?_⟩
        exact run_keeps Q hstays (hbroken s mid action hs hcond hmid) hrest

/-- What must have been so for each step to be taken. -/
theorem Meets.of_run {cond cond' : S → A → Prop} (P : S → Prop)
    (hstep : ∀ s s' action, P s → cond s action → step s action = some s' →
      cond' s action ∧ P s')
    {s s' : S} {actions : List A} (hs : P s) (hmeets : Meets step cond s actions)
    (hrun : run step s actions = some s') : Meets step cond' s actions := by
  induction actions generalizing s with
  | nil => trivial
  | cons action rest ih =>
      rw [run, Option.bind_eq_some_iff] at hrun
      obtain ⟨mid, hmid, hrest⟩ := hrun
      obtain ⟨hcond, hkept⟩ := hstep s mid action hs hmeets.1 hmid
      refine ⟨hcond, ?_⟩
      intro next hnext
      rw [Option.mem_def, hmid, Option.some.injEq] at hnext
      exact hnext ▸ ih hkept (hmeets.2 mid hmid) hrest

/-- A machine that can follow each step of another one, and stays related to it, can follow its
runs. -/
theorem run_simulated {T : Type*} {step' : T → A → Option T} (R : S → T → Prop)
    (hstep : ∀ s s' t action, R s t → step s action = some s' →
      ∃ t', step' t action = some t' ∧ R s' t')
    {s s' : S} {t : T} {actions : List A} (hs : R s t) (hrun : run step s actions = some s') :
    ∃ t', run step' t actions = some t' ∧ R s' t' := by
  induction actions generalizing s t with
  | nil =>
      rw [run, Option.some.injEq] at hrun
      exact ⟨t, rfl, hrun ▸ hs⟩
  | cons action rest ih =>
      rw [run, Option.bind_eq_some_iff] at hrun
      obtain ⟨mid, hmid, hrest⟩ := hrun
      obtain ⟨mid', hmid', hrelated⟩ := hstep s mid t action hs hmid
      obtain ⟨t', hrest', hend⟩ := ih hrelated hrest
      exact ⟨t', Option.bind_eq_some_iff.mpr ⟨mid', hmid', hrest'⟩, hend⟩

theorem Meets.take {cond : S → A → Prop} {s : S} {actions : List A}
    (h : Meets step cond s actions) (n : Nat) : Meets step cond s (actions.take n) := by
  induction actions generalizing s n with
  | nil =>
      rw [List.take_nil]
      trivial
  | cons action rest ih =>
      cases n with
      | zero => trivial
      | succ n => exact ⟨h.1, fun s' hstep => ih (h.2 s' hstep) n⟩

theorem run_append (s : S) (actions later : List A) :
    run step s (actions ++ later) = (run step s actions).bind fun s' => run step s' later := by
  induction actions generalizing s with
  | nil => rfl
  | cons action rest ih =>
      rw [List.cons_append, run, run, Option.bind_assoc]
      congr 1
      funext next
      exact ih next

theorem Meets.append {cond : S → A → Prop} {s s' : S} {actions later : List A}
    (h : Meets step cond s actions) (hrun : run step s actions = some s')
    (h' : Meets step cond s' later) : Meets step cond s (actions ++ later) := by
  induction actions generalizing s with
  | nil =>
      rw [run, Option.some.injEq] at hrun
      exact hrun ▸ h'
  | cons action rest ih =>
      rw [run, Option.bind_eq_some_iff] at hrun
      obtain ⟨mid, hmid, hrest⟩ := hrun
      refine ⟨h.1, fun next hnext => ?_⟩
      rw [Option.mem_def, hmid, Option.some.injEq] at hnext
      exact hnext ▸ ih (h.2 mid hmid) hrest

/-! ### What a run can lead to -/

/-- Some run whose actions meet the condition ends in a state with the property. -/
def CanReach (step : S → A → Option S) (cond : S → A → Prop) (s : S) (post : S → Prop) : Prop :=
  ∃ actions s', Meets step cond s actions ∧ run step s actions = some s' ∧ post s'

section Reach

variable {cond : S → A → Prop} {s s' : S} {post mid : S → Prop}

theorem CanReach.here (h : post s) : CanReach step cond s post :=
  ⟨[], s, trivial, rfl, h⟩

theorem CanReach.bind (h : CanReach step cond s mid)
    (hnext : ∀ s', mid s' → CanReach step cond s' post) : CanReach step cond s post := by
  obtain ⟨actions, s', hmeets, hrun, hmid⟩ := h
  obtain ⟨later, s'', hlater, hrun', hpost⟩ := hnext s' hmid
  refine ⟨actions ++ later, s'', hmeets.append hrun hlater, ?_, hpost⟩
  rw [run_append, hrun]
  exact hrun'

theorem CanReach.imp (h : CanReach step cond s mid) (himp : ∀ s', mid s' → post s') :
    CanReach step cond s post :=
  h.bind fun s' hmid => CanReach.here (himp s' hmid)

theorem CanReach.head {action : A} (hcond : cond s action) (hstep : step s action = some s')
    (h : CanReach step cond s' post) : CanReach step cond s post := by
  obtain ⟨actions, s'', hmeets, hrun, hpost⟩ := h
  refine ⟨action :: actions, s'', ⟨hcond, fun next hnext => ?_⟩, ?_, hpost⟩
  · rw [Option.mem_def, hstep, Option.some.injEq] at hnext
    exact hnext ▸ hmeets
  · rw [run, hstep]
    exact hrun

/-- Deal with the items of a list one after the other, until all are dealt with or the aim is
reached before. -/
theorem CanReach.forEach {ι : Type*} (P : List ι → S → Prop)
    (hitem : ∀ item rest s, P (item :: rest) s →
      CanReach step cond s fun s' => post s' ∨ P rest s')
    (hdone : ∀ s, P [] s → CanReach step cond s post) {items : List ι} (hs : P items s) :
    CanReach step cond s post := by
  induction items generalizing s with
  | nil => exact hdone s hs
  | cons item rest ih =>
      apply (hitem item rest s hs).bind
      rintro s' (hpost | hrest)
      · exact CanReach.here hpost
      · exact ih hrest

/-- Rounds that lower a measure as long as the aim is not reached lead to it. -/
theorem CanReach.rounds (size : S → Nat) (P : S → Prop)
    (hround : ∀ s, P s → CanReach step cond s fun s' => post s' ∨ (P s' ∧ size s' < size s))
    (hs : P s) : CanReach step cond s post := by
  generalize hn : size s = n
  induction n using Nat.strongRecOn generalizing s with
  | _ n ih =>
      apply (hround s hs).bind
      rintro s' (hpost | ⟨hkept, hless⟩)
      · exact CanReach.here hpost
      · exact ih (size s') (hn ▸ hless) hkept rfl

end Reach

/-- A property that is seen in a state comes with an invariant.  Where a step keeps the
invariant if it meets the condition, and the property is lost if it does not, a run stays
within the property exactly when all of its steps meet the condition. -/
theorem meets_iff_seen {cond : S → A → Prop} (P Q : S → Prop) (hseen : ∀ s, P s → Q s)
    (hstep : ∀ s s' action, P s → step s action = some s' →
      (Q s' → cond s action) ∧ (cond s action → P s'))
    {s s' : S} {actions : List A} (hs : P s) (hrun : run step s actions = some s') :
    (∀ n mid, run step s (actions.take n) = some mid → Q mid) ↔
      Meets step cond s actions := by
  induction actions generalizing s with
  | nil =>
      refine ⟨fun _ => trivial, fun _ n mid hmid => ?_⟩
      rw [List.take_nil, run, Option.some.injEq] at hmid
      exact hmid ▸ hseen s hs
  | cons action rest ih =>
      rw [run, Option.bind_eq_some_iff] at hrun
      obtain ⟨next, hnext, hrest⟩ := hrun
      obtain ⟨hneeds, hkeeps⟩ := hstep s next action hs hnext
      have hlater : ∀ n mid, run step s ((action :: rest).take (n + 1)) = some mid ↔
          run step next (rest.take n) = some mid := by
        intro n mid
        rw [List.take_succ_cons, run, hnext]
        rfl
      constructor
      · intro halways
        have hcond := hneeds (halways 1 next ((hlater 0 next).mpr rfl))
        refine ⟨hcond, ?_⟩
        intro after hafter
        rw [Option.mem_def, hnext, Option.some.injEq] at hafter
        subst hafter
        exact (ih (hkeeps hcond) hrest).mp fun n mid hmid =>
          halways (n + 1) mid ((hlater n mid).mpr hmid)
      · rintro ⟨hcond, hmeets⟩ n mid hmid
        cases n with
        | zero =>
            rw [List.take_zero, run, Option.some.injEq] at hmid
            exact hmid ▸ hseen s hs
        | succ n =>
            exact (ih (hkeeps hcond) hrest).mpr (hmeets next hnext) n mid
              ((hlater n mid).mp hmid)

/-- Where each step keeps a property exactly when it meets the condition, a run stays within
the property exactly when all of its steps meet the condition. -/
theorem meets_iff_always {cond : S → A → Prop} (P : S → Prop)
    (hstep : ∀ s s' action, P s → step s action = some s' → (P s' ↔ cond s action))
    {s s' : S} {actions : List A} (hs : P s) (hrun : run step s actions = some s') :
    (∀ n mid, run step s (actions.take n) = some mid → P mid) ↔
      Meets step cond s actions := by
  apply meets_iff_seen P P (fun _ h => h) ?_ hs hrun
  intro s s' action hs hnext
  exact ⟨(hstep s s' action hs hnext).mp, (hstep s s' action hs hnext).mpr⟩

section Results

variable {T : Type*} {O : Type*}

/-- A step with a result, as a step of a run. -/
def total (step : S → A → S × O) (s : S) (action : A) : Option S :=
  some (step s action).1

/-- The results of a run. -/
def results (step : S → A → S × O) (s : S) : List A → List O
  | [] => []
  | action :: rest => (step s action).2 :: results step (step s action).1 rest

/-- The state after a run. -/
def final (step : S → A → S × O) (s : S) (actions : List A) : S :=
  actions.foldl (fun s action => (step s action).1) s

/-- What every step with a result preserves holds behind a run. -/
theorem final_invariant {step : S → A → S × O} {cond : S → A → Prop} (P : S → Prop)
    (hstep : ∀ s action, P s → cond s action → P (step s action).1)
    {s : S} {actions : List A} (hs : P s) (hmeets : Meets (total step) cond s actions) :
    P (final step s actions) := by
  induction actions generalizing s with
  | nil => exact hs
  | cons action rest ih =>
      exact ih (hstep s action hs hmeets.1) (hmeets.2 (step s action).1 rfl)

/-- Where steps that meet a condition have the results of another machine, and keep a relation
to its states, so do runs. -/
theorem results_eq {step : S → A → S × O} {step' : T → A → T × O} {cond : S → A → Prop}
    (R : S → T → Prop)
    (hstep : ∀ s t action, R s t → cond s action →
      (step s action).2 = (step' t action).2 ∧ R (step s action).1 (step' t action).1)
    {s : S} {t : T} {actions : List A} (hs : R s t) (hmeets : Meets (total step) cond s actions) :
    results step s actions = results step' t actions ∧
      R (final step s actions) (final step' t actions) := by
  induction actions generalizing s t with
  | nil => exact ⟨rfl, hs⟩
  | cons action rest ih =>
      obtain ⟨hresult, hnext⟩ := hstep s t action hs hmeets.1
      obtain ⟨hrest, hfinal⟩ := ih hnext (hmeets.2 (step s action).1 rfl)
      refine ⟨?_, hfinal⟩
      rw [results, results, hresult, hrest]

end Results

end Runs
