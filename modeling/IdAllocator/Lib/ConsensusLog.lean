/-
The logs of leader-based replication.

Every entry that a node holds stands, together with everything in front of it,
in the log of the leader of the entry's term.  Two logs that share an entry of
one term at one position are therefore the same up to that position.
-/
import IdAllocator.Lib.Consensus

namespace Consensus

universe u v w

variable {N : Type u} {T : Type v} {E : Type w}
variable {tm : E → T} {s s' : State N T E} {l l' : List E}

/-- Every entry of `l` stands, with everything in front of it, in the log of
the leader of its term. -/
def Recorded (tm : E → T) (s : State N T E) (l : List E) : Prop :=
  ∀ i e, l[i]? = some e → s.Won (tm e) ∧ l.take (i + 1) <+: s.leaderLog (tm e)

theorem Recorded.mono (h : Recorded tm s l) (hgrows : Grows s s') :
    Recorded tm s' l := by
  intro i e he
  obtain ⟨hwon, hpre⟩ := h i e he
  exact ⟨hgrows.won hwon, hpre.trans (hgrows.leaderLog _ hwon)⟩

theorem Recorded.shorten (h : Recorded tm s l) (hle : l' <+: l) :
    Recorded tm s l' := by
  intro i e he
  obtain ⟨rest, rfl⟩ := hle
  obtain ⟨hlt, _⟩ := List.getElem?_eq_some_iff.mp he
  have hold : (l' ++ rest)[i]? = some e := by
    rw [List.getElem?_append_left hlt]
    exact he
  obtain ⟨hwon, hpre⟩ := h i e hold
  rw [List.take_append_of_le_length (by omega)] at hpre
  exact ⟨hwon, hpre⟩

/-- Two recorded logs with entries of one term at one position are the same up
to there. -/
theorem Recorded.agree (h : Recorded tm s l) (h' : Recorded tm s l') {i : Nat}
    {e e' : E} (he : l[i]? = some e) (he' : l'[i]? = some e')
    (hterm : tm e = tm e') : l.take (i + 1) = l'.take (i + 1) := by
  obtain ⟨_, hpre⟩ := h i e he
  obtain ⟨_, hpre'⟩ := h' i e' he'
  rw [← hterm] at hpre'
  obtain ⟨hlt, _⟩ := List.getElem?_eq_some_iff.mp he
  obtain ⟨hlt', _⟩ := List.getElem?_eq_some_iff.mp he'
  have hlength : (l.take (i + 1)).length = (l'.take (i + 1)).length := by
    simp only [List.length_take]
    omega
  rw [ List.prefix_iff_eq_take] at hpre hpre'
  rw [hpre, hpre', hlength]

/-- Part of a recorded log is part of every recorded log that agrees with its
last entry. -/
theorem Recorded.holds (h : Recorded tm s l) (h' : Recorded tm s l') {front : List E}
    (hfront : front <+: l') {e f : E} (hlast : front.getLast? = some f)
    (he : l[front.length - 1]? = some e) (hterm : tm e = tm f) : front <+: l := by
  rw [List.getLast?_eq_getElem?] at hlast
  obtain ⟨hlt, _⟩ := List.getElem?_eq_some_iff.mp hlast
  have hlast' : l'[front.length - 1]? = some f := by
    obtain ⟨rest, rfl⟩ := hfront
    rw [List.getElem?_append_left hlt]
    exact hlast
  have hsame := h.agree h' he hlast' hterm
  have hlength : front.length - 1 + 1 = front.length := by omega
  rw [hlength] at hsame
  rw [ List.prefix_iff_eq_take] at hfront ⊢
  rw [hsame]
  exact hfront

/-- How the logs hang together with the leaders' logs. -/
structure LogInv [LE T] [LT T] (tm : E → T) (s : State N T E) : Prop where
  log_recorded : ∀ x, Recorded tm s (s.log x)
  stood_recorded : ∀ t c l, s.stood t c l → Recorded tm s l
  leaderLog_recorded : ∀ t, s.Won t → Recorded tm s (s.leaderLog t)
  log_term : ∀ x e, e ∈ s.log x → tm e ≤ s.term x
  stood_lt : ∀ t c l e, s.stood t c l → e ∈ l → tm e < t
  leader_log : ∀ x, s.role x = .leader → s.log x = s.leaderLog (s.term x)
  leaderLog_split : ∀ t c Q, s.elected t c Q → ∃ l tail, s.stood t c l ∧
    s.leaderLog t = l ++ tail ∧ ∀ e ∈ tail, tm e = t

section Order

variable [LinearOrder T] {quorum : Set N → Prop} {strict : Prop} {base : T}

theorem LogInv.leaderLog_term (h : LogInv tm s) {t : T} (hwon : s.Won t) {e : E}
    (he : e ∈ s.leaderLog t) : tm e ≤ t := by
  obtain ⟨c, Q, hQ⟩ := hwon
  obtain ⟨l, tail, hstood, hsplit, htail⟩ := h.leaderLog_split t c Q hQ
  rw [hsplit, List.mem_append] at he
  rcases he with hold | hnew
  · exact le_of_lt (h.stood_lt t c l e hstood hold)
  · exact le_of_eq (htail e hnew)

theorem Initial.logInv (h : Initial base s) : LogInv tm s where
  log_recorded x := by simp [Recorded, h.log]
  stood_recorded t c l hl := absurd hl (h.stood t c l)
  leaderLog_recorded t ht := by
    obtain ⟨c, Q, hQ⟩ := ht
    exact absurd hQ (h.elected t c Q)
  log_term x e he := by simp [h.log] at he
  stood_lt t c l e hl := absurd hl (h.stood t c l)
  leader_log x hx := by simp [h.role] at hx
  leaderLog_split t c Q hQ := absurd hQ (h.elected t c Q)

/-- A step that leaves the elections and the leaders' logs alone. -/
theorem LogInv.of_same (h : LogInv tm s) (s' : State N T E)
    (helected : s'.elected = s.elected) (hleaderLog : s'.leaderLog = s.leaderLog)
    (hlog : ∀ x, Recorded tm s (s'.log x))
    (hterm : ∀ x e, e ∈ s'.log x → tm e ≤ s'.term x)
    (hstood : ∀ t c l, s.stood t c l → s'.stood t c l)
    (hnew : ∀ t c l, s'.stood t c l → s.stood t c l ∨
      Recorded tm s l ∧ ∀ e ∈ l, tm e < t)
    (hleader : ∀ x, s'.role x = .leader →
      s.role x = .leader ∧ s'.log x = s.log x ∧ s'.term x = s.term x) :
    LogInv tm s' := by
  have hrecorded : ∀ l, Recorded tm s l → Recorded tm s' l := by
    intro l hl i e he
    obtain ⟨⟨c, Q, hQ⟩, hpre⟩ := hl i e he
    rw [← helected] at hQ
    rw [← hleaderLog] at hpre
    exact ⟨⟨c, Q, hQ⟩, hpre⟩
  constructor
  · intro x
    exact hrecorded _ (hlog x)
  · intro t c l hl
    rcases hnew t c l hl with hold | ⟨hl, _⟩
    · exact hrecorded l (h.stood_recorded t c l hold)
    · exact hrecorded l hl
  · rintro t ⟨c, Q, hQ⟩
    rw [helected] at hQ
    rw [hleaderLog]
    exact hrecorded _ (h.leaderLog_recorded t ⟨c, Q, hQ⟩)
  · exact hterm
  · intro t c l e hl he
    rcases hnew t c l hl with hold | ⟨_, hlt⟩
    · exact h.stood_lt t c l e hold he
    · exact hlt e he
  · intro x hx
    obtain ⟨hrole, hsame, hsame'⟩ := hleader x hx
    rw [hsame, hsame', hleaderLog]
    exact h.leader_log x hrole
  · intro t c Q hQ
    rw [helected] at hQ
    obtain ⟨l, tail, hl, hsplit, htail⟩ := h.leaderLog_split t c Q hQ
    exact ⟨l, tail, hstood t c l hl, by rw [hleaderLog, hsplit], htail⟩

theorem LogInv.ack (h : LogInv tm s) (x : N) (p : Nat) : LogInv tm (s.ack tm x p) :=
  h.of_same (s.ack tm x p) rfl rfl h.log_recorded h.log_term (fun _ _ _ hl => hl)
    (fun _ _ _ hl => Or.inl hl) fun _ hx => ⟨hx, rfl, rfl⟩

variable [DecidableEq N]

theorem LogInv.stand (h : LogInv tm s) {x : N} {t : T} (ht : s.term x < t) :
    LogInv tm (s.stand x t) := by
  apply h.of_same (s.stand x t) rfl rfl h.log_recorded
  · intro y e he
    by_cases hy : y = x
    · subst hy
      simpa [State.stand] using le_of_lt (lt_of_le_of_lt (h.log_term y e he) ht)
    · simpa [State.stand, hy] using h.log_term y e he
  · exact fun _ _ _ hl => Or.inl hl
  · rintro u c l (hl | ⟨rfl, rfl, rfl⟩)
    · exact Or.inl hl
    · exact Or.inr ⟨h.log_recorded c, fun e he => lt_of_le_of_lt (h.log_term c e he) ht⟩
  · intro y hy
    have hne : y ≠ x := by
      rintro rfl
      simp [State.stand] at hy
    simpa [State.stand, hne] using hy

theorem LogInv.observe (h : LogInv tm s) {x : N} {t : T} (ht : s.term x < t) :
    LogInv tm (s.observe x t) := by
  apply h.of_same (s.observe x t) rfl rfl h.log_recorded
  · intro y e he
    by_cases hy : y = x
    · subst hy
      simpa [State.observe] using le_of_lt (lt_of_le_of_lt (h.log_term y e he) ht)
    · simpa [State.observe, hy] using h.log_term y e he
  · exact fun _ _ _ hl => hl
  · exact fun _ _ _ hl => Or.inl hl
  · intro y hy
    have hne : y ≠ x := by
      rintro rfl
      simp [State.observe] at hy
    simpa [State.observe, hne] using hy

theorem LogInv.stepDown (h : LogInv tm s) (x : N) : LogInv tm (s.stepDown x) := by
  apply h.of_same (s.stepDown x) rfl rfl h.log_recorded h.log_term
  · exact fun _ _ _ hl => hl
  · exact fun _ _ _ hl => Or.inl hl
  · intro y hy
    have hne : y ≠ x := by
      rintro rfl
      simp [State.stepDown] at hy
    refine ⟨?_, rfl, rfl⟩
    simpa [State.stepDown, hne] using hy

theorem LogInv.grant (h : LogInv tm s) (x c : N) : LogInv tm (s.grant x c) :=
  h.of_same (s.grant x c) rfl rfl h.log_recorded h.log_term (fun _ _ _ hl => hl)
    (fun _ _ _ hl => Or.inl hl) fun _ hx => ⟨hx, rfl, rfl⟩

/-- A follower takes over a recorded log. -/
theorem LogInv.setLog (h : LogInv tm s) {x : N} (hrole : s.role x = .follower)
    (hl : Recorded tm s l) (hterm : ∀ e ∈ l, tm e ≤ s.term x) :
    LogInv tm (s.setLog x l) := by
  apply h.of_same (s.setLog x l) rfl rfl
  · intro y
    by_cases hy : y = x
    · simpa [State.setLog, hy] using hl
    · simpa [State.setLog, hy] using h.log_recorded y
  · intro y e he
    by_cases hy : y = x
    · subst hy
      exact hterm e (by simpa [State.setLog] using he)
    · exact h.log_term y e (by simpa [State.setLog, hy] using he)
  · exact fun _ _ _ hl => hl
  · exact fun _ _ _ hl => Or.inl hl
  · intro y hy
    have hne : y ≠ x := by
      rintro rfl
      change s.role y = .leader at hy
      rw [hrole] at hy
      cases hy
    exact ⟨hy, by simp [State.setLog, hne], rfl⟩

theorem LogInv.elect (hv : VoteInv quorum base s) (h : LogInv tm s) {x : N}
    {Q : Set N} (hfresh : ¬ s.Won (s.term x)) (hrole : s.role x = .candidate)
    (hgrows : Grows s (s.elect x Q)) : LogInv tm (s.elect x Q) := by
  constructor
  · intro y
    exact (h.log_recorded y).mono hgrows
  · intro t c l hl
    exact (h.stood_recorded t c l hl).mono hgrows
  · rintro t ⟨c, R, hR | ⟨rfl, rfl, rfl⟩⟩
    · have hne : t ≠ s.term x := by
        rintro rfl
        exact hfresh ⟨c, R, hR⟩
      have hsame : (s.elect x Q).leaderLog t = s.leaderLog t := by
        simp [State.elect, hne]
      rw [hsame]
      exact (h.leaderLog_recorded t ⟨c, R, hR⟩).mono hgrows
    · have hsame : (s.elect c R).leaderLog (s.term c) = s.log c := by
        simp [State.elect]
      rw [hsame]
      exact (h.log_recorded c).mono hgrows
  · exact h.log_term
  · exact h.stood_lt
  · intro y hy
    by_cases hyx : y = x
    · subst hyx
      simp [State.elect]
    · have hleader : s.role y = .leader := by simpa [State.elect, hyx] using hy
      obtain ⟨R, hR⟩ := hv.leader_elected y hleader
      have hne : s.term y ≠ s.term x := by
        intro heq
        rw [heq] at hR
        exact hfresh ⟨y, R, hR⟩
      simpa [State.elect, hne] using h.leader_log y hleader
  · rintro t c R (hR | ⟨rfl, rfl, rfl⟩)
    · have hne : t ≠ s.term x := by
        rintro rfl
        exact hfresh ⟨c, R, hR⟩
      simpa [State.elect, hne] using h.leaderLog_split t c R hR
    · exact ⟨s.log c, [], hv.candidate_stood c hrole, by simp [State.elect], by simp⟩

theorem LogInv.append (hv : VoteInv quorum base s) (h : LogInv tm s) {x : N} {e : E}
    (hrole : s.role x = .leader) (hterm : tm e = s.term x)
    (hgrows : Grows s (s.append x e)) : LogInv tm (s.append x e) := by
  obtain ⟨Q, hQ⟩ := hv.leader_elected x hrole
  have hlog := h.leader_log x hrole
  have hself : (s.append x e).leaderLog (s.term x) = s.log x ++ [e] := by
    simp [State.append, hlog]
  have hother : ∀ t, t ≠ s.term x → (s.append x e).leaderLog t = s.leaderLog t := by
    intro t ht
    simp [State.append, ht]
  -- the longer log: the new entry is the end of the leader's own log
  have hnew : Recorded tm (s.append x e) (s.log x ++ [e]) := by
    intro i a ha
    by_cases hi : i < (s.log x).length
    · rw [List.getElem?_append_left hi] at ha
      rw [List.take_append_of_le_length (by omega)]
      exact (h.log_recorded x).mono hgrows i a ha
    · have hieq : i = (s.log x).length := by
        obtain ⟨hlt, _⟩ := List.getElem?_eq_some_iff.mp ha
        simp only [List.length_append, List.length_singleton] at hlt
        omega
      subst hieq
      simp only [List.getElem?_concat_length, Option.some.injEq] at ha
      subst ha
      rw [hterm, hself]
      exact ⟨hgrows.won ⟨x, Q, hQ⟩, ( List.take_prefix _ _)⟩
  constructor
  · intro y
    by_cases hy : y = x
    · subst hy
      simpa [State.append] using hnew
    · simpa [State.append, hy] using (h.log_recorded y).mono hgrows
  · intro t c l hl
    exact (h.stood_recorded t c l hl).mono hgrows
  · intro t ht
    by_cases htx : t = s.term x
    · rw [htx, hself]
      exact hnew
    · rw [hother t htx]
      exact (h.leaderLog_recorded t ht).mono hgrows
  · intro y a ha
    by_cases hy : y = x
    · subst hy
      simp only [State.append, Function.update_self, List.mem_append,
        List.mem_singleton] at ha
      rcases ha with hold | rfl
      · exact h.log_term y a hold
      · exact le_of_eq hterm
    · exact h.log_term y a (by simpa [State.append, hy] using ha)
  · exact h.stood_lt
  · intro y hy
    by_cases hyx : y = x
    · subst hyx
      change _ = (s.append y e).leaderLog (s.term y)
      rw [hself]
      simp [State.append]
    · -- no second leader in this term
      obtain ⟨R, hR⟩ := hv.leader_elected y hy
      have hne : s.term y ≠ s.term x := by
        intro heq
        rw [heq] at hR
        exact hyx (hv.elected_unique _ y x R Q hR hQ)
      simpa [State.append, hyx, hne] using h.leader_log y hy
  · intro t c R hR
    obtain ⟨l, tail, hl, hsplit, htail⟩ := h.leaderLog_split t c R hR
    by_cases htx : t = s.term x
    · subst htx
      refine ⟨l, tail ++ [e], hl, ?_, ?_⟩
      · rw [hself, hlog, hsplit, List.append_assoc]
      · intro a ha
        rcases List.mem_append.mp ha with hold | hnew
        · exact htail a hold
        · rw [List.mem_singleton.mp hnew]
          exact hterm
    · exact ⟨l, tail, hl, by rw [hother t htx, hsplit], htail⟩

theorem LogInv.step (hv : VoteInv quorum base s) (h : LogInv tm s)
    (hmeet : ∀ Q R, quorum Q → quorum R → ∃ y, y ∈ Q ∧ y ∈ R)
    {x : N}
    (hstep : Step tm quorum strict x s s') : LogInv tm s' := by
  have hgrows := Grows.step hv hmeet hstep
  cases hstep with
  | stand t hterm => exact h.stand hterm
  | observe t hterm => exact h.observe hterm
  | stepDown hrole => exact h.stepDown x
  | grant c l hrole hvote hstood hlog => exact h.grant x c
  | elect Q hrole hquorum hvotes =>
      exact LogInv.elect hv h (hv.not_won hmeet hrole hquorum hvotes) hrole hgrows
  | append e hrole hterm => exact LogInv.append hv h hrole hterm hgrows
  | adopt m hrole hwon hnew =>
      refine h.setLog hrole
        ((h.leaderLog_recorded _ hwon).shorten ( List.take_prefix _ _)) ?_
      intro e he
      exact h.leaderLog_term hwon (List.mem_of_mem_take he)
  | truncate m hrole hstrict =>
      refine h.setLog hrole ((h.log_recorded x).shorten ( List.take_prefix _ _)) ?_
      intro e he
      exact h.log_term x e (List.mem_of_mem_take he)
  | ack p hwon hheld => exact h.ack x p

end Order

end Consensus
