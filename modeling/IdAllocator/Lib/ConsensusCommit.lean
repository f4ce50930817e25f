/-
What a quorum has acknowledged is never lost.

When every node of a quorum has acknowledged the log of the leader of a term up
to an entry of that term, every later leader starts with that log.  This needs
strict steps: a follower never drops an entry in which it agrees with the leader
of its term.
-/
import Mathlib.Order.Interval.Finset.Basic
import Mathlib.Logic.Relation
import Mathlib.Data.Finset.Card
import IdAllocator.Lib.ConsensusLog

namespace Consensus

universe u v w

variable {N : Type u} {T : Type v} {E : Type w}
variable {tm : E → T} {s s' : State N T E} {quorum : Set N → Prop}
variable {x : N} {t : T} {p : Nat}

namespace State

/-- The log of the leader of term `t` up to and including position `p`. -/
def upTo (s : State N T E) (t : T) (p : Nat) : List E :=
  (s.leaderLog t).take (p + 1)

/-- Term `t` has a leader, and position `p` of its log is an entry of term `t`. -/
def Own (tm : E → T) (s : State N T E) (t : T) (p : Nat) : Prop :=
  s.Won t ∧ ∃ e, (s.leaderLog t)[p]? = some e ∧ tm e = t

/-- The leader of term `t` began with log `l`. -/
def Began (s : State N T E) (t : T) (l : List E) : Prop :=
  ∃ c Q, s.elected t c Q ∧ s.stood t c l

/-- Every leader of a term between `t` and `u` began with the log up to `p`. -/
def Carried [LT T] (s : State N T E) (t : T) (p : Nat) (u : T) : Prop :=
  ∀ v l, t < v → v < u → s.Began v l → s.upTo t p <+: l

/-- A quorum has acknowledged position `p` of term `t`. -/
def Chosen (tm : E → T) (quorum : Set N → Prop) (s : State N T E) (t : T)
    (p : Nat) : Prop :=
  s.Own tm t p ∧ ∃ Q, quorum Q ∧ ∀ y ∈ Q, s.acked y t p

/-- The log `l` is part of one that a quorum has acknowledged. -/
def Agreed (tm : E → T) (quorum : Set N → Prop) (s : State N T E)
    (l : List E) : Prop :=
  l = [] ∨ ∃ t p, s.Chosen tm quorum t p ∧ l <+: s.upTo t p

end State

open State

/-! ### Growth -/

theorem State.Own.length (h : s.Own tm t p) : p < (s.leaderLog t).length := by
  obtain ⟨_, e, he, _⟩ := h
  exact (List.getElem?_eq_some_iff.mp he).1

theorem State.Own.upTo_eq (h : s.Own tm t p) (hgrows : Grows s s') :
    s'.upTo t p = s.upTo t p := by
  obtain ⟨rest, hrest⟩ := hgrows.leaderLog t h.1
  have hlt := h.length
  rw [State.upTo, ← hrest, List.take_append_of_le_length (by omega)]
  rfl

theorem State.Own.mono (h : s.Own tm t p) (hgrows : Grows s s') : s'.Own tm t p := by
  obtain ⟨rest, hrest⟩ := hgrows.leaderLog t h.1
  have hlt := h.length
  obtain ⟨hwon, e, he, hterm⟩ := h
  refine ⟨hgrows.won hwon, e, ?_, hterm⟩
  rw [← hrest, List.getElem?_append_left hlt]
  exact he

theorem State.Own.upTo_getElem (h : s.Own tm t p) :
    ∃ e, (s.upTo t p)[p]? = some e ∧ tm e = t := by
  obtain ⟨_, e, he, hterm⟩ := h
  refine ⟨e, ?_, hterm⟩
  rw [State.upTo, List.getElem?_take_of_lt (by omega)]
  exact he

theorem State.Began.mono {l : List E} (h : s.Began t l) (hgrows : Grows s s') :
    s'.Began t l := by
  obtain ⟨c, Q, hQ, hl⟩ := h
  exact ⟨c, Q, hgrows.elected t c Q hQ, hgrows.stood t c l hl⟩

theorem State.Carried.of_grows [LT T] {v : T} (h : s'.Carried t p v)
    (hown : s.Own tm t p) (hgrows : Grows s s') : s.Carried t p v := by
  intro w l htw hwv hl
  rw [← hown.upTo_eq hgrows]
  exact h w l htw hwv (hl.mono hgrows)

theorem State.Chosen.mono (h : s.Chosen tm quorum t p) (hgrows : Grows s s') :
    s'.Chosen tm quorum t p := by
  obtain ⟨hown, Q, hQ, hacked⟩ := h
  exact ⟨hown.mono hgrows, Q, hQ, fun y hy => hgrows.acked y t p (hacked y hy)⟩

theorem State.Agreed.mono {l : List E} (h : s.Agreed tm quorum l)
    (hgrows : Grows s s') : s'.Agreed tm quorum l := by
  rcases h with rfl | ⟨t, p, hchosen, hl⟩
  · exact Or.inl rfl
  · refine Or.inr ⟨t, p, hchosen.mono hgrows, ?_⟩
    rw [hchosen.1.upTo_eq hgrows]
    exact hl

theorem State.Agreed.shorten {l l' : List E} (h : s.Agreed tm quorum l)
    (hle : l' <+: l) : s.Agreed tm quorum l' := by
  rcases h with rfl | ⟨t, p, hchosen, hl⟩
  · exact Or.inl ( List.prefix_nil.mp hle)
  · exact Or.inr ⟨t, p, hchosen, hle.trans hl⟩

section Order

variable [LinearOrder T] {strict : Prop} {base : T}

/-! ### The invariant -/

/-- What an acknowledgement means for the log of the node that gave it, for
the candidates it votes for later, and for the leaders it helps to elect. -/
structure AckInv (tm : E → T) (s : State N T E) : Prop where
  acked_term : ∀ x t p, s.acked x t p → t ≤ s.term x
  acked_own : ∀ x t p, s.acked x t p → s.Own tm t p
  kept : ∀ x t p, s.acked x t p →
    (∀ v l, t < v → v ≤ s.term x → s.Began v l → s.upTo t p <+: l) →
    s.upTo t p <+: s.log x
  voted : ∀ x v c l t p, s.votes x v c → s.stood v c l → ¬ s.Won v →
    s.acked x t p → t < v → s.Carried t p v → s.upTo t p <+: l
  won : ∀ x v c Q l t p, s.elected v c Q → x ∈ Q → s.stood v c l →
    s.acked x t p → t < v → s.Carried t p v → s.upTo t p <+: l

theorem Initial.ackInv (h : Initial base s) : AckInv tm s where
  acked_term x t p hp := absurd hp (h.acked x t p)
  acked_own x t p hp := absurd hp (h.acked x t p)
  kept x t p hp := absurd hp (h.acked x t p)
  voted x _ _ _ t p _ _ _ hp := absurd hp (h.acked x t p)
  won x _ _ _ _ t p _ _ _ hp := absurd hp (h.acked x t p)

theorem State.Began.prefix_leaderLog (hv : VoteInv quorum base s) (h : LogInv tm s)
    {l : List E} (hl : s.Began t l) : l <+: s.leaderLog t := by
  obtain ⟨c, Q, hQ, hstood⟩ := hl
  obtain ⟨l', tail, hstood', hsplit, _⟩ := h.leaderLog_split t c Q hQ
  rw [hv.stood_unique t c l l' hstood hstood', hsplit]
  exact ( List.prefix_append _ _)

/-- A log whose last entry is of term `v` is longer than the one that the
leader of `v` began with. -/
theorem Recorded.began_prefix (h : LogInv tm s) {l l' : List E}
    (hl : Recorded tm s l) {b : E} (hlast : l.getLast? = some b)
    (hbegan : s.Began (tm b) l') (hl' : l' <+: s.leaderLog (tm b)) : l' <+: l := by
  rw [List.getLast?_eq_getElem?] at hlast
  obtain ⟨hlt, _⟩ := List.getElem?_eq_some_iff.mp hlast
  obtain ⟨_, hpre⟩ := hl _ b hlast
  rw [List.take_of_length_le (by omega)] at hpre
  apply List.prefix_of_prefix_length_le hl' hpre
  by_contra hshort
  -- otherwise `b` is one of the entries the leader of its term began with
  obtain ⟨rest, hrest⟩ := hl'
  obtain ⟨rest', hrest'⟩ := hpre
  have hmem : l'[l.length - 1]? = some b := by
    rw [← List.getElem?_append_left (by omega : l.length - 1 < l'.length), hrest,
      ← hrest', List.getElem?_append_left hlt]
    exact hlast
  obtain ⟨c, Q, _, hstood⟩ := hbegan
  exact lt_irrefl _ (h.stood_lt _ c l' b hstood (List.mem_of_getElem? hmem))

/-- A candidate whose log is up to date carries what the voter carries. -/
theorem carries_of_upToDate (hv : VoteInv quorum base s) (h : LogInv tm s)
    {v : T} {l l' : List E} (hown : s.Own tm t p) (hl : Recorded tm s l)
    (hl' : Recorded tm s l') (hlt : ∀ e ∈ l', tm e < v)
    (hupToDate : UpToDate tm l l') (hcarried : s.Carried t p v)
    (hheld : s.upTo t p <+: l) : s.upTo t p <+: l' := by
  obtain ⟨e, he, hterm⟩ := hown.upTo_getElem
  have hel : l[p]? = some e := by
    obtain ⟨rest, rfl⟩ := hheld
    rw [List.getElem?_append_left (List.getElem?_eq_some_iff.mp he).1]
    exact he
  have hplt := (List.getElem?_eq_some_iff.mp hel).1
  obtain ⟨a, ha⟩ : ∃ a, l.getLast? = some a := by
    rw [List.getLast?_eq_getElem?]
    exact ⟨l[l.length - 1], List.getElem?_eq_getElem (by omega)⟩
  have haat := ha
  rw [List.getLast?_eq_getElem?] at haat
  obtain ⟨hwona, hla⟩ := hl _ a haat
  rw [List.take_of_length_le (by omega)] at hla
  -- the last entry of `l` is not older than the one at `p`
  have hta : t ≤ tm a := by
    rw [← hterm]
    exact h.leaderLog_term hwona (hla.subset (List.mem_of_getElem? hel))
  obtain ⟨b, hb, hcmp⟩ := hupToDate a ha
  have hbat := hb
  rw [List.getLast?_eq_getElem?] at hbat
  obtain ⟨⟨c, Q, hQ⟩, hlb⟩ := hl' _ b hbat
  rw [List.take_of_length_le (by omega)] at hlb
  rcases hcmp with hlater | ⟨hsame, hlength⟩
  · obtain ⟨l₀, hl₀⟩ := hv.elected_stood _ c Q hQ
    have hbegan : s.Began (tm b) l₀ := ⟨c, Q, hQ, hl₀⟩
    have hbv := hlt b (List.mem_of_getElem? hbat)
    exact (hcarried _ l₀ (lt_of_le_of_lt hta hlater) hbv hbegan).trans
      (hl'.began_prefix h hb hbegan (hbegan.prefix_leaderLog hv h))
  · rw [hsame] at hla
    exact hheld.trans ( List.prefix_of_prefix_length_le hla hlb hlength)

/-- A step without a new acknowledgement keeps the old ones, if it keeps what
they mean for logs, and if new votes and elections respect them. -/
theorem AckInv.of_grows (h : AckInv tm s) (s' : State N T E) (hgrows : Grows s s')
    (hacked : s'.acked = s.acked) (hterm : ∀ x, s.term x ≤ s'.term x)
    (hkept : ∀ x t p, s.acked x t p →
      (∀ v l, t < v → v ≤ s'.term x → s'.Began v l → s.upTo t p <+: l) →
      s.upTo t p <+: s.log x → s.upTo t p <+: s'.log x)
    (hvoted : ∀ x v c l t p, s'.votes x v c → s'.stood v c l → ¬ s'.Won v →
      s.acked x t p → t < v → s.Carried t p v →
      (s.votes x v c ∧ s.stood v c l) ∨ s.upTo t p <+: l)
    (hwon : ∀ x v c Q l t p, s'.elected v c Q → x ∈ Q → s'.stood v c l →
      s.acked x t p → t < v → s.Carried t p v →
      (s.elected v c Q ∧ s.stood v c l) ∨ s.upTo t p <+: l) :
    AckInv tm s' := by
  constructor
  · intro x t p hp
    rw [hacked] at hp
    exact le_trans (h.acked_term x t p hp) (hterm x)
  · intro x t p hp
    rw [hacked] at hp
    exact (h.acked_own x t p hp).mono hgrows
  · intro x t p hp hcarried
    rw [hacked] at hp
    rw [(h.acked_own x t p hp).upTo_eq hgrows] at hcarried ⊢
    refine hkept x t p hp hcarried (h.kept x t p hp ?_)
    intro v l htv hvx hl
    exact hcarried v l htv (le_trans hvx (hterm x)) (hl.mono hgrows)
  · intro x v c l t p hvote hstood hnot hp htv hcarried
    rw [hacked] at hp
    have hown := h.acked_own x t p hp
    have hold := hcarried.of_grows hown hgrows
    rw [hown.upTo_eq hgrows]
    rcases hvoted x v c l t p hvote hstood hnot hp htv hold with ⟨hvote, hstood⟩ | hdone
    · exact h.voted x v c l t p hvote hstood (fun hw => hnot (hgrows.won hw)) hp htv hold
    · exact hdone
  · intro x v c Q l t p hQ hx hstood hp htv hcarried
    rw [hacked] at hp
    have hown := h.acked_own x t p hp
    have hold := hcarried.of_grows hown hgrows
    rw [hown.upTo_eq hgrows]
    rcases hwon x v c Q l t p hQ hx hstood hp htv hold with ⟨hQ, hstood⟩ | hdone
    · exact h.won x v c Q l t p hQ hx hstood hp htv hold
    · exact hdone

/-- What a node has acknowledged is part of the log of the leader of its own
term. -/
theorem AckInv.upTo_prefix_leaderLog (hv : VoteInv quorum base s) (hl : LogInv tm s)
    (h : AckInv tm s) (hp : s.acked x t p) (hwon : s.Won (s.term x))
    (hcarried : ∀ v l, t < v → v ≤ s.term x → s.Began v l → s.upTo t p <+: l) :
    s.upTo t p <+: s.leaderLog (s.term x) := by
  rcases lt_or_eq_of_le (h.acked_term x t p hp) with hlt | rfl
  · obtain ⟨c, Q, hQ⟩ := hwon
    obtain ⟨l, hstood⟩ := hv.elected_stood _ c Q hQ
    have hbegan : s.Began (s.term x) l := ⟨c, Q, hQ, hstood⟩
    exact (hcarried _ l hlt (le_refl _) hbegan).trans (hbegan.prefix_leaderLog hv hl)
  · exact ( List.take_prefix _ _)

/-- A follower or a leader changes its log without losing what it has
acknowledged. -/
theorem AckInv.of_log (h : AckInv tm s) (s' : State N T E) (hgrows : Grows s s')
    (hterm : s'.term = s.term) (hvotes : s'.votes = s.votes)
    (hstood : s'.stood = s.stood) (helected : s'.elected = s.elected)
    (hacked : s'.acked = s.acked)
    (hkept : ∀ y t p, s.acked y t p →
      (∀ v l, t < v → v ≤ s.term y → s.Began v l → s.upTo t p <+: l) →
      s.upTo t p <+: s.log y → s.upTo t p <+: s'.log y) : AckInv tm s' := by
  apply h.of_grows s' hgrows hacked
  · intro y
    rw [hterm]
  · intro y t p hp hcarried
    rw [hterm] at hcarried
    refine hkept y t p hp ?_
    intro v l htv hvy hl
    exact hcarried v l htv hvy (hl.mono hgrows)
  · intro y v c l t p hvote hl _ _ _ _
    rw [hvotes] at hvote
    rw [hstood] at hl
    exact Or.inl ⟨hvote, hl⟩
  · intro y v c Q l t p hQ _ hl _ _ _
    rw [helected] at hQ
    rw [hstood] at hl
    exact Or.inl ⟨hQ, hl⟩

/-! ### Steps -/

theorem AckInv.ack (hv : VoteInv quorum base s) (h : AckInv tm s)
    (hwon : s.Won (s.term x))
    (hheld : (s.leaderLog (s.term x)).take (p + 1) <+: s.log x) :
    AckInv tm (s.ack tm x p) := by
  constructor
  · rintro y t q (hq | ⟨rfl, rfl, _⟩)
    · exact h.acked_term y t q hq
    · exact le_refl _
  · rintro y t q (hq | ⟨rfl, rfl, _, hown⟩)
    · exact h.acked_own y t q hq
    · exact ⟨hwon, hown⟩
  · rintro y t q (hq | ⟨rfl, rfl, hle, _⟩) hcarried
    · exact h.kept y t q hq hcarried
    · refine List.IsPrefix.trans ?_ hheld
      exact List.take_prefix_take_left (by omega)
  -- a vote or an election of an older term is not affected
  · rintro y v c l t q hvote hstood hnot (hq | ⟨rfl, rfl, _⟩) htv hcarried
    · exact h.voted y v c l t q hvote hstood hnot hq htv hcarried
    · exact absurd (hv.votes_term _ _ _ hvote) (not_le_of_gt htv)
  · rintro y v c Q l t q hQ hy hstood (hq | ⟨rfl, rfl, _⟩) htv hcarried
    · exact h.won y v c Q l t q hQ hy hstood hq htv hcarried
    · exact absurd (hv.votes_term _ _ _ ((hv.elected_quorum v c Q hQ).2 y hy))
        (not_le_of_gt htv)

variable [DecidableEq N]

theorem AckInv.stand (hv : VoteInv quorum base s) (h : AckInv tm s) {v : T}
    (hterm : s.term x < v) (hgrows : Grows s (s.stand x v)) :
    AckInv tm (s.stand x v) := by
  apply h.of_grows (s.stand x v) hgrows rfl
  · intro y
    by_cases hy : y = x
    · subst hy
      simpa [State.stand] using le_of_lt hterm
    · simp [State.stand, hy]
  · exact fun _ _ _ _ _ hheld => hheld
  · rintro y w c l t p (hvote | ⟨rfl, rfl, rfl⟩) hstood _ hp htw hcarried
    · left
      refine ⟨hvote, ?_⟩
      rcases hstood with hstood | ⟨rfl, rfl, rfl⟩
      · exact hstood
      · obtain ⟨l', hl'⟩ := hv.votes_stood _ _ _ hvote
        exact absurd (hv.stood_term _ _ _ hl') (not_le_of_gt hterm)
    · right
      rcases hstood with hstood | ⟨_, _, rfl⟩
      · exact absurd (hv.stood_term _ _ _ hstood) (not_le_of_gt hterm)
      · refine h.kept c t p hp ?_
        intro v' l' htv hvx hl'
        exact hcarried v' l' htv (lt_of_le_of_lt hvx hterm) hl'
  · rintro y w c Q l t p hQ _ hstood _ _ _
    left
    refine ⟨hQ, ?_⟩
    rcases hstood with hstood | ⟨rfl, rfl, rfl⟩
    · exact hstood
    · exact absurd (hv.elected_term _ _ _ hQ) (not_le_of_gt hterm)

theorem AckInv.observe (h : AckInv tm s) {v : T} (hterm : s.term x < v)
    (hgrows : Grows s (s.observe x v)) : AckInv tm (s.observe x v) := by
  apply h.of_grows (s.observe x v) hgrows rfl
  · intro y
    by_cases hy : y = x
    · subst hy
      simpa [State.observe] using le_of_lt hterm
    · simp [State.observe, hy]
  · exact fun _ _ _ _ _ hheld => hheld
  · exact fun _ _ _ _ _ _ hvote hstood _ _ _ _ => Or.inl ⟨hvote, hstood⟩
  · exact fun _ _ _ _ _ _ _ hQ _ hstood _ _ _ => Or.inl ⟨hQ, hstood⟩

theorem AckInv.stepDown (h : AckInv tm s) (hgrows : Grows s (s.stepDown x)) :
    AckInv tm (s.stepDown x) :=
  h.of_grows (s.stepDown x) hgrows rfl (fun _ => le_refl _)
    (fun _ _ _ _ _ hheld => hheld)
    (fun _ _ _ _ _ _ hvote hstood _ _ _ _ => Or.inl ⟨hvote, hstood⟩)
    fun _ _ _ _ _ _ _ hQ _ hstood _ _ _ => Or.inl ⟨hQ, hstood⟩

theorem AckInv.grant (hv : VoteInv quorum base s) (hl : LogInv tm s)
    (h : AckInv tm s) {c : N} {l : List E} (hstood : s.stood (s.term x) c l)
    (hlog : UpToDate tm (s.log x) l) (hgrows : Grows s (s.grant x c)) :
    AckInv tm (s.grant x c) := by
  apply h.of_grows (s.grant x c) hgrows rfl (fun _ => le_refl _)
  · exact fun _ _ _ _ _ hheld => hheld
  · rintro y v d l' t p (hvote | ⟨rfl, rfl, rfl⟩) hstood' hnot hp htv hcarried
    · exact Or.inl ⟨hvote, hstood'⟩
    · right
      -- the term is still open, so `x` holds what it acknowledged before
      have hheld : s.upTo t p <+: s.log y := by
        refine h.kept y t p hp ?_
        intro w l'' htw hwx hl''
        rcases lt_or_eq_of_le hwx with hlt | rfl
        · exact hcarried w l'' htw hlt hl''
        · obtain ⟨d', Q, hQ, _⟩ := hl''
          exact absurd ⟨d', Q, hQ⟩ hnot
      rw [hv.stood_unique _ _ l' l hstood' hstood]
      exact carries_of_upToDate hv hl (h.acked_own y t p hp) (hl.log_recorded y)
        (hl.stood_recorded _ _ l hstood) (fun e he => hl.stood_lt _ _ l e hstood he)
        hlog hcarried hheld
  · exact fun _ _ _ _ _ _ _ hQ _ hstood _ _ _ => Or.inl ⟨hQ, hstood⟩

theorem AckInv.elect (h : AckInv tm s) {Q : Set N} (hfresh : ¬ s.Won (s.term x))
    (hvotes : ∀ y ∈ Q, s.votes y (s.term x) x) (hgrows : Grows s (s.elect x Q)) :
    AckInv tm (s.elect x Q) := by
  apply h.of_grows (s.elect x Q) hgrows rfl (fun _ => le_refl _)
  · exact fun _ _ _ _ _ hheld => hheld
  · exact fun _ _ _ _ _ _ hvote hstood _ _ _ _ => Or.inl ⟨hvote, hstood⟩
  · rintro y v c R l t p (hR | ⟨rfl, rfl, rfl⟩) hy hstood hp htv hcarried
    · exact Or.inl ⟨hR, hstood⟩
    · exact Or.inr (h.voted y _ c l t p (hvotes y hy) hstood hfresh hp htv hcarried)

theorem AckInv.append (h : AckInv tm s) {e : E} (hgrows : Grows s (s.append x e)) :
    AckInv tm (s.append x e) := by
  apply h.of_log (s.append x e) hgrows rfl rfl rfl rfl rfl
  intro y t p _ _ hheld
  by_cases hy : y = x
  · subst hy
    simpa [State.append] using hheld.trans ( List.prefix_append _ _)
  · simpa [State.append, hy] using hheld

theorem AckInv.adopt (hv : VoteInv quorum base s) (hl : LogInv tm s)
    (h : AckInv tm s) {m : Nat} (hwon : s.Won (s.term x))
    (hnew : ¬ (s.leaderLog (s.term x)).take m <+: s.log x)
    (hgrows : Grows s (s.setLog x ((s.leaderLog (s.term x)).take m))) :
    AckInv tm (s.setLog x ((s.leaderLog (s.term x)).take m)) := by
  apply h.of_log _ hgrows rfl rfl rfl rfl rfl
  intro y t p hp hcarried hheld
  by_cases hy : y = x
  · subst hy
    have hleader := h.upTo_prefix_leaderLog hv hl hp hwon hcarried
    have hgoal : s.upTo t p <+: (s.leaderLog (s.term y)).take m := by
      rcases ( List.prefix_or_prefix_of_prefix) hleader ( List.take_prefix m _) with
        hdone | hshort
      · exact hdone
      · exact absurd (hshort.trans hheld) hnew
    simpa [State.setLog] using hgoal
  · simpa [State.setLog, hy] using hheld

theorem AckInv.truncate (hv : VoteInv quorum base s) (hl : LogInv tm s)
    (h : AckInv tm s) {m : Nat} (hwon : s.Won (s.term x))
    (hdiffer : ¬ (s.log x).take (m + 1) <+: s.leaderLog (s.term x))
    (hgrows : Grows s (s.setLog x ((s.log x).take m))) :
    AckInv tm (s.setLog x ((s.log x).take m)) := by
  apply h.of_log _ hgrows rfl rfl rfl rfl rfl
  intro y t p hp hcarried hheld
  by_cases hy : y = x
  · subst hy
    have hleader := h.upTo_prefix_leaderLog hv hl hp hwon hcarried
    have hlength : (s.upTo t p).length ≤ m := by
      by_contra hlong
      refine hdiffer (List.IsPrefix.trans ?_ hleader)
      refine List.prefix_of_prefix_length_le ( List.take_prefix _ _) hheld ?_
      simp only [List.length_take]
      omega
    have hgoal : s.upTo t p <+: (s.log y).take m := by
      refine List.prefix_of_prefix_length_le hheld ( List.take_prefix m _) ?_
      have := hheld.length_le
      simp only [List.length_take]
      omega
    simpa [State.setLog] using hgoal
  · simpa [State.setLog, hy] using hheld

theorem AckInv.step (hv : VoteInv quorum base s) (hl : LogInv tm s) (h : AckInv tm s)
    (hmeet : ∀ Q R, quorum Q → quorum R → ∃ y, y ∈ Q ∧ y ∈ R) (hstrict : strict)
    (hstep : Step tm quorum strict x s s') : AckInv tm s' := by
  have hgrows := Grows.step hv hmeet hstep
  cases hstep with
  | stand t hterm => exact AckInv.stand hv h hterm hgrows
  | observe t hterm => exact h.observe hterm hgrows
  | stepDown hrole => exact h.stepDown hgrows
  | grant c l hrole hvote hstood hlog => exact AckInv.grant hv hl h hstood hlog hgrows
  | elect Q hrole hquorum hvotes =>
      exact h.elect (hv.not_won hmeet hrole hquorum hvotes) hvotes hgrows
  | append e hrole hterm => exact h.append hgrows
  | adopt m hrole hwon hnew => exact AckInv.adopt hv hl h hwon hnew hgrows
  | truncate m hrole hkeep =>
      obtain ⟨hwon, hdiffer⟩ := hkeep hstrict
      exact AckInv.truncate hv hl h hwon hdiffer hgrows
  | ack p hwon hheld => exact AckInv.ack hv h hwon hheld

end Order

/-! ### Agreement -/

section Agreement

variable [LinearOrder T] [LocallyFiniteOrder T] {base : T}

/-- Every leader of a later term began with what was chosen. -/
theorem State.Chosen.prefix_began (hv : VoteInv quorum base s) (h : AckInv tm s)
    (hmeet : ∀ Q R, quorum Q → quorum R → ∃ y, y ∈ Q ∧ y ∈ R)
    (hchosen : s.Chosen tm quorum t p) {v : T} {l : List E} (htv : t < v)
    (hl : s.Began v l) : s.upTo t p <+: l := by
  -- strong induction on the number of terms in between
  have main : ∀ n v l, (Finset.Ioo t v).card = n → t < v → s.Began v l →
      s.upTo t p <+: l := by
    intro n
    induction n using Nat.strong_induction_on with
    | h n ih =>
        intro v l hcard htv hl
        have hcarried : s.Carried t p v := by
          intro w l' htw hwv hl'
          refine ih (Finset.Ioo t w).card ?_ w l' rfl htw hl'
          rw [← hcard]
          apply Finset.card_lt_card
          rw [Finset.ssubset_iff_of_subset (Finset.Ioo_subset_Ioo_right (le_of_lt hwv))]
          exact ⟨w, by simp [htw, hwv], by simp⟩
        obtain ⟨_, Q, hQ, hacked⟩ := hchosen
        obtain ⟨c, R, hR, hstood⟩ := hl
        obtain ⟨y, hyQ, hyR⟩ := hmeet Q R hQ (hv.elected_quorum v c R hR).1
        exact h.won y v c R l t p hR hyR hstood (hacked y hyQ) htv hcarried
  exact main _ v l rfl htv hl

/-- Two chosen logs are parts of one. -/
theorem State.Chosen.comparable (hv : VoteInv quorum base s) (hl : LogInv tm s)
    (h : AckInv tm s) (hmeet : ∀ Q R, quorum Q → quorum R → ∃ y, y ∈ Q ∧ y ∈ R)
    {t' : T} {p' : Nat} (hchosen : s.Chosen tm quorum t p)
    (hchosen' : s.Chosen tm quorum t' p') :
    s.upTo t p <+: s.upTo t' p' ∨ s.upTo t' p' <+: s.upTo t p := by
  have later : ∀ {t t' : T} {p p' : Nat}, s.Chosen tm quorum t p →
      s.Chosen tm quorum t' p' → t < t' → s.upTo t p <+: s.leaderLog t' := by
    intro t t' p p' hchosen hchosen' hlt
    obtain ⟨c, Q, hQ⟩ := hchosen'.1.1
    obtain ⟨l, hstood⟩ := hv.elected_stood t' c Q hQ
    have hbegan : s.Began t' l := ⟨c, Q, hQ, hstood⟩
    exact (hchosen.prefix_began hv h hmeet hlt hbegan).trans
      (hbegan.prefix_leaderLog hv hl)
  have own : ∀ (t : T) (p : Nat), s.upTo t p <+: s.leaderLog t :=
    fun t p => ( List.take_prefix _ _)
  rcases lt_trichotomy t t' with hlt | rfl | hgt
  · exact ( List.prefix_or_prefix_of_prefix) (later hchosen hchosen' hlt) (own t' p')
  · exact ( List.prefix_or_prefix_of_prefix) (own t p) (own t p')
  · exact ( List.prefix_or_prefix_of_prefix) (own t p) (later hchosen' hchosen hgt)

theorem State.Agreed.comparable (hv : VoteInv quorum base s) (hl : LogInv tm s)
    (h : AckInv tm s) (hmeet : ∀ Q R, quorum Q → quorum R → ∃ y, y ∈ Q ∧ y ∈ R)
    {l l' : List E} (hagreed : s.Agreed tm quorum l)
    (hagreed' : s.Agreed tm quorum l') : l <+: l' ∨ l' <+: l := by
  rcases hagreed with rfl | ⟨t, p, hchosen, hle⟩
  · exact Or.inl ( List.nil_prefix)
  rcases hagreed' with rfl | ⟨t', p', hchosen', hle'⟩
  · exact Or.inr ( List.nil_prefix)
  rcases hchosen.comparable hv hl h hmeet hchosen' with hup | hup
  · exact ( List.prefix_or_prefix_of_prefix) (hle.trans hup) hle'
  · exact ( List.prefix_or_prefix_of_prefix) hle (hle'.trans hup)

/-- A leader whose term no quorum has passed holds everything that was agreed. -/
theorem State.Agreed.prefix_leaderLog {l : List E} (h : s.Agreed tm quorum l)
    (hacks : AckInv tm s) (hgrows : Grows s s') (hv : VoteInv quorum base s') (hl : LogInv tm s')
    (hacks' : AckInv tm s') (hmeet : ∀ Q R, quorum Q → quorum R → ∃ y, y ∈ Q ∧ y ∈ R)
    {v : T} (hwon : s'.Won v) (hpassed : ¬ quorum {y | v < s.term y})
    (hupward : ∀ Q R, quorum Q → Q ⊆ R → quorum R) : l <+: s'.leaderLog v := by
  rcases h with rfl | ⟨t, p, hchosen, hle⟩
  · exact List.nil_prefix
  refine hle.trans ?_
  rw [← hchosen.1.upTo_eq hgrows]
  rcases lt_trichotomy t v with hlt | rfl | hgt
  · obtain ⟨c, Q, hQ⟩ := hwon
    obtain ⟨l', hstood⟩ := hv.elected_stood v c Q hQ
    have hbegan : s'.Began v l' := ⟨c, Q, hQ, hstood⟩
    exact ((hchosen.mono hgrows).prefix_began hv hacks' hmeet hlt hbegan).trans
      (hbegan.prefix_leaderLog hv hl)
  · exact List.take_prefix _ _
  · -- the quorum that has chosen the entry has passed `v`
    obtain ⟨_, Q, hQ, hacked⟩ := hchosen
    refine absurd (hupward Q _ hQ ?_) hpassed
    intro y hy
    exact lt_of_lt_of_le hgt (hacks.acked_term y t p (hacked y hy))

end Agreement

/-! ### Runs -/

section Runs

variable [LinearOrder T] [DecidableEq N] {strict : Prop} {base : T}

/-- Any number of steps of node `x`. -/
def Steps (tm : E → T) (quorum : Set N → Prop) (strict : Prop) (x : N) :
    State N T E → State N T E → Prop :=
  Relation.ReflTransGen (Step tm quorum strict x)

/-- The invariants that do not depend on strictness. -/
structure Sound (tm : E → T) (quorum : Set N → Prop) (base : T)
    (s : State N T E) : Prop where
  votes : VoteInv quorum base s
  logs : LogInv tm s

theorem Sound.steps (h : Sound tm quorum base s)
    (hmeet : ∀ Q R, quorum Q → quorum R → ∃ y, y ∈ Q ∧ y ∈ R)
    (hsteps : Steps tm quorum strict x s s') :
    Sound tm quorum base s' ∧ Grows s s' := by
  induction hsteps with
  | refl => exact ⟨h, Grows.refl s⟩
  | tail _ hstep ih =>
      obtain ⟨hsound, hgrows⟩ := ih
      exact ⟨⟨hsound.votes.step hmeet hstep, LogInv.step hsound.votes hsound.logs hmeet hstep⟩,
        hgrows.trans (Grows.step hsound.votes hmeet hstep)⟩

theorem AckInv.steps (hsound : Sound tm quorum base s) (h : AckInv tm s)
    (hmeet : ∀ Q R, quorum Q → quorum R → ∃ y, y ∈ Q ∧ y ∈ R) (hstrict : strict)
    (hsteps : Steps tm quorum strict x s s') : AckInv tm s' := by
  induction hsteps with
  | refl => exact h
  | tail hsteps hstep ih =>
      obtain ⟨hmid, _⟩ := hsound.steps hmeet hsteps
      exact AckInv.step hmid.votes hmid.logs ih hmeet hstrict hstep

theorem Steps.frame (hsteps : Steps tm quorum strict x s s') {y : N} (hy : y ≠ x) :
    s'.term y = s.term y ∧ s'.role y = s.role y ∧ s'.votedFor y = s.votedFor y ∧
      s'.log y = s.log y := by
  induction hsteps with
  | refl => exact ⟨rfl, rfl, rfl, rfl⟩
  | tail _ hstep ih =>
      obtain ⟨hterm, hrole, hvotedFor, hlog⟩ := hstep.frame hy
      exact ⟨hterm.trans ih.1, hrole.trans ih.2.1, hvotedFor.trans ih.2.2.1,
        hlog.trans ih.2.2.2⟩

/-- Node `x` can bring about `post` by steps of its own. -/
def Reaches (tm : E → T) (quorum : Set N → Prop) (strict : Prop) (x : N)
    (s : State N T E) (post : State N T E → Prop) : Prop :=
  ∃ s', Steps tm quorum strict x s s' ∧ post s'

theorem Reaches.refl {post : State N T E → Prop} (h : post s) :
    Reaches tm quorum strict x s post :=
  ⟨s, Relation.ReflTransGen.refl, h⟩

theorem Reaches.step {post : State N T E → Prop} (hstep : Step tm quorum strict x s s')
    (h : post s') : Reaches tm quorum strict x s post :=
  ⟨s', Relation.ReflTransGen.single hstep, h⟩

/-- Steps may be put one after the other. -/
theorem Reaches.bind {post post' : State N T E → Prop} (hsound : Sound tm quorum base s)
    (hmeet : ∀ Q R, quorum Q → quorum R → ∃ y, y ∈ Q ∧ y ∈ R)
    (h : Reaches tm quorum strict x s post)
    (hnext : ∀ s', Sound tm quorum base s' → Grows s s' → post s' →
      Reaches tm quorum strict x s' post') : Reaches tm quorum strict x s post' := by
  obtain ⟨mid, hmid, hpost⟩ := h
  obtain ⟨hsound', hgrows⟩ := hsound.steps hmeet hmid
  obtain ⟨last, hlast, hpost'⟩ := hnext mid hsound' hgrows hpost
  exact ⟨last, hmid.trans hlast, hpost'⟩

end Runs

end Consensus
