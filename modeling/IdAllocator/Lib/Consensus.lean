/-
Leader-based log replication as a transition system without messages.

A state holds what every node knows and, beside it, the history of the run:
who voted for whom, who stood for election with which log, who won a term and
with whose votes, and how the log of the leader of each term has grown.
Messages of an implementation are justified by this history, which only grows.
-/
import Mathlib.Data.Finset.Card
import Mathlib.Data.Set.Basic
import Mathlib.Data.List.Basic
import Mathlib.Logic.Function.Basic
import Mathlib.Order.Defs.LinearOrder

namespace Consensus

universe u v w

variable {N : Type u} {T : Type v} {E : Type w}

inductive Role where
  | follower
  | candidate
  | leader
deriving DecidableEq

/-- What the nodes hold, and the history of the run. -/
structure State (N : Type u) (T : Type v) (E : Type w) where
  term : N → T
  role : N → Role
  votedFor : N → Option N
  log : N → List E
  /-- `votes x t c`: node `x` has voted for `c` in term `t` -/
  votes : N → T → N → Prop
  /-- `stood t c l`: node `c` stood for election in term `t` with log `l` -/
  stood : T → N → List E → Prop
  /-- `elected t c Q`: node `c` won term `t` with the votes of `Q` -/
  elected : T → N → Set N → Prop
  /-- the log of the leader of a term, as far as it has grown -/
  leaderLog : T → List E
  /-- `acked x t p`: in term `t`, node `x` held the leader's log up to and
  including position `p`, which is an entry of that term -/
  acked : N → T → Nat → Prop

/-- Some node has won the term. -/
def State.Won (s : State N T E) (t : T) : Prop :=
  ∃ c Q, s.elected t c Q

/-- The initial state: everybody follows in term `base` with an empty log. -/
structure Initial (base : T) (s : State N T E) : Prop where
  term : ∀ x, s.term x = base
  role : ∀ x, s.role x = .follower
  votedFor : ∀ x, s.votedFor x = none
  log : ∀ x, s.log x = []
  votes : ∀ x t c, ¬ s.votes x t c
  stood : ∀ t c l, ¬ s.stood t c l
  elected : ∀ t c Q, ¬ s.elected t c Q
  acked : ∀ x t p, ¬ s.acked x t p

/-! ### Growth of the history -/

section Grows

variable {s s' : State N T E}

/-- The history of `s'` extends the history of `s`. -/
structure Grows (s s' : State N T E) : Prop where
  votes : ∀ x t c, s.votes x t c → s'.votes x t c
  stood : ∀ t c l, s.stood t c l → s'.stood t c l
  elected : ∀ t c Q, s.elected t c Q → s'.elected t c Q
  acked : ∀ x t p, s.acked x t p → s'.acked x t p
  leaderLog : ∀ t, s.Won t → s.leaderLog t <+: s'.leaderLog t

theorem Grows.of_same (s' : State N T E) (hvotes : s'.votes = s.votes)
    (hstood : s'.stood = s.stood) (helected : s'.elected = s.elected)
    (hacked : s'.acked = s.acked) (hleaderLog : s'.leaderLog = s.leaderLog) :
    Grows s s' := by
  constructor
  · rw [hvotes]
    exact fun _ _ _ h => h
  · rw [hstood]
    exact fun _ _ _ h => h
  · rw [helected]
    exact fun _ _ _ h => h
  · rw [hacked]
    exact fun _ _ _ h => h
  · rw [hleaderLog]
    exact fun _ _ => List.prefix_rfl

theorem Grows.refl (s : State N T E) : Grows s s :=
  Grows.of_same s rfl rfl rfl rfl rfl

theorem Grows.won (h : Grows s s') {t : T} (hwon : s.Won t) : s'.Won t := by
  obtain ⟨c, Q, hQ⟩ := hwon
  exact ⟨c, Q, h.elected t c Q hQ⟩

theorem Grows.trans {s'' : State N T E} (h : Grows s s') (h' : Grows s' s'') :
    Grows s s'' where
  votes x t c hv := h'.votes x t c (h.votes x t c hv)
  stood t c l hl := h'.stood t c l (h.stood t c l hl)
  elected t c Q hQ := h'.elected t c Q (h.elected t c Q hQ)
  acked x t p hp := h'.acked x t p (h.acked x t p hp)
  leaderLog t ht := (h.leaderLog t ht).trans (h'.leaderLog t (h.won ht))

end Grows

/-! ### Steps -/

namespace State

variable [DecidableEq N] [DecidableEq T]

/-- Node `x` moves to term `t` and stands for election. -/
def stand (s : State N T E) (x : N) (t : T) : State N T E :=
  { s with
    term := Function.update s.term x t
    role := Function.update s.role x .candidate
    votedFor := Function.update s.votedFor x (some x)
    votes := fun y u c => s.votes y u c ∨ (y = x ∧ u = t ∧ c = x)
    stood := fun u c l => s.stood u c l ∨ (u = t ∧ c = x ∧ l = s.log x) }

/-- Node `x` learns of term `t` and follows. -/
def observe (s : State N T E) (x : N) (t : T) : State N T E :=
  { s with
    term := Function.update s.term x t
    role := Function.update s.role x .follower
    votedFor := Function.update s.votedFor x none }

/-- A candidate gives up, and forgets its vote. -/
def stepDown (s : State N T E) (x : N) : State N T E :=
  { s with
    role := Function.update s.role x .follower
    votedFor := Function.update s.votedFor x none }

/-- Node `x` votes for `c` in its current term. -/
def grant (s : State N T E) (x c : N) : State N T E :=
  { s with
    votedFor := Function.update s.votedFor x (some c)
    votes := fun y u d => s.votes y u d ∨ (y = x ∧ u = s.term x ∧ d = c) }

/-- Candidate `x` wins its term with the votes of `Q`. -/
def elect (s : State N T E) (x : N) (Q : Set N) : State N T E :=
  { s with
    role := Function.update s.role x .leader
    elected := fun t c R => s.elected t c R ∨ (t = s.term x ∧ c = x ∧ R = Q)
    leaderLog := Function.update s.leaderLog (s.term x) (s.log x) }

/-- Leader `x` appends an entry. -/
def append (s : State N T E) (x : N) (e : E) : State N T E :=
  { s with
    log := Function.update s.log x (s.log x ++ [e])
    leaderLog := Function.update s.leaderLog (s.term x)
      (s.leaderLog (s.term x) ++ [e]) }

/-- Node `x` replaces its log. -/
def setLog (s : State N T E) (x : N) (l : List E) : State N T E :=
  { s with log := Function.update s.log x l }

/-- Node `x` acknowledges the leader's log up to position `p`. -/
def ack (tm : E → T) (s : State N T E) (x : N) (p : Nat) : State N T E :=
  { s with
    acked := fun y t q => s.acked y t q ∨
      (y = x ∧ t = s.term x ∧ q ≤ p ∧
        ∃ e, (s.leaderLog t)[q]? = some e ∧ tm e = t) }

end State

/-- A log that wins against `l` in the comparison of last entries. -/
def UpToDate [LinearOrder T] (tm : E → T) (l l' : List E) : Prop :=
  ∀ a, l.getLast? = some a → ∃ b, l'.getLast? = some b ∧
    (tm a < tm b ∨ (tm a = tm b ∧ l.length ≤ l'.length))

/-- One step of node `x`.  With `strict`, a node that shortens its log never
drops an entry in which it agrees with the leader of its term. -/
inductive Step [DecidableEq N] [LinearOrder T] (tm : E → T)
    (quorum : Set N → Prop) (strict : Prop) (x : N) (s : State N T E) :
    State N T E → Prop
  | stand (t : T) (hterm : s.term x < t) :
      Step tm quorum strict x s (s.stand x t)
  | observe (t : T) (hterm : s.term x < t) :
      Step tm quorum strict x s (s.observe x t)
  | stepDown (hrole : s.role x = .candidate) :
      Step tm quorum strict x s (s.stepDown x)
  | grant (c : N) (l : List E) (hrole : s.role x = .follower)
      (hvote : s.votedFor x = none) (hstood : s.stood (s.term x) c l)
      (hlog : UpToDate tm (s.log x) l) :
      Step tm quorum strict x s (s.grant x c)
  | elect (Q : Set N) (hrole : s.role x = .candidate) (hquorum : quorum Q)
      (hvotes : ∀ y ∈ Q, s.votes y (s.term x) x) :
      Step tm quorum strict x s (s.elect x Q)
  | append (e : E) (hrole : s.role x = .leader) (hterm : tm e = s.term x) :
      Step tm quorum strict x s (s.append x e)
  | adopt (m : Nat) (hrole : s.role x = .follower) (hwon : s.Won (s.term x))
      (hnew : ¬ (s.leaderLog (s.term x)).take m <+: s.log x) :
      Step tm quorum strict x s (s.setLog x ((s.leaderLog (s.term x)).take m))
  | truncate (m : Nat) (hrole : s.role x = .follower)
      (hstrict : strict → s.Won (s.term x) ∧
        ¬ (s.log x).take (m + 1) <+: s.leaderLog (s.term x)) :
      Step tm quorum strict x s (s.setLog x ((s.log x).take m))
  | ack (p : Nat) (hwon : s.Won (s.term x))
      (hheld : (s.leaderLog (s.term x)).take (p + 1) <+: s.log x) :
      Step tm quorum strict x s (s.ack tm x p)

/-- A majority of `nodes`. -/
def Majority (nodes : Finset N) (Q : Set N) : Prop :=
  ∃ voters ⊆ nodes, (∀ y ∈ voters, y ∈ Q) ∧ nodes.card < 2 * voters.card

theorem Majority.meet [DecidableEq N] {nodes : Finset N} {Q R : Set N}
    (hQ : Majority nodes Q) (hR : Majority nodes R) : ∃ y, y ∈ Q ∧ y ∈ R := by
  obtain ⟨voters, hsub, hvoters, hcard⟩ := hQ
  obtain ⟨voters', hsub', hvoters', hcard'⟩ := hR
  obtain ⟨y, hy⟩ := Finset.inter_nonempty_of_card_lt_card_add_card hsub hsub' (by omega)
  rw [Finset.mem_inter] at hy
  exact ⟨y, hvoters y hy.1, hvoters' y hy.2⟩

/-- A set that contains a majority is one. -/
theorem Majority.mono {nodes : Finset N} {Q R : Set N} (hQ : Majority nodes Q)
    (hsub : Q ⊆ R) : Majority nodes R := by
  obtain ⟨voters, hnodes, hvoters, hcard⟩ := hQ
  exact ⟨voters, hnodes, fun y hy => hsub (hvoters y hy), hcard⟩

/-! ### Votes

A candidate that steps down forgets its vote and may vote once more in the
same term, so a node can have two votes in one term.  One of the two is then
its own candidacy, and that is enough for elections to be safe. -/

section Votes

variable {tm : E → T} {quorum : Set N → Prop} {strict : Prop} {base : T}
variable {s s' : State N T E} {x : N}

variable [LinearOrder T]

/-- How votes, candidacies and elections hang together. -/
structure VoteInv (quorum : Set N → Prop) (base : T) (s : State N T E) : Prop where
  base_le : ∀ x, base ≤ s.term x
  base_lt : ∀ t c l, s.stood t c l → base < t
  votes_term : ∀ x t c, s.votes x t c → t ≤ s.term x
  votes_stood : ∀ x t c, s.votes x t c → ∃ l, s.stood t c l
  stood_term : ∀ t c l, s.stood t c l → t ≤ s.term c
  stood_unique : ∀ t c l l', s.stood t c l → s.stood t c l' → l = l'
  no_vote : ∀ x c, s.votedFor x = none → s.votes x (s.term x) c → c = x
  one_vote : ∀ x c d, s.votedFor x = some d → s.votes x (s.term x) c → c = x ∨ c = d
  vote_recorded : ∀ x c, s.votedFor x = some c → s.votes x (s.term x) c
  candidate_vote : ∀ x, s.role x = .candidate → s.votedFor x = some x
  candidate_stood : ∀ x, s.role x = .candidate → s.stood (s.term x) x (s.log x)
  leader_vote : ∀ x, s.role x = .leader → s.votedFor x = some x
  leader_elected : ∀ x, s.role x = .leader → ∃ Q, s.elected (s.term x) x Q
  two_votes : ∀ x t c d, s.votes x t c → s.votes x t d → c = d ∨ c = x ∨ d = x
  elected_term : ∀ t c Q, s.elected t c Q → t ≤ s.term c
  elected_role : ∀ c Q, s.elected (s.term c) c Q → s.role c = .leader
  elected_vote : ∀ t c Q d, s.elected t c Q → s.votes c t d → d = c
  elected_quorum : ∀ t c Q, s.elected t c Q → quorum Q ∧ ∀ y ∈ Q, s.votes y t c
  elected_stood : ∀ t c Q, s.elected t c Q → ∃ l, s.stood t c l
  elected_unique : ∀ t c d Q R, s.elected t c Q → s.elected t d R → c = d

theorem Initial.voteInv (h : Initial base s) : VoteInv quorum base s := by
  have hterm := h.term
  have hrole := h.role
  have hvotedFor := h.votedFor
  have hvotes := h.votes
  have hstood := h.stood
  have helected := h.elected
  constructor <;> grind

/-- All that a candidate has cast in its term is the vote for itself. -/
theorem VoteInv.candidate_self (h : VoteInv quorum base s) {x c : N}
    (hrole : s.role x = .candidate) (hvote : s.votes x (s.term x) c) : c = x := by
  rcases h.one_vote x c x (h.candidate_vote x hrole) hvote with heq | heq
  · exact heq
  · exact heq

theorem VoteInv.not_elected (h : VoteInv quorum base s) {x : N} {Q : Set N}
    (hrole : s.role x ≠ .leader) : ¬ s.elected (s.term x) x Q :=
  fun hQ => hrole (h.elected_role x Q hQ)

/-- A candidate's term has no winner yet: a common voter of both would have
voted for two nodes, neither of which voted for anybody but itself. -/
theorem VoteInv.not_won (h : VoteInv quorum base s)
    (hmeet : ∀ Q R, quorum Q → quorum R → ∃ y, y ∈ Q ∧ y ∈ R) {x : N} {Q : Set N}
    (hrole : s.role x = .candidate) (hquorum : quorum Q)
    (hvotes : ∀ y ∈ Q, s.votes y (s.term x) x) : ¬ s.Won (s.term x) := by
  rintro ⟨c, R, hR⟩
  have hne : c ≠ x := by
    rintro rfl
    exact h.not_elected (by simp [hrole]) hR
  obtain ⟨hRquorum, hRvotes⟩ := h.elected_quorum _ c R hR
  obtain ⟨y, hyQ, hyR⟩ := hmeet Q R hquorum hRquorum
  rcases h.two_votes y _ x c (hvotes y hyQ) (hRvotes y hyR) with heq | rfl | rfl
  · exact hne heq.symm
  · exact hne (h.candidate_self hrole (hRvotes x hyR))
  · exact hne (h.elected_vote _ c R x hR (hvotes c hyQ)).symm

/-- A step that changes no vote, and no log of a candidate. -/
theorem VoteInv.of_same (h : VoteInv quorum base s) (s' : State N T E)
    (hterm : s'.term = s.term)
    (hrole : s'.role = s.role) (hvotedFor : s'.votedFor = s.votedFor)
    (hvotes : s'.votes = s.votes) (hstood : s'.stood = s.stood)
    (helected : s'.elected = s.elected)
    (hlog : ∀ x, s.role x = .candidate → s'.log x = s.log x) :
    VoteInv quorum base s' := by
  constructor <;> simp only [hterm, hrole, hvotedFor, hvotes, hstood, helected] <;>
    grind [VoteInv]

variable [DecidableEq N]

theorem VoteInv.stand (h : VoteInv quorum base s) {x : N} {t : T}
    (ht : s.term x < t) : VoteInv quorum base (s.stand x t) := by
  -- `x` has no record in a term above its own, so the new ones are its first
  constructor <;> simp only [State.stand, Function.update_apply] <;> grind [VoteInv]

theorem VoteInv.observe (h : VoteInv quorum base s) {x : N} {t : T}
    (ht : s.term x < t) : VoteInv quorum base (s.observe x t) := by
  constructor <;> simp only [State.observe, Function.update_apply] <;> grind [VoteInv]

theorem VoteInv.stepDown (h : VoteInv quorum base s) {x : N}
    (hrole : s.role x = .candidate) : VoteInv quorum base (s.stepDown x) := by
  have hself : ∀ c, s.votes x (s.term x) c → c = x := fun _ => h.candidate_self hrole
  have hlost : ∀ Q, ¬ s.elected (s.term x) x Q := fun _ => h.not_elected (by simp [hrole])
  constructor <;> simp only [State.stepDown, Function.update_apply] <;> grind [VoteInv]

theorem VoteInv.grant (h : VoteInv quorum base s) {x c : N} {l : List E}
    (hrole : s.role x = .follower) (hvote : s.votedFor x = none)
    (hstood : s.stood (s.term x) c l) : VoteInv quorum base (s.grant x c) := by
  -- the only vote `x` can have cast in this term is the one for itself
  have hself : ∀ d, s.votes x (s.term x) d → d = x := fun d => h.no_vote x d hvote
  have hlost : ∀ Q, ¬ s.elected (s.term x) x Q := fun _ => h.not_elected (by simp [hrole])
  constructor <;> simp only [State.grant, Function.update_apply] <;> grind [VoteInv]

theorem VoteInv.elect (h : VoteInv quorum base s) {x : N} {Q : Set N}
    (hfresh : ¬ s.Won (s.term x)) (hrole : s.role x = .candidate)
    (hquorum : quorum Q) (hvotes : ∀ y ∈ Q, s.votes y (s.term x) x) :
    VoteInv quorum base (s.elect x Q) := by
  have hnone : ∀ c R, ¬ s.elected (s.term x) c R := fun c R hR => hfresh ⟨c, R, hR⟩
  have hself : ∀ c, s.votes x (s.term x) c → c = x := fun _ => h.candidate_self hrole
  have hstood := h.candidate_stood x hrole
  constructor <;> simp only [State.elect, Function.update_apply] <;> grind [VoteInv]

theorem VoteInv.setLog (h : VoteInv quorum base s) {x : N} {l : List E}
    (hrole : s.role x ≠ .candidate) : VoteInv quorum base (s.setLog x l) := by
  apply h.of_same (s.setLog x l) rfl rfl rfl rfl rfl rfl
  intro y hy
  have hne : y ≠ x := by
    rintro rfl
    exact hrole hy
  simp [State.setLog, hne]

theorem VoteInv.append (h : VoteInv quorum base s) {x : N} {e : E}
    (hrole : s.role x = .leader) : VoteInv quorum base (s.append x e) := by
  apply h.of_same (s.append x e) rfl rfl rfl rfl rfl rfl
  intro y hy
  have hne : y ≠ x := by
    rintro rfl
    rw [hy] at hrole
    cases hrole
  simp [State.append, hne]

theorem VoteInv.step (h : VoteInv quorum base s)
    (hmeet : ∀ Q R, quorum Q → quorum R → ∃ y, y ∈ Q ∧ y ∈ R)
    (hstep : Step tm quorum strict x s s') : VoteInv quorum base s' := by
  cases hstep with
  | stand t hterm => exact h.stand hterm
  | observe t hterm => exact h.observe hterm
  | stepDown hrole => exact h.stepDown hrole
  | grant c l hrole hvote hstood hlog => exact h.grant hrole hvote hstood
  | elect Q hrole hquorum hvotes =>
      exact h.elect (h.not_won hmeet hrole hquorum hvotes) hrole hquorum hvotes
  | append e hrole hterm => exact h.append hrole
  | adopt m hrole hwon hnew => exact h.setLog (by simp [hrole])
  | truncate m hrole hstrict => exact h.setLog (by simp [hrole])
  | ack p hwon hheld =>
      exact h.of_same (s.ack tm x p) rfl rfl rfl rfl rfl rfl fun _ _ => rfl

/-- A step only adds to the history. -/
theorem Grows.step (h : VoteInv quorum base s)
    (hmeet : ∀ Q R, quorum Q → quorum R → ∃ y, y ∈ Q ∧ y ∈ R)
    (hstep : Step tm quorum strict x s s') : Grows s s' := by
  cases hstep with
  | stand t hterm =>
      exact ⟨fun _ _ _ h => Or.inl h, fun _ _ _ h => Or.inl h, fun _ _ _ h => h,
        fun _ _ _ h => h, fun _ _ => List.prefix_rfl⟩
  | grant c l hrole hvote hstood hlog =>
      exact ⟨fun _ _ _ h => Or.inl h, fun _ _ _ h => h, fun _ _ _ h => h,
        fun _ _ _ h => h, fun _ _ => List.prefix_rfl⟩
  | elect Q hrole hquorum hvotes =>
      refine ⟨fun _ _ _ h => h, fun _ _ _ h => h, fun _ _ _ h => Or.inl h,
        fun _ _ _ h => h, ?_⟩
      intro t ht
      -- the term that is decided now was open before
      have hne : t ≠ s.term x := by
        rintro rfl
        exact h.not_won hmeet hrole hquorum hvotes ht
      simp [State.elect, hne]
  | append e hrole hterm =>
      refine ⟨fun _ _ _ h => h, fun _ _ _ h => h, fun _ _ _ h => h,
        fun _ _ _ h => h, ?_⟩
      intro t _
      by_cases heq : t = s.term x
      · subst heq
        simp [State.append]
      · simp [State.append, heq]
  | ack p hwon hheld =>
      exact ⟨fun _ _ _ h => h, fun _ _ _ h => h, fun _ _ _ h => h,
        fun _ _ _ h => Or.inl h, fun _ _ => List.prefix_rfl⟩
  | observe t hterm =>
      exact Grows.of_same _ rfl rfl rfl rfl rfl
  | stepDown hrole =>
      exact Grows.of_same _ rfl rfl rfl rfl rfl
  | adopt m hrole hwon hnew =>
      exact Grows.of_same _ rfl rfl rfl rfl rfl
  | truncate m hrole hstrict =>
      exact Grows.of_same _ rfl rfl rfl rfl rfl

/-- A step of `x` touches the variables of no other node. -/
theorem Step.frame (hstep : Step tm quorum strict x s s') {y : N} (hy : y ≠ x) :
    s'.term y = s.term y ∧ s'.role y = s.role y ∧ s'.votedFor y = s.votedFor y ∧
      s'.log y = s.log y := by
  cases hstep <;>
    simp [State.stand, State.observe, State.stepDown, State.grant, State.elect,
      State.append, State.setLog, State.ack, hy]

end Votes

end Consensus
