/-
One vote in a term, for a server that is never restarted.

A vote is cast when the server stands for election and when it answers a
request with `vote_granted`.  The votes are collected with the term in which
they were cast.
-/
import IdAllocator.VoteDurability

namespace IdAllocator

open RaftServer Fallible

/-- A server and the votes it has cast, each with its term. -/
structure Voter where
  me : RaftServer
  votes : List (Int × Int)
deriving Repr, DecidableEq

namespace Voter

/-- A call, and the votes that it casts in the term it leaves the server in. -/
def step (v : Voter) (call : Call) : Option Voter :=
  match call.run v.me with
  | .ok me => some ⟨me, v.votes ++ (call.votes v.me).map fun c => (me.currentTerm, c)⟩
  | .error _ => none

theorem step_eq_some {v v' : Voter} {call : Call} (h : v.step call = some v') :
    call.run v.me = .ok v'.me ∧
      v'.votes = v.votes ++ (call.votes v.me).map fun c => (v'.me.currentTerm, c) := by
  unfold step at h
  cases hrun : call.run v.me with
  | error f => simp [hrun] at h
  | ok me =>
      simp only [hrun, Option.some.injEq] at h
      subst h
      exact ⟨rfl, rfl⟩

/-- The call leaves the server its vote: it is not the message of the current
term that makes a candidate give up, nor a request for a vote for -1. -/
def KeepsVote (v : Voter) (call : Call) : Prop :=
  ¬ GivesUp v.me call ∧ ¬ NamesNobody call

instance decidableKeepsVote (v : Voter) (call : Call) : Decidable (v.KeepsVote call) :=
  inferInstanceAs (Decidable (_ ∧ _))

theorem step_votesOnce {id : Int} (hid : id ≠ -1) {v v' : Voter} {call : Call}
    (h : v.me.node = some id ∧ VotesOnce v.me v.votes) (hkeeps : v.KeepsVote call)
    (hstep : v.step call = some v') :
    v'.me.node = some id ∧ VotesOnce v'.me v'.votes := by
  obtain ⟨hnode, honce⟩ := h
  obtain ⟨hrun, hvotes⟩ := step_eq_some hstep
  have hcasts := Call.run_casts hnode hid hkeeps.1 hkeeps.2 hrun
  rw [hvotes]
  exact ⟨hcasts.node.trans hnode, honce.add hcasts.ballot⟩

/-- As long as every call leaves the server its vote, all the votes it casts in
one term are for one candidate. -/
theorem one_vote_per_term {id : Int} (hid : id ≠ -1) {start : RaftServer}
    (hnode : start.node = some id) {calls : List Call}
    (hmeets : Runs.Meets step KeepsVote ⟨start, []⟩ calls) {v : Voter}
    (hrun : Runs.run step ⟨start, []⟩ calls = some v) {term c c' : Int}
    (hc : (term, c) ∈ v.votes) (hc' : (term, c') ∈ v.votes) : c = c' := by
  have hstart : VotesOnce start [] := ⟨by simp, by simp, by simp⟩
  have hend : v.me.node = some id ∧ VotesOnce v.me v.votes := by
    apply Runs.run_invariant (fun v => v.me.node = some id ∧ VotesOnce v.me v.votes) ?_
      ⟨hnode, hstart⟩ hmeets hrun
    intro before after call hbefore hkeeps hstep
    exact step_votesOnce hid hbefore hkeeps hstep
  exact hend.2.unique (term, c) hc (term, c') hc' rfl

/-- Node `candidateId`, with an empty log, asks for a vote. -/
def asksFor (term candidateId : Int) : Call :=
  .recvRequestvote (some candidateId) ⟨term, candidateId, 0, 0⟩

/-- The server stands for election in term 1, refuses node 2 there, and votes
for it in term 2. -/
theorem one_vote_per_term_firstOfTwo :
    ∃ v, Runs.run step ⟨firstOfTwo, []⟩ [.periodic 1000 0, asksFor 1 2, asksFor 2 2] = some v ∧
      (1, 1) ∈ v.votes ∧ (2, 2) ∈ v.votes ∧ ∀ c, (1, c) ∈ v.votes → c = 1 := by
  have hview : (Runs.run step ⟨firstOfTwo, []⟩ [.periodic 1000 0, asksFor 1 2, asksFor 2 2]).map
      Voter.votes = some [(1, 1), (2, 2)] := by
    decide +kernel
  obtain ⟨v, hrun, hview⟩ := Option.map_eq_some_iff.mp hview
  have hown : (1, 1) ∈ v.votes := by
    rw [hview]
    decide
  have hother : (2, 2) ∈ v.votes := by
    rw [hview]
    decide
  refine ⟨v, hrun, hown, hother, ?_⟩
  intro c hc
  exact @one_vote_per_term 1 (by decide) firstOfTwo rfl _ (by decide +kernel) v hrun 1 c 1 hc hown

/-- The server stands for election in term 1, gives up when it hears from a
leader of that term, and then votes for node 3. -/
theorem votes_again_after_giving_up :
    firstOfTwo.node = some 1 ∧
    ∃ v, Runs.run step ⟨firstOfTwo, []⟩
        [.periodic 1000 0, .recvAppendentries (some 2) ⟨1, 0, 0, 0, []⟩, asksFor 1 3] = some v ∧
      (1, 1) ∈ v.votes ∧ (1, 3) ∈ v.votes := by
  have hview : (Runs.run step ⟨firstOfTwo, []⟩
      [.periodic 1000 0, .recvAppendentries (some 2) ⟨1, 0, 0, 0, []⟩, asksFor 1 3]).map
      Voter.votes = some [(1, 1), (1, 3)] := by
    decide +kernel
  obtain ⟨v, hrun, hview⟩ := Option.map_eq_some_iff.mp hview
  refine ⟨rfl, v, hrun, ?_, ?_⟩
  · rw [hview]
    decide
  · rw [hview]
    decide

end Voter

end IdAllocator
