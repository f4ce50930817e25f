/-
How a cluster of servers follows the rules of leader-based replication.

A server is related to its part of the abstract state: same term, role, vote
and log.  Everything else a server knows or has sent is justified by the
history of the abstract run: the votes and acknowledgements it has counted,
and every message that is on the network.
-/
import IdAllocator.Cluster
import IdAllocator.Lib.ConsensusCommit

namespace IdAllocator

open RaftServer Fallible Consensus

/-- The abstract state that a cluster is related to. -/
abbrev History := Consensus.State Int Int Entry

def roleOf : RaftState → Role
  | .candidate => .candidate
  | .leader => .leader
  | _ => .follower

/-- `voted_for`, where -1 is nobody. -/
def voteOf (votedFor : Int) : Option Int :=
  if votedFor = -1 then none else some votedFor

/-- The majorities of the node list, non-voting nodes included. -/
def majorityOf (members : List Member) : Set Int → Prop :=
  Majority (idsOf members).toFinset

theorem majorityOf_meet {members : List Member} :
    ∀ Q R, majorityOf members Q → majorityOf members R → ∃ y, y ∈ Q ∧ y ∈ R :=
  fun _ _ hQ hR => Majority.meet hQ hR

/-- The abstract invariants, for terms that begin at 0. -/
def Valid (members : List Member) (s : History) : Prop :=
  Sound Entry.term (majorityOf members) 0 s

/-- Server `x` can follow by abstract steps of its own. -/
def Follows (members : List Member) (strict : Prop) (x : Int) (s : History)
    (post : History → Prop) : Prop :=
  Reaches Entry.term (majorityOf members) strict x s post

/-- Part of the log of a leader is agreed. -/
def Settled (members : List Member) (s : History) (log : List Entry) : Prop :=
  s.Agreed Entry.term (majorityOf members) log

theorem Follows.bind {members : List Member} {strict : Prop} {x : Int} {s : History}
    {post post' : History → Prop} (hvalid : Valid members s)
    (h : Follows members strict x s post)
    (hnext : ∀ s', Valid members s' → Grows s s' → post s' →
      Follows members strict x s' post') : Follows members strict x s post' :=
  Reaches.bind hvalid majorityOf_meet h hnext

/-! ### Messages -/

/-- The term of the last entry, 0 for an empty log. -/
def lastTermOf (log : List Entry) : Int :=
  match log.getLast? with
  | some ety => ety.term
  | none => 0

/-- Node `y` has acknowledged the log of the leader of `t` up to index `idx`. -/
def Held (s : History) (y t idx : Int) : Prop :=
  idx ≤ (s.leaderLog t).length ∧
    ∀ (q : Nat) e, (q : Int) < idx → (s.leaderLog t)[q]? = some e → e.term = t →
      s.acked y t q

/-- An appendentries request carries a part of the log of the leader of its
term, the part behind `front`. -/
structure Segment (members : List Member) (strict : Prop) (s : History)
    (ae : MsgAppendentries) (front : List Entry) : Prop where
  prev : ae.prevLogIdx = front.length
  held : front ++ ae.entries <+: s.leaderLog ae.term
  prevTerm : ∀ e, front.getLast? = some e → e.term = ae.prevLogTerm
  /-- without entries, `front` is all that the leader had when it sent it -/
  keepalive : ae.entries = [] → ∃ l, s.Began ae.term l ∧ l.length ≤ front.length
  commit_le : ae.leaderCommit ≤ front.length + ae.entries.length
  commit : strict → Settled members s ((front ++ ae.entries).take ae.leaderCommit.toNat)

/-- A leader does not reset what it knows of a non-voting node, so a request to
one can begin behind the end of its log.  Then it has no entries, and its
`prev_log_term` is the 0 that no entry has. -/
def Overshoot (ae : MsgAppendentries) : Prop :=
  0 < ae.prevLogIdx ∧ ae.prevLogTerm = 0 ∧ ae.entries = []

/-- What the history says about a request that `x` has sent. -/
def CallSim (members : List Member) (strict : Prop) (s : History) (x : Int) :
    Callback → Prop
  | .sendRequestvote _ vr => x ∈ idsOf members ∧ vr.candidateId = x ∧
      ∃ l, s.stood vr.term x l ∧ vr.lastLogIdx = l.length ∧
        vr.lastLogTerm = lastTermOf l
  | .sendAppendentries dst ae => dst ≠ x ∧ (∃ Q, s.elected ae.term x Q) ∧
      ((∃ front, Segment members strict s ae front) ∨ (¬ strict ∧ Overshoot ae))
  | _ => True

/-- What the history says about a response. -/
def ReplySim (s : History) : Reply → Prop
  | .requestvote src dst r => r.voteGranted = 1 → s.votes src r.term dst
  | .appendentries src _ r =>
      r.success ≠ 0 → s.Won r.term ∧ Held s src r.term r.currentIdx

/-! ### Servers -/

/-- What does not change at all, and what the election timeout checks. -/
structure Fixed (members : List Member) (x : Int) (me : RaftServer) : Prop where
  profile : me.profile = profileOf members
  self : x ∈ idsOf members → me.node = some x
  running : me.state ≠ .none
  electing : me.state ≠ .follower → x ∈ idsOf members ∧ 1 < (idsOf members).length

structure Mirrors (s : History) (x : Int) (me : RaftServer) : Prop where
  term : s.term x = me.currentTerm
  role : s.role x = roleOf me.state
  votedFor : s.votedFor x = voteOf me.votedFor
  log : s.log x = me.log

/-- What a candidate has counted, and what a leader knows of its voting peers. -/
structure Tracks (s : History) (x : Int) (me : RaftServer) : Prop where
  flags : me.state = .candidate → ∀ peer ∈ me.nodes, peer.hasVoteForMe = true →
    s.votes peer.id me.currentTerm x
  matched : me.state = .leader → ∀ peer ∈ me.nodes, peer.isVoting = true →
    peer.id ≠ x → Held s peer.id me.currentTerm peer.matchIdx
  next : me.state = .leader → ∀ peer ∈ me.nodes, peer.isVoting = true →
    peer.id ≠ x → peer.nextIdx ≤ me.currentIdx + 1

/-- The server `me` with id `x` is related to the abstract state `s`. -/
structure ServerSim (members : List Member) (strict : Prop) (s : History) (x : Int)
    (me : RaftServer) : Prop where
  fixed : Fixed members x me
  mirrors : Mirrors s x me
  tracks : Tracks s x me
  calls : ∀ call ∈ me.calls, CallSim members strict s x call
  ledger : Ledger me
  commit : strict → Settled members s (me.log.take me.commitIdx.toNat)

/-- The cluster `c` is related to the abstract state `s`. -/
structure ClusterSim (members : List Member) (strict : Prop) (s : History)
    (c : Cluster) : Prop where
  valid : Valid members s
  servers : ∀ x, ServerSim members strict s x (c.servers x)
  replies : ∀ reply ∈ c.replies, ReplySim s reply

/-! ### The history only grows -/

section Growth

variable {members : List Member} {strict : Prop} {s s' : History} {x y : Int}
variable {me me' : RaftServer}

theorem Held.mono {t idx : Int} (h : Held s y t idx) (hwon : s.Won t)
    (hgrows : Grows s s') : Held s' y t idx := by
  obtain ⟨hle, hacked⟩ := h
  obtain ⟨rest, hrest⟩ := hgrows.leaderLog t hwon
  refine ⟨?_, ?_⟩
  · rw [← hrest, List.length_append]
    omega
  · intro q e hq he hterm
    rw [← hrest, List.getElem?_append_left (by omega)] at he
    exact hgrows.acked y t q (hacked q e hq he hterm)

theorem Segment.mono {ae : MsgAppendentries} {front : List Entry}
    (h : Segment members strict s ae front) (hwon : s.Won ae.term)
    (hgrows : Grows s s') : Segment members strict s' ae front where
  prev := h.prev
  held := h.held.trans (hgrows.leaderLog ae.term hwon)
  prevTerm := h.prevTerm
  keepalive hempty := by
    obtain ⟨l, hl, hlength⟩ := h.keepalive hempty
    exact ⟨l, hl.mono hgrows, hlength⟩
  commit_le := h.commit_le
  commit hstrict := (h.commit hstrict).mono hgrows

theorem CallSim.mono {call : Callback} (h : CallSim members strict s x call)
    (hgrows : Grows s s') : CallSim members strict s' x call := by
  cases call with
  | sendRequestvote dst vr =>
      obtain ⟨hmember, hid, l, hl, hlast⟩ := h
      exact ⟨hmember, hid, l, hgrows.stood vr.term x l hl, hlast⟩
  | sendAppendentries dst ae =>
      obtain ⟨hne, ⟨Q, hQ⟩, hsegment⟩ := h
      refine ⟨hne, ⟨Q, hgrows.elected ae.term x Q hQ⟩, ?_⟩
      rcases hsegment with ⟨front, hfront⟩ | hover
      · exact Or.inl ⟨front, hfront.mono ⟨x, Q, hQ⟩ hgrows⟩
      · exact Or.inr hover
  | _ => trivial

theorem ReplySim.mono {reply : Reply} (h : ReplySim s reply)
    (hgrows : Grows s s') : ReplySim s' reply := by
  cases reply with
  | requestvote src dst r =>
      exact fun hgranted => hgrows.votes _ _ _ (h hgranted)
  | appendentries src dst r =>
      intro hsuccess
      obtain ⟨hwon, hheld⟩ := h hsuccess
      exact ⟨hgrows.won hwon, hheld.mono hwon hgrows⟩

theorem Tracks.mono (h : Tracks s x me) (hwon : me.state = .leader → s.Won me.currentTerm)
    (hgrows : Grows s s') : Tracks s' x me where
  flags hstate peer hpeer hflag := hgrows.votes _ _ _ (h.flags hstate peer hpeer hflag)
  matched hstate peer hpeer hvoting hne :=
    (h.matched hstate peer hpeer hvoting hne).mono (hwon hstate) hgrows
  next := h.next

theorem ServerSim.won (h : ServerSim members strict s x me) (hvalid : Valid members s)
    (hleader : me.state = .leader) : ∃ Q, s.elected me.currentTerm x Q := by
  rw [← h.mirrors.term]
  apply hvalid.votes.leader_elected x
  rw [h.mirrors.role, hleader]
  rfl

/-- Steps of another server do not concern `y`. -/
theorem ServerSim.frame (h : ServerSim members strict s y me) (hvalid : Valid members s)
    (hsteps : Steps Entry.term (majorityOf members) strict x s s') (hne : y ≠ x) :
    ServerSim members strict s' y me := by
  obtain ⟨_, hgrows⟩ := Sound.steps hvalid majorityOf_meet hsteps
  obtain ⟨hterm, hrole, hvotedFor, hlog⟩ := hsteps.frame hne
  refine ⟨h.fixed, ?_, ?_, ?_, h.ledger, ?_⟩
  · exact ⟨hterm.trans h.mirrors.term, hrole.trans h.mirrors.role,
      hvotedFor.trans h.mirrors.votedFor, hlog.trans h.mirrors.log⟩
  · refine h.tracks.mono ?_ hgrows
    intro hleader
    obtain ⟨Q, hQ⟩ := h.won hvalid hleader
    exact ⟨y, Q, hQ⟩
  · intro call hcall
    exact (h.calls call hcall).mono hgrows
  · intro hstrict
    exact (h.commit hstrict).mono hgrows

/-- When one server follows a call, the cluster does. -/
theorem ClusterSim.set {c : Cluster} {replies : List Reply}
    (h : ClusterSim members strict s c)
    (hfollows : Follows members strict x s fun s' =>
      ServerSim members strict s' x me ∧ ∀ reply ∈ replies, ReplySim s' reply) :
    ∃ s', ClusterSim members strict s' (c.set x me replies) ∧ Grows s s' ∧
      Steps Entry.term (majorityOf members) strict x s s' := by
  obtain ⟨s', hsteps, hme, hreplies⟩ := hfollows
  obtain ⟨hvalid, hgrows⟩ := Sound.steps h.valid majorityOf_meet hsteps
  refine ⟨s', ⟨hvalid, ?_, ?_⟩, hgrows, hsteps⟩
  · intro y
    by_cases hy : y = x
    · subst hy
      simpa [Cluster.set] using hme
    · simpa [Cluster.set, hy] using (h.servers y).frame h.valid hsteps hy
  · intro reply hreply
    rcases List.mem_append.mp hreply with hold | hnew
    · exact (h.replies reply hold).mono hgrows
    · exact hreplies reply hnew

end Growth

end IdAllocator
