/-
A follower that handles an appendentries request follows the abstract rules.

The request carries a part of the log of the leader of its term.  What the
follower does to its own log is one of three things: nothing, take over a part
of the leader's log that it did not have, or drop a part of its own.
-/
import IdAllocator.SimulationLog

namespace IdAllocator

open RaftServer Fallible Consensus

section Follower

variable {members : List Member} {strict : Prop} {s s' : History} {x : Int}
variable {me me' : RaftServer} {ae : MsgAppendentries} {front : List Entry}

theorem ServerSim.recorded (h : ServerSim members strict s x me)
    (hvalid : Valid members s) : Recorded Entry.term s me.log := by
  rw [← h.mirrors.log]
  exact hvalid.logs.log_recorded x

/-- A step that replaces the log of a follower. -/
theorem ServerSim.setLog (h : ServerSim members strict s x me) (hvalid : Valid members s)
    (hfollower : me.state = .follower) (me' : RaftServer)
    (hstep : Step Entry.term (majorityOf members) strict x s (s.setLog x me'.log))
    (hterm : me'.currentTerm = me.currentTerm) (hvotedFor : me'.votedFor = me.votedFor)
    (hcommit : me'.commitIdx = me.commitIdx) (hstate : me'.state = me.state)
    (hnodes : me'.nodes = me.nodes) (hnode : me'.node = me.node)
    (hadvances : Advances me me')
    (hcalls : ∀ call ∈ me'.calls, call ∈ me.calls ∨
      ∀ s, CallSim members strict s x call) :
    ServerSim members strict (s.setLog x me'.log) x me' := by
  have hgrows := Grows.step hvalid.votes majorityOf_meet hstep
  have hfollower' : me'.state = .follower := hstate.trans hfollower
  refine ⟨h.fixed.of_follower hnodes hnode hfollower', ?_, Tracks.of_follower hfollower',
    ?_, hadvances.ledger, ?_⟩
  · refine ⟨?_, ?_, ?_, ?_⟩
    · rw [hterm]
      exact h.mirrors.term
    · rw [hstate]
      exact h.mirrors.role
    · rw [hvotedFor]
      exact h.mirrors.votedFor
    · simp [State.setLog]
  · intro call hcall
    rcases hcalls call hcall with hold | hnew
    · exact (h.calls call hold).mono hgrows
    · exact hnew _
  · intro hstrict
    rw [hcommit, hadvances.kept]
    exact (h.commit hstrict).mono hgrows

theorem callSim_logDeletePops {log : List Entry} {idx : Int} {call : Callback}
    (hcall : call ∈ logDeletePops log idx) (s : History) :
    CallSim members strict s x call := by
  obtain ⟨_, _, rfl⟩ := List.mem_map.mp hcall
  trivial

/-- Dropping the end of the log of a follower is an abstract step. -/
theorem ServerSim.raftLogDelete (h : ServerSim members strict s x me)
    (hvalid : Valid members s) (hfollower : me.state = .follower) {idx : Int}
    (hcommit : me.commitIdx < idx)
    (hstrict : strict → s.Won me.currentTerm ∧
      ¬ me.log.take ((idx - 1).toNat + 1) <+: s.leaderLog me.currentTerm) :
    Follows members strict x s fun s' =>
      ServerSim members strict s' x (raftLogDelete me idx) := by
  have hrole : s.role x = .follower := by
    rw [h.mirrors.role, hfollower]
    rfl
  have hstep : Step Entry.term (majorityOf members) strict x s
      (s.setLog x (IdAllocator.raftLogDelete me idx).log) := by
    change Step Entry.term (majorityOf members) strict x s
      (s.setLog x (me.log.take (idx - 1).toNat))
    rw [← h.mirrors.log]
    refine .truncate (idx - 1).toNat hrole ?_
    rw [h.mirrors.log, h.mirrors.term]
    exact hstrict
  refine Reaches.step hstep (h.setLog hvalid hfollower _ hstep rfl rfl rfl rfl rfl rfl
    (advances_raftLogDelete h.ledger hcommit) ?_)
  intro call hcall
  rcases List.mem_append.mp hcall with hold | hnew
  · exact Or.inl hold
  · exact Or.inr (callSim_logDeletePops hnew)

/-! ### The term of the request -/

/-- Behind the term rules the server follows in the term of the request: only
the leader itself could lead, and it does not send to itself. -/
theorem ServerSim.appendentriesTerm (h : ServerSim members strict s x me)
    (hvalid : Valid members s) {src : Int} (hne : x ≠ src) {Q : Set Int}
    (helected : s.elected ae.term src Q) (hterm : appendentriesTerm me ae = some me') :
    Follows members strict x s fun s' => ServerSim members strict s' x me' ∧
      me'.state = .follower ∧ me'.currentTerm = ae.term := by
  rcases appendentriesTerm_cases me ae with ⟨hnone, _⟩ | ⟨mid, hsome, hcases⟩
  · rw [hnone] at hterm
    cases hterm
  rw [hsome, Option.some.injEq] at hterm
  subst hterm
  rcases hcases with ⟨hcandidate, hsame, rfl⟩ | ⟨hnewer, rfl⟩ | ⟨hnot, hsame, rfl⟩
  · have hrole : s.role x = .candidate := by
      rw [h.mirrors.role, hcandidate]
      rfl
    have hstep : Step Entry.term (majorityOf members) strict x s (s.stepDown x) :=
      .stepDown hrole
    have hgrows := Grows.step hvalid.votes majorityOf_meet hstep
    refine Reaches.step hstep ⟨⟨h.fixed.of_follower rfl rfl rfl, ⟨?_, ?_, ?_, ?_⟩,
      Tracks.of_follower rfl, ?_, ?_, ?_⟩, rfl, hsame⟩
    · exact h.mirrors.term
    · simp [State.stepDown, raftBecomeFollower, raftSetState, roleOf]
    · simp [State.stepDown, raftBecomeFollower, raftSetState, voteOf]
    · exact h.mirrors.log
    · intro call hcall
      exact (h.calls call hcall).mono hgrows
    · exact ⟨h.ledger.applied_nonneg, h.ledger.applied_le_commit,
        h.ledger.commit_le_current, h.ledger.applied_eq⟩
    · intro hstrict
      exact (h.commit hstrict).mono hgrows
  · refine Follows.bind hvalid (h.observeTerm hvalid hnewer) ?_
    intro s' _ _ hobserved
    refine Reaches.refl ⟨hobserved, ?_, ?_⟩
    · rw [observeTerm_eq hnewer]
    · rw [observeTerm_eq hnewer]
  · refine Reaches.refl ⟨h, ?_, hsame⟩
    cases hstate : mid.state with
    | none => exact absurd hstate h.fixed.running
    | follower => rfl
    | candidate => exact absurd hstate hnot
    | leader =>
        obtain ⟨R, hR⟩ := h.won hvalid hstate
        rw [hsame] at hR
        exact absurd (hvalid.votes.elected_unique _ x src R Q hR helected) hne

/-! ### The consistency check -/

/-- A request that passes the check finds `front` in the log. -/
theorem ServerSim.front_held (h : ServerSim members strict s x me)
    (hvalid : Valid members s) (hwon : s.Won ae.term)
    (hsegment : Segment members strict s ae front)
    (hprev : ae.prevLogIdx ≤ 0 ∨ ∃ e, logEntryAt me.log ae.prevLogIdx = some e ∧
      e.term = ae.prevLogTerm) : front <+: me.log := by
  have hlength := hsegment.prev
  cases hlast : front.getLast? with
  | none =>
      rw [List.getLast?_eq_none_iff.mp hlast]
      exact ( List.nil_prefix)
  | some f =>
      have hpos : 0 < front.length := by
        rw [List.length_pos_iff]
        rintro rfl
        simp at hlast
      rcases hprev with hzero | ⟨e, he, hterm⟩
      · omega
      · obtain ⟨_, _, hat⟩ := logEntryAt_eq_some he
        have hidx : (ae.prevLogIdx - 1).toNat = front.length - 1 := by omega
        rw [hidx] at hat
        have hfront : front <+: s.leaderLog ae.term :=
          ( List.prefix_append front ae.entries).trans hsegment.held
        exact (h.recorded hvalid).holds (hvalid.logs.leaderLog_recorded _ hwon) hfront
          hlast hat (hterm.trans (hsegment.prevTerm f hlast).symm)

/-- A request that begins behind the end of the leader's log never passes. -/
theorem ServerSim.not_overshoot (h : ServerSim members strict s x me)
    (hvalid : Valid members s) (hover : Overshoot ae)
    (hprev : ae.prevLogIdx ≤ 0 ∨ ∃ e, logEntryAt me.log ae.prevLogIdx = some e ∧
      e.term = ae.prevLogTerm) : False := by
  obtain ⟨hpos, hzero, _⟩ := hover
  rcases hprev with hnot | ⟨e, he, hterm⟩
  · omega
  · obtain ⟨_, _, hat⟩ := logEntryAt_eq_some he
    have := hvalid.entry_pos (h.recorded hvalid) (List.mem_of_getElem? hat)
    omega

/-- An entry that conflicts at `prev_log_idx` is not the leader's. -/
theorem Segment.conflict (hsegment : Segment members strict s ae front) {log : List Entry}
    {e : Entry} (he : logEntryAt log ae.prevLogIdx = some e)
    (hterm : e.term ≠ ae.prevLogTerm) :
    ¬ log.take ((ae.prevLogIdx - 1).toNat + 1) <+: s.leaderLog ae.term := by
  intro hle
  obtain ⟨hone, _, hat⟩ := logEntryAt_eq_some he
  have hlength := hsegment.prev
  have hidx : (ae.prevLogIdx - 1).toNat = front.length - 1 := by omega
  rw [hidx] at hle hat
  have hheld : (s.leaderLog ae.term)[front.length - 1]? = some e := by
    obtain ⟨rest, hrest⟩ := hle
    have hlt : front.length - 1 < (log.take (front.length - 1 + 1)).length := by
      rw [List.length_take]
      have := (List.getElem?_eq_some_iff.mp hat).1
      omega
    rw [← hrest, List.getElem?_append_left hlt, List.getElem?_take_of_lt (by omega)]
    exact hat
  have hlast : front.getLast? = some e := by
    obtain ⟨rest, hrest⟩ := hsegment.held
    rw [List.getLast?_eq_getElem?]
    rw [← hrest, List.append_assoc, List.getElem?_append_left (by omega)] at hheld
    exact hheld
  exact hterm (hsegment.prevTerm e hlast)

/-! ### Keep-alives -/

/-- A keep-alive that would cut off entries of its own term. -/
def StaleKeepalive (me : RaftServer) (ae : MsgAppendentries) : Prop :=
  ae.entries = [] ∧ ae.term = me.currentTerm ∧ 0 < ae.prevLogIdx ∧
    ae.prevLogIdx + 1 < me.currentIdx ∧
    ∃ e ∈ me.log.drop ae.prevLogIdx.toNat, e.term = ae.term

instance (me : RaftServer) (ae : MsgAppendentries) : Decidable (StaleKeepalive me ae) :=
  inferInstanceAs (Decidable (_ ∧ _))

/-- What a keep-alive cuts off is not the leader's, unless it is stale: behind
`front` the leader's log has entries of its own term only. -/
theorem Segment.keepalive_conflict (hvalid : Valid members s)
    (hsegment : Segment members strict s ae front) (hempty : ae.entries = [])
    (hpos : 0 < ae.prevLogIdx) (hlong : ae.prevLogIdx + 1 < me.currentIdx)
    (hterm : me.currentTerm = ae.term) (hfresh : ¬ StaleKeepalive me ae) :
    ¬ me.log.take ((ae.prevLogIdx + 1 - 1).toNat + 1) <+: s.leaderLog ae.term := by
  intro hle
  refine hfresh ⟨hempty, hterm.symm, hpos, hlong, ?_⟩
  have hlength := hsegment.prev
  have hidx : (ae.prevLogIdx + 1 - 1).toNat = front.length := by omega
  have hidx' : ae.prevLogIdx.toNat = front.length := by omega
  rw [hidx] at hle
  rw [hidx']
  simp only [currentIdx, logGetCurrentIdx] at hlong
  have hlt : front.length < me.log.length := by omega
  refine ⟨me.log[front.length], ?_, ?_⟩
  · rw [List.mem_iff_getElem?]
    exact ⟨0, by rw [List.getElem?_drop, Nat.add_zero, List.getElem?_eq_getElem hlt]⟩
  have hat : (s.leaderLog ae.term)[front.length]? = some me.log[front.length] := by
    obtain ⟨rest, hrest⟩ := hle
    have hlt' : front.length < (me.log.take (front.length + 1)).length := by
      rw [List.length_take]
      omega
    rw [← hrest, List.getElem?_append_left hlt', List.getElem?_take_of_lt (by omega),
      List.getElem?_eq_getElem hlt]
  obtain ⟨l, ⟨c, Q, hQ, hstood⟩, hshort⟩ := hsegment.keepalive hempty
  obtain ⟨l', tail, hstood', hsplit, htail⟩ := hvalid.logs.leaderLog_split _ c Q hQ
  rw [← hvalid.votes.stood_unique _ c l l' hstood hstood'] at hsplit
  rw [hsplit, List.getElem?_append_right hshort] at hat
  exact htail _ (List.mem_of_getElem? hat)

/-- The term rules do not make a keep-alive stale: the log has no entries of a
term that is new to the server. -/
theorem ServerSim.staleKeepalive (h : ServerSim members strict s x me)
    (hvalid : Valid members s) (hterm : IdAllocator.appendentriesTerm me ae = some me')
    (hstale : StaleKeepalive me' ae) : StaleKeepalive me ae := by
  have hlog : me'.log = me.log := (quiet_appendentriesTerm hterm).log
  obtain ⟨hempty, _, hpos, hlong, e, he, heterm⟩ := hstale
  rw [currentIdx, hlog] at hlong
  rw [hlog] at he
  refine ⟨hempty, ?_, hpos, hlong, e, he, heterm⟩
  have hle : e.term ≤ me.currentTerm := by
    rw [← h.mirrors.term]
    apply hvalid.logs.log_term x e
    rw [h.mirrors.log]
    exact List.mem_of_mem_drop he
  rcases appendentriesTerm_cases me ae with
    ⟨hnone, _⟩ | ⟨_, _, ⟨_, hsame, _⟩ | ⟨hnewer, _⟩ | ⟨_, hsame, _⟩⟩
  · rw [hnone] at hterm
    cases hterm
  · exact hsame.symm
  · omega
  · exact hsame.symm

theorem ServerSim.appendentriesKeepalive (h : ServerSim members strict s x me)
    (hvalid : Valid members s) (hfollower : me.state = .follower)
    (hterm : me.currentTerm = ae.term) (hwon : s.Won ae.term)
    (hsegment : Segment members strict s ae front) (hfront : front <+: me.log)
    (hfresh : strict → ¬ StaleKeepalive me ae)
    (hcall : appendentriesKeepalive me ae = .ok me') :
    Follows members strict x s fun s' => ServerSim members strict s' x me' ∧
      me'.state = .follower ∧ me'.currentTerm = ae.term ∧ front <+: me'.log := by
  rcases appendentriesKeepalive_ok hcall with rfl | ⟨hempty, hpos, hlong, hcommit, rfl⟩
  · exact Reaches.refl ⟨h, hfollower, hterm, hfront⟩
  · refine Follows.bind hvalid (h.raftLogDelete hvalid hfollower hcommit ?_) ?_
    · intro hstrict
      rw [hterm]
      exact ⟨hwon, hsegment.keepalive_conflict hvalid hempty hpos hlong hterm
        (hfresh hstrict)⟩
    · intro s' _ _ hdeleted
      refine Reaches.refl ⟨hdeleted, hfollower, hterm, ?_⟩
      have hlength := hsegment.prev
      have hidx : (ae.prevLogIdx + 1 - 1).toNat = front.length := by omega
      change front <+: me.log.take (ae.prevLogIdx + 1 - 1).toNat
      rw [hidx, ← ( List.prefix_iff_eq_take.mp hfront)]

/-! ### Taking entries -/

/-- The part of the message that the first loop passes over is in the log. -/
theorem ServerSim.held_prefix (h : ServerSim members strict s x me)
    (hvalid : Valid members s) (hwon : s.Won ae.term)
    (hsegment : Segment members strict s ae front) (hfront : front <+: me.log)
    {held rest : List Entry} (hsplit : ae.entries = held ++ rest)
    (hscan : ∀ (i : Nat) ety, held[i]? = some ety →
      ∃ existing, logEntryAt me.log (ae.prevLogIdx + 1 + i) = some existing ∧
        existing.term = ety.term) : front ++ held <+: me.log := by
  have hpart : front ++ held <+: s.leaderLog ae.term := by
    refine List.IsPrefix.trans ?_ hsegment.held
    rw [hsplit, ← List.append_assoc]
    exact ( List.prefix_append _ _)
  cases hlast : held.getLast? with
  | none =>
      rw [List.getLast?_eq_none_iff.mp hlast, List.append_nil]
      exact hfront
  | some f =>
      have hat := hlast
      rw [List.getLast?_eq_getElem?] at hat
      obtain ⟨hlt, _⟩ := List.getElem?_eq_some_iff.mp hat
      obtain ⟨existing, hexisting, hterm⟩ := hscan _ f hat
      obtain ⟨_, _, hlog⟩ := logEntryAt_eq_some hexisting
      have hlength := hsegment.prev
      have hidx : (ae.prevLogIdx + 1 + ((held.length - 1 : Nat) : Int) - 1).toNat =
          (front ++ held).length - 1 := by
        rw [List.length_append]
        omega
      rw [hidx] at hlog
      refine (h.recorded hvalid).holds (hvalid.logs.leaderLog_recorded _ hwon) hpart
        ?_ hlog hterm
      rw [List.getLast?_append, hlast]
      rfl

/-- A follower whose log does not have the leader's log up to `new` takes it
over in one abstract step. -/
theorem ServerSim.adopt (h : ServerSim members strict s x me)
    (hfollower : me.state = .follower) (hwon : s.Won me.currentTerm) {new : List Entry}
    (hnew : new <+: s.leaderLog me.currentTerm) (hmissing : ¬ new <+: me.log) :
    Step Entry.term (majorityOf members) strict x s (s.setLog x new) := by
  have hrole : s.role x = .follower := by
    rw [h.mirrors.role, hfollower]
    rfl
  have heq := ( List.prefix_iff_eq_take.mp hnew)
  rw [← h.mirrors.term] at hwon heq
  rw [← h.mirrors.log] at hmissing
  have hstep : Step Entry.term (majorityOf members) strict x s
      (s.setLog x ((s.leaderLog (s.term x)).take new.length)) := by
    refine .adopt new.length hrole hwon ?_
    rw [← heq]
    exact hmissing
  rw [← heq] at hstep
  exact hstep

/-- A follower that drops what is behind `common`, because the leader has
another entry there, takes one abstract step. -/
theorem ServerSim.dropConflict (h : ServerSim members strict s x me)
    (hfollower : me.state = .follower) (hwon : s.Won me.currentTerm)
    {common tail : List Entry} {ety : Entry}
    (hpart : common ++ ety :: tail <+: s.leaderLog me.currentTerm)
    (hheld : common <+: me.log) (hne : common ≠ me.log)
    (hdiffer : ∀ existing, me.log[common.length]? = some existing →
      existing.term ≠ ety.term) :
    Step Entry.term (majorityOf members) strict x s (s.setLog x common) := by
  have hrole : s.role x = .follower := by
    rw [h.mirrors.role, hfollower]
    rfl
  have hshort : common.length < me.log.length := by
    have hle := hheld.length_le
    rcases Nat.lt_or_ge common.length me.log.length with hlt | hge
    · exact hlt
    · exact absurd (hheld.eq_of_length (by omega)) hne
  have hstep : Step Entry.term (majorityOf members) strict x s
      (s.setLog x ((s.log x).take common.length)) := by
    refine .truncate common.length hrole ?_
    intro _
    rw [h.mirrors.term, h.mirrors.log]
    refine ⟨hwon, ?_⟩
    rintro ⟨behind, hbehind⟩
    obtain ⟨behind', hbehind'⟩ := hpart
    -- both logs have an entry here, and the terms differ
    have hat : (s.leaderLog me.currentTerm)[common.length]? =
        some me.log[common.length] := by
      have hlt : common.length < (me.log.take (common.length + 1)).length := by
        rw [List.length_take]
        omega
      rw [← hbehind, List.getElem?_append_left hlt, List.getElem?_take_of_lt (by omega),
        List.getElem?_eq_getElem hshort]
    have hat' : (s.leaderLog me.currentTerm)[common.length]? = some ety := by
      rw [← hbehind', List.append_assoc, List.cons_append,
        List.getElem?_append_right (le_refl _), Nat.sub_self, List.getElem?_cons_zero]
    rw [hat, Option.some.injEq] at hat'
    exact hdiffer _ (List.getElem?_eq_getElem hshort) (congrArg Entry.term hat')
  rw [h.mirrors.log, ← ( List.prefix_iff_eq_take.mp hheld)] at hstep
  exact hstep

theorem appendentriesAppend_calls {entries : List Entry} {call : Callback}
    (hcall : call ∈ (appendentriesAppend me entries).1.calls) :
    call ∈ me.calls ∨ ∃ ety idx, call = .logOffer ety idx := by
  obtain ⟨taken, left, cfgIdx, calls, _, hcalls, _, heq⟩ :=
    appendentriesAppend_spec me entries
  rw [heq] at hcall
  rcases List.mem_append.mp hcall with hold | hnew
  · exact Or.inl hold
  · exact Or.inr (hcalls call hnew)

/-- The entries that are taken replace the end of the log, or fill a gap. -/
theorem ServerSim.takeOver (h : ServerSim members strict s x me) (hvalid : Valid members s)
    (hfollower : me.state = .follower) (hterm : me.currentTerm = ae.term)
    (hwon : s.Won ae.term) {scanned : RaftServer} {rest held : List Entry} {ety : Entry}
    {tail : List Entry} (hrest : rest = ety :: tail)
    (hpart : front ++ held ++ rest <+: s.leaderLog ae.term)
    (hheld : front ++ held <+: me.log) (hlog : scanned.log = front ++ held)
    (hdiffer : ∀ existing, me.log[(front ++ held).length]? = some existing →
      existing.term ≠ ety.term)
    (hscanned : scanned = me ∨
      ∃ idx, scanned = IdAllocator.raftLogDelete me idx ∧ me.commitIdx < idx) :
    Follows members strict x s fun s' =>
      ServerSim members strict s' x (appendentriesAppend scanned rest).1 := by
  have hscan : Advances me scanned := by
    rcases hscanned with rfl | ⟨idx, rfl, hcommit⟩
    · exact Advances.refl h.ledger
    · exact advances_raftLogDelete h.ledger hcommit
  have hadvances := hscan.trans (advances_appendentriesAppend rest hscan.ledger)
  have hcalls : ∀ call ∈ (appendentriesAppend scanned rest).1.calls,
      call ∈ me.calls ∨ ∀ s, CallSim members strict s x call := by
    intro call hcall
    rcases appendentriesAppend_calls hcall with hold | ⟨_, _, rfl⟩
    · rcases hscanned with rfl | ⟨idx, rfl, _⟩
      · exact Or.inl hold
      · rcases List.mem_append.mp hold with hold | hpop
        · exact Or.inl hold
        · exact Or.inr (callSim_logDeletePops hpop)
    · exact Or.inr fun _ => trivial
  obtain ⟨taken, left, cfgIdx, calls, hsplit, _, _, heq⟩ :=
    appendentriesAppend_spec scanned rest
  rw [heq] at hadvances hcalls ⊢
  have hfields : scanned.currentTerm = me.currentTerm ∧ scanned.votedFor = me.votedFor ∧
      scanned.commitIdx = me.commitIdx ∧ scanned.state = me.state ∧
      scanned.nodes = me.nodes ∧ scanned.node = me.node := by
    rcases hscanned with rfl | ⟨idx, rfl, _⟩
    · exact ⟨rfl, rfl, rfl, rfl, rfl, rfl⟩
    · exact ⟨rfl, rfl, rfl, rfl, rfl, rfl⟩
  obtain ⟨hterm', hvote', hcommit', hstate', hnodes', hnode'⟩ := hfields
  by_cases hsame : scanned.log ++ taken = me.log
  · -- nothing was dropped and nothing taken
    exact Reaches.refl (h.of_same _ hterm' hvote' hsame hcommit' hstate' hnodes' hnode'
      hadvances.ledger fun call hcall => (hcalls call hcall).imp_right fun hall => hall s)
  · have hnew : scanned.log ++ taken <+: s.leaderLog me.currentTerm := by
      rw [hlog, hterm]
      refine List.IsPrefix.trans ?_ hpart
      rw [hsplit, ← List.append_assoc]
      exact ( List.prefix_append _ _)
    rw [← hterm] at hwon
    have hstep : Step Entry.term (majorityOf members) strict x s
        (s.setLog x (scanned.log ++ taken)) := by
      by_cases hmissing : scanned.log ++ taken <+: me.log
      · -- the entry behind the common part conflicts, so nothing was taken
        have hnil : taken = [] := by
          cases taken with
          | nil => rfl
          | cons first more =>
              rw [hrest, List.cons_append, List.cons.injEq] at hsplit
              obtain ⟨rfl, _⟩ := hsplit
              obtain ⟨behind, hbehind⟩ := hmissing
              have hat : me.log[(front ++ held).length]? = some ety := by
                rw [← hbehind, hlog, List.append_assoc, List.cons_append,
                  List.getElem?_append_right (le_refl _), Nat.sub_self,
                  List.getElem?_cons_zero]
              exact absurd rfl (hdiffer ety hat)
        subst hnil
        rw [List.append_nil, hlog] at hsame ⊢
        rw [hrest, ← hterm] at hpart
        exact h.dropConflict hfollower hwon hpart hheld hsame hdiffer
      · exact h.adopt hfollower hwon hnew hmissing
    exact Reaches.step hstep (h.setLog hvalid hfollower
      { scanned with
        log := scanned.log ++ taken
        votingCfgChangeLogIdx := cfgIdx
        calls := scanned.calls ++ calls }
      hstep hterm' hvote' hcommit' hstate' hnodes' hnode' hadvances hcalls)

theorem currentTerm_takeEntries {idx : Int} {entries rest : List Entry}
    {scanned : RaftServer} (hscan : appendentriesScan me idx entries = .ok (scanned, rest)) :
    (appendentriesAppend scanned rest).1.currentTerm = me.currentTerm := by
  obtain ⟨_, _, _, _, _, _, _, heq⟩ := appendentriesAppend_spec scanned rest
  rw [heq]
  obtain ⟨_, _, _, ⟨_, rfl⟩ | ⟨_, _, _, _, _, rfl⟩ | ⟨_, _, _, _, _, _, _, rfl⟩⟩ :=
    appendentriesScan_ok hscan
  · rfl
  · rfl
  · rfl

/-- Both loops of the handler, for a request whose `front` the log holds. -/
theorem ServerSim.takeEntries (h : ServerSim members strict s x me)
    (hvalid : Valid members s) (hfollower : me.state = .follower)
    (hterm : me.currentTerm = ae.term) (hwon : s.Won ae.term)
    (hsegment : Segment members strict s ae front) (hfront : front <+: me.log)
    {scanned : RaftServer} {rest : List Entry}
    (hscan : appendentriesScan me (ae.prevLogIdx + 1) ae.entries = .ok (scanned, rest)) :
    Follows members strict x s fun s' =>
      ServerSim members strict s' x (appendentriesAppend scanned rest).1 ∧
        ((appendentriesAppend scanned rest).2 = true →
          front ++ ae.entries <+: (appendentriesAppend scanned rest).1.log) := by
  obtain ⟨held, hsplit, hpassed, hend⟩ := appendentriesScan_ok hscan
  have hheld := h.held_prefix hvalid hwon hsegment hfront hsplit hpassed
  have hpart : front ++ held ++ rest <+: s.leaderLog ae.term := by
    rw [List.append_assoc, ← hsplit]
    exact hsegment.held
  have hlength := hsegment.prev
  have hidx : (ae.prevLogIdx + 1 + (held.length : Int) - 1).toNat =
      (front ++ held).length := by
    rw [List.length_append]
    omega
  -- when everything is stored, nothing of the message is left over
  have hstored : ∀ {scanned : RaftServer}, scanned.log = front ++ held →
      (appendentriesAppend scanned rest).2 = true →
      front ++ ae.entries <+: (appendentriesAppend scanned rest).1.log := by
    intro scanned hlog hdone
    obtain ⟨taken, left, cfgIdx, calls, hrest, _, _, heq⟩ :=
      appendentriesAppend_spec scanned rest
    rw [heq] at hdone ⊢
    have hnil : left = [] := by simpa using hdone
    rw [hnil, List.append_nil] at hrest
    change front ++ ae.entries <+: scanned.log ++ taken
    rw [hlog, hsplit, hrest, List.append_assoc]
  rcases hend with ⟨rfl, rfl⟩ | ⟨ety, tail, hrest, hnone, hone, rfl⟩ |
    ⟨ety, tail, existing, hrest, hexisting, hdiffer, hcommit, rfl⟩
  · rw [List.append_nil] at hsplit
    rw [hsplit]
    exact Reaches.refl ⟨h, fun _ => hheld⟩
  · -- the log ends with the part that was passed over
    have hall : scanned.log = front ++ held := by
      rw [logEntryAt, if_pos hone, hidx, List.getElem?_eq_none_iff] at hnone
      exact (hheld.eq_of_length_le hnone).symm
    refine Follows.bind hvalid (h.takeOver hvalid hfollower hterm hwon hrest hpart hheld
      hall ?_ (Or.inl rfl)) ?_
    · intro existing hat
      rw [hall, List.getElem?_eq_none_iff.mpr (le_refl _)] at hat
      cases hat
    · intro s' _ _ hdone
      exact Reaches.refl ⟨hdone, hstored hall⟩
  · have hcut : (IdAllocator.raftLogDelete me
        (ae.prevLogIdx + 1 + (held.length : Int))).log = front ++ held := by
      change me.log.take _ = _
      rw [hidx, ← ( List.prefix_iff_eq_take.mp hheld)]
    refine Follows.bind hvalid (h.takeOver hvalid hfollower hterm hwon hrest hpart hheld
      hcut ?_ (Or.inr ⟨_, rfl, hcommit⟩)) ?_
    · intro other hat
      obtain ⟨_, _, hat'⟩ := logEntryAt_eq_some hexisting
      rw [hidx, hat, Option.some.injEq] at hat'
      rw [hat']
      exact hdiffer
    · intro s' _ _ hdone
      exact Reaches.refl ⟨hdone, hstored hcut⟩

/-! ### Success -/

/-- A follower that holds all of a request acknowledges it. -/
theorem ServerSim.acknowledge (h : ServerSim members strict s x me)
    (hvalid : Valid members s) (hterm : me.currentTerm = ae.term) (hwon : s.Won ae.term)
    (hsegment : Segment members strict s ae front)
    (hheld : front ++ ae.entries <+: me.log) :
    Follows members strict x s fun s' => ServerSim members strict s' x me ∧
      Held s' x ae.term (ae.prevLogIdx + ae.nEntries) := by
  have hprev := hsegment.prev
  have hidx : ae.prevLogIdx + ae.nEntries = ((front ++ ae.entries).length : Int) := by
    rw [hprev, MsgAppendentries.nEntries, List.length_append]
    push_cast
    rfl
  have hle := hsegment.held.length_le
  by_cases hzero : (front ++ ae.entries).length = 0
  · refine Reaches.refl ⟨h, by omega, ?_⟩
    intro q e hq
    omega
  obtain ⟨p, hp⟩ : ∃ p, (front ++ ae.entries).length = p + 1 :=
    ⟨(front ++ ae.entries).length - 1, by omega⟩
  have hstep : Step Entry.term (majorityOf members) strict x s
      (s.ack Entry.term x p) := by
    refine .ack p ?_ ?_
    · rw [h.mirrors.term, hterm]
      exact hwon
    · rw [h.mirrors.term, hterm, h.mirrors.log, ← hp,
        ← ( List.prefix_iff_eq_take.mp hsegment.held)]
      exact hheld
  have hgrows := Grows.step hvalid.votes majorityOf_meet hstep
  refine Reaches.step hstep ⟨⟨h.fixed, ⟨h.mirrors.term, h.mirrors.role,
    h.mirrors.votedFor, h.mirrors.log⟩, ?_, ?_, h.ledger, ?_⟩, ?_⟩
  · refine h.tracks.mono ?_ hgrows
    intro _
    rw [hterm]
    exact hwon
  · intro call hcall
    exact (h.calls call hcall).mono hgrows
  · intro hstrict
    exact (h.commit hstrict).mono hgrows
  · rw [hidx]
    refine ⟨by exact_mod_cast hle, ?_⟩
    intro q e hq he heq
    exact Or.inr ⟨rfl, by rw [h.mirrors.term, hterm], by omega, e, he, heq⟩

theorem ServerSim.appendentriesCommit (h : ServerSim members strict s x me)
    (hsegment : Segment members strict s ae front)
    (hheld : front ++ ae.entries <+: me.log) (hcall : appendentriesCommit me ae = .ok me') :
    ServerSim members strict s x me' := by
  have hledger := (advances_appendentriesCommit h.ledger hcall).ledger
  rcases appendentriesCommit_ok hcall with rfl | ⟨idx, hidx, _, _, rfl⟩
  · exact h
  · refine ⟨⟨h.fixed.profile, h.fixed.self, h.fixed.running, h.fixed.electing⟩,
      ⟨h.mirrors.term, h.mirrors.role, h.mirrors.votedFor, h.mirrors.log⟩,
      ⟨h.tracks.flags, h.tracks.matched, h.tracks.next⟩, h.calls, hledger, ?_⟩
    intro hstrict
    change Settled members s (me.log.take idx.toNat)
    have hle := hsegment.commit_le
    -- below the commit index of the request the log is the leader's
    have hsame : me.log.take idx.toNat = (front ++ ae.entries).take idx.toNat := by
      obtain ⟨rest, hrest⟩ := hheld
      rw [← hrest, List.take_append_of_le_length]
      rw [List.length_append]
      omega
    rw [hsame]
    exact (hsegment.commit hstrict).shorten (List.take_prefix_take_left (by omega))

theorem ServerSim.appendentriesAccept (h : ServerSim members strict s x me)
    (hvalid : Valid members s) (hfollower : me.state = .follower)
    (hterm : me.currentTerm = ae.term) (hwon : s.Won ae.term)
    (hsegment : Segment members strict s ae front) (hfront : front <+: me.log)
    (hfresh : strict → ¬ StaleKeepalive me ae) {node : Option Int} {src : Int}
    {r : MsgAppendentriesResponse}
    (hcall : appendentriesAccept me node ae = .ok (me', r)) :
    Follows members strict x s fun s' => ServerSim members strict s' x me' ∧
      ReplySim s' (.appendentries x src r) := by
  obtain ⟨kept, scanned, rest, hkept, hscan, hexit⟩ := appendentriesAccept_ok hcall
  refine Follows.bind hvalid (h.appendentriesKeepalive hvalid hfollower hterm hwon
    hsegment hfront hfresh hkept) ?_
  rintro s₁ hvalid₁ hgrows₁ ⟨hkeptSim, hkeptFollower, hkeptTerm, hkeptFront⟩
  have hwon₁ := hgrows₁.won hwon
  have hsegment₁ := hsegment.mono hwon hgrows₁
  refine Follows.bind hvalid₁ (hkeptSim.takeEntries hvalid₁ hkeptFollower hkeptTerm hwon₁
    hsegment₁ hkeptFront hscan) ?_
  rintro s₂ hvalid₂ hgrows₂ ⟨htaken, hstored⟩
  have hwon₂ := hgrows₂.won hwon₁
  have hsegment₂ := hsegment₁.mono hwon₁ hgrows₂
  rcases hexit with ⟨_, rfl, rfl⟩ | ⟨hdone, mid, hmid, rfl, rfl⟩
  · exact Reaches.refl ⟨htaken, fun hsuccess => absurd rfl hsuccess⟩
  · have hheld := hstored hdone
    have htermMid : (appendentriesAppend scanned rest).1.currentTerm = ae.term := by
      rw [currentTerm_takeEntries hscan]
      exact hkeptTerm
    refine Follows.bind hvalid₂ (htaken.acknowledge hvalid₂ htermMid hwon₂ hsegment₂ hheld) ?_
    rintro s₃ _ hgrows₃ ⟨hacked, hheldIdx⟩
    have hcommitted := hacked.appendentriesCommit (hsegment₂.mono hwon₂ hgrows₃) hheld hmid
    have hmidTerm : mid.currentTerm = ae.term := by
      rcases appendentriesCommit_ok hmid with rfl | ⟨_, _, _, _, rfl⟩
      · exact htermMid
      · exact htermMid
    refine Reaches.refl ⟨?_, ?_⟩
    · exact hcommitted.heard mid.timeoutElapsed node
    · intro _
      change s₃.Won mid.currentTerm ∧ Held s₃ x mid.currentTerm _
      rw [hmidTerm]
      exact ⟨hgrows₃.won hwon₂, hheldIdx⟩

/-- Handling an appendentries request that some leader has sent. -/
theorem ServerSim.raftRecvAppendentries (h : ServerSim members strict s x me)
    (hvalid : Valid members s) {src : Int}
    (hsent : CallSim members strict s src (.sendAppendentries x ae))
    (hfresh : strict → ¬ StaleKeepalive me ae) {r : MsgAppendentriesResponse}
    (hcall : raftRecvAppendentries me (some src) ae = .ok (me', r)) :
    Follows members strict x s fun s' => ServerSim members strict s' x me' ∧
      ReplySim s' (.appendentries x src r) := by
  obtain ⟨hne, ⟨Q, hQ⟩, hmessage⟩ := hsent
  have hwon : s.Won ae.term := ⟨src, Q, hQ⟩
  have htick : ServerSim members strict s x { me with timeoutElapsed := 0 } :=
    h.heard 0 me.currentLeader
  rcases raftRecvAppendentries_ok hcall with
    ⟨_, rfl, rfl⟩ | ⟨mid, check, hterm, hcheck, hexit⟩
  · exact Reaches.refl ⟨htick, fun hsuccess => absurd rfl hsuccess⟩
  refine Follows.bind hvalid (htick.appendentriesTerm hvalid hne hQ hterm) ?_
  rintro s' hvalid' hgrows ⟨hmid, hfollower, hmidTerm⟩
  have hwon' := hgrows.won hwon
  rcases hexit with ⟨_, rfl, rfl⟩ | ⟨hconflict, rfl, rfl⟩ | ⟨haccepted, haccept⟩
  · exact Reaches.refl ⟨hmid, fun hsuccess => absurd rfl hsuccess⟩
  · rcases appendentriesPrev_ok hcheck with hwrong | ⟨hwrong, _⟩ | ⟨_, hcommit, e, he, hdiffer⟩
    · simp [hconflict] at hwrong
    · simp [hconflict] at hwrong
    refine Follows.bind hvalid' (hmid.raftLogDelete hvalid' hfollower hcommit ?_) ?_
    · intro hstrict
      rw [hmidTerm]
      refine ⟨hwon', ?_⟩
      rcases hmessage with ⟨front, hsegment⟩ | ⟨hnot, _⟩
      · exact (hsegment.mono hwon hgrows).conflict he hdiffer
      · exact absurd hstrict hnot
    · intro s'' _ _ hdeleted
      exact Reaches.refl ⟨hdeleted, fun hsuccess => absurd rfl hsuccess⟩
  · rcases appendentriesPrev_ok hcheck with hwrong | ⟨_, hprev⟩ | ⟨hwrong, _⟩
    · simp [haccepted] at hwrong
    · rcases hmessage with ⟨front, hsegment⟩ | ⟨_, hover⟩
      · have hsegment' := hsegment.mono hwon hgrows
        refine hmid.appendentriesAccept hvalid' hfollower hmidTerm hwon' hsegment'
          (hmid.front_held hvalid' hwon' hsegment' hprev) ?_ haccept
        intro hstrict hstale
        exact hfresh hstrict (htick.staleKeepalive hvalid hterm hstale)
      · exact absurd (hmid.not_overshoot hvalid' hover hprev) id
    · simp [haccepted] at hwrong

end Follower

end IdAllocator
