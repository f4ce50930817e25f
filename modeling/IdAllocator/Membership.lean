/-
The configuration of a server as a function of its log.  A change takes effect
when its entry is offered; the callback for a removed entry leaves the node list
as it is.
-/
import IdAllocator.Cluster
import IdAllocator.TruncatedStore

namespace IdAllocator

open RaftServer Fallible

section

variable (env : Env)

/-- A server that only knows itself. -/
def freshServer : RaftServer :=
  raftAddNode raftNew env.nodeId true

/-- Offer the configuration entries of a log to a fresh server. -/
def replay (log : List Entry) : Except Breakdown RaftServer :=
  (log.filter raftEntryIsCfgChange).foldlM
    (fun me ety => offerCfgChange env me ety.data ety.type) (freshServer env)

/-- A fresh server with the databases as they are created. -/
def freshSite : Site where
  me := freshServer env
  disk := Disk.blank

/-- The operations lead to a configuration, and it is that of the log they
leave. -/
def ConfigFollows (logPop : Disk → Except Breakdown Disk) (ops : List LogOp) : Prop :=
  ∃ s me, Runs.run (LogOp.next env logPop) (freshSite env) ops = some s ∧
    replay env s.me.log = .ok me ∧ s.me.profile = me.profile

/-- No configuration entry is removed. -/
def LogOp.KeepsChanges (s : Site) (op : LogOp) : Prop :=
  ∀ ety ∈ op.removed s.me.log, raftEntryIsCfgChange ety = false

instance LogOp.decidableKeepsChanges (s : Site) (op : LogOp) : Decidable (op.KeepsChanges s) :=
  inferInstanceAs (Decidable (∀ ety ∈ op.removed s.me.log, raftEntryIsCfgChange ety = false))

end

/-! ### One entry -/

/-- The node list behind a change. -/
def changedNodes (nodes : List RaftNode) (ety : Entry) : List RaftNode :=
  match entryCfgChange ety.data with
  | none => nodes
  | some change =>
      match ety.type with
      | .removeNode => nodes.eraseP fun other => other.id = change.nodeId
      | .addNode => addRecord nodes ⟨change.nodeId, true⟩
      | .addNonvotingNode => addRecord nodes ⟨change.nodeId, false⟩
      | _ => nodes

variable {env : Env}

theorem raftAddNonVotingNode_nodes (me : RaftServer) (id : Int) (isSelf : Bool) :
    (raftAddNonVotingNode me id isSelf).nodes = addRecord me.nodes ⟨id, false⟩ := by
  rw [raftAddNonVotingNode, raftAddNode_eq]
  simp [addRecord, setNode]

theorem offerCfgChange_nodes {me me' : RaftServer} {ety : Entry}
    (h : offerCfgChange env me ety.data ety.type = .ok me') :
    me'.nodes = changedNodes me.nodes ety := by
  obtain ⟨change, hchange, ⟨htype, _, rfl⟩ | ⟨htype, _, rfl⟩ | ⟨htype, _, rfl⟩⟩ :=
    offerCfgChange_ok h
  · simp [changedNodes, hchange, htype]
  · simp [changedNodes, hchange, htype, raftAddNonVotingNode_nodes]
  · simp [changedNodes, hchange, htype, raftAddNode_eq]

/-! ### Replaying -/

theorem replay_append_change (log : List Entry) {ety : Entry}
    (hcfg : raftEntryIsCfgChange ety = true) :
    replay env (log ++ [ety]) =
      replay env log >>= fun me => offerCfgChange env me ety.data ety.type := by
  simp [replay, List.filter_append, hcfg, List.foldlM_append]

theorem replay_append_normal (log : List Entry) {ety : Entry}
    (hcfg : raftEntryIsCfgChange ety = false) : replay env (log ++ [ety]) = replay env log := by
  simp [replay, List.filter_append, hcfg]

/-- Entries without a change can be cut off. -/
theorem replay_take {log : List Entry} {k : Nat}
    (h : ∀ ety ∈ log.drop k, raftEntryIsCfgChange ety = false) :
    replay env (log.take k) = replay env log := by
  have hdrop : (log.drop k).filter raftEntryIsCfgChange = [] := by
    rw [List.filter_eq_nil_iff]
    intro ety hety
    simp [h ety hety]
  have hfilter : log.filter raftEntryIsCfgChange = (log.take k).filter raftEntryIsCfgChange := by
    conv_lhs => rw [← List.take_append_drop k log, List.filter_append, hdrop, List.append_nil]
  rw [replay, replay, hfilter]

/-- The log gives the node list of the server. -/
def Replays (env : Env) (s : Site) : Prop :=
  ∃ me, replay env s.me.log = .ok me ∧ me.nodes = s.me.nodes

theorem freshSite_replays : Replays env (freshSite env) := by
  refine ⟨freshServer env, ?_, rfl⟩
  rw [freshSite, freshServer, raftAddNode_log]
  rfl

/-- An entry that is offered to the server can be offered to the replay. -/
theorem Replays.offered {s s' : Site} (h : Replays env s) {me : RaftServer} {ety : Entry}
    (hnodes : me.nodes = s.me.nodes) (hoffered : IdAllocator.offered env me ety = .ok s'.me)
    (hlog : s'.me.log = s.me.log ++ [ety]) : Replays env s' := by
  obtain ⟨r, hreplay, hsame⟩ := h
  rw [← hnodes] at hsame
  rw [Replays, hlog]
  unfold IdAllocator.offered at hoffered
  split at hoffered
  · rename_i hcfg
    have htakes := offerCfgChange_takes hoffered
    rw [takesChange_congr hsame.symm] at htakes
    obtain ⟨r', hr'⟩ := exists_offerCfgChange hcfg htakes
    refine ⟨r', ?_, ?_⟩
    · rw [replay_append_change _ hcfg, hreplay]
      exact hr'
    · rw [offerCfgChange_nodes hr', hsame, offerCfgChange_nodes hoffered]
  · rename_i hcfg
    rw [Except.ok.injEq] at hoffered
    refine ⟨r, ?_, hoffered ▸ hsame⟩
    rw [replay_append_normal _ (Bool.eq_false_iff.mpr hcfg), hreplay]

/-- An operation that removes no change keeps the configuration that of the log. -/
theorem step_replays {logPop : Disk → Except Breakdown Disk} {s s' : Site} {op : LogOp}
    (h : Replays env s) (hkeeps : op.KeepsChanges s)
    (hstep : op.step env logPop s = .ok s') : Replays env s' := by
  rcases LogOp.step_ok hstep with ⟨ety, rfl, _, hlog, hnodes, _⟩ |
    ⟨ety, me, rfl, _, hnodes, hoffered, hlog, _⟩ | ⟨idx, hidx, rfl, hme, _⟩
  · obtain ⟨r, hreplay, hsame⟩ := h
    exact ⟨r, hlog ▸ hreplay, hsame.trans hnodes.symm⟩
  · exact h.offered hnodes hoffered hlog
  · obtain ⟨r, hreplay, hsame⟩ := h
    rw [Replays, hme]
    refine ⟨r, ?_, hsame⟩
    rw [← hreplay]
    exact replay_take hkeeps

/-! ### Whole runs -/

/-- If every operation goes through and removes no change, the configuration is
that of the log. -/
theorem configFollows_of_keepsChanges {logPop : Disk → Except Breakdown Disk}
    {ops : List LogOp}
    (hmeets : Runs.Meets (LogOp.next env logPop) (fun s op => op.Offers env s ∧
      op.KeepsChanges s ∧
      (op.removed s.me.log = [] ∨ ∀ disk, ∃ disk', logPop disk = .ok disk'))
      (freshSite env) ops) : ConfigFollows env logPop ops := by
  obtain ⟨s, hrun, me, hreplay, hnodes⟩ := Runs.run_total (Replays env) (by
    rintro s op hs ⟨hoffers, hkeeps, hpop⟩
    obtain ⟨s', hstep⟩ := exists_step hoffers hpop
    exact ⟨s', toOption_eq_some.mpr hstep, step_replays hs hkeeps hstep⟩)
    freshSite_replays hmeets
  exact ⟨s, me, hrun, hreplay, by rw [RaftServer.profile, RaftServer.profile, hnodes]⟩

theorem freshSite_keysMatch : KeysMatch (freshSite env) := by
  intro key
  simp [freshSite, freshServer, Disk.blank, OrderedStore.empty, raftAddNode_log, raftNew]

/-- With the callback of `main.c` the configuration follows the log in the runs in
which every change can be offered and nothing is removed, and, as long as the map
has room, in no others.  With any callback that returns it is enough that no
change is removed. -/
theorem configuration_follows_log (env : Env) (ops : List LogOp) :
    (Runs.Meets (LogOp.next env raftLogentryPopCb)
        (fun s op => op.Offers env s ∧ op.removed s.me.log = []) (freshSite env) ops →
      ConfigFollows env raftLogentryPopCb ops) ∧
    (Runs.Meets (LogOp.next env raftLogentryPopCb) (fun s op => op.FindsRoom env s)
        (freshSite env) ops →
      ConfigFollows env raftLogentryPopCb ops →
      Runs.Meets (LogOp.next env raftLogentryPopCb)
        (fun s op => op.Offers env s ∧ op.removed s.me.log = []) (freshSite env) ops) ∧
    ∀ logPop, (∀ disk, ∃ disk', logPop disk = .ok disk') →
      Runs.Meets (LogOp.next env logPop)
        (fun s op => op.Offers env s ∧ op.KeepsChanges s) (freshSite env) ops →
      ConfigFollows env logPop ops := by
  refine ⟨?_, ?_, ?_⟩
  · intro hmeets
    apply configFollows_of_keepsChanges (hmeets.imp _)
    rintro s op ⟨hoffers, hremoved⟩
    refine ⟨hoffers, ?_, Or.inl hremoved⟩
    rw [LogOp.KeepsChanges, hremoved]
    simp
  · rintro hroom ⟨s, _, hrun, _⟩
    apply Runs.Meets.of_run KeysMatch ?_ freshSite_keysMatch hroom hrun
    intro s s' op hs hroom hnext
    have hstep := toOption_eq_some.mp hnext
    have hremoved := removed_of_step hs hstep
    exact ⟨⟨offers_of_step hstep, hremoved⟩, keysMatch_step hs hroom hremoved hstep⟩
  · intro logPop hpop hmeets
    apply configFollows_of_keepsChanges (hmeets.imp _)
    rintro s op ⟨hoffers, hkeeps⟩
    exact ⟨hoffers, hkeeps, Or.inr hpop⟩

/-- A change for a node at 127.0.0.1, with both ports 8080. -/
def changeData (nodeId : UInt8) : List UInt8 :=
  [144, 31, 0, 0, 144, 31, 0, 0, nodeId, 0, 0, 0] ++
    [49, 50, 55, 46, 48, 46, 48, 46, 49, 0, 0, 0, 0, 0, 0, 0]

/-- An entry of term 1 with a change of node 2. -/
def changeEntry (id : UInt32) (type : LogType) : Entry :=
  ⟨1, id, type, changeData 2⟩

/-- Node 2 is added, promoted and removed.  Where a removal returns, an entry of
another kind can go again. -/
theorem configuration_follows_log_node_two :
    ConfigFollows localEnv raftLogentryPopCb
      [.append (changeEntry 8 .addNonvotingNode), .append (changeEntry 9 .addNode),
        .append (changeEntry 10 .removeNode)] ∧
    ConfigFollows localEnv Except.ok
      [.append (changeEntry 8 .addNode), .append (bareEntry 9), .delete 2 (by decide)] :=
  ⟨(configuration_follows_log localEnv _).1 (by decide +kernel),
    (configuration_follows_log localEnv _).2.2 Except.ok (fun disk => ⟨disk, rfl⟩)
      (by decide +kernel)⟩

/-- Node 2 is added and its entry removed.  The process ends there, and with a
removal that returns the server still has node 2. -/
theorem truncated_change_stays :
    ¬ ConfigFollows localEnv raftLogentryPopCb
      [.append (changeEntry 8 .addNode), .delete 1 (by decide)] ∧
    ¬ ConfigFollows localEnv Except.ok
      [.append (changeEntry 8 .addNode), .delete 1 (by decide)] := by
  constructor
  · rintro ⟨s, _, hrun, _⟩
    have hends : (Runs.run (LogOp.next localEnv raftLogentryPopCb) (freshSite localEnv)
        [.append (changeEntry 8 .addNode), .delete 1 (by decide)]).isNone := by
      decide +kernel
    rw [hrun] at hends
    cases hends
  · rintro ⟨s, me, hrun, hreplay, hsame⟩
    have hview : (Runs.run (LogOp.next localEnv Except.ok) (freshSite localEnv)
        [.append (changeEntry 8 .addNode), .delete 1 (by decide)]).map
        (fun s => (s.me.profile, s.me.log)) = some ([(1, true), (2, true)], []) := by
      decide +kernel
    rw [hrun, Option.map_some, Option.some.injEq, Prod.mk.injEq] at hview
    have hfresh : replay localEnv [] = .ok (freshServer localEnv) := rfl
    rw [hview.2, hfresh, Except.ok.injEq] at hreplay
    rw [hview.1, ← hreplay] at hsame
    exact absurd hsame (by decide +kernel)

end IdAllocator
