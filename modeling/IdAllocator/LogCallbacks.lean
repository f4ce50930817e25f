/-
The callbacks of `main.c` that follow the log: `raft_logentry_offer_cb`, which
takes a configuration change into the node list before it stores the entry, and
`raft_logentry_pop_cb`.

The operations on the log are appends and truncations.  A callback can end the
process, or damage it, and then there is no state to go on from.
-/
import IdAllocator.PersistedLog
import IdAllocator.Lib.Runs

namespace IdAllocator

open RaftServer Fallible Bytes

/-- The codes of LMDB for which the process ends. -/
inductive MdbError where
  | eacces
  | notFound
deriving Repr, DecidableEq

/-- What becomes of a process that a callback does not leave in order. -/
inductive Breakdown where
  /-- exit through `mdb_fatal` -/
  | mdbFatal (e : MdbError)
  /-- exit through `uv_fatal`, of `connection_set_peer` -/
  | uvFatal
  /-- an access outside of a buffer -/
  | overrun
  /-- `num_nodes` below zero -/
  | negativeCount
  /-- `assert(0)` of `offer_cfg_change` -/
  | unknownChange
deriving Repr, DecidableEq

/-! ### Removing from the entries database -/

/-- The modes of a transaction. -/
inductive TxnMode where
  | rdonly
  | readWrite
deriving Repr, DecidableEq

/-- `mdb_del`. -/
def mdbDel (mode : TxnMode) (db : OrderedStore (List UInt8) (List UInt8))
    (key : List UInt8) : Except MdbError (OrderedStore (List UInt8) (List UInt8)) :=
  match mode with
  | .rdonly => .error .eacces
  | .readWrite =>
      if db.records.any fun r => r.1 = key then .ok (db.erase key) else .error .notFound

/-- `mdb_pop`.  The cursor is at `MDB_LAST`, the greatest key by its bytes.  On an
empty database the transaction is left open. -/
def mdbPop (db : OrderedStore (List UInt8) (List UInt8)) :
    Except Breakdown (OrderedStore (List UInt8) (List UInt8)) :=
  match db.records.getLast? with
  | none => .ok db
  | some (key, _) => (mdbDel .rdonly db key).mapError .mdbFatal

/-- `raft_logentry_pop_cb`. -/
def raftLogentryPopCb (disk : Disk) : Except Breakdown Disk :=
  (mdbPop disk.entries).map fun entries => { disk with entries := entries }

/-- The transaction is read-only, so a record is never removed. -/
theorem raftLogentryPopCb_eq_error {disk : Disk} (h : disk.entries.records ≠ []) :
    raftLogentryPopCb disk = .error (.mdbFatal .eacces) := by
  cases hlast : disk.entries.records.getLast? with
  | none => exact absurd (List.getLast?_eq_none_iff.mp hlast) h
  | some r =>
      rw [raftLogentryPopCb, mdbPop, hlast]
      rfl

/-! ### Configuration changes -/

/-- The fields of `entry_cfg_change_t` that the node list depends on. -/
structure EntryCfgChange where
  nodeId : Int
  host : List UInt8
deriving Repr, DecidableEq

/-- The data of an entry as an `entry_cfg_change_t`: three `int`, and the text of
an address with room for 15 characters, in 28 bytes. -/
def entryCfgChange (data : List UInt8) : Option EntryCfgChange :=
  if data.length < 28 then none
  else some
    { nodeId := (readInt (data.drop 8)).toInt
      host := (data.drop 12).takeWhile fun c => c ≠ 0 }

/-- `raft_remove_node`.  For NULL every node is copied, to an array that has one
place less. -/
def raftRemoveNode (me : RaftServer) : Option RaftNode → Except Breakdown RaftServer
  | some node => .ok { me with nodes := me.nodes.eraseP fun other => other.id = node.id }
  | none => .error (if me.nodes.isEmpty then .negativeCount else .overrun)

/-- What the callbacks find around them: the format of the metadata, whether one
of the two puts of an entry is answered `MDB_MAP_FULL`, the texts that
`uv_ip4_addr` takes for an address, and the id of the server itself. -/
structure Env where
  tpl : Codec Metadata (List UInt8)
  mapFull : Disk → Entry → Bool
  uvIp4Addr : List UInt8 → Bool
  nodeId : Int

/-- `offer_cfg_change`.  A connection that is found has an address, so a host
that is none is always looked up in vain, and parsed. -/
def offerCfgChange (env : Env) (me : RaftServer) (data : List UInt8)
    (changeType : LogType) : Except Breakdown RaftServer := do
  let change ← deref (entryCfgChange data) .overrun
  if changeType = .removeNode then
    raftRemoveNode me (me.getNode change.nodeId)
  else do
    assert (env.uvIp4Addr change.host) .uvFatal
    let isSelf : Bool := change.nodeId = env.nodeId
    match changeType with
    | .addNonvotingNode => return raftAddNonVotingNode me change.nodeId isSelf
    | .addNode => return raftAddNode me change.nodeId isSelf
    | _ => .error .unknownChange

/-- What an entry that is offered does to the server. -/
def offered (env : Env) (me : RaftServer) (ety : Entry) : Except Breakdown RaftServer :=
  if raftEntryIsCfgChange ety then offerCfgChange env me ety.data ety.type else .ok me

/-- What it does to the database.  With a full map the transaction is aborted, and
nobody looks at the return value. -/
def stored (env : Env) (disk : Disk) (ety : Entry) (etyIdx : Int) : Disk :=
  if env.mapFull disk ety then disk else raftLogentryOfferCb env.tpl disk ety etyIdx

/-! ### Operations on the log -/

/-- A server with its databases. -/
structure Site where
  me : RaftServer
  disk : Disk

/-- The two ways in which a log changes. -/
inductive LogOp where
  /-- `raft_append_entry` -/
  | append (ety : Entry)
  /-- `log_delete`; indices begin at 1 -/
  | delete (idx : Int) (hidx : 1 ≤ idx)
deriving Repr

namespace LogOp

/-- The operation on the server. -/
def run (me : RaftServer) : LogOp → RaftServer
  | .append ety => (raftAppendEntry me ety).1
  | .delete idx _ => raftLogDelete me idx

/-- The entries of the log that the operation removes. -/
def removed (log : List Entry) : LogOp → List Entry
  | .append _ => []
  | .delete idx _ => log.drop (idx - 1).toNat

end LogOp

section

variable (env : Env) (logPop : Disk → Except Breakdown Disk)

/-- The callbacks `log_offer` and `log_pop`. -/
def Site.callback (s : Site) : Callback → Except Breakdown Site
  | .logOffer ety etyIdx =>
      (offered env s.me ety).map fun me => ⟨me, stored env s.disk ety etyIdx⟩
  | .logPop _ _ => (logPop s.disk).map fun disk => ⟨s.me, disk⟩
  | _ => .ok s

/-- An operation on the log, with its callbacks.  They do not look at the log, so
it makes no difference that it has changed already. -/
def LogOp.step (s : Site) (op : LogOp) : Except Breakdown Site :=
  (callsSince s.me (op.run s.me)).foldlM (Site.callback env logPop) ⟨op.run s.me, s.disk⟩

/-- The operation, where the process survives it. -/
def LogOp.next (s : Site) (op : LogOp) : Option Site :=
  (op.step env logPop s).toOption

/-- `offer_cfg_change` can be given the entry: its data is a whole change, which
removes a node that is known or adds one with an address. -/
def takesChange (me : RaftServer) (ety : Entry) : Bool :=
  (entryCfgChange ety.data).any fun change =>
    if ety.type = .removeNode then (me.getNode change.nodeId).isSome
    else env.uvIp4Addr change.host

/-- The operation appends no configuration change that cannot be offered. -/
def LogOp.Offers (s : Site) : LogOp → Prop
  | .append ety => ety.id ≠ 0 → raftEntryIsCfgChange ety → takesChange env s.me ety
  | .delete _ _ => True

instance LogOp.decidableOffers (s : Site) : (op : LogOp) → Decidable (op.Offers env s)
  | .append ety => inferInstanceAs (Decidable (ety.id ≠ 0 → raftEntryIsCfgChange ety →
      takesChange env s.me ety))
  | .delete _ _ => .isTrue trivial

/-- The map has room for an entry that is appended. -/
def LogOp.FindsRoom (s : Site) : LogOp → Prop
  | .append ety => ety.id ≠ 0 → env.mapFull s.disk ety = false
  | .delete _ _ => True

instance LogOp.decidableFindsRoom (s : Site) : (op : LogOp) → Decidable (op.FindsRoom env s)
  | .append ety => inferInstanceAs (Decidable (ety.id ≠ 0 → env.mapFull s.disk ety = false))
  | .delete _ _ => .isTrue trivial

/-! ### What an operation does -/

theorem raftAddNode_log (me : RaftServer) (id : Int) (isSelf : Bool) :
    (raftAddNode me id isSelf).log = me.log := by
  unfold raftAddNode
  split
  · rfl
  · rfl

variable {env logPop}

/-- What a change that is offered does. -/
theorem offerCfgChange_ok {me me' : RaftServer} {data : List UInt8} {changeType : LogType}
    (h : offerCfgChange env me data changeType = .ok me') :
    ∃ change, entryCfgChange data = some change ∧
      ((changeType = .removeNode ∧ (me.getNode change.nodeId).isSome ∧
          me' = { me with nodes := me.nodes.eraseP fun other => other.id = change.nodeId }) ∨
        (changeType = .addNonvotingNode ∧ env.uvIp4Addr change.host ∧
          me' = raftAddNonVotingNode me change.nodeId (change.nodeId = env.nodeId)) ∨
        (changeType = .addNode ∧ env.uvIp4Addr change.host ∧
          me' = raftAddNode me change.nodeId (change.nodeId = env.nodeId))) := by
  simp only [offerCfgChange, bind_eq_ok, deref_eq_ok] at h
  obtain ⟨change, hchange, h⟩ := h
  refine ⟨change, hchange, ?_⟩
  split at h
  · rename_i hremove
    cases hget : me.getNode change.nodeId with
    | none =>
        rw [hget] at h
        cases h
    | some node =>
        have hid : node.id = change.nodeId := by
          simpa using List.find?_some hget
        rw [hget, raftRemoveNode, hid, Except.ok.injEq] at h
        exact Or.inl ⟨hremove, rfl, h.symm⟩
  · simp only [bind_eq_ok, assert_eq_ok] at h
    obtain ⟨_, haddr, h⟩ := h
    split at h
    · exact Or.inr (Or.inl ⟨rfl, haddr, (pure_eq_ok.mp h).symm⟩)
    · exact Or.inr (Or.inr ⟨rfl, haddr, (pure_eq_ok.mp h).symm⟩)
    · cases h

theorem offered_frame {me me' : RaftServer} {ety : Entry}
    (h : offered env me ety = .ok me') : me'.log = me.log := by
  unfold offered at h
  split at h
  · obtain ⟨change, _, ⟨_, _, rfl⟩ | ⟨_, _, rfl⟩ | ⟨_, _, rfl⟩⟩ := offerCfgChange_ok h
    · rfl
    · rw [raftAddNonVotingNode, setNode, raftAddNode_log]
    · rw [raftAddNode_log]
  · cases h
    rfl

/-- An entry without an id is not offered. -/
theorem LogOp.step_append_refused (s : Site) {ety : Entry} (hid : ety.id = 0) :
    ∃ me, LogOp.step env logPop s (.append ety) = .ok ⟨me, s.disk⟩ ∧
      me.log = s.me.log ∧ me.nodes = s.me.nodes := by
  obtain ⟨cfgIdx, ⟨_, heq⟩ | ⟨hne, _⟩⟩ := raftAppendEntry_cases s.me ety
  · have hcalls : (raftAppendEntry s.me ety).1.calls = s.me.calls ++ [] := by
      rw [heq, List.append_nil]
    refine ⟨(raftAppendEntry s.me ety).1, ?_, ?_, ?_⟩
    · rw [LogOp.step, LogOp.run, callsSince_append hcalls]
      rfl
    · rw [heq]
    · rw [heq]
  · exact absurd hid hne

theorem LogOp.step_append (s : Site) {ety : Entry} (hid : ety.id ≠ 0) :
    ∃ me, LogOp.step env logPop s (.append ety) = (offered env me ety).map
        (fun me => ⟨me, stored env s.disk ety s.me.log.length⟩) ∧
      me.log = s.me.log ++ [ety] ∧ me.nodes = s.me.nodes := by
  obtain ⟨cfgIdx, ⟨hzero, _⟩ | ⟨_, heq⟩⟩ := raftAppendEntry_cases s.me ety
  · exact absurd hzero hid
  · have hcalls : (raftAppendEntry s.me ety).1.calls =
        s.me.calls ++ [.logOffer ety s.me.currentIdx] := by
      rw [heq]
    refine ⟨(raftAppendEntry s.me ety).1, ?_, ?_, ?_⟩
    · rw [LogOp.step, LogOp.run, callsSince_append hcalls, List.foldlM_cons]
      exact bind_pure _
    · rw [heq]
    · rw [heq]

theorem foldlM_callback_pops {calls : List Callback}
    (hcalls : ∀ call ∈ calls, ∃ ety idx, call = .logPop ety idx) (me : RaftServer) (disk : Disk) :
    calls.foldlM (Site.callback env logPop) ⟨me, disk⟩ =
      (calls.foldlM (fun disk _ => logPop disk) disk).map fun disk => ⟨me, disk⟩ := by
  induction calls generalizing disk with
  | nil => rfl
  | cons call rest ih =>
      obtain ⟨ety, idx, rfl⟩ := hcalls call List.mem_cons_self
      have hrest := fun later hlater => hcalls later (List.mem_cons_of_mem _ hlater)
      rw [List.foldlM_cons, List.foldlM_cons, Site.callback]
      cases hpop : logPop disk with
      | error e => rfl
      | ok disk' => exact ih hrest disk'

theorem LogOp.step_delete (s : Site) {idx : Int} (hidx : 1 ≤ idx) :
    LogOp.step env logPop s (.delete idx hidx) =
      ((logDeletePops s.me.log idx).foldlM (fun disk _ => logPop disk) s.disk).map
        fun disk => ⟨raftLogDelete s.me idx, disk⟩ := by
  have hcalls : (raftLogDelete s.me idx).calls = s.me.calls ++ logDeletePops s.me.log idx := rfl
  rw [LogOp.step, LogOp.run, callsSince_append hcalls]
  apply foldlM_callback_pops
  intro call hcall
  simp only [logDeletePops, List.mem_map] at hcall
  obtain ⟨pair, _, rfl⟩ := hcall
  exact ⟨pair.1, pair.2, rfl⟩

theorem logDeletePops_eq_nil {log : List Entry} {idx : Int} (hidx : 1 ≤ idx) :
    logDeletePops log idx = [] ↔ (LogOp.delete idx hidx).removed log = [] := by
  simp [logDeletePops, LogOp.removed]

/-- A truncation behind the end of the log leaves everything as it is. -/
theorem LogOp.step_delete_nothing {s : Site} {idx : Int} {hidx : 1 ≤ idx}
    (h : (LogOp.delete idx hidx).removed s.me.log = []) :
    LogOp.step env logPop s (.delete idx hidx) = .ok s := by
  have hlog : logDelete s.me.log idx = s.me.log := by
    rw [LogOp.removed, List.drop_eq_nil_iff] at h
    exact List.take_of_length_le h
  rw [LogOp.step_delete, raftLogDelete, hlog, (logDeletePops_eq_nil hidx).mpr h, List.append_nil]
  rfl

/-- A truncation that removes an entry makes the callback first. -/
theorem LogOp.step_delete_error {s : Site} {idx : Int} {hidx : 1 ≤ idx} {e : Breakdown}
    (h : (LogOp.delete idx hidx).removed s.me.log ≠ []) (hpop : logPop s.disk = .error e) :
    LogOp.step env logPop s (.delete idx hidx) = .error e := by
  rw [LogOp.step_delete]
  cases hpops : logDeletePops s.me.log idx with
  | nil => exact absurd ((logDeletePops_eq_nil hidx).mp hpops) h
  | cons call rest =>
      rw [List.foldlM_cons, hpop]
      rfl

/-- All that an operation can do. -/
theorem LogOp.step_ok {s s' : Site} {op : LogOp} (h : op.step env logPop s = .ok s') :
    (∃ ety, op = .append ety ∧ ety.id = 0 ∧ s'.me.log = s.me.log ∧
        s'.me.nodes = s.me.nodes ∧ s'.disk = s.disk) ∨
      (∃ ety me, op = .append ety ∧ ety.id ≠ 0 ∧ me.nodes = s.me.nodes ∧
        offered env me ety = .ok s'.me ∧ s'.me.log = s.me.log ++ [ety] ∧
        s'.disk = stored env s.disk ety s.me.log.length) ∨
      ∃ idx hidx, op = .delete idx hidx ∧ s'.me = raftLogDelete s.me idx ∧
        (op.removed s.me.log = [] → s' = s) := by
  cases op with
  | append ety =>
      by_cases hid : ety.id = 0
      · obtain ⟨me, heq, hlog, hnodes⟩ := LogOp.step_append_refused s hid
        rw [heq, Except.ok.injEq] at h
        subst h
        exact Or.inl ⟨ety, rfl, hid, hlog, hnodes, rfl⟩
      · obtain ⟨me, heq, hlog, hnodes⟩ := LogOp.step_append s hid
        rw [heq] at h
        obtain ⟨me', hoffered, rfl⟩ := map_eq_ok.mp h
        have hlog' := (offered_frame hoffered).trans hlog
        exact Or.inr (Or.inl ⟨ety, me, rfl, hid, hnodes, hoffered, hlog', rfl⟩)
  | delete idx hidx =>
      have hnothing : (LogOp.delete idx hidx).removed s.me.log = [] → s' = s := by
        intro hremoved
        rw [LogOp.step_delete_nothing hremoved, Except.ok.injEq] at h
        exact h.symm
      rw [LogOp.step_delete] at h
      obtain ⟨disk, _, rfl⟩ := map_eq_ok.mp h
      exact Or.inr (Or.inr ⟨idx, hidx, rfl, rfl, hnothing⟩)

/-! ### When an operation goes through -/

theorem offerCfgChange_takes {me me' : RaftServer} {ety : Entry}
    (h : offerCfgChange env me ety.data ety.type = .ok me') : takesChange env me ety = true := by
  obtain ⟨change, hchange, ⟨htype, hfits, _⟩ | ⟨htype, hfits, _⟩ | ⟨htype, hfits, _⟩⟩ :=
    offerCfgChange_ok h
  · simp [takesChange, hchange, htype, hfits]
  · simp [takesChange, hchange, htype, hfits]
  · simp [takesChange, hchange, htype, hfits]

theorem exists_offerCfgChange {me : RaftServer} {ety : Entry}
    (hcfg : raftEntryIsCfgChange ety = true) (htakes : takesChange env me ety = true) :
    ∃ me', offerCfgChange env me ety.data ety.type = .ok me' := by
  unfold takesChange at htakes
  cases hchange : entryCfgChange ety.data with
  | none =>
      rw [hchange] at htakes
      cases htakes
  | some change =>
      rw [hchange, Option.any_some] at htakes
      rw [offerCfgChange, hchange]
      cases htype : ety.type with
      | normal => simp [raftEntryIsCfgChange, htype] at hcfg
      | num => simp [raftEntryIsCfgChange, htype] at hcfg
      | removeNode =>
          rw [htype, if_pos rfl] at htakes
          obtain ⟨node, hnode⟩ := Option.isSome_iff_exists.mp htakes
          exact ⟨{ me with nodes := me.nodes.eraseP fun other => other.id = node.id },
            by simp [deref, Bind.bind, Except.bind, hnode, raftRemoveNode]⟩
      | addNode =>
          rw [htype, if_neg (by decide)] at htakes
          exact ⟨raftAddNode me change.nodeId (change.nodeId = env.nodeId),
            by simp [deref, Bind.bind, Except.bind, assert, htakes, pure, Except.pure]⟩
      | addNonvotingNode =>
          rw [htype, if_neg (by decide)] at htakes
          exact ⟨raftAddNonVotingNode me change.nodeId (change.nodeId = env.nodeId),
            by simp [deref, Bind.bind, Except.bind, assert, htakes, pure, Except.pure]⟩

theorem takesChange_congr {me me' : RaftServer} (h : me.nodes = me'.nodes) (ety : Entry) :
    takesChange env me ety = takesChange env me' ety := by
  simp only [takesChange, getNode, h]

theorem exists_foldlM_logPop (hpop : ∀ disk, ∃ disk', logPop disk = .ok disk')
    (calls : List Callback) (disk : Disk) :
    ∃ disk', calls.foldlM (fun disk _ => logPop disk) disk = .ok disk' := by
  induction calls generalizing disk with
  | nil => exact ⟨disk, rfl⟩
  | cons call rest ih =>
      obtain ⟨mid, hmid⟩ := hpop disk
      rw [List.foldlM_cons, hmid]
      exact ih mid

/-- An operation goes through if its entry can be offered and its removals
return. -/
theorem exists_step {s : Site} {op : LogOp} (hoffers : op.Offers env s)
    (hpop : op.removed s.me.log = [] ∨ ∀ disk, ∃ disk', logPop disk = .ok disk') :
    ∃ s', op.step env logPop s = .ok s' := by
  cases op with
  | append ety =>
      by_cases hid : ety.id = 0
      · obtain ⟨me, heq, _⟩ := LogOp.step_append_refused s hid
        exact ⟨_, heq⟩
      · obtain ⟨me, heq, _, hnodes⟩ := LogOp.step_append s hid
        rw [heq]
        by_cases hcfg : raftEntryIsCfgChange ety = true
        · have htakes := hoffers hid hcfg
          rw [takesChange_congr hnodes.symm] at htakes
          obtain ⟨me', hoffer⟩ := exists_offerCfgChange hcfg htakes
          exact ⟨_, map_eq_ok.mpr ⟨me', by rw [offered, if_pos hcfg, hoffer], rfl⟩⟩
        · exact ⟨_, map_eq_ok.mpr ⟨me, by rw [offered, if_neg hcfg], rfl⟩⟩
  | delete idx hidx =>
      rcases hpop with hremoved | hpop
      · exact ⟨s, LogOp.step_delete_nothing hremoved⟩
      · obtain ⟨disk, hdisk⟩ := exists_foldlM_logPop hpop (logDeletePops s.me.log idx) s.disk
        rw [LogOp.step_delete]
        exact ⟨_, map_eq_ok.mpr ⟨disk, hdisk, rfl⟩⟩

theorem offers_of_step {s s' : Site} {op : LogOp} (hstep : op.step env logPop s = .ok s') :
    op.Offers env s := by
  rcases LogOp.step_ok hstep with ⟨ety, rfl, hid, _⟩ | ⟨ety, me, rfl, _, hnodes, hoffered, _⟩ |
    ⟨idx, hidx, rfl, _⟩
  · intro hne
    exact absurd hid hne
  · intro _ hcfg
    rw [offered, if_pos hcfg] at hoffered
    rw [takesChange_congr hnodes.symm]
    exact offerCfgChange_takes hoffered
  · trivial

end

end IdAllocator
