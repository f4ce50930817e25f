/-
The tickets in the committed log of one leader.

A ticket is on its way from the check that finds it unused to the moment its
entry is applied: first a request has it, then the log.  Until it is applied,
the check of another request does not see it.
-/
import IdAllocator.LogFrame
import IdAllocator.TicketService

namespace IdAllocator

open RaftServer Fallible Slots

/-! ### Applied entries -/

/-- The tickets of the normal entries of a log. -/
def ticketsIn (log : List Entry) : List (List UInt8) :=
  (log.filter fun e => e.type = .normal).map Entry.data

theorem ticketsIn_append (log log' : List Entry) :
    ticketsIn (log ++ log') = ticketsIn log ++ ticketsIn log' := by
  rw [ticketsIn, List.filter_append, List.map_append]
  rfl

theorem mem_ticketsIn {log : List Entry} {data : List UInt8} :
    data ∈ ticketsIn log ↔ ∃ e ∈ log, e.type = .normal ∧ e.data = data := by
  simp [ticketsIn, and_assoc]

/-- The set holds what it held, and the data of all entries that are no configuration
change. -/
theorem mem_foldl_raftApplylogCb_iff {entries : List Entry} {tickets : List (List UInt8)}
    {data : List UInt8} :
    data ∈ entries.foldl raftApplylogCb tickets ↔
      data ∈ tickets ∨ ∃ e ∈ entries, raftEntryIsCfgChange e = false ∧ e.data = data := by
  induction entries generalizing tickets with
  | nil => simp
  | cons ety rest ih =>
      rw [List.foldl_cons, ih, raftApplylogCb]
      cases hcfg : raftEntryIsCfgChange ety with
      | true => simp [hcfg]
      | false =>
          have hhead : (∃ e ∈ ety :: rest, raftEntryIsCfgChange e = false ∧ e.data = data) ↔
              data = ety.data ∨ ∃ e ∈ rest, raftEntryIsCfgChange e = false ∧ e.data = data := by
            simp [hcfg, @eq_comm _ data ety.data]
          simp only [Bool.false_eq_true, if_false, List.mem_insert_iff]
          rw [hhead, or_assoc, or_left_comm]

theorem mem_foldl_raftApplylogCb {entries : List Entry} {tickets : List (List UInt8)}
    {data : List UInt8} (h : data ∈ tickets ∨ data ∈ ticketsIn entries) :
    data ∈ entries.foldl raftApplylogCb tickets := by
  rw [mem_foldl_raftApplylogCb_iff]
  rcases h with hold | hnew
  · exact Or.inl hold
  · obtain ⟨e, he, hnormal, hdata⟩ := mem_ticketsIn.mp hnew
    have hcfg : raftEntryIsCfgChange e = false := by
      simp [raftEntryIsCfgChange, hnormal]
    exact Or.inr ⟨e, he, hcfg, hdata⟩

/-- On one leader, only the entries of requests carry tickets. -/
def OneLeader : ServiceAction → Prop
  | .raft (.recvAppendentries _ _) => False
  | _ => True

theorem Call.run_ticketsIn {me me' : RaftServer} {call : Call}
    (hleader : OneLeader (.raft call)) (hmakes : Service.makes call = true)
    (h : call.run me = .ok me') : AddsCalls me me' ∧ ticketsIn me'.log = ticketsIn me.log := by
  have hkept : KeepsLog me me' → AddsCalls me me' ∧ ticketsIn me'.log = ticketsIn me.log :=
    fun hkeeps => ⟨hkeeps.calls, by rw [hkeeps.log]⟩
  cases call with
  | recvAppendentries node ae => exact hleader.elim
  | recvAppendentriesResponse node r =>
      obtain ⟨_, h⟩ := fst_map_eq_ok h
      exact hkept (keepsLog_raftRecvAppendentriesResponse h)
  | recvRequestvote node vr =>
      obtain ⟨_, h⟩ := fst_map_eq_ok h
      exact hkept (keepsLog_raftRecvRequestvote h)
  | recvRequestvoteResponse node r => exact hkept (keepsLog_raftRecvRequestvoteResponse h)
  | recvEntry e =>
      obtain ⟨_, h⟩ := fst_map_eq_ok h
      obtain ⟨hcalls, ⟨_, rfl⟩ | ⟨_, _, hlog⟩ | ⟨_, _, hlog⟩⟩ := raftRecvEntry_log h
      · exact ⟨hcalls, rfl⟩
      · exact ⟨hcalls, by rw [hlog]⟩
      · have hnormal : (stampEntry me e).type ≠ .normal := by
          intro heq
          have htype : e.type = .normal := heq
          simp [Service.makes, raftEntryIsCfgChange, htype] at hmakes
        refine ⟨hcalls, ?_⟩
        rw [hlog, ticketsIn_append]
        simp [ticketsIn, hnormal]
  | periodic msec rnd =>
      obtain ⟨_, h⟩ := fst_map_eq_ok h
      exact hkept (keepsLog_raftPeriodic h)
  | applyAll => exact hkept (steady_raftApplyAll h).keepsLog

/-! ### Tickets on their way -/

/-- The ticket that a request is about to check. -/
def Request.checking? : Request → Option (List UInt8)
  | .checking ticket => some (ticketBytes ticket)
  | _ => none

/-- The ticket of a request that has passed the check and has not appended its
entry. -/
def Request.pending? : Request → Option (List UInt8)
  | .drawing ticket => some (ticketBytes ticket)
  | .ready ticket _ => some (ticketBytes ticket)
  | _ => none

namespace Service

/-- The tickets of the requests and of the log are all different, and those
that have been applied are in the set. -/
structure Distinct (s : Service) : Prop where
  ledger : Ledger s.me
  issued : ∀ data ∈ ticketsIn s.me.applied, data ∈ s.tickets
  pending : (s.requests.filterMap Request.pending?).Nodup
  logged : (ticketsIn s.me.log).Nodup
  apart : ∀ data ∈ s.requests.filterMap Request.pending?, data ∉ ticketsIn s.me.log

/-- A ticket that passes the check is neither that of another request nor that
of an entry which has not been applied. -/
def FreshTicket (s : Service) : ServiceAction → Prop
  | .check i => ∀ data ∈ s.requests[i]?.bind Request.checking?,
      data ∉ s.tickets → data ∉ s.requests.filterMap Request.pending? ∧
        data ∉ ticketsIn (s.me.log.drop s.me.lastAppliedIdx.toNat)
  | _ => True

theorem start_distinct {nodeId : Int} {me : RaftServer} {tickets : List (List UInt8)}
    (hme : Unused me) : (start nodeId me tickets).Distinct where
  ledger := hme.ledger
  issued := by simp [start, hme.applied, ticketsIn]
  pending := List.nodup_nil
  logged := by simp [start, hme.log, ticketsIn]
  apart := by simp [start]

theorem issued_after {s : Service} {me : RaftServer} (hcalls : AddsCalls s.me me)
    (h : ∀ data ∈ ticketsIn s.me.applied, data ∈ s.tickets) :
    ∀ data ∈ ticketsIn (s.after me).me.applied, data ∈ (s.after me).tickets := by
  intro data hdata
  have happlied : (s.after me).me.applied =
      s.me.applied ++ (callsSince s.me me).filterMap Callback.applied? := hcalls.applied
  rw [happlied, ticketsIn_append] at hdata
  rcases List.mem_append.mp hdata with hold | hnew
  · exact mem_foldl_raftApplylogCb (Or.inl (h data hold))
  · exact mem_foldl_raftApplylogCb (Or.inr hnew)

/-- A ticket that is neither in the set nor in the rest of the log is not in
the log. -/
theorem Distinct.notMem_log {s : Service} (h : s.Distinct) {data : List UInt8}
    (hset : data ∉ s.tickets)
    (hrest : data ∉ ticketsIn (s.me.log.drop s.me.lastAppliedIdx.toNat)) :
    data ∉ ticketsIn s.me.log := by
  intro hmem
  rw [← List.take_append_drop s.me.lastAppliedIdx.toNat s.me.log, ticketsIn_append,
    ← h.ledger.applied_eq] at hmem
  rcases List.mem_append.mp hmem with happlied | hlater
  · exact hset (h.issued data happlied)
  · exact hrest hlater

/-- A request moves on, and the ticket that it now has on its way, if any, is
the one it had or a new one. -/
theorem Distinct.set {s : Service} (h : s.Distinct) {i : Nat} {old new : Request}
    (hi : s.requests[i]? = some old)
    (hnew : new.pending? = none ∨ new.pending? = old.pending? ∨
      ∃ data, new.pending? = some data ∧ data ∉ s.requests.filterMap Request.pending? ∧
        data ∉ ticketsIn s.me.log) : (s.set i new).Distinct where
  ledger := h.ledger
  issued := h.issued
  pending := by
    refine nodup_filterMap_set hi h.pending ?_
    rcases hnew with hnone | hsame | ⟨data, hdata, hfree, _⟩
    · exact Or.inl hnone
    · exact Or.inr (Or.inl hsame)
    · exact Or.inr (Or.inr ⟨data, hdata, hfree⟩)
  logged := h.logged
  apart := by
    intro data hdata
    rcases mem_filterMap_set hdata with hold | hpending
    · exact h.apart data hold
    rcases hnew with hnone | hsame | ⟨data', hdata', _, hfree⟩
    · rw [hnone] at hpending
      cases hpending
    · refine h.apart data (List.mem_filterMap.mpr ⟨old, List.mem_of_getElem? hi, ?_⟩)
      rw [← hsame]
      exact hpending
    · rw [hdata', Option.some.injEq] at hpending
      exact hpending ▸ hfree

/-- The ticket of a request goes over to the log. -/
theorem Distinct.append {s : Service} (h : s.Distinct) {i : Nat} {old new : Request}
    {data : List UInt8} {me : RaftServer} (hi : s.requests[i]? = some old)
    (hold : old.pending? = some data) (hnew : new.pending? = none)
    (hcalls : AddsCalls s.me me) (hledger : Ledger me)
    (hlog : ticketsIn me.log = ticketsIn s.me.log ++ [data]) :
    ((s.after me).set i new).Distinct where
  ledger := hledger
  issued := issued_after hcalls h.issued
  pending := nodup_filterMap_set hi h.pending (Or.inl hnew)
  logged := by
    have hpending : data ∈ s.requests.filterMap Request.pending? :=
      List.mem_filterMap.mpr ⟨old, List.mem_of_getElem? hi, hold⟩
    change (ticketsIn me.log).Nodup
    rw [hlog, List.nodup_append_comm, List.singleton_append]
    exact List.nodup_cons.mpr ⟨h.apart data hpending, h.logged⟩
  apart := by
    intro other hother
    change other ∉ ticketsIn me.log
    rw [hlog]
    intro hmem
    rcases List.mem_append.mp hmem with hlogged | hsame
    · rcases mem_filterMap_set hother with hbefore | hwrong
      · exact h.apart other hbefore hlogged
      · rw [hnew] at hwrong
        cases hwrong
    · rw [List.mem_singleton] at hsame
      exact notMem_filterMap_set hi h.pending hold hnew (hsame ▸ hother)

/-- A call of the Raft server that adds no ticket to the log. -/
theorem Distinct.after {s : Service} (h : s.Distinct) {me : RaftServer}
    (hcalls : AddsCalls s.me me) (hledger : Ledger me)
    (hlog : ticketsIn me.log = ticketsIn s.me.log) : (s.after me).Distinct where
  ledger := hledger
  issued := issued_after hcalls h.issued
  pending := h.pending
  logged := by
    change (ticketsIn me.log).Nodup
    rw [hlog]
    exact h.logged
  apart := by
    intro data hdata
    change data ∉ ticketsIn me.log
    rw [hlog]
    exact h.apart data hdata

theorem Distinct.step {s s' : Service} {action : ServiceAction} (h : s.Distinct)
    (hleader : OneLeader action) (hfresh : s.FreshTicket action)
    (hstep : s.step action = some s') : s'.Distinct := by
  cases step_event hstep with
  | arrive method =>
      have hnone : (s.arrival method).pending? = none := by
        rcases s.arrival_cases method with heq | heq | ⟨refusal, heq⟩ <;> rw [heq] <;> rfl
      have hsame : (s.requests ++ [s.arrival method]).filterMap Request.pending? =
          s.requests.filterMap Request.pending? := by
        simp [hnone]
      exact ⟨h.ledger, h.issued, hsame ▸ h.pending, h.logged, hsame ▸ h.apart⟩
  | drawTicket hi => exact h.set hi (Or.inl rfl)
  | drawId hi => exact h.set hi (Or.inr (Or.inl rfl))
  | taken hi hcheck => exact h.set hi (Or.inl rfl)
  | free hi hcheck =>
      have hset := of_decide_eq_false hcheck
      obtain ⟨hrequests, hrest⟩ := hfresh _ (Option.bind_eq_some_iff.mpr ⟨_, hi, rfl⟩) hset
      exact h.set hi (Or.inr (Or.inr ⟨_, rfl, hrequests, h.notMem_log hset hrest⟩))
  | enqueue hi hcall =>
      have hledger := (advances_raftRecvEntry h.ledger hcall).ledger
      obtain ⟨hcalls, ⟨hnone, _⟩ | ⟨_, _, hlog⟩ | ⟨_, _, hlog⟩⟩ := raftRecvEntry_log hcall
      · cases hnone
      · exact (h.after hcalls hledger (by rw [hlog])).set hi (Or.inl rfl)
      · refine h.append hi rfl rfl hcalls hledger ?_
        rw [hlog, ticketsIn_append]
        rfl
  | bad hi hcall =>
      obtain ⟨hcalls, ⟨_, rfl⟩ | ⟨hsome, _⟩ | ⟨hsome, _⟩⟩ := raftRecvEntry_log hcall
      · have hset := (h.after hcalls h.ledger rfl).set hi (Or.inl (rfl :
          (Request.refused .bad).pending? = none))
        exact ⟨hset.ledger, hset.issued, hset.pending, hset.logged, hset.apart⟩
      · cases hsome
      · cases hsome
  | wake hi hcall =>
      refine h.set hi (Or.inl ?_)
      rcases afterWait_cases _ _ _ _ _ with heq | heq | heq <;> rw [heq] <;> rfl
  | raft hmakes hcall =>
      obtain ⟨hcalls, hlog⟩ := Call.run_ticketsIn hleader hmakes hcall
      exact h.after hcalls (Call.run_advances h.ledger hcall).ledger hlog

instance decidableOneLeader : (action : ServiceAction) → Decidable (OneLeader action)
  | .raft (.recvAppendentries _ _) => .isFalse id
  | .raft (.recvAppendentriesResponse _ _) | .raft (.recvRequestvote _ _)
  | .raft (.recvRequestvoteResponse _ _) | .raft (.recvEntry _) | .raft (.periodic _ _)
  | .raft .applyAll | .arrive _ | .draw _ _ | .check _ | .enqueue _ | .wake _ => .isTrue trivial

instance decidableFreshTicket (s : Service) :
    (action : ServiceAction) → Decidable (s.FreshTicket action)
  | .check i => inferInstanceAs (Decidable (∀ data ∈ s.requests[i]?.bind Request.checking?,
      data ∉ s.tickets → data ∉ s.requests.filterMap Request.pending? ∧
        data ∉ ticketsIn (s.me.log.drop s.me.lastAppliedIdx.toNat)))
  | .arrive _ | .draw _ _ | .enqueue _ | .wake _ | .raft _ => .isTrue trivial

/-- The second request draws the ticket of the first one after it has been
applied, and draws again. -/
def drawnAgain : List ServiceAction :=
  .arrive "POST" :: .arrive "POST" ::
    (serve 0 5 7 ++ [.raft .applyAll, .draw 1 5, .check 1] ++ serve 1 6 8)

/-- Two requests check the same ticket before either entry is applied. -/
def checkedTwice : List ServiceAction :=
  [.arrive "POST", .arrive "POST", .draw 0 5, .check 0, .draw 1 5, .check 1,
    .draw 0 7, .draw 1 8, .enqueue 0, .enqueue 1]

end Service

end IdAllocator
