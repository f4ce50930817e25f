/-
The service around a Raft server: client requests, which `__http_get_id`
handles side by side, and the set of tickets that have been issued.

A request draws a ticket and checks it without the lock, appends an entry
under the lock, and waits for the entry to be committed.  A step of a request
is what it does between two points where others may run.
-/
import Mathlib
import IdAllocator.CommittedPrefix
import IdAllocator.Lib.Codec
import IdAllocator.Lib.Runs
import IdAllocator.Lib.Slots

namespace IdAllocator

open RaftServer Fallible Bytes Slots

/-! ### The tickets -/

/-- The key of a ticket, which is also the data of its entry. -/
def ticketBytes (ticket : UInt32) : List UInt8 :=
  intBytes ticket.toBitVec

/-- `check_if_ticket_exists`. -/
def checkIfTicketExists (tickets : List (List UInt8)) (ticket : UInt32) : Bool :=
  ticketBytes ticket ∈ tickets

/-- `raft_applylog_cb`; the map is not full. -/
def raftApplylogCb (tickets : List (List UInt8)) (ety : Entry) : List (List UInt8) :=
  if raftEntryIsCfgChange ety then tickets else tickets.insert ety.data

/-- The tickets after the callbacks of a call. -/
def issueTickets (tickets : List (List UInt8)) (calls : List Callback) : List (List UInt8) :=
  (calls.filterMap Callback.applied?).foldl raftApplylogCb tickets

/-! ### Requests -/

/-- The responses without an id. -/
inductive Refusal where
  | leaderUnavailable
  | movedPermanently
  | bad
  | tryAgain
deriving Repr, DecidableEq

/-- The status and the body of a refusal. -/
def Refusal.response : Refusal → Nat × String
  | .leaderUnavailable => (503, "Leader unavailable")
  | .movedPermanently => (301, "")
  | .bad => (500, "BAD")
  | .tryAgain => (400, "TRY AGAIN")

/-- A request, by the place in `__http_get_id` it has come to. -/
inductive Request where
  /-- before `rand()` of `__generate_ticket` -/
  | generating
  /-- before `check_if_ticket_exists` -/
  | checking (ticket : UInt32)
  /-- before `entry.id = rand()` -/
  | drawing (ticket : UInt32)
  /-- before `uv_mutex_lock` -/
  | ready (ticket id : UInt32)
  /-- in `uv_cond_wait` -/
  | waiting (ticket id : UInt32) (r : MsgEntryResponse) (tries : Nat)
  /-- answered with the id -/
  | issued (id : UInt32)
  /-- answered with an error or a redirection -/
  | refused (refusal : Refusal)
  /-- not a POST -/
  | declined
deriving Repr, DecidableEq

/-- The text that `sprintf` makes of an id with `%d`. -/
def idText (id : UInt32) : String :=
  id.toBitVec.toInt.repr

/-- The status and the body of the response. -/
def Request.response? : Request → Option (Nat × String)
  | .issued id => some (200, idText id)
  | .refused refusal => some refusal.response
  | _ => none

/-- The entry that a request hands to `raft_recv_entry`. -/
def ticketEntry (ticket id : UInt32) : Entry where
  term := 0
  id := id
  type := .normal
  data := ticketBytes ticket

/-! ### The service -/

/-- The part of `server_t` that the requests share, and the requests. -/
structure Service where
  nodeId : Int
  me : RaftServer
  tickets : List (List UInt8)
  locked : Bool
  requests : List Request
deriving Repr, DecidableEq

/-- What may happen next: a request arrives, a request takes its next step, or
the Raft server is called by a peer's message, the timer, or a change of the
configuration. -/
inductive ServiceAction where
  | arrive (method : String)
  | draw (i : Nat) (value : UInt32)
  | check (i : Nat)
  | enqueue (i : Nat)
  | wake (i : Nat)
  | raft (call : Call)
deriving Repr, DecidableEq

namespace Service

/-- The service before the first request. -/
def start (nodeId : Int) (me : RaftServer) (tickets : List (List UInt8)) : Service where
  nodeId := nodeId
  me := me
  tickets := tickets
  locked := false
  requests := []

/-- The Raft server has been called. -/
def after (s : Service) (me : RaftServer) : Service :=
  { s with me := me, tickets := issueTickets s.tickets (callsSince s.me me) }

def set (s : Service) (i : Nat) (request : Request) : Service :=
  { s with requests := s.requests.set i request }

/-- `__http_get_id` up to the first `rand()`.  The leader is read without the
lock. -/
def arrival (s : Service) (method : String) : Request :=
  if method ≠ "POST" then .declined
  else
    match s.me.currentLeader with
    | none => .refused .leaderUnavailable
    | some leader => if leader ≠ s.nodeId then .refused .movedPermanently else .generating

theorem arrival_cases (s : Service) (method : String) :
    s.arrival method = .declined ∨ s.arrival method = .generating ∨
      ∃ refusal, s.arrival method = .refused refusal := by
  unfold arrival
  split
  · exact Or.inl rfl
  · split
    · exact Or.inr (Or.inr ⟨_, rfl⟩)
    · split
      · exact Or.inr (Or.inr ⟨_, rfl⟩)
      · exact Or.inr (Or.inl rfl)

/-- The end of a round of the waiting loop, for a result of
`raft_msg_entry_response_committed`. -/
def afterWait (ticket id : UInt32) (r : MsgEntryResponse) (tries : Nat) (e : Int) : Request :=
  if e = 1 then .issued id
  else if e = -1 then .refused .tryAgain
  else if 3 < tries then .refused .tryAgain
  else .waiting ticket id r tries

theorem afterWait_cases (ticket id : UInt32) (r : MsgEntryResponse) (tries : Nat) (e : Int) :
    afterWait ticket id r tries e = .issued id ∨
      afterWait ticket id r tries e = .refused .tryAgain ∨
      afterWait ticket id r tries e = .waiting ticket id r tries := by
  unfold afterWait
  split
  · exact Or.inl rfl
  · split
    · exact Or.inr (Or.inl rfl)
    · split
      · exact Or.inr (Or.inl rfl)
      · exact Or.inr (Or.inr rfl)

/-- Whether the program makes the call: the entries that do not come from
requests are changes of the configuration. -/
def makes : Call → Bool
  | .recvEntry e => raftEntryIsCfgChange e
  | _ => true

/-- One step; none when it is not enabled or the process does not survive it.
A request whose entry is not accepted returns with the lock held. -/
def step (s : Service) : ServiceAction → Option Service
  | .arrive method => some { s with requests := s.requests ++ [s.arrival method] }
  | .draw i value =>
      match s.requests[i]? with
      | some .generating => some (s.set i (.checking value))
      | some (.drawing ticket) => some (s.set i (.ready ticket value))
      | _ => none
  | .check i =>
      match s.requests[i]? with
      | some (.checking ticket) =>
          some (s.set i (if checkIfTicketExists s.tickets ticket then .generating
            else .drawing ticket))
      | _ => none
  | .enqueue i =>
      match s.requests[i]? with
      | some (.ready ticket id) =>
          if s.locked then none
          else
            match raftRecvEntry s.me (ticketEntry ticket id) with
            | .ok (me, some r) => some ((s.after me).set i (.waiting ticket id r 0))
            | .ok (me, none) =>
                some { (s.after me).set i (.refused .bad) with locked := true }
            | .error _ => none
      | _ => none
  | .wake i =>
      match s.requests[i]? with
      | some (.waiting ticket id r tries) =>
          if s.locked then none
          else
            match raftMsgEntryResponseCommitted s.me r with
            | .ok e => some (s.set i (afterWait ticket id r (tries + 1) e))
            | .error _ => none
      | _ => none
  | .raft call =>
      if s.locked ∨ ¬ makes call then none
      else
        match call.run s.me with
        | .ok me => some (s.after me)
        | .error _ => none

def run (s : Service) (actions : List ServiceAction) : Option Service :=
  Runs.run step s actions

/-- What a step has done. -/
inductive Event (s : Service) : ServiceAction → Service → Prop
  | arrive (method : String) :
      Event s (.arrive method) { s with requests := s.requests ++ [s.arrival method] }
  | drawTicket {i value} (hi : s.requests[i]? = some .generating) :
      Event s (.draw i value) (s.set i (.checking value))
  | drawId {i value ticket} (hi : s.requests[i]? = some (.drawing ticket)) :
      Event s (.draw i value) (s.set i (.ready ticket value))
  | taken {i ticket} (hi : s.requests[i]? = some (.checking ticket))
      (hcheck : checkIfTicketExists s.tickets ticket = true) :
      Event s (.check i) (s.set i .generating)
  | free {i ticket} (hi : s.requests[i]? = some (.checking ticket))
      (hcheck : checkIfTicketExists s.tickets ticket = false) :
      Event s (.check i) (s.set i (.drawing ticket))
  | enqueue {i ticket id me r} (hi : s.requests[i]? = some (.ready ticket id))
      (hcall : raftRecvEntry s.me (ticketEntry ticket id) = .ok (me, some r)) :
      Event s (.enqueue i) ((s.after me).set i (.waiting ticket id r 0))
  | bad {i ticket id me} (hi : s.requests[i]? = some (.ready ticket id))
      (hcall : raftRecvEntry s.me (ticketEntry ticket id) = .ok (me, none)) :
      Event s (.enqueue i) { (s.after me).set i (.refused .bad) with locked := true }
  | wake {i ticket id r tries e} (hi : s.requests[i]? = some (.waiting ticket id r tries))
      (hcall : raftMsgEntryResponseCommitted s.me r = .ok e) :
      Event s (.wake i) (s.set i (afterWait ticket id r (tries + 1) e))
  | raft {call me} (hmakes : makes call = true) (hcall : call.run s.me = .ok me) :
      Event s (.raft call) (s.after me)

theorem step_event {s s' : Service} {action : ServiceAction}
    (h : s.step action = some s') : Event s action s' := by
  cases action with
  | arrive method =>
      rw [step, Option.some.injEq] at h
      exact h ▸ .arrive method
  | draw i value =>
      simp only [step] at h
      split at h
      · rename_i hi
        exact Option.some.inj h ▸ .drawTicket hi
      · rename_i ticket hi
        exact Option.some.inj h ▸ .drawId hi
      · cases h
  | check i =>
      simp only [step] at h
      split at h
      · rename_i ticket hi
        cases hcheck : checkIfTicketExists s.tickets ticket with
        | true =>
            rw [hcheck, Option.some.injEq] at h
            exact h ▸ .taken hi hcheck
        | false =>
            rw [hcheck, Option.some.injEq] at h
            exact h ▸ .free hi hcheck
      · cases h
  | enqueue i =>
      simp only [step] at h
      split at h
      · rename_i ticket id hi
        split at h
        · cases h
        · split at h
          · rename_i me r hcall
            exact Option.some.inj h ▸ .enqueue hi hcall
          · rename_i me hcall
            exact Option.some.inj h ▸ .bad hi hcall
          · cases h
      · cases h
  | wake i =>
      simp only [step] at h
      split at h
      · rename_i ticket id r tries hi
        split at h
        · cases h
        · split at h
          · rename_i e hcall
            exact Option.some.inj h ▸ .wake hi hcall
          · cases h
      · cases h
  | raft call =>
      simp only [step] at h
      split at h
      · cases h
      · rename_i hguard
        split at h
        · rename_i me hcall
          have hmakes : makes call = true := by
            by_contra hnot
            exact hguard (Or.inr hnot)
          exact Option.some.inj h ▸ .raft hmakes hcall
        · cases h

/-- The bodies of the responses with status 200. -/
def bodies (s : Service) : List String :=
  (s.requests.filterMap Request.response?).filterMap fun response =>
    if response.1 = 200 then some response.2 else none

end Service

/-! ### The ids -/

/-- The request is about to draw the id of its entry. -/
def Request.drawsId : Request → Bool
  | .drawing _ => true
  | _ => false

/-- The id that a request has drawn, unless it has been refused. -/
def Request.id? : Request → Option UInt32
  | .ready _ id => some id
  | .waiting _ id _ _ => some id
  | .issued id => some id
  | _ => none

theorem idText_injective : Function.Injective idText := by
  intro id id' h
  exact UInt32.toBitVec_inj.mp (BitVec.toInt_inj.mp (Int.repr_injective h))

namespace Service

/-- The id drawn for an entry is not that of a request in flight, nor one that
has been issued. -/
def FreshId (s : Service) : ServiceAction → Prop
  | .draw i value => s.requests[i]?.any Request.drawsId = true →
      value ∉ s.requests.filterMap Request.id?
  | _ => True

theorem step_nodup_ids {s s' : Service} {action : ServiceAction}
    (h : (s.requests.filterMap Request.id?).Nodup) (hfresh : s.FreshId action)
    (hstep : s.step action = some s') : (s'.requests.filterMap Request.id?).Nodup := by
  cases step_event hstep with
  | arrive method =>
      have hnone : (s.arrival method).id? = none := by
        rcases s.arrival_cases method with heq | heq | ⟨refusal, heq⟩ <;> rw [heq] <;> rfl
      simpa [hnone] using h
  | drawTicket hi => exact nodup_filterMap_set hi h (Or.inl rfl)
  | drawId hi =>
      refine nodup_filterMap_set hi h (Or.inr (Or.inr ⟨_, rfl, hfresh ?_⟩))
      rw [hi]
      rfl
  | taken hi hcheck => exact nodup_filterMap_set hi h (Or.inl rfl)
  | free hi hcheck => exact nodup_filterMap_set hi h (Or.inl rfl)
  | enqueue hi hcall => exact nodup_filterMap_set hi h (Or.inr (Or.inl rfl))
  | bad hi hcall => exact nodup_filterMap_set hi h (Or.inl rfl)
  | wake hi hcall =>
      refine nodup_filterMap_set hi h ?_
      rcases afterWait_cases _ _ _ _ _ with heq | heq | heq
      · rw [heq]
        exact Or.inr (Or.inl rfl)
      · rw [heq]
        exact Or.inl rfl
      · rw [heq]
        exact Or.inr (Or.inl rfl)
  | raft hmakes hcall => exact h

theorem nodup_bodies {s : Service} (h : (s.requests.filterMap Request.id?).Nodup) :
    s.bodies.Nodup := by
  rw [bodies, List.filterMap_filterMap, List.Nodup, List.pairwise_filterMap]
  rw [List.Nodup, List.pairwise_filterMap] at h
  refine h.imp ?_
  intro request request' hids body hbody body' hbody'
  have hissued : ∀ (r : Request) (text : String), (r.response?.bind fun response =>
      if response.1 = 200 then some response.2 else none) = some text →
      ∃ id, r = .issued id ∧ idText id = text := by
    intro r text htext
    cases r with
    | issued id => exact ⟨id, rfl, by simpa [Request.response?] using htext⟩
    | refused refusal => cases refusal <;> simp [Request.response?, Refusal.response] at htext
    | _ => simp [Request.response?] at htext
  obtain ⟨id, rfl, rfl⟩ := hissued request body hbody
  obtain ⟨id', rfl, rfl⟩ := hissued request' body' hbody'
  exact idText_injective.ne (hids id rfl id' rfl)

/-- When every id that is drawn for an entry is fresh, no id is issued twice,
whatever the order of the steps of the requests and of the Raft server. -/
theorem issued_ids_unique {nodeId : Int} {me : RaftServer} {tickets : List (List UInt8)}
    {actions : List ServiceAction} {s : Service}
    (hmeets : Runs.Meets step FreshId (start nodeId me tickets) actions)
    (hrun : (start nodeId me tickets).run actions = some s) : s.bodies.Nodup := by
  apply nodup_bodies
  refine Runs.run_invariant (fun s => (s.requests.filterMap Request.id?).Nodup) ?_ ?_
    hmeets hrun
  · intro before after action hbefore hfresh hstep
    exact step_nodup_ids hbefore hfresh hstep
  · exact List.nodup_nil

instance decidableFreshId (s : Service) : (action : ServiceAction) → Decidable (s.FreshId action)
  | .draw i value => inferInstanceAs (Decidable
      (s.requests[i]?.any Request.drawsId = true → value ∉ s.requests.filterMap Request.id?))
  | .arrive _ | .check _ | .enqueue _ | .wake _ | .raft _ => .isTrue trivial

/-- A new single-node cluster. -/
def single : Service :=
  start 1 { soleLeader with currentLeader := some 1 } []

/-- One request after its arrival, with the values that it draws. -/
def serve (i : Nat) (ticket id : UInt32) : List ServiceAction :=
  [.draw i ticket, .check i, .draw i id, .enqueue i, .wake i]

theorem issued_ids_unique_two_requests :
    ∃ s, single.run (.arrive "POST" :: .arrive "POST" :: (serve 0 5 7 ++ serve 1 6 8)) = some s ∧
      s.bodies = ["7", "8"] ∧ s.bodies.Nodup := by
  have hview : (single.run (.arrive "POST" :: .arrive "POST" ::
      (serve 0 5 7 ++ serve 1 6 8))).map bodies = some ["7", "8"] := by
    decide +kernel
  obtain ⟨s, hrun, hview⟩ := Option.map_eq_some_iff.mp hview
  exact ⟨s, hrun, hview, issued_ids_unique (by decide +kernel) hrun⟩

theorem same_id_issued_twice :
    ∃ s, single.run (.arrive "POST" :: .arrive "POST" :: (serve 0 5 7 ++ serve 1 6 7)) = some s ∧
      s.bodies = ["7", "7"] ∧ ¬ s.bodies.Nodup := by
  have hview : (single.run (.arrive "POST" :: .arrive "POST" ::
      (serve 0 5 7 ++ serve 1 6 7))).map bodies = some ["7", "7"] := by
    decide +kernel
  obtain ⟨s, hrun, hview⟩ := Option.map_eq_some_iff.mp hview
  refine ⟨s, hrun, hview, ?_⟩
  rw [hview]
  decide

end Service

end IdAllocator
