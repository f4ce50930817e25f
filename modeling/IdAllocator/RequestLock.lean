/-
The lock that `__http_get_id` takes.

A request is followed through the handler alone: what it does to `raft_lock`,
which outcomes of `raft_msg_entry_response_committed` it has seen, and what it
answers.  Across requests, the lock stays held by those that left through the
exit without an unlock.
-/
import IdAllocator.TicketService

namespace IdAllocator

open Slots

/-! ### One request -/

/-- What a request does with `raft_lock`.  `uv_cond_wait` releases it and takes it again. -/
inductive LockOp where
  | lock
  | condWait
  | unlock
deriving Repr, DecidableEq

def acquired (ops : List LockOp) : Nat :=
  ops.countP (· ≠ .unlock)

def released (ops : List LockOp) : Nat :=
  ops.countP (· ≠ .lock)

@[simp]
theorem acquired_cons (op : LockOp) (ops : List LockOp) :
    acquired (op :: ops) = acquired ops + if op = .unlock then 0 else 1 := by
  cases op <;> simp [acquired]

@[simp]
theorem released_cons (op : LockOp) (ops : List LockOp) :
    released (op :: ops) = released ops + if op = .lock then 0 else 1 := by
  cases op <;> simp [released]

/-- A request that has returned. -/
structure Handled where
  ops : List LockOp
  outcomes : List Int
  request : Request
deriving Repr, DecidableEq

/-- The waiting loop of `__http_get_id`; `outcomes` are those of
`raft_msg_entry_response_committed`, one for each try. -/
def httpWait (outcomes : Nat → Int) (id : UInt32) (tries : Nat) : Handled :=
  if 3 < tries then
    ⟨[.unlock], [], .refused .tryAgain⟩
  else if outcomes tries = 1 then
    ⟨[.condWait, .unlock], [outcomes tries], .issued id⟩
  else if outcomes tries = -1 then
    ⟨[.condWait, .unlock], [outcomes tries], .refused .tryAgain⟩
  else
    let later := httpWait outcomes id (tries + 1)
    ⟨.condWait :: later.ops, outcomes tries :: later.outcomes, later.request⟩
termination_by 4 - tries

/-- `__http_get_id`, where `raft_recv_entry` returns `e`. -/
def httpGetId (s : Service) (method : String) (id : UInt32) (e : Int)
    (outcomes : Nat → Int) : Handled :=
  if s.arrival method = .generating then
    if e ≠ 0 then ⟨[.lock], [], .refused .bad⟩
    else
      let waited := httpWait outcomes id 0
      { waited with ops := .lock :: waited.ops }
  else ⟨[], [], s.arrival method⟩

/-- The lock is given back as often as it was taken, and an id is only sent when the last
outcome was 1. -/
structure Handled.Releases (h : Handled) : Prop where
  balanced : acquired h.ops = released h.ops
  committed : ∀ body, h.request.response? = some (200, body) → h.outcomes.getLast? = some 1

/-- The loop gives back the lock that it was entered with. -/
theorem httpWait_released (outcomes : Nat → Int) (id : UInt32) (tries : Nat) :
    released (httpWait outcomes id tries).ops = acquired (httpWait outcomes id tries).ops + 1 := by
  fun_induction httpWait outcomes id tries with
  | case1 tries htries => rfl
  | case2 tries htries hone => rfl
  | case3 tries htries hone hlost => rfl
  | case4 tries htries hone hlost later ih =>
      simp [later, ih]

theorem httpWait_committed (outcomes : Nat → Int) (id : UInt32) (tries : Nat) {body : String}
    (h : (httpWait outcomes id tries).request.response? = some (200, body)) :
    (httpWait outcomes id tries).outcomes.getLast? = some 1 := by
  fun_induction httpWait outcomes id tries with
  | case1 tries htries => simp [Request.response?, Refusal.response] at h
  | case2 tries htries hone => rw [hone]; rfl
  | case3 tries htries hone hlost => simp [Request.response?, Refusal.response] at h
  | case4 tries htries hone hlost later ih =>
      rw [List.getLast?_cons, ih h]
      rfl

/-- One round of the loop is one step of a waiting request. -/
theorem httpWait_afterWait (outcomes : Nat → Int) (ticket id : UInt32) (r : MsgEntryResponse)
    {tries : Nat} (htries : tries ≤ 3) :
    Service.afterWait ticket id r (tries + 1) (outcomes tries) =
        (httpWait outcomes id tries).request ∨
      (Service.afterWait ticket id r (tries + 1) (outcomes tries) =
          .waiting ticket id r (tries + 1) ∧
        (httpWait outcomes id tries).request = (httpWait outcomes id (tries + 1)).request) := by
  have hunfold := httpWait.eq_def outcomes id tries
  rw [if_neg (by omega)] at hunfold
  rw [hunfold]
  unfold Service.afterWait
  split
  · exact Or.inl rfl
  split
  · exact Or.inl rfl
  split
  · rename_i hlast
    left
    rw [httpWait, if_pos hlast]
  · exact Or.inr ⟨rfl, rfl⟩

theorem arrival_not_answered (s : Service) (method : String) (body : String) :
    (s.arrival method).response? ≠ some (200, body) := by
  rcases s.arrival_cases method with heq | heq | ⟨refusal, heq⟩
  · rw [heq]
    exact fun h => nomatch h
  · rw [heq]
    exact fun h => nomatch h
  · rw [heq]
    cases refusal <;> simp [Request.response?, Refusal.response]

/-- The handler gives the lock back, on every way through the loop, exactly when it does not
take it or its entry is accepted. -/
theorem request_releases_lock_iff (s : Service) (method : String) (id : UInt32) (e : Int)
    (outcomes : Nat → Int) :
    (httpGetId s method id e outcomes).Releases ↔ s.arrival method ≠ .generating ∨ e = 0 := by
  unfold httpGetId
  split
  · rename_i harrival
    split
    · rename_i hbad
      constructor
      · intro hreleases
        exact absurd hreleases.balanced (by decide)
      · rintro (hother | hzero)
        · exact absurd harrival hother
        · exact absurd hzero hbad
    · rename_i hzero
      refine ⟨fun _ => Or.inr (not_not.mp hzero), fun _ => ⟨?_, ?_⟩⟩
      · simp [httpWait_released outcomes id 0]
      · intro body hbody
        exact httpWait_committed outcomes id 0 hbody
  · rename_i hother
    refine ⟨fun _ => Or.inl hother, fun _ => ⟨rfl, ?_⟩⟩
    intro body hbody
    exact absurd hbody (arrival_not_answered s method body)

/-- The server loses its leadership after it was asked for the leader. -/
theorem refused_entry_keeps_lock :
    ¬ ∀ (s : Service) (id : UInt32) (e : Int) (outcomes : Nat → Int),
      (httpGetId s "POST" id e outcomes).Releases := by
  intro hclaim
  have hops : (httpGetId Service.single "POST" 7 (-1) fun _ => 0).ops = [.lock] := by
    decide +kernel
  have hbalanced := (hclaim Service.single 7 (-1) fun _ => 0).balanced
  rw [hops] at hbalanced
  exact absurd hbalanced (by decide)

/-! ### All requests -/

namespace Service

/-- Between two steps the lock is held exactly for the requests that returned with it. -/
def HeldByRefused (s : Service) : Prop :=
  s.locked = true ↔ Request.refused .bad ∈ s.requests

theorem heldByRefused_start (nodeId : Int) (me : RaftServer) (tickets : List (List UInt8)) :
    (start nodeId me tickets).HeldByRefused := by
  simp [HeldByRefused, start]

/-- A request goes on without having been refused its entry. -/
theorem HeldByRefused.set {s s' : Service} (h : s.HeldByRefused) {i : Nat} {old new : Request}
    (hi : s.requests[i]? = some old) (hlocked : s'.locked = s.locked)
    (hrequests : s'.requests = s.requests.set i new) (hold : old ≠ .refused .bad)
    (hnew : new ≠ .refused .bad) : s'.HeldByRefused := by
  unfold HeldByRefused at h ⊢
  rw [hlocked, hrequests, mem_set_iff hi hold, h]
  constructor
  · exact Or.inl
  · rintro (hmem | heq)
    · exact hmem
    · exact absurd heq.symm hnew

theorem HeldByRefused.step {s s' : Service} {action : ServiceAction} (h : s.HeldByRefused)
    (hstep : s.step action = some s') : s'.HeldByRefused := by
  cases step_event hstep with
  | arrive method =>
      have hnew : Request.refused .bad ≠ s.arrival method := by
        unfold arrival
        split
        · exact fun heq => nomatch heq
        split
        · exact fun heq => nomatch heq
        split
        · exact fun heq => nomatch heq
        · exact fun heq => nomatch heq
      unfold HeldByRefused
      rw [List.mem_append, List.mem_singleton, or_iff_left hnew]
      exact h
  | drawTicket hi => exact h.set hi rfl rfl (by simp) (by simp)
  | drawId hi => exact h.set hi rfl rfl (by simp) (by simp)
  | taken hi _ => exact h.set hi rfl rfl (by simp) (by simp)
  | free hi _ => exact h.set hi rfl rfl (by simp) (by simp)
  | enqueue hi _ => exact h.set hi rfl rfl (by simp) (by simp)
  | bad hi _ =>
      refine ⟨fun _ => ?_, fun _ => rfl⟩
      refine (mem_set_iff hi ?_).mpr (Or.inr rfl)
      simp
  | wake hi _ =>
      refine h.set hi rfl rfl (by simp) ?_
      rcases afterWait_cases _ _ _ _ _ with heq | heq | heq
      · rw [heq]
        exact fun hbad => nomatch hbad
      · rw [heq]
        exact fun hbad => nomatch hbad
      · rw [heq]
        exact fun hbad => nomatch hbad
  | raft _ _ => exact h

/-- In every run the lock is free between two steps, until a request returns with it. -/
theorem lock_held_iff_refused {nodeId : Int} {me : RaftServer} {tickets : List (List UInt8)}
    {actions : List ServiceAction} {s : Service}
    (hrun : (start nodeId me tickets).run actions = some s) :
    s.locked = true ↔ Request.refused .bad ∈ s.requests := by
  have hmeets : Runs.Meets step (fun _ _ => True) (start nodeId me tickets) actions :=
    Runs.meets_of_forall (fun _ _ => trivial) _ actions
  exact Runs.run_invariant HeldByRefused (fun _ _ _ h _ hstep => h.step hstep)
    (heldByRefused_start nodeId me tickets) hmeets hrun

end Service

end IdAllocator
