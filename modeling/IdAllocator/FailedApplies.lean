/-
Entries whose `applylog` callback fails.

`raft_apply_entry` raises `last_applied_idx` before it calls `applylog`, and does
not look at what the callback returns: an entry for which it fails is taken for
applied and is never tried again.
-/
import IdAllocator.IssuedTickets

namespace IdAllocator

open RaftServer Fallible

/-! ### What a call applies -/

/-- The entries of a list are applied, behind those that were. -/
structure Applies (me me' : RaftServer) (entries : List Entry) : Prop where
  log : me'.log = me.log
  taken : me'.log.take me'.lastAppliedIdx.toNat =
    me.log.take me.lastAppliedIdx.toNat ++ entries
  applied : me'.applied = me.applied ++ entries

theorem Quiet.applies {me me' : RaftServer} (h : Quiet me me') : Applies me me' [] := by
  refine ⟨h.log, ?_, ?_⟩
  · rw [h.log, h.lastAppliedIdx, List.append_nil]
  · rw [h.applied, List.append_nil]

theorem Applies.trans {me mid me' : RaftServer} {entries later : List Entry}
    (h : Applies me mid entries) (h' : Applies mid me' later) :
    Applies me me' (entries ++ later) := by
  refine ⟨h'.log.trans h.log, ?_, ?_⟩
  · rw [h'.taken, h.taken, List.append_assoc]
  · rw [h'.applied, h.applied, List.append_assoc]

theorem applies_raftApplyEntry {me me' : RaftServer} {done : Bool}
    (h : raftApplyEntry me = .ok (me', done)) : ∃ entries, Applies me me' entries := by
  rcases raftApplyEntry_ok h with ⟨_, rfl⟩ | ⟨_, _, ety, hety, rfl⟩
  · exact ⟨[], Quiet.applies ⟨rfl, rfl, rfl, rfl⟩⟩
  · obtain ⟨hone, _, hget⟩ := logEntryAt_eq_some hety
    refine ⟨[ety], rfl, ?_, ?_⟩
    · have hsucc : (me.lastAppliedIdx + 1).toNat = me.lastAppliedIdx.toNat + 1 := by omega
      have hidx : (me.lastAppliedIdx + 1 - 1).toNat = me.lastAppliedIdx.toNat := by omega
      rw [hidx] at hget
      simp only [hsucc, List.take_add_one, hget, Option.toList_some]
    · simp [RaftServer.applied, Callback.applied?]

theorem applies_raftApplyAll {me me' : RaftServer} (h : raftApplyAll me = .ok me') :
    ∃ entries, Applies me me' entries := by
  apply raftApplyAll_invariant (fun mid => ∃ entries, Applies me mid entries) ?_ ?_ h
  · rintro mid next done ⟨entries, happlies⟩ hround
    obtain ⟨later, hlater⟩ := applies_raftApplyEntry hround
    exact ⟨entries ++ later, happlies.trans hlater⟩
  · exact ⟨[], Quiet.applies ⟨rfl, rfl, rfl, rfl⟩⟩

theorem applies_raftPeriodic {rnd : Nat} {me me' : RaftServer} {msec : Int} {done : Bool}
    (h : raftPeriodic rnd me msec = .ok (me', done)) : ∃ entries, Applies me me' entries := by
  obtain ⟨mid, hquiet, htail⟩ := quiet_raftPeriodic h
  rcases htail with happly | rfl
  · obtain ⟨entries, happlies⟩ := applies_raftApplyEntry happly
    exact ⟨[] ++ entries, hquiet.applies.trans happlies⟩
  · exact ⟨[], hquiet.applies⟩

/-! ### Runs with callbacks that may fail -/

/-- The calls that apply entries. -/
inductive ApplyCall where
  | periodic (msec : Int) (rnd : Nat)
  | applyAll
deriving Repr, DecidableEq

def ApplyCall.run (me : RaftServer) : ApplyCall → Except Fault RaftServer
  | .periodic msec rnd => Prod.fst <$> raftPeriodic rnd me msec
  | .applyAll => raftApplyAll me

/-- The entries that a call gives to `applylog`. -/
def ApplyCall.entries (me : RaftServer) (call : ApplyCall) : List Entry :=
  match call.run me with
  | .ok me' => (callsSince me me').filterMap Callback.applied?
  | .error _ => []

theorem ApplyCall.run_applies {me me' : RaftServer} {call : ApplyCall}
    (h : call.run me = .ok me') : Applies me me' (call.entries me) := by
  have hcalls : AddsCalls me me' ∧ ∃ entries, Applies me me' entries := by
    cases call with
    | periodic msec rnd =>
        obtain ⟨_, hperiodic⟩ := fst_map_eq_ok h
        exact ⟨(keepsLog_raftPeriodic hperiodic).calls, applies_raftPeriodic hperiodic⟩
    | applyAll => exact ⟨(steady_raftApplyAll h).keepsLog.calls, applies_raftApplyAll h⟩
  obtain ⟨hadds, entries, happlies⟩ := hcalls
  have heq : call.entries me = entries := by
    rw [ApplyCall.entries, h]
    exact List.append_cancel_left (hadds.applied.symm.trans happlies.applied)
  rw [heq]
  exact happlies

/-- A server with the user data of its callback and the tickets that the calls of the
callback that returned 0 have stored. -/
structure Applying (U : Type) where
  me : RaftServer
  udata : U
  tickets : List (List UInt8)

section Callback

variable {U : Type} (applylog : U → Entry → U × Int)

/-- The entries given to the callback, each with what it returned. -/
def applyAnswers : U → List Entry → List (Entry × Int)
  | _, [] => []
  | udata, ety :: rest =>
      (ety, (applylog udata ety).2) :: applyAnswers (applylog udata ety).1 rest

/-- The entries of a call for which the callback returns 0. -/
def ApplyCall.succeeded (s : Applying U) (call : ApplyCall) : List Entry :=
  ((applyAnswers applylog s.udata (call.entries s.me)).filter fun answer =>
    answer.2 = 0).map Prod.fst

/-- The entries of a call for which it does not. -/
def ApplyCall.failed (s : Applying U) (call : ApplyCall) : List Entry :=
  ((applyAnswers applylog s.udata (call.entries s.me)).filter fun answer =>
    answer.2 ≠ 0).map Prod.fst

/-- A call, with its callbacks. -/
def ApplyCall.step (s : Applying U) (call : ApplyCall) : Option (Applying U) :=
  (call.run s.me).toOption.map fun me =>
    { me := me
      udata := (call.entries s.me).foldl (fun udata ety => (applylog udata ety).1) s.udata
      tickets := (call.succeeded applylog s).foldl raftApplylogCb s.tickets }

/-- The tickets of all entries up to `last_applied_idx` are stored. -/
def Applying.Complete (s : Applying U) : Prop :=
  ∀ data ∈ ticketsIn (s.me.log.take s.me.lastAppliedIdx.toNat), data ∈ s.tickets

/-- A ticket whose callback fails is stored already, or the same call stores it for another
entry that carries it. -/
def ApplyCall.LosesNone (s : Applying U) (call : ApplyCall) : Prop :=
  ∀ data ∈ ticketsIn (call.failed applylog s),
    data ∈ s.tickets ∨
      ∃ e ∈ call.succeeded applylog s, raftEntryIsCfgChange e = false ∧ e.data = data

theorem map_fst_applyAnswers (udata : U) (entries : List Entry) :
    (applyAnswers applylog udata entries).map Prod.fst = entries := by
  induction entries generalizing udata with
  | nil => rfl
  | cons ety rest ih => exact congrArg (ety :: ·) (ih _)

/-- Each entry of a call is one for which the callback returns 0 or one for which it does
not. -/
theorem mem_entries_iff {s : Applying U} {call : ApplyCall} {e : Entry} :
    e ∈ call.entries s.me ↔ e ∈ call.succeeded applylog s ∨ e ∈ call.failed applylog s := by
  conv_lhs => rw [← @map_fst_applyAnswers U applylog s.udata (call.entries s.me)]
  rw [ApplyCall.succeeded, ApplyCall.failed, ← List.mem_append, ← List.map_append]
  simp only [List.mem_map, List.mem_append, List.mem_filter, decide_eq_true_eq, ← and_or_left,
    ne_eq, em, and_true]

theorem mem_ticketsIn_entries {s : Applying U} {call : ApplyCall} {data : List UInt8} :
    data ∈ ticketsIn (call.entries s.me) ↔
      data ∈ ticketsIn (call.succeeded applylog s) ∨
        data ∈ ticketsIn (call.failed applylog s) := by
  rw [← List.mem_append, ← ticketsIn_append, mem_ticketsIn, mem_ticketsIn]
  simp only [List.mem_append, mem_entries_iff applylog]

variable {applylog}

theorem Applying.Complete.step_iff {s s' : Applying U} (h : s.Complete) {call : ApplyCall}
    (hstep : call.step applylog s = some s') :
    s'.Complete ↔ call.LosesNone applylog s := by
  obtain ⟨me', hrun, rfl⟩ := Option.map_eq_some_iff.mp hstep
  have happlies := ApplyCall.run_applies (toOption_eq_some.mp hrun)
  simp only [Applying.Complete, happlies.taken, ticketsIn_append, List.mem_append,
    mem_ticketsIn_entries applylog]
  constructor
  · intro hcomplete data hfailed
    exact mem_foldl_raftApplylogCb_iff.mp (hcomplete data (Or.inr (Or.inr hfailed)))
  · rintro hloses data (hold | hsucceeded | hfailed)
    · exact mem_foldl_raftApplylogCb (Or.inl (h data hold))
    · exact mem_foldl_raftApplylogCb (Or.inr hsucceeded)
    · exact mem_foldl_raftApplylogCb_iff.mpr (hloses data hfailed)

/-- All tickets up to `last_applied_idx` stay stored exactly in the runs in which no ticket
is lost to a callback that fails. -/
theorem applied_tickets_stored_iff {start last : Applying U} {calls : List ApplyCall}
    (hstart : start.Complete)
    (hrun : Runs.run (ApplyCall.step applylog) start calls = some last) :
    (∀ n s, Runs.run (ApplyCall.step applylog) start (calls.take n) = some s → s.Complete) ↔
      Runs.Meets (ApplyCall.step applylog) (fun s call => call.LosesNone applylog s)
        start calls := by
  apply Runs.meets_iff_always Applying.Complete ?_ hstart hrun
  intro s s' call hs hstep
  exact hs.step_iff hstep

end Callback

/-- `raft_applylog_cb` with its return value, over a map with room for so many tickets. -/
def applylogWithin (room : Nat) (tickets : List (List UInt8)) (ety : Entry) :
    List (List UInt8) × Int :=
  if raftEntryIsCfgChange ety || tickets.contains ety.data || tickets.length < room then
    (raftApplylogCb tickets ety, 0)
  else (tickets, -1)

/-- Two entries are committed, and none is applied. -/
def twoToApply : Applying (List (List UInt8)) where
  me := { raftNew with
    log := [⟨1, 7, .normal, [1]⟩, ⟨1, 8, .normal, [2]⟩]
    commitIdx := 2 }
  udata := []
  tickets := []

theorem twoToApply_complete : twoToApply.Complete := by
  intro data hdata
  exact absurd hdata List.not_mem_nil

/-- The map has room for both. -/
theorem applied_tickets_stored_twoToApply :
    ∃ last, Runs.run (ApplyCall.step (applylogWithin 2)) twoToApply
        [.periodic 0 0, .applyAll] = some last ∧
      last.me.lastAppliedIdx = 2 ∧ last.Complete := by
  have hview : (Runs.run (ApplyCall.step (applylogWithin 2)) twoToApply
      [.periodic 0 0, .applyAll]).map (fun last => last.me.lastAppliedIdx) = some 2 := by
    decide +kernel
  obtain ⟨last, hrun, happlied⟩ := Option.map_eq_some_iff.mp hview
  have hall := (applied_tickets_stored_iff twoToApply_complete hrun).mpr (by
    unfold ApplyCall.LosesNone
    decide +kernel)
  exact ⟨last, hrun, happlied, hall 2 last hrun⟩

/-- The map is full after the first ticket, and `last_applied_idx` passes the second. -/
theorem failed_apply_skipped :
    ¬ ∀ (room : Nat) (start last : Applying (List (List UInt8))) (calls : List ApplyCall),
      start.Complete →
      Runs.run (ApplyCall.step (applylogWithin room)) start calls = some last →
      last.Complete := by
  intro hclaim
  have hview : (Runs.run (ApplyCall.step (applylogWithin 1)) twoToApply [.applyAll]).map
      (fun last => (ticketsIn (last.me.log.take last.me.lastAppliedIdx.toNat), last.tickets)) =
      some ([[1], [2]], [[1]]) := by
    decide +kernel
  obtain ⟨last, hrun, heq⟩ := Option.map_eq_some_iff.mp hview
  obtain ⟨happlied, htickets⟩ := Prod.mk.inj heq
  have hstored := hclaim 1 twoToApply last [.applyAll] twoToApply_complete hrun [2] (by
    rw [happlied]
    decide)
  rw [htickets] at hstored
  exact absurd hstored (by decide)

end IdAllocator
