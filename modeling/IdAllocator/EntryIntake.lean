/-
Entries on their way into the log, from a client, from a leader, or directly.

`log_append_entry` refuses an entry without an id, and calls `log_offer` for every other one.
Neither answer reaches the caller of `raft_recv_entry`, and the answer of `log_offer` reaches
nobody.
-/
import IdAllocator.EntryMerge
import IdAllocator.Faults
import IdAllocator.LogArray
import IdAllocator.TruncatedStore

namespace IdAllocator

open RaftServer Fallible

/-! ### Client entries -/

/-- A client's entry is in the log as its response says, or the log is as it was. -/
def Recorded (me : RaftServer) (e : Entry) (me' : RaftServer) :
    Option MsgEntryResponse → Prop
  | some r =>
      me'.log.length = me.log.length + 1 ∧
        logEntryAt me'.log r.idx = some { e with term := r.term } ∧
        r.term = me'.currentTerm ∧ r.id = e.id ∧ r.idx = me'.currentIdx
  | none =>
      me'.log = me.log ∧ me'.commitIdx = me.commitIdx ∧
        me'.votingCfgChangeLogIdx = me.votingCfgChangeLogIdx

/-- The tests at the head of `raft_recv_entry`. -/
def refusesEntry (me : RaftServer) (e : Entry) : Bool :=
  (raftEntryIsVotingCfgChange e && me.votingCfgChangeLogIdx ≠ -1) || me.state ≠ .leader

theorem raftRecvEntry_refused {me : RaftServer} {e : Entry} (h : refusesEntry me e = true) :
    raftRecvEntry me e = .ok (me, none) := by
  unfold raftRecvEntry
  simp only [refusesEntry, Bool.or_eq_true, Bool.and_eq_true, decide_eq_true_eq] at h
  by_cases hgate : raftEntryIsVotingCfgChange e = true ∧ me.votingCfgChangeLogIdx ≠ -1
  · rw [if_pos hgate]
    rfl
  · rw [if_neg hgate, if_pos (h.resolve_left hgate)]
    rfl

/-- What the response to an entry that is taken says. -/
theorem raftRecvEntry_taken {me me' : RaftServer} {e : Entry} {r : Option MsgEntryResponse}
    (h : raftRecvEntry me e = .ok (me', r)) (htaken : refusesEntry me e = false) :
    r = some { id := e.id, term := me'.currentTerm, idx := me'.currentIdx } ∧
      me'.currentTerm = me.currentTerm := by
  rcases raftRecvEntry_ok h with ⟨rfl, rfl⟩ | ⟨_, mid, hsends, rfl, rfl, _⟩
  · unfold raftRecvEntry at h
    simp only [refusesEntry, Bool.or_eq_false_iff, Bool.and_eq_false_imp,
      decide_eq_false_iff_not] at htaken
    rw [if_neg (fun hgate => htaken.1 hgate.1 hgate.2), if_neg htaken.2] at h
    simp only [bind_eq_ok, pure_eq_ok, Prod.mk.injEq] at h
    obtain ⟨_, _, _, hwrong⟩ := h
    cases hwrong
  · refine ⟨rfl, ?_⟩
    obtain ⟨calls, rfl, _⟩ := hsends
    obtain ⟨cfgIdx, ⟨_, heq⟩ | ⟨_, heq⟩⟩ := raftAppendEntry_cases me (stampEntry me e)
    · simp only [heq]
    · simp only [heq]

/-- A client's entry is recorded as the return value says exactly when it has an id, or is
refused. -/
theorem client_entry_recorded_iff (me : RaftServer) (e : Entry) :
    (∃ me' r, raftRecvEntry me e = .ok (me', r) ∧ Recorded me e me' r) ↔
      (e.id ≠ 0 ∨ refusesEntry me e = true) := by
  cases hrefuses : refusesEntry me e with
  | true =>
      refine ⟨fun _ => Or.inr rfl, fun _ => ?_⟩
      exact ⟨me, none, raftRecvEntry_refused hrefuses, rfl, rfl, rfl⟩
  | false =>
      obtain ⟨⟨me', r⟩, hrun⟩ : ∃ result, raftRecvEntry me e = .ok result := by
        cases hrun : raftRecvEntry me e with
        | error f => exact absurd hrun raftRecvEntry_ne_error
        | ok result => exact ⟨result, rfl⟩
      obtain ⟨rfl, hterm⟩ := raftRecvEntry_taken hrun hrefuses
      obtain ⟨_, ⟨hnone, _⟩ | ⟨_, hid, hlog⟩ | ⟨_, hid, hlog⟩⟩ := raftRecvEntry_log hrun
      · cases hnone
      · constructor
        · rintro ⟨me'', r, hrun', hrecorded⟩
          rw [hrun, Except.ok.injEq, Prod.mk.injEq] at hrun'
          obtain ⟨rfl, rfl⟩ := hrun'
          obtain ⟨hgrown, _⟩ := hrecorded
          rw [hlog] at hgrown
          omega
        · rintro (hne | hwrong)
          · exact absurd hid hne
          · cases hwrong
      · refine ⟨fun _ => Or.inl hid, fun _ => ⟨me', _, hrun, ?_, ?_, rfl, rfl, rfl⟩⟩
        · rw [hlog, List.length_append, List.length_singleton]
        · have hlast : logEntryAt me'.log me'.currentIdx = me'.log.getLast? :=
            logEntryAt_length me'.log
          rw [hlast, hlog, List.getLast?_concat, stampEntry, hterm]

/-- A leader alone takes an entry with id 0, and says that it is in the log at index 0. -/
theorem entry_without_id_not_recorded :
    ¬ ∀ (me : RaftServer) (e : Entry) (me' : RaftServer) (r : Option MsgEntryResponse),
      raftRecvEntry me e = .ok (me', r) → Recorded me e me' r := by
  intro hclaim
  have hview : (raftRecvEntry soleLeader (bareEntry 0)).map
      (fun result => (result.1.log, result.2)) =
      .ok ([], some { id := 0, term := 1, idx := 0 }) := by
    decide
  obtain ⟨⟨me', r⟩, hrun, heq⟩ := map_eq_ok.mp hview
  rw [Prod.mk.injEq] at heq
  obtain ⟨hlog, rfl⟩ := heq
  obtain ⟨hgrown, _⟩ := hclaim _ _ me' _ hrun
  rw [hlog] at hgrown
  exact absurd hgrown (by decide)

/-! ### How a call rewrites the log -/

/-- The offers of entries that are appended behind `k` others. -/
def offersFrom (k : Nat) (entries : List Entry) : List LogEvent :=
  (entries.zipIdx k).map fun pair => .offer pair.1 pair.2

/-- Neither the log nor its callbacks are touched. -/
def Silent (me me' : RaftServer) : Prop :=
  me'.log = me.log ∧ ∃ calls, me'.calls = me.calls ++ calls ∧
    calls.filterMap Callback.logEvent? = []

/-- The log is cut at an index, and entries are appended, with the callbacks for both. -/
structure Rewrites (me me' : RaftServer) (idx : Int) (entries : List Entry) : Prop where
  one_le : 1 ≤ idx
  log : me'.log = logDelete me.log idx ++ entries
  calls : ∃ calls, me'.calls = me.calls ++ calls ∧
    calls.filterMap Callback.logEvent? =
      (logDeletePops me.log idx).filterMap Callback.logEvent? ++
        offersFrom (logDelete me.log idx).length entries

section Rewriting

variable {me mid me' : RaftServer} {idx : Int} {entries : List Entry}

theorem Silent.refl (me : RaftServer) : Silent me me :=
  ⟨rfl, [], by simp, rfl⟩

theorem Silent.of_same (hlog : me'.log = me.log) (hcalls : me'.calls = me.calls) :
    Silent me me' :=
  ⟨hlog, [], by simp [hcalls], rfl⟩

theorem Emits.silent {P : Callback → Prop} (h : Emits P me me')
    (hP : ∀ call, P call → call.logEvent? = none) : Silent me me' := by
  obtain ⟨calls, rfl, hcalls⟩ := h
  exact ⟨rfl, calls, rfl,
    List.filterMap_eq_nil_iff.mpr fun call hcall => hP call (hcalls call hcall)⟩

theorem Silent.trans (h : Silent me mid) (h' : Silent mid me') : Silent me me' := by
  obtain ⟨hlog, calls, hcalls, hnone⟩ := h
  obtain ⟨hlog', calls', hcalls', hnone'⟩ := h'
  refine ⟨hlog'.trans hlog, calls ++ calls', ?_, ?_⟩
  · rw [hcalls', hcalls, List.append_assoc]
  · rw [List.filterMap_append, hnone, hnone', List.append_nil]

theorem Silent.rewrites (h : Silent me mid) (h' : Rewrites mid me' idx entries) :
    Rewrites me me' idx entries := by
  obtain ⟨hlog, calls, hcalls, hnone⟩ := h
  obtain ⟨hone, hlog', calls', hcalls', hevents⟩ := h'
  rw [hlog] at hlog' hevents
  refine ⟨hone, hlog', calls ++ calls', ?_, ?_⟩
  · rw [hcalls', hcalls, List.append_assoc]
  · rw [List.filterMap_append, hnone, List.nil_append, hevents]

theorem Rewrites.silent (h : Rewrites me mid idx entries) (h' : Silent mid me') :
    Rewrites me me' idx entries := by
  obtain ⟨hone, hlog, calls, hcalls, hevents⟩ := h
  obtain ⟨hlog', calls', hcalls', hnone⟩ := h'
  refine ⟨hone, hlog'.trans hlog, calls ++ calls', ?_, ?_⟩
  · rw [hcalls', hcalls, List.append_assoc]
  · rw [List.filterMap_append, hnone, List.append_nil, hevents]

/-- A cut behind the end of the log. -/
theorem rewrites_of_append {calls : List Callback} (hlog : me'.log = me.log ++ entries)
    (hcalls : me'.calls = me.calls ++ calls)
    (hevents : calls.filterMap Callback.logEvent? = offersFrom me.log.length entries) :
    Rewrites me me' (me.log.length + 1) entries := by
  obtain ⟨hkept, hpops⟩ := logDelete_of_length_le me.log (me.log.length + 1) (by omega)
  refine ⟨by omega, ?_, calls, hcalls, ?_⟩
  · rw [hkept, hlog]
  · rw [hpops, hkept, hevents]
    rfl

theorem Silent.rewrites_nothing (h : Silent me me') : Rewrites me me' (me.log.length + 1) [] := by
  obtain ⟨hlog, calls, hcalls, hnone⟩ := h
  exact rewrites_of_append (hlog.trans (List.append_nil _).symm) hcalls hnone

theorem rewrites_raftLogDelete (hone : 1 ≤ idx) : Rewrites me (raftLogDelete me idx) idx [] :=
  ⟨hone, (List.append_nil _).symm, _, rfl, (List.append_nil _).symm⟩

/-- Entries behind a cut. -/
theorem Rewrites.append (h : Rewrites me mid idx []) {k : Int}
    (h' : Rewrites mid me' k entries) (hk : mid.log.length < k) :
    Rewrites me me' idx entries := by
  obtain ⟨hone, hlog, calls, hcalls, hevents⟩ := h
  obtain ⟨_, hlog', calls', hcalls', hevents'⟩ := h'
  obtain ⟨hkept, hpops⟩ := logDelete_of_length_le mid.log k (by omega)
  rw [List.append_nil] at hlog
  rw [hkept] at hlog' hevents'
  rw [hpops, List.filterMap_nil, List.nil_append] at hevents'
  refine ⟨hone, hlog'.trans (by rw [hlog]), calls ++ calls', ?_, ?_⟩
  · rw [hcalls', hcalls, List.append_assoc]
  · rw [List.filterMap_append, hevents, hevents', hlog]
    simp [offersFrom]

end Rewriting

/-! ### The calls -/

theorem rewrites_raftAppendEntry (me : RaftServer) (ety : Entry) :
    Rewrites me (raftAppendEntry me ety).1 (me.log.length + 1)
      (if ety.id = 0 then [] else [ety]) := by
  obtain ⟨cfgIdx, ⟨hid, heq⟩ | ⟨hid, heq⟩⟩ := raftAppendEntry_cases me ety
  · rw [heq, if_pos hid]
    exact Silent.rewrites_nothing (Silent.of_same rfl rfl)
  · rw [heq, if_neg hid]
    exact rewrites_of_append rfl rfl rfl

theorem rewrites_raftRecvEntry {me me' : RaftServer} {e : Entry} {r : Option MsgEntryResponse}
    (h : raftRecvEntry me e = .ok (me', r)) :
    ∃ entries, Rewrites me me' (me.log.length + 1) entries := by
  rcases raftRecvEntry_ok h with ⟨_, rfl⟩ | ⟨_, mid, hsends, rfl, _⟩
  · exact ⟨[], (Silent.refl _).rewrites_nothing⟩
  · have hsilent : Silent (raftAppendEntry me (stampEntry me e)).1 mid := by
      apply hsends.silent
      rintro _ ⟨_, _, _, _, rfl⟩
      rfl
    exact ⟨_, (rewrites_raftAppendEntry me (stampEntry me e)).silent
      (hsilent.trans (Silent.of_same rfl rfl))⟩

theorem rewrites_appendentriesAppend (me : RaftServer) (entries : List Entry) :
    ∃ taken, Rewrites me (appendentriesAppend me entries).1 (me.log.length + 1) taken := by
  induction entries generalizing me with
  | nil => exact ⟨[], (Silent.refl me).rewrites_nothing⟩
  | cons ety rest ih =>
      have hfirst := rewrites_raftAppendEntry me ety
      obtain ⟨cfgIdx, ⟨hid, heq⟩ | ⟨hid, heq⟩⟩ := raftAppendEntry_cases me ety
      · rw [appendentriesAppend, heq]
        exact ⟨[], Silent.rewrites_nothing (Silent.of_same rfl rfl)⟩
      · obtain ⟨taken, hrest⟩ := ih (raftAppendEntry me ety).1
        rw [if_neg hid] at hfirst
        rw [appendentriesAppend, heq]
        rw [heq] at hfirst hrest
        refine ⟨ety :: taken, ?_⟩
        obtain ⟨_, hlog, calls, hcalls, hevents⟩ := hrest
        obtain ⟨hkept, hpops⟩ := logDelete_of_length_le
          (me.log ++ [ety]) ((me.log ++ [ety]).length + 1) (by omega)
        rw [hkept] at hlog hevents
        rw [hpops, List.filterMap_nil, List.nil_append] at hevents
        refine rewrites_of_append (hlog.trans (List.append_assoc _ _ _))
          (hcalls.trans (List.append_assoc _ _ _)) ?_
        rw [List.filterMap_append, hevents]
        simp [offersFrom, Callback.logEvent?, currentIdx, logGetCurrentIdx]

theorem silent_appendentriesTerm {me me' : RaftServer} {ae : MsgAppendentries}
    (h : appendentriesTerm me ae = some me') : Silent me me' := by
  rcases appendentriesTerm_cases me ae with ⟨hnone, _⟩ | ⟨mid, hsome, hcases⟩
  · rw [hnone] at h
    cases h
  · rw [hsome, Option.some.injEq] at h
    subst h
    rcases hcases with ⟨_, _, rfl⟩ | ⟨hnewer, rfl⟩ | ⟨_, _, rfl⟩
    · exact Silent.of_same rfl rfl
    · rw [observeTerm_eq hnewer]
      exact ⟨rfl, _, rfl, rfl⟩
    · exact Silent.refl _

/-- A message without entries cuts the log in the first phase, any other one in the second,
if at all. -/
theorem rewrites_appendentriesScan {me kept scanned : RaftServer} {ae : MsgAppendentries}
    {rest : List Entry} (hkept : appendentriesKeepalive me ae = .ok kept)
    (hscanned : appendentriesScan kept (ae.prevLogIdx + 1) ae.entries = .ok (scanned, rest)) :
    ∃ idx, Rewrites me scanned idx [] := by
  rcases appendentriesKeepalive_ok hkept with rfl | ⟨hempty, hprev, _, _, rfl⟩
  · obtain ⟨held, _, _, ⟨_, rfl⟩ | ⟨_, _, _, _, _, rfl⟩ |
      ⟨_, _, existing, _, hat, _, _, rfl⟩⟩ := appendentriesScan_ok hscanned
    · exact ⟨_, (Silent.refl _).rewrites_nothing⟩
    · exact ⟨_, (Silent.refl _).rewrites_nothing⟩
    · exact ⟨_, rewrites_raftLogDelete (logEntryAt_eq_some hat).1⟩
  · rw [hempty, appendentriesScan, pure_eq_ok, Prod.mk.injEq] at hscanned
    rw [← hscanned.1]
    exact ⟨_, rewrites_raftLogDelete (by omega)⟩

theorem rewrites_appendentriesAccept {me me' : RaftServer} {node : Option Int}
    {ae : MsgAppendentries} {r : MsgAppendentriesResponse}
    (h : appendentriesAccept me node ae = .ok (me', r)) :
    ∃ idx entries, Rewrites me me' idx entries := by
  obtain ⟨kept, scanned, rest, hkept, hscanned, htail⟩ := appendentriesAccept_ok h
  obtain ⟨idx, hcut⟩ := rewrites_appendentriesScan hkept hscanned
  obtain ⟨taken, hnew⟩ := rewrites_appendentriesAppend scanned rest
  have happended := hcut.append hnew (by omega)
  rcases htail with ⟨_, rfl, _⟩ | ⟨_, mid, hmid, rfl, _⟩
  · exact ⟨idx, taken, happended⟩
  · refine ⟨idx, taken, happended.silent ?_⟩
    rcases appendentriesCommit_ok hmid with rfl | ⟨_, _, _, _, rfl⟩
    · exact Silent.of_same rfl rfl
    · exact Silent.of_same rfl rfl

theorem rewrites_raftRecvAppendentries {me me' : RaftServer} {node : Option Int}
    {ae : MsgAppendentries} {r : MsgAppendentriesResponse}
    (h : raftRecvAppendentries me node ae = .ok (me', r)) :
    ∃ idx entries, Rewrites me me' idx entries := by
  have hreset : Silent me { me with timeoutElapsed := 0 } := Silent.of_same rfl rfl
  rcases raftRecvAppendentries_ok h with ⟨_, rfl, _⟩ | ⟨mid, check, hterm, hcheck, hexit⟩
  · exact ⟨_, _, hreset.rewrites_nothing⟩
  have hmid : Silent me mid := hreset.trans (silent_appendentriesTerm hterm)
  rcases hexit with ⟨_, rfl, _⟩ | ⟨rfl, rfl, _⟩ | ⟨_, haccept⟩
  · exact ⟨_, _, hmid.rewrites_nothing⟩
  · rcases appendentriesPrev_ok hcheck with hwrong | ⟨hwrong, _⟩ | ⟨_, _, e, he, _⟩
    · cases hwrong
    · cases hwrong
    · exact ⟨_, _, hmid.rewrites (rewrites_raftLogDelete (logEntryAt_eq_some he).1)⟩
  · obtain ⟨idx, entries, hrewrites⟩ := rewrites_appendentriesAccept haccept
    exact ⟨idx, entries, hmid.rewrites hrewrites⟩

/-- An answer with success is for an index of the log. -/
theorem raftRecvAppendentries_success_le {me me' : RaftServer} {node : Option Int}
    {ae : MsgAppendentries} {r : MsgAppendentriesResponse}
    (h : raftRecvAppendentries me node ae = .ok (me', r)) (hsuccess : r.success = 1) :
    r.currentIdx ≤ me'.currentIdx := by
  rcases raftRecvAppendentries_ok h with ⟨_, _, rfl⟩ | ⟨mid, check, hterm, hcheck, hexit⟩
  · exact absurd hsuccess (by simp [appendentriesFail])
  rcases hexit with ⟨_, _, rfl⟩ | ⟨_, _, rfl⟩ | ⟨rfl, haccept⟩
  · exact absurd hsuccess (by simp [appendentriesFail])
  · exact absurd hsuccess (by simp [appendentriesFail])
  · have hprev := prevMatches_of_accepted hcheck
    obtain ⟨hpos, hmerged, _, _, hcurrent⟩ :=
      appendentriesAccept_success hprev hsuccess haccept
    rw [hcurrent, currentIdx, hmerged]
    exact prevLogIdx_add_le_merged hprev hpos

/-! ### The answers of `log_offer` -/

/-- The calls that put entries into the log. -/
inductive IntakeCall where
  | appendEntry (ety : Entry)
  | recvEntry (e : Entry)
  | recvAppendentries (node : Option Int) (ae : MsgAppendentries)
deriving Repr, DecidableEq

namespace IntakeCall

/-- The call, with the index that a response acknowledges. -/
def run (me : RaftServer) : IntakeCall → Except Fault (RaftServer × Option Int)
  | .appendEntry ety => .ok ((raftAppendEntry me ety).1, none)
  | .recvEntry e =>
      (raftRecvEntry me e).map fun result => (result.1, result.2.map MsgEntryResponse.idx)
  | .recvAppendentries node ae =>
      (raftRecvAppendentries me node ae).map fun result =>
        (result.1, if result.2.success = 1 then some result.2.currentIdx else none)

/-- The callbacks of the log that the call makes. -/
def events (me : RaftServer) (call : IntakeCall) : List LogEvent :=
  match call.run me with
  | .ok result => (callsSince me result.1).filterMap Callback.logEvent?
  | .error _ => []

theorem run_rewrites {me me' : RaftServer} {call : IntakeCall} {acked : Option Int}
    (h : call.run me = .ok (me', acked)) :
    (∃ idx entries, Rewrites me me' idx entries) ∧
      ∀ idx, acked = some idx → idx ≤ me'.currentIdx := by
  cases call with
  | appendEntry ety =>
      rw [run, Except.ok.injEq, Prod.mk.injEq] at h
      obtain ⟨rfl, rfl⟩ := h
      refine ⟨⟨_, _, rewrites_raftAppendEntry me ety⟩, ?_⟩
      intro idx hacked
      cases hacked
  | recvEntry e =>
      obtain ⟨⟨after, r⟩, hrun, heq⟩ := map_eq_ok.mp h
      rw [Prod.mk.injEq] at heq
      obtain ⟨rfl, rfl⟩ := heq
      refine ⟨⟨_, rewrites_raftRecvEntry hrun⟩, ?_⟩
      intro idx hacked
      obtain ⟨r, rfl, rfl⟩ := Option.map_eq_some_iff.mp hacked
      rcases raftRecvEntry_ok hrun with ⟨hwrong, _⟩ | ⟨_, mid, _, rfl, hr, _⟩
      · cases hwrong
      · rw [Option.some.inj hr]
        exact le_refl _
  | recvAppendentries node ae =>
      obtain ⟨⟨after, r⟩, hrun, heq⟩ := map_eq_ok.mp h
      rw [Prod.mk.injEq] at heq
      obtain ⟨rfl, rfl⟩ := heq
      refine ⟨rewrites_raftRecvAppendentries hrun, ?_⟩
      intro idx hacked
      simp only [Option.ite_none_right_eq_some, Option.some.injEq] at hacked
      obtain ⟨hsuccess, rfl⟩ := hacked
      exact raftRecvAppendentries_success_le hrun hsuccess

end IntakeCall

section Offering

variable {U : Type} (logOffer : U → Entry → Int → U × Int) (logPop : U → Entry → Int → U)

/-- A server with the user data of its callbacks, the entries that were offered and not
popped, each with what `log_offer` returned for it, and the index that the last call has
acknowledged. -/
structure Offering (U : Type) where
  me : RaftServer
  udata : U
  offers : List (Entry × Int)
  acked : Option Int

/-- The user data and the offers after callbacks. -/
def playEvents : U → List (Entry × Int) → List LogEvent → U × List (Entry × Int)
  | udata, offers, [] => (udata, offers)
  | udata, offers, .offer ety etyIdx :: rest =>
      playEvents (logOffer udata ety etyIdx).1
        (offers ++ [(ety, (logOffer udata ety etyIdx).2)]) rest
  | udata, offers, .pop ety etyIdx :: rest =>
      playEvents (logPop udata ety etyIdx) offers.dropLast rest
  | udata, offers, .poll _ _ :: rest => playEvents udata offers rest

/-- The entries that are offered, with the answers. -/
def answers : U → List LogEvent → List (Entry × Int)
  | _, [] => []
  | udata, .offer ety etyIdx :: rest =>
      (ety, (logOffer udata ety etyIdx).2) :: answers (logOffer udata ety etyIdx).1 rest
  | udata, .pop ety etyIdx :: rest => answers (logPop udata ety etyIdx) rest
  | udata, .poll _ _ :: rest => answers udata rest

/-- A call, with its callbacks.  What they return changes nothing. -/
def IntakeCall.step (s : Offering U) (call : IntakeCall) : Option (Offering U) :=
  (call.run s.me).toOption.map fun result =>
    let played := playEvents logOffer logPop s.udata s.offers (call.events s.me)
    { me := result.1, udata := played.1, offers := played.2, acked := result.2 }

/-- Every answer to an offer of the call is 0. -/
def IntakeCall.isStored (s : Offering U) (call : IntakeCall) : Bool :=
  (answers logOffer logPop s.udata (call.events s.me)).all fun offer => offer.2 = 0

/-- Every entry of the log is one for which `log_offer` has returned 0, and so is every entry
that was acknowledged. -/
structure Offering.Stored (s : Offering U) : Prop where
  log : s.offers.map Prod.fst = s.me.log
  returned : ∀ offer ∈ s.offers, offer.2 = 0
  acked : ∀ idx, s.acked = some idx → ∀ i, 1 ≤ i → i ≤ idx →
    ∃ ety, s.offers[(i - 1).toNat]? = some (ety, 0)

variable {logOffer logPop}

theorem playEvents_append (udata : U) (offers : List (Entry × Int)) (events later : List LogEvent) :
    playEvents logOffer logPop udata offers (events ++ later) =
      playEvents logOffer logPop (playEvents logOffer logPop udata offers events).1
        (playEvents logOffer logPop udata offers events).2 later := by
  induction events generalizing udata offers with
  | nil => rfl
  | cons event rest ih =>
      cases event with
      | offer ety etyIdx => exact ih _ _
      | poll ety etyIdx => exact ih _ _
      | pop ety etyIdx => exact ih _ _

theorem answers_append (udata : U) (offers : List (Entry × Int)) (events later : List LogEvent) :
    answers logOffer logPop udata (events ++ later) =
      answers logOffer logPop udata events ++
        answers logOffer logPop (playEvents logOffer logPop udata offers events).1 later := by
  induction events generalizing udata offers with
  | nil => rfl
  | cons event rest ih =>
      cases event with
      | offer ety etyIdx => exact congrArg _ (ih _ _)
      | poll ety etyIdx => exact ih _ _
      | pop ety etyIdx => exact ih _ _

/-- Pops take away the offers behind the cut, and are answered to nobody. -/
theorem playEvents_pops (udata : U) (offers : List (Entry × Int)) (idx : Int) :
    (playEvents logOffer logPop udata offers
        ((logDeletePops (offers.map Prod.fst) idx).filterMap Callback.logEvent?)).2 =
      offers.take (idx - 1).toNat ∧
    answers logOffer logPop udata
      ((logDeletePops (offers.map Prod.fst) idx).filterMap Callback.logEvent?) = [] := by
  induction offers using List.reverseRecOn generalizing udata with
  | nil =>
      obtain ⟨_, hpops⟩ := logDelete_of_length_le [] idx (Nat.zero_le _)
      rw [List.map_nil, hpops, List.take_nil]
      exact ⟨rfl, rfl⟩
  | append_singleton offers last ih =>
      rw [List.map_append, List.map_singleton]
      have hlength : (offers.map Prod.fst).length = offers.length := List.length_map _
      by_cases hle : (idx - 1).toNat ≤ offers.length
      · rw [logDeletePops_concat (by omega), List.take_append_of_le_length hle]
        have hrest := ih (logPop udata last.1 ((offers.map Prod.fst).length + 1))
        refine ⟨?_, hrest.2⟩
        rw [← hrest.1]
        change (playEvents logOffer logPop (logPop udata last.1 _) (offers ++ [last]).dropLast _).2 = _
        rw [List.dropLast_concat]
      · obtain ⟨_, hpops⟩ := logDelete_of_length_le (offers.map Prod.fst ++ [last.1])
          idx (by simp only [List.length_append, List.length_singleton]; omega)
        rw [hpops, List.take_of_length_le (by
          simp only [List.length_append, List.length_singleton]
          omega)]
        exact ⟨rfl, rfl⟩

/-- Offers are kept with their answers. -/
theorem playEvents_offersFrom (udata : U) (offers : List (Entry × Int)) (k : Nat)
    (entries : List Entry) :
    (playEvents logOffer logPop udata offers (offersFrom k entries)).2 =
        offers ++ answers logOffer logPop udata (offersFrom k entries) ∧
      (answers logOffer logPop udata (offersFrom k entries)).map Prod.fst = entries := by
  induction entries generalizing udata offers k with
  | nil => exact ⟨(List.append_nil _).symm, rfl⟩
  | cons ety rest ih =>
      obtain ⟨hplayed, hentries⟩ := ih (logOffer udata ety k).1
        (offers ++ [(ety, (logOffer udata ety k).2)]) (k + 1)
      constructor
      · refine hplayed.trans ?_
        rw [List.append_assoc]
        rfl
      · exact congrArg (ety :: ·) hentries

/-- After a call the offers are those before the cut and the new ones. -/
theorem Offering.Stored.step_offers {s s' : Offering U} (h : s.Stored) {call : IntakeCall}
    (hstep : call.step logOffer logPop s = some s') :
    ∃ k, s'.offers = s.offers.take k ++ answers logOffer logPop s.udata (call.events s.me) ∧
      s'.offers.map Prod.fst = s'.me.log ∧
      ∀ idx, s'.acked = some idx → idx ≤ s'.offers.length := by
  obtain ⟨⟨me', acked⟩, hrun, rfl⟩ := Option.map_eq_some_iff.mp hstep
  rw [toOption_eq_some] at hrun
  obtain ⟨⟨idx, entries, hone, hlog, calls, hcalls, hevents⟩, hacked⟩ :=
    IntakeCall.run_rewrites hrun
  have hcall : call.events s.me =
      (logDeletePops s.me.log idx).filterMap Callback.logEvent? ++
        offersFrom (logDelete s.me.log idx).length entries := by
    rw [IntakeCall.events, hrun, ← hevents]
    simp only [callsSince_append hcalls]
  obtain ⟨hpopped, hnone⟩ := @playEvents_pops U logOffer logPop
    s.udata s.offers idx
  rw [h.log] at hpopped hnone
  obtain ⟨hplayed, hentries⟩ := @playEvents_offersFrom U logOffer logPop
    (playEvents logOffer logPop s.udata s.offers
      ((logDeletePops s.me.log idx).filterMap Callback.logEvent?)).1
    (s.offers.take (idx - 1).toNat) (logDelete s.me.log idx).length entries
  have hanswers : answers logOffer logPop s.udata (call.events s.me) =
      answers logOffer logPop (playEvents logOffer logPop s.udata s.offers
        ((logDeletePops s.me.log idx).filterMap Callback.logEvent?)).1
        (offersFrom (logDelete s.me.log idx).length entries) := by
    rw [hcall, answers_append _ s.offers, hnone, List.nil_append]
  have hoffers : (playEvents logOffer logPop s.udata s.offers (call.events s.me)).2 =
      s.offers.take (idx - 1).toNat ++
        answers logOffer logPop s.udata (call.events s.me) := by
    rw [hanswers, hcall, playEvents_append, hpopped]
    exact hplayed
  have hfst : (playEvents logOffer logPop s.udata s.offers (call.events s.me)).2.map Prod.fst =
      me'.log := by
    rw [hoffers, List.map_append, List.map_take, h.log, hanswers, hentries, hlog]
    rfl
  refine ⟨(idx - 1).toNat, hoffers, hfst, ?_⟩
  intro i hi
  have hle := hacked i hi
  have hlength := congrArg List.length hfst
  rw [List.length_map] at hlength
  simp only [currentIdx, logGetCurrentIdx] at hle
  rw [hlength]
  exact hle

theorem Offering.Stored.step_iff {s s' : Offering U} (h : s.Stored) {call : IntakeCall}
    (hstep : call.step logOffer logPop s = some s') :
    s'.Stored ↔ call.isStored logOffer logPop s = true := by
  obtain ⟨k, hoffers, hlog, hacked⟩ := h.step_offers hstep
  rw [IntakeCall.isStored, List.all_eq_true]
  simp only [decide_eq_true_eq]
  constructor
  · intro hstored offer hoffer
    apply hstored.returned
    rw [hoffers]
    exact List.mem_append_right _ hoffer
  · intro hanswers
    have hreturned : ∀ offer ∈ s'.offers, offer.2 = 0 := by
      intro offer hoffer
      rw [hoffers] at hoffer
      rcases List.mem_append.mp hoffer with hold | hnew
      · exact h.returned offer (List.mem_of_mem_take hold)
      · exact hanswers offer hnew
    refine ⟨hlog, hreturned, ?_⟩
    intro idx hidx i hone hle
    have hlt : (i - 1).toNat < s'.offers.length := by
      have := hacked idx hidx
      omega
    refine ⟨(s'.offers[(i - 1).toNat]).1, ?_⟩
    rw [List.getElem?_eq_getElem hlt]
    have hzero := hreturned _ (List.getElem_mem hlt)
    rw [← hzero]

/-- Every entry in the log is stored, and every acknowledged one, exactly in the runs in which
`log_offer` returns 0 for all that it is offered. -/
theorem acknowledged_entries_stored_iff {start last : Offering U} {calls : List IntakeCall}
    (hstart : start.Stored)
    (hrun : Runs.run (IntakeCall.step logOffer logPop) start calls = some last) :
    (∀ n s, Runs.run (IntakeCall.step logOffer logPop) start (calls.take n) = some s →
        s.Stored) ↔
      Runs.Meets (IntakeCall.step logOffer logPop)
        (fun s call => call.isStored logOffer logPop s = true) start calls := by
  apply Runs.meets_iff_always Offering.Stored ?_ hstart hrun
  intro s s' call hs hstep
  exact hs.step_iff hstep

end Offering

/-- `raft_logentry_offer_cb`, with its return value. -/
def offerToDisk (env : Env) (disk : Disk) (ety : Entry) (etyIdx : Int) : Disk × Int :=
  (stored env disk ety etyIdx, if env.mapFull disk ety then -1 else 0)

/-- A server before its first entry, with the databases as they are created. -/
def blankOffering : Offering Disk where
  me := raftNew
  udata := Disk.blank
  offers := []
  acked := none

theorem blankOffering_stored : blankOffering.Stored :=
  ⟨rfl, by simp [blankOffering], by simp [blankOffering]⟩

/-- The leader sends two entries, of which the server has none, and then another in the place
of the second. -/
def twoThenOther : List IntakeCall :=
  [.recvAppendentries (some 2) ⟨1, 0, 0, 0, [⟨1, 7, .normal, []⟩, ⟨1, 8, .normal, []⟩]⟩,
    .recvAppendentries (some 2) ⟨2, 1, 1, 0, [⟨2, 9, .normal, []⟩]⟩]

theorem acknowledged_entries_stored_twoThenOther :
    ∃ last, Runs.run (IntakeCall.step (offerToDisk localEnv) fun disk _ _ => disk)
        blankOffering twoThenOther = some last ∧ last.acked = some 2 ∧ last.Stored := by
  have hview : (Runs.run (IntakeCall.step (offerToDisk localEnv) fun disk _ _ => disk)
      blankOffering twoThenOther).map Offering.acked = some (some 2) := by
    decide +kernel
  rw [Option.map_eq_some_iff] at hview
  obtain ⟨last, hrun, hacked⟩ := hview
  have hall := (acknowledged_entries_stored_iff blankOffering_stored hrun).mpr (by decide +kernel)
  exact ⟨last, hrun, hacked, hall twoThenOther.length last (by
    rw [List.take_length]
    exact hrun)⟩

/-- A machine whose map is full after the first entry. -/
def crampedEnv : Env :=
  { localEnv with mapFull := fun disk _ => disk.entries.records ≠ [] }

/-- The second of two entries is not stored, and the response acknowledges both. -/
theorem unstored_entry_acknowledged :
    ¬ ∀ (env : Env) (start last : Offering Disk) (calls : List IntakeCall), start.Stored →
      Runs.run (IntakeCall.step (offerToDisk env) fun disk _ _ => disk) start calls =
        some last → last.Stored := by
  intro hclaim
  have hview : (Runs.run (IntakeCall.step (offerToDisk crampedEnv) fun disk _ _ => disk)
      blankOffering (twoThenOther.take 1)).map (fun last => (last.offers, last.acked)) =
      some ([(⟨1, 7, .normal, []⟩, 0), (⟨1, 8, .normal, []⟩, -1)], some 2) := by
    decide +kernel
  rw [Option.map_eq_some_iff] at hview
  obtain ⟨last, hrun, heq⟩ := hview
  rw [Prod.mk.injEq] at heq
  have hstored := (hclaim crampedEnv _ last _ blankOffering_stored hrun).returned
    (⟨1, 8, .normal, []⟩, -1) (by rw [heq.1]; decide)
  exact absurd hstored (by decide)

end IdAllocator
