/-
The loop of `raft_apply_all`.

It looks at the two indices only, and does not see whether a round has applied
an entry.  What makes it end is that every committed index has an entry.
-/
import IdAllocator.CommittedPrefix
import IdAllocator.Lib.Loops

namespace IdAllocator

open RaftServer Fallible

/-- The condition of the loop of `raft_apply_all`. -/
def appliesMore (me : RaftServer) : Prop :=
  me.lastAppliedIdx < me.commitIdx

instance decidableAppliesMore : DecidablePred appliesMore :=
  fun me => inferInstanceAs (Decidable (me.lastAppliedIdx < me.commitIdx))

/-- A round of the loop: the result of `raft_apply_entry` is not looked at. -/
def applyRound (me : RaftServer) : Option RaftServer :=
  (Prod.fst <$> raftApplyEntry me).toOption

/-- The rounds are those of the loop of the model. -/
theorem raftApplyAllLoop_eq_ok {fuel : Nat} {me me' : RaftServer} :
    raftApplyAllLoop fuel me = .ok me' ↔
      ∃ n ≤ fuel, Loops.Rounds appliesMore applyRound n me me' := by
  rw [← Loops.run_eq_some_iff]
  induction fuel generalizing me with
  | zero =>
      unfold raftApplyAllLoop Loops.run
      by_cases hlt : me.lastAppliedIdx < me.commitIdx
      · rw [if_pos hlt, if_pos (show appliesMore me from hlt)]
        simp
      · rw [if_neg hlt, if_neg (show ¬ appliesMore me from hlt)]
        simp
  | succ fuel ih =>
      unfold raftApplyAllLoop Loops.run
      by_cases hlt : me.lastAppliedIdx < me.commitIdx
      · rw [if_pos hlt, if_pos (show appliesMore me from hlt), bind_eq_ok, Option.bind_eq_some_iff]
        simp only [← ih, applyRound, toOption_eq_some]
        constructor
        · rintro ⟨⟨mid, done⟩, hround, hrest⟩
          exact ⟨mid, by rw [hround]; rfl, hrest⟩
        · rintro ⟨mid, hround, hrest⟩
          obtain ⟨done, hround⟩ := fst_map_eq_ok hround
          exact ⟨(mid, done), hround, hrest⟩
      · rw [if_neg hlt, if_neg (show ¬ appliesMore me from hlt), pure_eq_ok, Option.some.injEq]

section Applying

variable {me : RaftServer} {f : Fault}

/-- The next entry to apply is there, since what is committed is in the log. -/
theorem Ledger.next_entry (h : Ledger me) (hlt : me.lastAppliedIdx < me.commitIdx) :
    ∃ ety, logEntryAt me.log (me.lastAppliedIdx + 1) = some ety := by
  have hnonneg := h.applied_nonneg
  have hle := h.commit_le_current
  simp only [currentIdx, logGetCurrentIdx] at hle
  have hat : me.lastAppliedIdx.toNat < me.log.length := by omega
  refine ⟨me.log[me.lastAppliedIdx.toNat], ?_⟩
  rw [logEntryAt, if_pos (by omega), add_sub_cancel_right]
  exact List.getElem?_eq_getElem hat

/-- A round of `raft_apply_all` applies one entry. -/
theorem Ledger.raftApplyEntry_applies (h : Ledger me) (hlt : me.lastAppliedIdx < me.commitIdx) :
    ∃ me', raftApplyEntry me = .ok (me', true) ∧ Ledger me' ∧
      me'.lastAppliedIdx = me.lastAppliedIdx + 1 ∧ me'.commitIdx = me.commitIdx := by
  obtain ⟨ety, hety⟩ := h.next_entry hlt
  have hnonneg := h.applied_nonneg
  have hfound := @raftGetEntryFromIdx_eq me (me.lastAppliedIdx + 1) (by omega)
  rw [hety] at hfound
  have happlies : ∃ me', raftApplyEntry me = .ok (me', true) := by
    unfold raftApplyEntry
    rw [if_neg (ne_of_lt hlt)]
    simp only [hfound, bind_eq_ok]
    by_cases hcfg : me.lastAppliedIdx + 1 = me.votingCfgChangeLogIdx
    · exact ⟨_, _, rfl, if_pos hcfg⟩
    · exact ⟨_, _, rfl, if_neg hcfg⟩
  obtain ⟨me', hcall⟩ := happlies
  refine ⟨me', hcall, (advances_raftApplyEntry h hcall).ledger, ?_⟩
  rcases raftApplyEntry_ok hcall with ⟨hfalse, _⟩ | ⟨_, _, _, _, rfl⟩
  · cases hfalse
  · exact ⟨rfl, rfl⟩

theorem Ledger.raftApplyEntry_ne_error (h : Ledger me) : raftApplyEntry me ≠ .error f := by
  intro hstops
  rcases lt_or_eq_of_le h.applied_le_commit with hlt | heq
  · obtain ⟨_, hcall, _⟩ := h.raftApplyEntry_applies hlt
    rw [hcall] at hstops
    cases hstops
  · unfold raftApplyEntry at hstops
    rw [if_pos heq] at hstops
    exact pure_ne_error hstops

/-- As many rounds as there are entries to apply, and none left behind them. -/
theorem Ledger.rounds (h : Ledger me) :
    ∃ me', Loops.Rounds appliesMore applyRound (me.commitIdx - me.lastAppliedIdx).toNat me me' ∧
      me'.commitIdx = me.commitIdx ∧ me'.lastAppliedIdx = me.commitIdx := by
  have hloop : ∃ me', Loops.Rounds appliesMore applyRound
      (me.commitIdx - me.lastAppliedIdx).toNat me me' ∧
        Ledger me' ∧ me'.commitIdx = me.commitIdx := by
    apply Loops.exists_rounds_eq (fun mid => Ledger mid ∧ mid.commitIdx = me.commitIdx)
      (fun mid => (mid.commitIdx - mid.lastAppliedIdx).toNat) ?_ ?_ ⟨h, rfl⟩
    · intro mid _
      unfold appliesMore
      omega
    · rintro mid ⟨hmid, hsame⟩ hmore
      obtain ⟨next, hcall, hnext, happlied, hkept⟩ := hmid.raftApplyEntry_applies hmore
      refine ⟨next, ?_, ⟨hnext, hkept.trans hsame⟩, ?_⟩
      · rw [applyRound, hcall]
        rfl
      · unfold appliesMore at hmore
        rw [hkept, happlied]
        omega
  obtain ⟨me', hrounds, hledger, hcommit⟩ := hloop
  have hends := hrounds.not_cond
  have hle := hledger.applied_le_commit
  unfold appliesMore at hends
  exact ⟨me', hrounds, hcommit, by omega⟩

theorem Ledger.raftApplyAll_ne_error (h : Ledger me) : raftApplyAll me ≠ .error f := by
  obtain ⟨me', hrounds, _⟩ := h.rounds
  have hcall : raftApplyAll me = .ok me' := raftApplyAllLoop_eq_ok.mpr ⟨_, le_refl _, hrounds⟩
  rw [hcall]
  simp

end Applying

/-- In every state that a run of calls reaches, the loop of `raft_apply_all` takes one round
for each entry that is committed and not applied, and ends when there is none left. -/
theorem apply_all_terminates {start me : RaftServer} {calls : List Call} (hstart : Unused start)
    (hrun : calls.foldlM Call.run start = .ok me) :
    ∃ (n : Nat) (me' : RaftServer), n = me.commitIdx - me.lastAppliedIdx ∧
      Loops.Rounds appliesMore applyRound n me me' ∧ raftApplyAll me = .ok me' ∧
      me'.lastAppliedIdx = me'.commitIdx ∧ me'.commitIdx = me.commitIdx := by
  have hledger := runCalls_ledger hstart hrun
  obtain ⟨me', hrounds, hcommit, happlied⟩ := hledger.rounds
  have hle := hledger.applied_le_commit
  refine ⟨_, me', Int.toNat_of_nonneg (by omega), hrounds,
    raftApplyAllLoop_eq_ok.mpr ⟨_, le_refl _, hrounds⟩, ?_, hcommit⟩
  rw [happlied, hcommit]

theorem apply_all_terminates_soleLeader :
    ∃ (me me' : RaftServer),
      [Call.recvEntry ⟨0, 7, .normal, [1]⟩, .recvEntry ⟨0, 8, .normal, [2]⟩].foldlM
        Call.run soleLeader = .ok me ∧
      Loops.Rounds appliesMore applyRound 2 me me' ∧ raftApplyAll me = .ok me' ∧
      me'.lastAppliedIdx = 2 := by
  obtain ⟨n, me', hn, hrounds, hcall, happlied, hcommit⟩ := @apply_all_terminates soleLeader _
    [.recvEntry ⟨0, 7, .normal, [1]⟩, .recvEntry ⟨0, 8, .normal, [2]⟩] ⟨rfl, rfl, rfl, rfl⟩ rfl
  obtain rfl : n = 2 := Int.ofNat.inj hn
  exact ⟨_, me', rfl, hrounds, hcall, happlied.trans hcommit⟩

end IdAllocator
