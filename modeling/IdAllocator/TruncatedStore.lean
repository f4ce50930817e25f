/-
The entries database beside the log in memory.  An append writes the two keys of
the entry; a truncation makes `mdb_pop` delete in a read-only transaction.
-/
import IdAllocator.LogCallbacks

namespace IdAllocator

open RaftServer Fallible Bytes

/-- The database holds the two keys of every entry of the log, and no other. -/
def KeysMatch (s : Site) : Prop :=
  ∀ key, (∃ r ∈ s.disk.entries.records, r.1 = key) ↔
    ∃ k < s.me.log.length, key = metaKey k ∨ key = dataKey k

section

variable (env : Env)

/-- After each of the operations the process goes on, and the database has the
keys of the log. -/
def StoreFollows (s : Site) (ops : List LogOp) : Prop :=
  ∀ n, ∃ s', Runs.run (LogOp.next env raftLogentryPopCb) s (ops.take n) = some s' ∧ KeysMatch s'

variable {env}

theorem storeFollows_nil {s : Site} : StoreFollows env s [] ↔ KeysMatch s := by
  simp [StoreFollows, Runs.run]

/-- One operation after the other. -/
theorem storeFollows_cons {s : Site} {op : LogOp} {ops : List LogOp} :
    StoreFollows env s (op :: ops) ↔ KeysMatch s ∧
      ∃ s', op.step env raftLogentryPopCb s = .ok s' ∧ StoreFollows env s' ops := by
  constructor
  · intro h
    obtain ⟨s₀, hrun₀, hs₀⟩ := h 0
    obtain ⟨s', hrun, _⟩ := h 1
    rw [List.take_zero, Runs.run, Option.some.injEq] at hrun₀
    rw [List.take_succ_cons, Runs.run, Option.bind_eq_some_iff] at hrun
    obtain ⟨mid, hmid, _⟩ := hrun
    refine ⟨hrun₀ ▸ hs₀, mid, toOption_eq_some.mp hmid, ?_⟩
    intro n
    obtain ⟨s'', hrun', hs''⟩ := h (n + 1)
    rw [List.take_succ_cons, Runs.run, hmid] at hrun'
    exact ⟨s'', hrun', hs''⟩
  · rintro ⟨hs, mid, hstep, hrest⟩ n
    cases n with
    | zero => exact ⟨s, rfl, hs⟩
    | succ n =>
        obtain ⟨s', hrun, hs'⟩ := hrest n
        refine ⟨s', ?_, hs'⟩
        rw [List.take_succ_cons, Runs.run, LogOp.next, hstep]
        exact hrun

/-! ### Appends -/

/-- The keys behind an entry that was stored. -/
theorem keysMatch_store {s s' : Site} (hs : KeysMatch s) {ety : Entry}
    (hlog : s'.me.log = s.me.log ++ [ety])
    (hdisk : s'.disk = raftLogentryOfferCb env.tpl s.disk ety s.me.log.length) :
    KeysMatch s' := by
  intro key
  have hlen : s'.me.log.length = s.me.log.length + 1 := by
    rw [hlog, List.length_append, List.length_singleton]
  rw [hdisk, raftLogentryOfferCb_eq, OrderedStore.exists_key_put_iff, OrderedStore.exists_key_put_iff,
    hs key, hlen]
  constructor
  · rintro (hdata | hmeta | ⟨k, hk, hkey⟩)
    · exact ⟨s.me.log.length, Nat.lt_succ_self _, Or.inr hdata⟩
    · exact ⟨s.me.log.length, Nat.lt_succ_self _, Or.inl hmeta⟩
    · exact ⟨k, Nat.lt_succ_of_lt hk, hkey⟩
  · rintro ⟨k, hk, hkey⟩
    rcases Nat.lt_succ_iff_lt_or_eq.mp hk with hlt | rfl
    · exact Or.inr (Or.inr ⟨k, hlt, hkey⟩)
    · rcases hkey with hmeta | hdata
      · exact Or.inr (Or.inl hmeta)
      · exact Or.inl hdata

/-- Twice the position stays below the range of an `int` while the position is
one. -/
theorem metaKey_inj {k n : Nat} (hk : k < 2 ^ 31) (hn : n < 2 ^ 31)
    (h : metaKey k = metaKey n) : k = n := by
  have hint := congrArg readInt h
  rw [metaKey, metaKey, readInt_intBytes, readInt_intBytes] at hint
  have hnat := congrArg BitVec.toNat hint
  rw [BitVec.toNat_ofNat, BitVec.toNat_ofNat] at hnat
  omega

theorem metaKey_ne_dataKey (k n : Nat) : metaKey k ≠ dataKey n := by
  intro h
  have hbit := readInt_metaKey k
  rw [h, readInt_dataKey] at hbit
  exact absurd hbit (by decide)

/-- An entry that is not stored is missed. -/
theorem not_keysMatch_full {s s' : Site} (hs : KeysMatch s) {ety : Entry}
    (hlog : s'.me.log = s.me.log ++ [ety]) (hdisk : s'.disk = s.disk)
    (hlen : s.me.log.length < 2 ^ 31) : ¬ KeysMatch s' := by
  intro h
  have hlast : s.me.log.length < s'.me.log.length := by
    rw [hlog, List.length_append, List.length_singleton]
    exact Nat.lt_succ_self _
  have hkey := (h (metaKey s.me.log.length)).mpr ⟨s.me.log.length, hlast, Or.inl rfl⟩
  rw [hdisk] at hkey
  obtain ⟨k, hk, hmeta | hdata⟩ := (hs (metaKey s.me.log.length)).mp hkey
  · exact absurd (metaKey_inj hlen (by omega) hmeta) (by omega)
  · exact metaKey_ne_dataKey _ _ hdata

/-! ### One operation -/

/-- A log with an entry has keys in the database, and to remove one of them is
refused. -/
theorem step_eq_mdbFatal {s : Site} {op : LogOp} (hs : KeysMatch s)
    (hremoved : op.removed s.me.log ≠ []) :
    op.step env raftLogentryPopCb s = .error (.mdbFatal .eacces) := by
  cases op with
  | append ety => exact absurd rfl hremoved
  | delete idx hidx =>
      apply LogOp.step_delete_error hremoved
      apply raftLogentryPopCb_eq_error
      have hlen : 0 < s.me.log.length := by
        apply List.length_pos_of_ne_nil
        intro hnil
        apply hremoved
        rw [hnil, LogOp.removed, List.drop_nil]
      obtain ⟨r, hr, _⟩ := (hs (metaKey 0)).mpr ⟨0, hlen, Or.inl rfl⟩
      exact List.ne_nil_of_mem hr

theorem removed_of_step {s s' : Site} {op : LogOp} (hs : KeysMatch s)
    (hstep : op.step env raftLogentryPopCb s = .ok s') : op.removed s.me.log = [] := by
  by_contra hremoves
  rw [step_eq_mdbFatal hs hremoves] at hstep
  cases hstep

theorem keysMatch_step {s s' : Site} {op : LogOp} (hs : KeysMatch s)
    (hroom : op.FindsRoom env s) (hremoved : op.removed s.me.log = [])
    (hstep : op.step env raftLogentryPopCb s = .ok s') : KeysMatch s' := by
  rcases LogOp.step_ok hstep with ⟨ety, rfl, _, hlog, _, hdisk⟩ |
    ⟨ety, me, rfl, hid, _, _, hlog, hdisk⟩ | ⟨idx, hidx, rfl, _, hnothing⟩
  · intro key
    rw [hlog, hdisk]
    exact hs key
  · rw [stored, hroom hid] at hdisk
    exact keysMatch_store hs hlog hdisk
  · rw [hnothing hremoved]
    exact hs

theorem findsRoom_of_step {s s' : Site} {op : LogOp} (hs : KeysMatch s)
    (hlen : s.me.log.length < 2 ^ 31) (hstep : op.step env raftLogentryPopCb s = .ok s')
    (hs' : KeysMatch s') : op.FindsRoom env s := by
  rcases LogOp.step_ok hstep with ⟨ety, rfl, hid, _⟩ | ⟨ety, me, rfl, _, _, _, hlog, hdisk⟩ |
    ⟨idx, hidx, rfl, _⟩
  · intro hne
    exact absurd hid hne
  · intro _
    by_contra hfull
    rw [stored, if_pos (by simpa using hfull)] at hdisk
    exact not_keysMatch_full hs hlog hdisk hlen hs'
  · trivial

/-! ### Whole runs -/

/-- The operation stores what it appends, and removes nothing. -/
def LogOp.Storable (env : Env) (s : Site) (op : LogOp) : Prop :=
  op.Offers env s ∧ op.FindsRoom env s ∧ op.removed s.me.log = []

instance LogOp.decidableStorable (env : Env) (s : Site) (op : LogOp) :
    Decidable (op.Storable env s) :=
  inferInstanceAs (Decidable (_ ∧ _ ∧ _))

theorem storeFollows_of_meets {s : Site} (hs : KeysMatch s) {ops : List LogOp}
    (hmeets : Runs.Meets (LogOp.next env raftLogentryPopCb) (LogOp.Storable env) s ops) :
    StoreFollows env s ops := by
  induction ops generalizing s with
  | nil => exact storeFollows_nil.mpr hs
  | cons op rest ih =>
      obtain ⟨⟨hoffers, hroom, hremoved⟩, hrest⟩ := hmeets
      obtain ⟨s', hstep⟩ := exists_step hoffers (Or.inl hremoved)
      have hs' := keysMatch_step hs hroom hremoved hstep
      exact storeFollows_cons.mpr ⟨hs, s', hstep,
        ih hs' (hrest s' (toOption_eq_some.mpr hstep))⟩

theorem log_length_step {s s' : Site} {op : LogOp}
    (hstep : op.step env raftLogentryPopCb s = .ok s') :
    s'.me.log.length ≤ s.me.log.length + 1 := by
  rcases LogOp.step_ok hstep with ⟨_, _, _, hlog, _⟩ | ⟨_, _, _, _, _, _, hlog, _⟩ |
    ⟨idx, _, _, hme, _⟩
  · rw [hlog]
    exact Nat.le_succ _
  · rw [hlog, List.length_append, List.length_singleton]
  · rw [hme]
    exact (List.length_take_le' _ _).trans (Nat.le_succ _)

/-- Positions are counted in an `int`, so there are no more than `2 ^ 31`. -/
theorem meets_of_storeFollows {s : Site} {ops : List LogOp} (h : StoreFollows env s ops)
    (hlen : s.me.log.length + ops.length ≤ 2 ^ 31) :
    Runs.Meets (LogOp.next env raftLogentryPopCb) (LogOp.Storable env) s ops := by
  induction ops generalizing s with
  | nil => trivial
  | cons op rest ih =>
      obtain ⟨hs, s', hstep, hrest⟩ := storeFollows_cons.mp h
      rw [List.length_cons] at hlen
      obtain ⟨s₀, hrun, hs'⟩ := hrest 0
      rw [List.take_zero, Runs.run, Option.some.injEq] at hrun
      have hroom := findsRoom_of_step hs (by omega) hstep (hrun ▸ hs')
      refine ⟨⟨offers_of_step hstep, hroom, removed_of_step hs hstep⟩, ?_⟩
      intro next hnext
      have hsame : s' = next := by
        rw [LogOp.next, hstep] at hnext
        exact Option.some.inj hnext
      have hgrows := log_length_step hstep
      exact hsame ▸ ih hrest (by omega)

/-- The database follows the log in the runs whose entries are all stored and in
which no truncation removes one, and in no others. -/
theorem store_follows_log {s : Site} (hs : KeysMatch s) (ops : List LogOp) :
    (Runs.Meets (LogOp.next env raftLogentryPopCb) (LogOp.Storable env) s ops →
      StoreFollows env s ops) ∧
    (s.me.log.length + ops.length ≤ 2 ^ 31 → StoreFollows env s ops →
      Runs.Meets (LogOp.next env raftLogentryPopCb) (LogOp.Storable env) s ops) :=
  ⟨storeFollows_of_meets hs, fun hlen h => meets_of_storeFollows h hlen⟩

end

/-- Server 1, on a machine with room that knows the address 127.0.0.1. -/
def localEnv : Env where
  tpl := metadataImage
  mapFull := fun _ _ => false
  uvIp4Addr := fun host => host = [49, 50, 55, 46, 48, 46, 48, 46, 49]
  nodeId := 1

/-- A server as it is created, with the databases as they are created. -/
def blankSite : Site where
  me := raftNew
  disk := Disk.blank

theorem blankSite_keysMatch : KeysMatch blankSite := by
  intro key
  simp [blankSite, Disk.blank, OrderedStore.empty, raftNew]

/-- An append, and a truncation behind the end. -/
theorem store_follows_log_append :
    StoreFollows localEnv blankSite [.append (bareEntry 8), .delete 2 (by decide)] :=
  (store_follows_log blankSite_keysMatch _).1 (by decide +kernel)

/-- The process ends when the entry is to be removed again. -/
theorem truncation_ends_process :
    KeysMatch blankSite ∧
    [LogOp.append (bareEntry 8), .delete 1 (by decide)].foldlM
        (LogOp.step localEnv raftLogentryPopCb) blankSite = .error (.mdbFatal .eacces) ∧
    ¬ StoreFollows localEnv blankSite [.append (bareEntry 8), .delete 1 (by decide)] := by
  refine ⟨blankSite_keysMatch, rfl, ?_⟩
  intro h
  obtain ⟨s, hrun, _⟩ := h 2
  have hends : (Runs.run (LogOp.next localEnv raftLogentryPopCb) blankSite
      [.append (bareEntry 8), .delete 1 (by decide)]).isNone := by
    decide +kernel
  rw [List.take_of_length_le (le_refl 2)] at hrun
  rw [hrun] at hends
  cases hends

end IdAllocator
