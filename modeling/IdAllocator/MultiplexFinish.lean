/-
When the workers and the dispatcher come to an end, `dispatcher.c` and
`worker.c`.

A worker that gives its connection up before the socket has been written to it
leaves the connection in the backlog, and the dispatcher fails on it.  Without
this every run can go on to its end.
-/
import IdAllocator.Multiplex

namespace IdAllocator

namespace Multiplex

variable {n : Nat} {m m' : Multiplex} {action : MultiplexAction}

/-- A connection finds room in the backlog, and a worker waits until the socket has been written
to it. -/
def Orderly (m : Multiplex) : MultiplexAction → Prop
  | .wake _ => m.backlog.length < BACKLOG
  | .giveUp i => m.backlog.length < BACKLOG ∧ m.passed i = m.attempt i
  | _ => True

instance decidableOrderly (m : Multiplex) (action : MultiplexAction) :
    Decidable (Orderly m action) := by
  cases action <;> unfold Orderly <;> infer_instance

/-! ### Runs without such a worker -/

/-- The connections in the backlog are those that their workers wait on. -/
structure Live (m : Multiplex) : Prop where
  fault : m.fault = none
  current : ∀ conn ∈ m.backlog, m.phase conn.1 = .asking ∧ m.attempt conn.1 = conn.2 ∧
    m.passed conn.1 < conn.2
  nodup : (m.backlog.map Prod.fst).Nodup
  passed : ∀ i, (i, m.attempt i) ∈ m.backlog ∨ m.passed i = m.attempt i

theorem Live.init : Live init where
  fault := rfl
  current conn hconn := by cases hconn
  nodup := List.nodup_nil
  passed i := Or.inr rfl

theorem Live.passed_le (h : Live m) (i : Nat) : m.passed i ≤ m.attempt i := by
  obtain hqueued | hpassed := h.passed i
  · exact (h.current _ hqueued).2.2.le
  · exact hpassed.le

/-- A worker that is not on its way has no connection. -/
theorem Live.not_queued (h : Live m) {i : Nat}
    (hidle : m.phase i ≠ .asking ∨ m.passed i = m.attempt i) :
    ∀ conn ∈ m.backlog, conn.1 ≠ i := by
  rintro conn hconn rfl
  obtain ⟨hphase, hattempt, hpassed⟩ := h.current conn hconn
  obtain hidle | hidle := hidle
  · exact hidle hphase
  · omega

/-- A worker goes on that has no connection in the backlog. -/
theorem Live.setPhase (h : Live m) {i : Nat} {phase : WorkerPhase}
    (hout : ∀ conn ∈ m.backlog, conn.1 ≠ i) : Live (m.setPhase i phase) where
  fault := h.fault
  current conn hconn := by
    rw [setPhase_of_ne m phase (hout conn hconn)]
    exact h.current conn hconn
  nodup := h.nodup
  passed := h.passed

/-- A worker connects. -/
theorem Live.connect (h : Live m) {i : Nat} (hphase : m.phase i = .asking)
    (hout : ∀ conn ∈ m.backlog, conn.1 ≠ i) (hpipe : m.pipe = .listening)
    (hroom : m.backlog.length < BACKLOG) : Live (m.connect i) := by
  rw [Multiplex.connect, if_pos ⟨hpipe, hroom⟩]
  have hpassed := h.passed_le i
  refine ⟨h.fault, ?_, ?_, ?_⟩
  · intro conn hconn
    obtain hold | hnew := List.mem_append.mp hconn
    · simpa [Function.update_of_ne (hout conn hold)] using h.current conn hold
    · obtain rfl := List.mem_singleton.mp hnew
      exact ⟨hphase, Function.update_self _ _ _, Nat.lt_succ_of_le hpassed⟩
  · rw [List.map_append, List.map_singleton, List.nodup_append]
    refine ⟨h.nodup, List.nodup_singleton i, ?_⟩
    intro j hj k hk
    obtain ⟨conn, hconn, rfl⟩ := List.mem_map.mp hj
    exact List.mem_singleton.mp hk ▸ hout conn hconn
  · intro j
    by_cases hji : j = i
    · subst hji
      simp
    · simpa [Function.update_of_ne hji, hji] using h.passed j

/-- The next connection is accepted. -/
theorem Live.accept (h : Live m) {conn : Nat × Nat} {rest : List (Nat × Nat)}
    (hbacklog : m.backlog = conn :: rest) : Live (m.accept conn rest) := by
  obtain ⟨hphase, hattempt, hpassed⟩ := h.current conn (by simp [hbacklog])
  have hnodup := h.nodup
  rw [hbacklog, List.map_cons, List.nodup_cons] at hnodup
  have hothers : ∀ other ∈ rest, other.1 ≠ conn.1 := fun other hother hsame =>
    hnodup.1 (hsame ▸ List.mem_map_of_mem hother)
  rw [Multiplex.accept, if_pos ⟨hphase, hattempt⟩]
  refine ⟨h.fault, ?_, hnodup.2, ?_⟩
  · intro other hother
    simpa [Function.update_of_ne (hothers other hother)] using
      h.current other (by simp [hbacklog, hother])
  · intro j
    by_cases hjc : j = conn.1
    · subst hjc
      exact Or.inr (by simp [hattempt])
    · have := h.passed j
      rw [hbacklog] at this
      simpa [Function.update_of_ne hjc, Prod.ext_iff, hjc] using this

/-- As long as a worker has not got the socket the dispatcher listens. -/
theorem Sound.listening (h : Sound n m) {i : Nat} (hi : i < m.dispatcher.posted n)
    (hphase : (m.phase i).present = 0) : m.pipe = .listening := by
  cases hpipe : m.pipe with
  | absent =>
      rw [h.woken.absent.mp hpipe] at hi
      exact absurd hi (Nat.not_lt_zero i)
  | listening => rfl
  | closed =>
      obtain hsettled | hsettled :=
        h.counted.settled hpipe i (hi.trans_le h.woken.posted_le)
      all_goals
        rw [hsettled] at hphase
        cases hphase

theorem Live.step (h : Live m) (hs : Sound n m) (horderly : Orderly m action)
    (hm : Moves n m action m') : Live m' := by
  cases hm with
  | accept conn rest hd hpipe hbacklog => exact h.accept hbacklog
  | wake i hi hphase hsem =>
      have hout := h.not_queued (i := i) (Or.inl (by simp [hphase]))
      have hpipe := hs.listening (hs.woken.posted_of_sem hsem) (by rw [hphase]; rfl)
      have hwoken : Live { m with sem := Function.update m.sem i (m.sem i - 1) } :=
        ⟨h.fault, h.current, h.nodup, h.passed⟩
      exact (hwoken.setPhase hout).connect (setPhase_self _ i _) hout hpipe horderly
  | receive i hphase hpassed => exact h.setPhase (h.not_queued (Or.inr hpassed))
  | giveUp i hphase =>
      have hposted := hs.woken.woken i (by simp [hphase])
      exact h.connect hphase (h.not_queued (Or.inr horderly.2))
        (hs.listening hposted (by rw [hphase]; rfl)) horderly.1
  | lock i hphase hlock =>
      have hnext : Live (m.setPhase i .locked) :=
        h.setPhase (h.not_queued (Or.inl (by simp [hphase])))
      exact ⟨hnext.fault, hnext.current, hnext.nodup, hnext.passed⟩
  | count i hphase =>
      have hnext : Live (m.setPhase i .counted) :=
        h.setPhase (h.not_queued (Or.inl (by simp [hphase])))
      exact ⟨hnext.fault, hnext.current, hnext.nodup, hnext.passed⟩
  | close i hphase hlast =>
      have hnext : Live (m.setPhase i .leaving) :=
        h.setPhase (h.not_queued (Or.inl (by simp [hphase])))
      exact ⟨hnext.fault, hnext.current, hnext.nodup, hnext.passed⟩
  | pass i hphase hlast =>
      exact h.setPhase (h.not_queued (Or.inl (by simp [hphase])))
  | unlock i hphase =>
      have hnext : Live (m.setPhase i .serving) :=
        h.setPhase (h.not_queued (Or.inl (by simp [hphase])))
      exact ⟨hnext.fault, hnext.current, hnext.nodup, hnext.passed⟩
  | _ => exact ⟨h.fault, h.current, h.nodup, h.passed⟩

/-! ### Runs that cannot come to an end -/

/-- The next connection of a worker that the dispatcher comes to is one that it has given up. -/
def Stale (m : Multiplex) (i : Nat) : Prop :=
  m.phase i = .asking ∧ m.passed i < m.attempt i ∧
    ∃ k, m.backlog.lookup i = some k ∧ k < m.attempt i

/-- The process has failed, or it will when the dispatcher comes to such a connection. -/
def Doomed (m : Multiplex) : Prop :=
  m.fault ≠ none ∨ ∃ i, m.Stale i

theorem Stale.connect {i : Nat} (h : Stale m i) (j : Nat) : (m.connect j).Doomed := by
  obtain ⟨hphase, hpassed, k, hlookup, hless⟩ := h
  unfold Multiplex.connect
  split
  · have hle : m.attempt i ≤ Function.update m.attempt j (m.attempt j + 1) i := by
      by_cases hij : i = j
      · subst hij
        simp
      · simp [Function.update_of_ne hij]
    refine Or.inr ⟨i, hphase, hpassed.trans_le hle, k, ?_, hless.trans_le hle⟩
    rw [List.lookup_append, hlookup]
    rfl
  · exact Or.inl (by simp)

theorem Stale.setPhase {i j : Nat} (h : Stale m i) (phase : WorkerPhase) (hj : i ≠ j) :
    Stale (m.setPhase j phase) i :=
  ⟨(setPhase_of_ne m phase hj).trans h.1, h.2⟩

theorem Stale.accept {i : Nat} (h : Stale m i) {conn : Nat × Nat} {rest : List (Nat × Nat)}
    (hbacklog : m.backlog = conn :: rest) : (m.accept conn rest).Doomed := by
  obtain ⟨hphase, hpassed, k, hlookup, hless⟩ := h
  unfold Multiplex.accept
  split
  · rename_i hcurrent
    rw [hbacklog, List.lookup_cons] at hlookup
    have hij : i ≠ conn.1 := by
      rintro rfl
      simp at hlookup
      omega
    refine Or.inr ⟨i, hphase, ?_, k, ?_, hless⟩
    · simpa [Function.update_of_ne hij] using hpassed
    · have hne : (i == conn.1) = false := by simpa using hij
      rw [hne] at hlookup
      exact hlookup
  · exact Or.inl (by simp)

theorem Doomed.step (h : m.Doomed) (hstep : step n m action = some m') : m'.Doomed := by
  obtain ⟨hfault, hm⟩ := step_moves hstep
  obtain hfailed | ⟨i, hstale⟩ := h
  · exact absurd hfault hfailed
  have hother : ∀ {j : Nat}, m.phase j ≠ .asking → i ≠ j := by
    rintro j hphase rfl
    exact hphase hstale.1
  cases hm with
  | accept conn rest hd hpipe hbacklog => exact hstale.accept hbacklog
  | wake j hj hphase hsem =>
      have hwoken : Stale { m with sem := Function.update m.sem j (m.sem j - 1) } i := hstale
      exact (hwoken.setPhase .asking (hother (by simp [hphase]))).connect j
  | receive j hphase hpassed =>
      have hij : i ≠ j := by
        rintro rfl
        exact hstale.2.1.ne hpassed
      exact Or.inr ⟨i, hstale.setPhase _ hij⟩
  | giveUp j hphase => exact hstale.connect j
  | lock j hphase hlock => exact Or.inr ⟨i, hstale.setPhase .locked (hother (by simp [hphase]))⟩
  | count j hphase => exact Or.inr ⟨i, hstale.setPhase .counted (hother (by simp [hphase]))⟩
  | close j hphase hlast => exact Or.inr ⟨i, hstale.setPhase .leaving (hother (by simp [hphase]))⟩
  | pass j hphase hlast => exact Or.inr ⟨i, hstale.setPhase _ (hother (by simp [hphase]))⟩
  | unlock j hphase => exact Or.inr ⟨i, hstale.setPhase .serving (hother (by simp [hphase]))⟩
  | _ => exact Or.inr ⟨i, hstale⟩

/-- A connection that finds no room ends the process. -/
theorem doomed_of_full (m : Multiplex) (i : Nat) (hfull : ¬m.backlog.length < BACKLOG) :
    (m.connect i).Doomed := by
  rw [Multiplex.connect, if_neg fun hroom => hfull hroom.2]
  exact Or.inl (by simp)

theorem Live.broken (h : Live m) (hbroken : ¬Orderly m action) (hm : Moves n m action m') :
    m'.Doomed := by
  cases hm with
  | wake i hi hphase hsem => exact doomed_of_full _ i hbroken
  | giveUp i hphase =>
      by_cases hroom : m.backlog.length < BACKLOG
      · have hwaits : m.passed i ≠ m.attempt i := fun hpassed => hbroken ⟨hroom, hpassed⟩
        have hqueued := (h.passed i).resolve_right hwaits
        have hpassed := (h.current _ hqueued).2.2
        unfold Multiplex.connect
        split
        · refine Or.inr ⟨i, hphase, ?_, ?_⟩
          · simpa using Nat.lt_succ_of_lt hpassed
          · cases hlookup : m.backlog.lookup i with
            | none =>
                have := List.lookup_eq_none_iff.mp hlookup _ hqueued
                simp at this
            | some k =>
                obtain ⟨before, after, hsplit, -⟩ := List.lookup_eq_some_iff.mp hlookup
                have hk : m.attempt i = k := (h.current (i, k) (by simp [hsplit])).2.1
                refine ⟨k, ?_, ?_⟩
                · rw [List.lookup_append, hlookup]
                  rfl
                · simp [hk]
        · exact Or.inl (by simp)
      · exact doomed_of_full m i hroom
  | _ => exact absurd trivial hbroken

/-- The dispatcher has returned, in a process that lives. -/
def Finished (m : Multiplex) : Prop :=
  m.dispatcher = .done ∧ m.fault = none

/-- A process that is doomed does not come to its end. -/
theorem Finished.not_doomed (h : m.Finished) (hs : Sound n m) : ¬m.Doomed := by
  rintro (hfailed | ⟨i, hphase, -⟩)
  · exact hfailed h.2
  · have hi : i < n := hs.woken.lt (by simp [hphase])
    have hserving := hs.all_serve (Or.inr h.1) hi
    rw [hphase] at hserving
    cases hserving

/-! ### What is left to do -/

/-- The steps of the dispatcher. -/
def dispatcherSteps (n : Nat) : DispatcherPhase → Nat
  | .starting => n + 5
  | .posting i => n + 4 - i
  | .polling => 2
  | .running => 3
  | .left => 1
  | .done => 0

/-- The steps of a worker, with those that its connection takes. -/
def workerSteps : WorkerPhase → Nat
  | .waiting => 10
  | .asking => 5
  | .ready => 4
  | .locked => 3
  | .counted => 2
  | .leaving => 1
  | .serving => 0

/-- A connection is accepted and closed, and the dispatcher takes the lock for it. -/
def size (n : Nat) (m : Multiplex) : Nat :=
  dispatcherSteps n m.dispatcher + total workerSteps m.phase n + 4 * m.backlog.length + 2 * m.peers

/-- What holds in the runs that can come to their end. -/
structure Healthy (n : Nat) (m : Multiplex) : Prop where
  sound : Sound n m
  live : Live m

theorem Healthy.step (h : Healthy n m) (horderly : Orderly m action)
    (hstep : step n m action = some m') : Healthy n m' :=
  ⟨h.sound.step hstep, h.live.step h.sound horderly (step_moves hstep).2⟩

/-- The run can go on to states that satisfy `post`. -/
def CanGoOn (n : Nat) (m : Multiplex) (post : Multiplex → Prop) : Prop :=
  Runs.CanReach (step n) Orderly m post

/-- A step that leaves less to do. -/
theorem Healthy.less (h : Healthy n m) (hm : Moves n m action m') (horderly : Orderly m action)
    (hless : m'.size n < m.size n) :
    CanGoOn n m fun s => s.Finished ∨ (Healthy n s ∧ s.size n < m.size n) := by
  have hstep := hm.step h.live.fault
  exact Runs.CanReach.head horderly hstep
    (Runs.CanReach.here (Or.inr ⟨h.step horderly hstep, hless⟩))

theorem total_fewer {i : Nat} (hi : i < n) {phase : WorkerPhase} (k : Nat)
    (hless : workerSteps phase + k = workerSteps (m.phase i)) :
    total workerSteps (m.setPhase i phase).phase n + k = total workerSteps m.phase n := by
  have : total workerSteps (m.setPhase i phase).phase n + workerSteps (m.phase i) =
      total workerSteps m.phase n + workerSteps phase := total_update workerSteps m.phase phase hi
  omega

/-- The dispatcher is in its loop. -/
theorem Healthy.running (h : Healthy n m) (hd : m.dispatcher = .running) :
    ∃ action m', Moves n m action m' ∧ Orderly m action ∧ m'.size n < m.size n ∧
      (m.backlog ≠ [] ∨ m.pipe = .closed → m'.size n + 1 < m.size n) := by
  by_cases hnext : m.pipe = .listening ∧ m.backlog ≠ []
  · obtain ⟨conn, rest, hbacklog⟩ := List.exists_cons_of_ne_nil hnext.2
    obtain ⟨hphase, hattempt, -⟩ := h.live.current conn (by simp [hbacklog])
    have hsize : (m.accept conn rest).size n + 1 < m.size n := by
      rw [Multiplex.accept, if_pos ⟨hphase, hattempt⟩]
      simp only [size, hbacklog, List.length_cons]
      omega
    exact ⟨.accept, _, .accept conn rest hd hnext.1 hbacklog, trivial, by omega, fun _ => hsize⟩
  · by_cases hpeers : 0 < m.peers
    · have hsize : size n { m with peers := m.peers - 1 } + 1 < m.size n := by
        simp only [size]
        omega
      exact ⟨.written, _, .written hd hpeers, trivial, by omega, fun _ => hsize⟩
    · by_cases hpipe : m.pipe = .listening
      · have hempty : m.backlog = [] := by
          by_contra hne
          exact hnext ⟨hpipe, hne⟩
        refine ⟨.runEnds, _, .pollAgain hd (Or.inl hpipe), trivial, ?_, ?_⟩
        · simp only [size, hd, dispatcherSteps]
          omega
        · rintro (hne | hclosed)
          · exact absurd hempty hne
          · rw [hpipe] at hclosed
            cases hclosed
      · have hsize : size n { m with dispatcher := .left } + 1 < m.size n := by
          simp only [size, hd, dispatcherSteps]
          omega
        exact ⟨.runEnds, _, .leave hd (not_or.mpr ⟨hpipe, hpeers⟩), trivial, by omega,
          fun _ => hsize⟩

/-- The dispatcher takes the lock for something that it has to do. -/
theorem Healthy.acquire (h : Healthy n m) (hd : m.dispatcher = .polling) (hlock : m.lock = none)
    (htodo : m.backlog ≠ [] ∨ m.pipe = .closed) :
    CanGoOn n m fun s => s.Finished ∨ (Healthy n s ∧ s.size n < m.size n) := by
  have hm : Moves n m .acquire _ := .acquire hd hlock
  have hstep := hm.step h.live.fault
  have horderly : Orderly m .acquire := trivial
  have hnext := h.step horderly hstep
  obtain ⟨action, m', hm', horderly', -, hless⟩ := hnext.running rfl
  have hstep' := hm'.step hnext.live.fault
  have hsize := hless htodo
  apply Runs.CanReach.head horderly hstep
  apply Runs.CanReach.head horderly' hstep'
  refine Runs.CanReach.here (Or.inr ⟨hnext.step horderly' hstep', ?_⟩)
  simp only [size, hd, dispatcherSteps] at hsize ⊢
  omega

/-- The dispatcher is between two rounds of its loop, and nobody has the lock. -/
theorem Healthy.polling (h : Healthy n m) (hpos : 0 < n) (hd : m.dispatcher = .polling)
    (hlock : m.lock = none) :
    CanGoOn n m fun s => s.Finished ∨ (Healthy n s ∧ s.size n < m.size n) := by
  by_cases htodo : m.backlog ≠ [] ∨ m.pipe = .closed
  · exact h.acquire hd hlock htodo
  obtain ⟨hempty, hopen⟩ := not_or.mp htodo
  have hempty : m.backlog = [] := not_not.mp hempty
  have hout := (h.sound.locked.free hlock).2
  have hmissing : m.nconnected ≠ n := by
    intro hall
    obtain hclosed | ⟨i, hi⟩ := h.sound.counted.last hall hpos
    · exact hopen hclosed
    · have := hout i
      rw [hi] at this
      cases this
  rw [h.sound.counted.connected, Ne, total_present_eq] at hmissing
  push Not at hmissing
  obtain ⟨i, hi, hphase⟩ := hmissing
  cases hwhere : m.phase i with
  | waiting =>
      have hposted : i < m.dispatcher.posted n := by
        rw [hd]
        exact hi
      have hsem : 0 < m.sem i := by
        rw [h.sound.woken.sem i, if_pos ⟨hwhere, hposted⟩]
        exact Nat.one_pos
      have hpipe := h.sound.listening hposted (by rw [hwhere]; rfl)
      have hroom : m.backlog.length < BACKLOG := by
        rw [hempty]
        decide
      apply h.less (.wake i hi hwhere hsem) hroom
      have hless : total workerSteps (m.setPhase i .asking).phase n + 5 = _ :=
        total_fewer hi 5 (by rw [hwhere]; rfl)
      rw [Multiplex.connect, if_pos ⟨hpipe, hroom⟩]
      simp only [size, setPhase, List.length_append, List.length_singleton] at hless ⊢
      omega
  | asking =>
      have hpassed : m.passed i = m.attempt i :=
        (h.live.passed i).resolve_left (by simp [hempty])
      apply h.less (.receive i hwhere hpassed) trivial
      have hless : total workerSteps (m.setPhase i .ready).phase n + 1 = _ :=
        total_fewer hi 1 (by rw [hwhere]; rfl)
      simp only [size, setPhase] at hless ⊢
      omega
  | ready =>
      apply h.less (.lock i hwhere hlock) trivial
      have hless : total workerSteps (m.setPhase i .locked).phase n + 1 = _ :=
        total_fewer hi 1 (by rw [hwhere]; rfl)
      simp only [size, setPhase] at hless ⊢
      omega
  | serving =>
      rw [hwhere] at hphase
      exact absurd rfl hphase
  | locked | counted | leaving =>
      have hinside := hout i
      rw [hwhere] at hinside
      cases hinside

/-- A worker has the lock. -/
theorem Healthy.inside (h : Healthy n m) {i : Nat} (hinside : (m.phase i).inside = true) :
    CanGoOn n m fun s => s.Finished ∨ (Healthy n s ∧ s.size n < m.size n) := by
  have hi : i < n := by
    apply h.sound.woken.lt
    intro hwaiting
    rw [hwaiting] at hinside
    cases hinside
  cases hwhere : m.phase i with
  | locked =>
      apply h.less (.count i hwhere) trivial
      have hless : total workerSteps (m.setPhase i .counted).phase n + 1 = _ :=
        total_fewer hi 1 (by rw [hwhere]; rfl)
      simp only [size, setPhase] at hless ⊢
      omega
  | counted =>
      have hless : total workerSteps (m.setPhase i .leaving).phase n + 1 = _ :=
        total_fewer hi 1 (by rw [hwhere]; rfl)
      by_cases hlast : m.nconnected = n
      · apply h.less (.close i hwhere hlast) trivial
        simp only [size, setPhase] at hless ⊢
        omega
      · apply h.less (.pass i hwhere hlast) trivial
        simp only [size, setPhase] at hless ⊢
        omega
  | leaving =>
      apply h.less (.unlock i hwhere) trivial
      have hless : total workerSteps (m.setPhase i .serving).phase n + 1 = _ :=
        total_fewer hi 1 (by rw [hwhere]; rfl)
      simp only [size, setPhase] at hless ⊢
      omega
  | waiting | asking | ready | serving =>
      rw [hwhere] at hinside
      cases hinside

/-- There is always a step that leaves less to do. -/
theorem Healthy.round (h : Healthy n m) (hpos : 0 < n) :
    CanGoOn n m fun s => s.Finished ∨ (Healthy n s ∧ s.size n < m.size n) := by
  cases hd : m.dispatcher with
  | starting =>
      apply h.less (.listen hd) trivial
      simp only [size, hd, dispatcherSteps]
      omega
  | posting i =>
      by_cases hi : i < n
      · apply h.less (.post i hd hi) trivial
        simp only [size, hd, dispatcherSteps]
        omega
      · have hposted := h.sound.woken.posted_le
        rw [hd] at hposted
        apply h.less (.posted i hd hi) trivial
        simp only [size, hd, dispatcherSteps]
        simp only [DispatcherPhase.posted] at hposted
        omega
  | polling =>
      cases hlock : m.lock with
      | none => exact h.polling hpos hd hlock
      | some thread =>
          cases thread with
          | dispatcher =>
              have hinside := h.sound.locked.dispatcher.mp hlock
              rw [hd] at hinside
              cases hinside
          | worker i => exact h.inside ((h.sound.locked.worker i).mp hlock)
  | running =>
      obtain ⟨action, m', hm, horderly, hless, -⟩ := h.running hd
      exact h.less hm horderly hless
  | left =>
      apply h.less (.unlink hd) trivial
      simp only [size, hd, dispatcherSteps]
      omega
  | done => exact Runs.CanReach.here (Or.inl ⟨hd, h.live.fault⟩)

theorem Healthy.canFinish (h : Healthy n m) (hpos : 0 < n) : CanGoOn n m Finished := by
  exact Runs.CanReach.rounds (size n) (Healthy n) (fun s hs => hs.round hpos) h

/-- A worker that is not in the backlog finds room in it. -/
theorem Healthy.room (h : Healthy n m) {i : Nat} (hi : i < n)
    (hout : ∀ conn ∈ m.backlog, conn.1 ≠ i) : m.backlog.length < n := by
  have hnodup : (i :: m.backlog.map Prod.fst).Nodup := by
    refine List.nodup_cons.mpr ⟨?_, h.live.nodup⟩
    intro hmem
    obtain ⟨conn, hconn, hsame⟩ := List.mem_map.mp hmem
    exact hout conn hconn hsame
  have hsubset : i :: m.backlog.map Prod.fst ⊆ List.range n := by
    rintro j hj
    obtain rfl | hmem := List.mem_cons.mp hj
    · exact List.mem_range.mpr hi
    · obtain ⟨conn, hconn, rfl⟩ := List.mem_map.mp hmem
      exact List.mem_range.mpr (h.sound.woken.lt (by simp [(h.live.current conn hconn).1]))
  have hlength := (hnodup.subperm hsubset).length_le
  rwa [List.length_cons, List.length_map, List.length_range] at hlength

theorem Healthy.init : Healthy n init :=
  ⟨Sound.init, Live.init⟩

end Multiplex

end IdAllocator
