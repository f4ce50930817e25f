/-
How the HTTP workers get the listening socket, `dispatcher.c` and `worker.c`.

The dispatcher listens on a pipe, wakes the workers, and writes the socket to
everyone that connects.  A worker that has the socket counts itself under the
lock of the multiplexer; the last one closes the pipe, which ends the loop of
the dispatcher.  The steps of the threads come in any order.  Of libuv the model
has semaphores, the lock, the backlog of the pipe, and that a loop has ended
when it has no open handle that is active.
-/
import Mathlib.Algebra.BigOperators.Group.Finset.Basic
import IdAllocator.Lib.Runs

namespace IdAllocator

/-! ### The threads -/

/-- Where a worker is, from `__worker` to `worker_start`. -/
inductive WorkerPhase where
  /-- in `uv_sem_wait` -/
  | waiting
  /-- in the loop of `__get_listen_handle`, connected to the pipe -/
  | asking
  /-- behind that loop, with the listening socket -/
  | ready
  /-- in `__last_worker_cleanup`, with the lock -/
  | locked
  /-- it has added itself to `nconnected` -/
  | counted
  /-- it has closed the pipe if it was the last one -/
  | leaving
  /-- in `worker_start` -/
  | serving
deriving Repr, DecidableEq

/-- Where the dispatcher is in `uv_multiplex_dispatch`. -/
inductive DispatcherPhase where
  | starting
  /-- in the loop that posts the semaphores, at worker `i` -/
  | posting (i : Nat)
  /-- in front of `uv_mutex_lock` -/
  | polling
  /-- in `uv_run`, with the lock -/
  | running
  /-- behind the loop, with the lock -/
  | left
  /-- it has returned, with the lock -/
  | done
deriving Repr, DecidableEq

inductive PipeState where
  | absent
  | listening
  | closed
deriving Repr, DecidableEq

inductive Thread where
  | dispatcher
  | worker (i : Nat)
deriving Repr, DecidableEq

/-- How the process ends before its time: `fatal` on a connection that fails, `assert` on a write
that fails. -/
inductive MultiplexFault where
  | connect
  | write
deriving Repr, DecidableEq

/-- `uv_multiplex_t` with its workers.  A connection is a worker with the number of the attempt
it was made in; `passed` is the last attempt of a worker that the socket was written to, `peers`
the connections that the dispatcher has open, and `closes` counts how often the pipe and the
socket have been closed. -/
structure Multiplex where
  dispatcher : DispatcherPhase
  pipe : PipeState
  closes : Nat
  lock : Option Thread
  nconnected : Nat
  sem : Nat → Nat
  phase : Nat → WorkerPhase
  attempt : Nat → Nat
  passed : Nat → Nat
  backlog : List (Nat × Nat)
  peers : Nat
  fault : Option MultiplexFault

inductive MultiplexAction where
  /-- `uv_pipe_bind` and `uv_listen` -/
  | listen
  /-- `uv_sem_post`, or the end of that loop -/
  | post
  | acquire
  /-- `__on_pipe_connection` -/
  | accept
  /-- `__on_ipc_write` -/
  | written
  /-- `uv_run` returns -/
  | runEnds
  | unlink
  /-- `uv_sem_wait` returns, and the worker connects -/
  | wake (i : Nat)
  /-- `__on_ipc_read` with the socket -/
  | receive (i : Nat)
  /-- `__on_ipc_read` without the socket: the worker connects again -/
  | giveUp (i : Nat)
  | lock (i : Nat)
  | count (i : Nat)
  | check (i : Nat)
  | unlock (i : Nat)
deriving Repr, DecidableEq

namespace Multiplex

/-- The backlog that is given to `uv_listen`. -/
def BACKLOG : Nat := 128

/-- `HTTP_WORKERS`. -/
def HTTP_WORKERS : Nat := 4

/-- `uv_multiplex_init`, when the workers have been created. -/
def init : Multiplex where
  dispatcher := .starting
  pipe := .absent
  closes := 0
  lock := none
  nconnected := 0
  sem _ := 0
  phase _ := .waiting
  attempt _ := 0
  passed _ := 0
  backlog := []
  peers := 0
  fault := none

def setPhase (m : Multiplex) (i : Nat) (phase : WorkerPhase) : Multiplex :=
  { m with phase := Function.update m.phase i phase }

/-- `uv_pipe_connect`, up to `__on_ipc_connect`. -/
def connect (m : Multiplex) (i : Nat) : Multiplex :=
  if m.pipe = .listening ∧ m.backlog.length < BACKLOG then
    { m with
      attempt := Function.update m.attempt i (m.attempt i + 1)
      backlog := m.backlog ++ [(i, m.attempt i + 1)] }
  else { m with fault := some .connect }

/-- `__on_pipe_connection`: the write fails when the worker has closed the connection. -/
def accept (m : Multiplex) (conn : Nat × Nat) (rest : List (Nat × Nat)) : Multiplex :=
  if m.phase conn.1 = .asking ∧ m.attempt conn.1 = conn.2 then
    { m with
      backlog := rest
      passed := Function.update m.passed conn.1 conn.2
      peers := m.peers + 1 }
  else { m with fault := some .write }

/-- What a thread does next, with `n` workers. -/
def act (n : Nat) (m : Multiplex) (action : MultiplexAction) : Option Multiplex :=
  match action with
  | .listen =>
      if m.dispatcher = .starting then
        some { m with dispatcher := .posting 0, pipe := .listening }
      else none
  | .post =>
      match m.dispatcher with
      | .posting i =>
          if i < n then
            some { m with
              dispatcher := .posting (i + 1)
              sem := Function.update m.sem i (m.sem i + 1) }
          else some { m with dispatcher := .polling }
      | _ => none
  | .acquire =>
      if m.dispatcher = .polling ∧ m.lock = none then
        some { m with dispatcher := .running, lock := some .dispatcher }
      else none
  | .accept =>
      if m.dispatcher = .running ∧ m.pipe = .listening then
        match m.backlog with
        | [] => none
        | conn :: rest => some (m.accept conn rest)
      else none
  | .written =>
      if m.dispatcher = .running ∧ 0 < m.peers then some { m with peers := m.peers - 1 }
      else none
  | .runEnds =>
      if m.dispatcher = .running then
        if m.pipe = .listening ∨ 0 < m.peers then
          some { m with dispatcher := .polling, lock := none }
        else some { m with dispatcher := .left }
      else none
  | .unlink => if m.dispatcher = .left then some { m with dispatcher := .done } else none
  | .wake i =>
      if i < n ∧ m.phase i = .waiting ∧ 0 < m.sem i then
        some ((({ m with sem := Function.update m.sem i (m.sem i - 1) } : Multiplex).setPhase i
          .asking).connect i)
      else none
  | .receive i =>
      if m.phase i = .asking ∧ m.passed i = m.attempt i then some (m.setPhase i .ready)
      else none
  | .giveUp i => if m.phase i = .asking then some (m.connect i) else none
  | .lock i =>
      if m.phase i = .ready ∧ m.lock = none then
        some { m.setPhase i .locked with lock := some (.worker i) }
      else none
  | .count i =>
      if m.phase i = .locked then
        some { m.setPhase i .counted with nconnected := m.nconnected + 1 }
      else none
  | .check i =>
      if m.phase i = .counted then
        if m.nconnected = n then
          some { m.setPhase i .leaving with pipe := .closed, closes := m.closes + 1 }
        else some (m.setPhase i .leaving)
      else none
  | .unlock i =>
      if m.phase i = .leaving then some { m.setPhase i .serving with lock := none }
      else none

/-- One step, as long as the process lives. -/
def step (n : Nat) (m : Multiplex) (action : MultiplexAction) : Option Multiplex :=
  if m.fault = none then act n m action else none

def run (n : Nat) : Multiplex → List MultiplexAction → Option Multiplex :=
  Runs.run (step n)

/-! ### The steps, one by one -/

/-- What a step does to the state. -/
inductive Moves (n : Nat) (m : Multiplex) : MultiplexAction → Multiplex → Prop where
  | listen (hd : m.dispatcher = .starting) :
      Moves n m .listen { m with dispatcher := .posting 0, pipe := .listening }
  | post (i : Nat) (hd : m.dispatcher = .posting i) (hi : i < n) :
      Moves n m .post { m with
        dispatcher := .posting (i + 1)
        sem := Function.update m.sem i (m.sem i + 1) }
  | posted (i : Nat) (hd : m.dispatcher = .posting i) (hi : ¬i < n) :
      Moves n m .post { m with dispatcher := .polling }
  | acquire (hd : m.dispatcher = .polling) (hlock : m.lock = none) :
      Moves n m .acquire { m with dispatcher := .running, lock := some .dispatcher }
  | accept (conn : Nat × Nat) (rest : List (Nat × Nat)) (hd : m.dispatcher = .running)
      (hpipe : m.pipe = .listening) (hbacklog : m.backlog = conn :: rest) :
      Moves n m .accept (m.accept conn rest)
  | written (hd : m.dispatcher = .running) (hpeers : 0 < m.peers) :
      Moves n m .written { m with peers := m.peers - 1 }
  | pollAgain (hd : m.dispatcher = .running) (hactive : m.pipe = .listening ∨ 0 < m.peers) :
      Moves n m .runEnds { m with dispatcher := .polling, lock := none }
  | leave (hd : m.dispatcher = .running) (hactive : ¬(m.pipe = .listening ∨ 0 < m.peers)) :
      Moves n m .runEnds { m with dispatcher := .left }
  | unlink (hd : m.dispatcher = .left) : Moves n m .unlink { m with dispatcher := .done }
  | wake (i : Nat) (hi : i < n) (hphase : m.phase i = .waiting) (hsem : 0 < m.sem i) :
      Moves n m (.wake i) ((({ m with
        sem := Function.update m.sem i (m.sem i - 1) } : Multiplex).setPhase i .asking).connect i)
  | receive (i : Nat) (hphase : m.phase i = .asking) (hpassed : m.passed i = m.attempt i) :
      Moves n m (.receive i) (m.setPhase i .ready)
  | giveUp (i : Nat) (hphase : m.phase i = .asking) : Moves n m (.giveUp i) (m.connect i)
  | lock (i : Nat) (hphase : m.phase i = .ready) (hlock : m.lock = none) :
      Moves n m (.lock i) { m.setPhase i .locked with lock := some (.worker i) }
  | count (i : Nat) (hphase : m.phase i = .locked) :
      Moves n m (.count i) { m.setPhase i .counted with nconnected := m.nconnected + 1 }
  | close (i : Nat) (hphase : m.phase i = .counted) (hlast : m.nconnected = n) :
      Moves n m (.check i)
        { m.setPhase i .leaving with pipe := .closed, closes := m.closes + 1 }
  | pass (i : Nat) (hphase : m.phase i = .counted) (hlast : m.nconnected ≠ n) :
      Moves n m (.check i) (m.setPhase i .leaving)
  | unlock (i : Nat) (hphase : m.phase i = .leaving) :
      Moves n m (.unlock i) { m.setPhase i .serving with lock := none }

theorem act_moves {n : Nat} {m m' : Multiplex} {action : MultiplexAction}
    (hact : act n m action = some m') : Moves n m action m' := by
  cases action with
  | listen =>
      simp only [act, Option.ite_none_right_eq_some, Option.some.injEq] at hact
      obtain ⟨hd, rfl⟩ := hact
      exact .listen hd
  | post =>
      rw [act] at hact
      split at hact
      · split at hact
        · cases hact
          exact .post _ ‹_› ‹_›
        · cases hact
          exact .posted _ ‹_› ‹_›
      · cases hact
  | acquire =>
      simp only [act, Option.ite_none_right_eq_some, Option.some.injEq] at hact
      obtain ⟨⟨hd, hlock⟩, rfl⟩ := hact
      exact .acquire hd hlock
  | accept =>
      simp only [act, Option.ite_none_right_eq_some] at hact
      obtain ⟨⟨hd, hpipe⟩, hact⟩ := hact
      cases hbacklog : m.backlog with
      | nil =>
          rw [hbacklog] at hact
          cases hact
      | cons conn rest =>
          rw [hbacklog] at hact
          cases hact
          exact .accept conn rest hd hpipe hbacklog
  | written =>
      simp only [act, Option.ite_none_right_eq_some, Option.some.injEq] at hact
      obtain ⟨⟨hd, hpeers⟩, rfl⟩ := hact
      exact .written hd hpeers
  | runEnds =>
      simp only [act, Option.ite_none_right_eq_some] at hact
      obtain ⟨hd, hact⟩ := hact
      split at hact
      · cases hact
        exact .pollAgain hd ‹_›
      · cases hact
        exact .leave hd ‹_›
  | unlink =>
      simp only [act, Option.ite_none_right_eq_some, Option.some.injEq] at hact
      obtain ⟨hd, rfl⟩ := hact
      exact .unlink hd
  | wake i =>
      simp only [act, Option.ite_none_right_eq_some, Option.some.injEq] at hact
      obtain ⟨⟨hi, hphase, hsem⟩, rfl⟩ := hact
      exact .wake i hi hphase hsem
  | receive i =>
      simp only [act, Option.ite_none_right_eq_some, Option.some.injEq] at hact
      obtain ⟨⟨hphase, hpassed⟩, rfl⟩ := hact
      exact .receive i hphase hpassed
  | giveUp i =>
      simp only [act, Option.ite_none_right_eq_some, Option.some.injEq] at hact
      obtain ⟨hphase, rfl⟩ := hact
      exact .giveUp i hphase
  | lock i =>
      simp only [act, Option.ite_none_right_eq_some, Option.some.injEq] at hact
      obtain ⟨⟨hphase, hlock⟩, rfl⟩ := hact
      exact .lock i hphase hlock
  | count i =>
      simp only [act, Option.ite_none_right_eq_some, Option.some.injEq] at hact
      obtain ⟨hphase, rfl⟩ := hact
      exact .count i hphase
  | check i =>
      simp only [act, Option.ite_none_right_eq_some] at hact
      obtain ⟨hphase, hact⟩ := hact
      split at hact
      · cases hact
        exact .close i hphase ‹_›
      · cases hact
        exact .pass i hphase ‹_›
  | unlock i =>
      simp only [act, Option.ite_none_right_eq_some, Option.some.injEq] at hact
      obtain ⟨hphase, rfl⟩ := hact
      exact .unlock i hphase

theorem step_moves {n : Nat} {m m' : Multiplex} {action : MultiplexAction}
    (hstep : step n m action = some m') : m.fault = none ∧ Moves n m action m' := by
  rw [step, Option.ite_none_right_eq_some] at hstep
  exact ⟨hstep.1, act_moves hstep.2⟩

theorem Moves.step {n : Nat} {m m' : Multiplex} {action : MultiplexAction}
    (hm : Moves n m action m') (hfault : m.fault = none) :
    Multiplex.step n m action = some m' := by
  rw [Multiplex.step, if_pos hfault]
  cases hm <;> simp_all [act]

/-! ### What holds whatever the order of the steps -/

end Multiplex

/-- How many semaphores have been posted. -/
def DispatcherPhase.posted (n : Nat) : DispatcherPhase → Nat
  | .starting => 0
  | .posting i => i
  | _ => n

/-- The dispatcher has the lock. -/
def DispatcherPhase.inside : DispatcherPhase → Bool
  | .running | .left | .done => true
  | _ => false

/-- The worker has the lock. -/
def WorkerPhase.inside : WorkerPhase → Bool
  | .locked | .counted | .leaving => true
  | _ => false

/-- What the worker has added to `nconnected`. -/
def WorkerPhase.present : WorkerPhase → Nat
  | .counted | .leaving | .serving => 1
  | _ => 0

namespace Multiplex

variable {n : Nat} {m m' : Multiplex} {action : MultiplexAction}

@[simp] theorem setPhase_self (m : Multiplex) (i : Nat) (phase : WorkerPhase) :
    (m.setPhase i phase).phase i = phase := by
  simp [setPhase]

theorem setPhase_of_ne (m : Multiplex) (phase : WorkerPhase) {i j : Nat} (hj : j ≠ i) :
    (m.setPhase i phase).phase j = m.phase j := by
  simp [setPhase, Function.update_of_ne hj]

theorem connect_closes (m : Multiplex) (i : Nat) : (m.connect i).closes = m.closes := by
  unfold connect
  split <;> rfl

theorem accept_closes (m : Multiplex) (conn : Nat × Nat) (rest : List (Nat × Nat)) :
    (m.accept conn rest).closes = m.closes := by
  unfold accept
  split <;> rfl

/-- Every semaphore is posted once, and taken by its worker. -/
structure Woken (n : Nat) (m : Multiplex) : Prop where
  posted_le : m.dispatcher.posted n ≤ n
  sem : ∀ i, m.sem i = if m.phase i = .waiting ∧ i < m.dispatcher.posted n then 1 else 0
  woken : ∀ i, m.phase i ≠ .waiting → i < m.dispatcher.posted n
  absent : m.pipe = .absent ↔ m.dispatcher = .starting

theorem Woken.lt (h : Woken n m) {i : Nat} (hphase : m.phase i ≠ .waiting) : i < n :=
  (h.woken i hphase).trans_le h.posted_le

theorem Woken.started (h : Woken n m) {i : Nat} (hphase : m.phase i ≠ .waiting) :
    m.dispatcher ≠ .starting := by
  intro hd
  have := h.woken i hphase
  rw [hd] at this
  exact absurd this (Nat.not_lt_zero i)

theorem Woken.connect (h : Woken n m) (i : Nat) : Woken n (m.connect i) := by
  unfold Multiplex.connect
  split <;> exact ⟨h.posted_le, h.sem, h.woken, h.absent⟩

theorem Woken.accept (h : Woken n m) (conn : Nat × Nat) (rest : List (Nat × Nat)) :
    Woken n (m.accept conn rest) := by
  unfold Multiplex.accept
  split <;> exact ⟨h.posted_le, h.sem, h.woken, h.absent⟩

/-- Behind the loop that posts the semaphores. -/
theorem Woken.advance (h : Woken n m) {phase : DispatcherPhase} (lock : Option Thread)
    (hposted : phase.posted n = m.dispatcher.posted n)
    (hstarted : phase = .starting ↔ m.dispatcher = .starting) :
    Woken n { m with dispatcher := phase, lock := lock } where
  posted_le := hposted ▸ h.posted_le
  sem i := hposted ▸ h.sem i
  woken i hphase := hposted ▸ h.woken i hphase
  absent := h.absent.trans hstarted.symm

theorem Woken.posted_of_sem (h : Woken n m) {i : Nat} (hsem : 0 < m.sem i) :
    i < m.dispatcher.posted n := by
  by_contra hless
  rw [h.sem i, if_neg fun hboth => hless hboth.2] at hsem
  exact absurd hsem (Nat.lt_irrefl 0)

theorem Woken.setPhase (h : Woken n m) {i : Nat} {phase : WorkerPhase}
    (hphase : m.phase i ≠ .waiting) (hnext : phase ≠ .waiting) :
    Woken n (m.setPhase i phase) := by
  have hwaiting : ∀ j, (m.setPhase i phase).phase j = .waiting ↔ m.phase j = .waiting := by
    intro j
    by_cases hj : j = i
    · subst hj
      simp [hphase, hnext]
    · rw [setPhase_of_ne m phase hj]
  refine ⟨h.posted_le, ?_, ?_, h.absent⟩
  · intro j
    simp only [hwaiting]
    exact h.sem j
  · intro j hj
    exact h.woken j ((hwaiting j).not.mp hj)

theorem Woken.init : Woken n init where
  posted_le := Nat.zero_le n
  sem i := by simp [Multiplex.init, DispatcherPhase.posted]
  woken i hphase := absurd rfl hphase
  absent := by simp [Multiplex.init]

theorem Woken.step (h : Woken n m) (hm : Moves n m action m') : Woken n m' := by
  cases hm with
  | listen hd =>
      refine ⟨Nat.zero_le n, ?_, ?_, by simp⟩
      · intro i
        have := h.sem i
        rwa [hd] at this
      · intro i hphase
        exact absurd hd (h.started hphase)
  | post i hd hi =>
      have hsem := h.sem
      have hwoken := h.woken
      rw [hd] at hsem hwoken
      refine ⟨hi, ?_, ?_, ?_⟩
      · intro j
        by_cases hj : j = i
        · subst hj
          have hwaiting : m.phase j = .waiting := by
            by_contra hphase
            exact absurd (hwoken j hphase) (Nat.lt_irrefl j)
          simp [hsem j, hwaiting, DispatcherPhase.posted]
        · have hlt : j < i ↔ j < i + 1 := by omega
          refine (Function.update_of_ne hj _ m.sem).trans ((hsem j).trans ?_)
          exact if_congr (and_congr_right' hlt) rfl rfl
      · intro j hphase
        exact (hwoken j hphase).trans (Nat.lt_succ_self i)
      · simpa [hd] using h.absent
  | posted i hd hi =>
      have hposted : i = n := by
        have := h.posted_le
        rw [hd] at this
        exact Nat.le_antisymm this (not_lt.mp hi)
      exact h.advance m.lock (by rw [hd, hposted]; rfl) (by simp [hd])
  | acquire hd hlock => exact h.advance _ (by rw [hd]; rfl) (by simp [hd])
  | accept conn rest hd hpipe hbacklog => exact h.accept conn rest
  | written hd hpeers => exact ⟨h.posted_le, h.sem, h.woken, h.absent⟩
  | pollAgain hd hactive => exact h.advance _ (by rw [hd]; rfl) (by simp [hd])
  | leave hd hactive => exact h.advance m.lock (by rw [hd]; rfl) (by simp [hd])
  | unlink hd => exact h.advance m.lock (by rw [hd]; rfl) (by simp [hd])
  | wake i hi hphase hsem =>
      have hposted := h.posted_of_sem hsem
      apply Woken.connect
      refine ⟨h.posted_le, ?_, ?_, h.absent⟩
      · intro j
        by_cases hj : j = i
        · subst hj
          simp [Multiplex.setPhase, h.sem j, hphase, hposted]
        · simpa [Multiplex.setPhase, Function.update_of_ne hj] using h.sem j
      · intro j hwoken
        by_cases hj : j = i
        · exact hj ▸ hposted
        · rw [setPhase_of_ne _ _ hj] at hwoken
          exact h.woken j hwoken
  | receive i hphase hpassed => exact h.setPhase (by simp [hphase]) (by simp)
  | giveUp i hphase => exact h.connect i
  | lock i hphase hlock =>
      have hnext : Woken n (m.setPhase i .locked) := h.setPhase (by simp [hphase]) (by simp)
      exact ⟨hnext.posted_le, hnext.sem, hnext.woken, hnext.absent⟩
  | count i hphase =>
      have hnext : Woken n (m.setPhase i .counted) := h.setPhase (by simp [hphase]) (by simp)
      exact ⟨hnext.posted_le, hnext.sem, hnext.woken, hnext.absent⟩
  | close i hphase hlast =>
      have hnext : Woken n (m.setPhase i .leaving) := h.setPhase (by simp [hphase]) (by simp)
      have hstarted : m.dispatcher ≠ .starting := h.started (i := i) (by simp [hphase])
      exact ⟨hnext.posted_le, hnext.sem, hnext.woken, by simpa [Multiplex.setPhase] using hstarted⟩
  | pass i hphase hlast => exact h.setPhase (by simp [hphase]) (by simp)
  | unlock i hphase =>
      have hnext : Woken n (m.setPhase i .serving) := h.setPhase (by simp [hphase]) (by simp)
      exact ⟨hnext.posted_le, hnext.sem, hnext.woken, hnext.absent⟩

/-- The lock is held by the thread that is between taking and releasing it. -/
structure Locked (m : Multiplex) : Prop where
  dispatcher : m.lock = some .dispatcher ↔ m.dispatcher.inside = true
  worker : ∀ i, m.lock = some (.worker i) ↔ (m.phase i).inside = true

theorem Locked.connect (h : Locked m) (i : Nat) : Locked (m.connect i) := by
  unfold Multiplex.connect
  split <;> exact ⟨h.dispatcher, h.worker⟩

theorem Locked.accept (h : Locked m) (conn : Nat × Nat) (rest : List (Nat × Nat)) :
    Locked (m.accept conn rest) := by
  unfold Multiplex.accept
  split <;> exact ⟨h.dispatcher, h.worker⟩

/-- The dispatcher goes on without taking or releasing the lock. -/
theorem Locked.advance (h : Locked m) {phase : DispatcherPhase} (pipe : PipeState)
    (sem : Nat → Nat) (hinside : phase.inside = m.dispatcher.inside) :
    Locked { m with dispatcher := phase, pipe := pipe, sem := sem } where
  dispatcher := by rw [hinside]; exact h.dispatcher
  worker := h.worker

/-- So does a worker. -/
theorem Locked.setPhase (h : Locked m) {i : Nat} {phase : WorkerPhase}
    (hinside : phase.inside = (m.phase i).inside) : Locked (m.setPhase i phase) := by
  refine ⟨h.dispatcher, fun j => ?_⟩
  by_cases hj : j = i
  · subst hj
    simp only [Multiplex.setPhase, Function.update_self, hinside]
    exact h.worker j
  · simp only [Multiplex.setPhase, Function.update_of_ne hj]
    exact h.worker j

/-- When a worker has the lock, neither the dispatcher nor another worker has it. -/
theorem Locked.alone (h : Locked m) {i : Nat} (hinside : (m.phase i).inside = true) :
    m.dispatcher.inside = false ∧ ∀ j, (m.phase j).inside = true → j = i := by
  have hlock := (h.worker i).mpr hinside
  constructor
  · by_contra hd
    have := h.dispatcher.mpr (by simpa using hd)
    simp [hlock] at this
  · intro j hj
    have := (h.worker j).mpr hj
    simpa [hlock] using this.symm

theorem Locked.free (h : Locked m) (hlock : m.lock = none) :
    m.dispatcher.inside = false ∧ ∀ i, (m.phase i).inside = false := by
  constructor
  · by_contra hd
    have := h.dispatcher.mpr (by simpa using hd)
    simp [hlock] at this
  · intro i
    by_contra hi
    have := (h.worker i).mpr (by simpa using hi)
    simp [hlock] at this

theorem Locked.dispatching (h : Locked m) (hd : m.dispatcher.inside = true) (i : Nat) :
    (m.phase i).inside = false := by
  by_contra hi
  have := (h.worker i).mpr (by simpa using hi)
  simp [h.dispatcher.mpr hd] at this

theorem Locked.init : Locked init where
  dispatcher := by simp [Multiplex.init, DispatcherPhase.inside]
  worker i := by simp [Multiplex.init, WorkerPhase.inside]

theorem Locked.step (h : Locked m) (hm : Moves n m action m') : Locked m' := by
  cases hm with
  | listen hd => exact h.advance _ m.sem (by rw [hd]; rfl)
  | post i hd hi => exact h.advance m.pipe _ (by rw [hd]; rfl)
  | posted i hd hi => exact h.advance m.pipe m.sem (by rw [hd]; rfl)
  | acquire hd hlock =>
      have hfree := (h.free hlock).2
      exact ⟨by simp [DispatcherPhase.inside], fun i => by simp [hfree i]⟩
  | accept conn rest hd hpipe hbacklog => exact h.accept conn rest
  | written hd hpeers => exact ⟨h.dispatcher, h.worker⟩
  | pollAgain hd hactive =>
      have hfree := h.dispatching (by rw [hd]; rfl)
      exact ⟨by simp [DispatcherPhase.inside], fun i => by simp [hfree i]⟩
  | leave hd hactive => exact h.advance m.pipe m.sem (by rw [hd]; rfl)
  | unlink hd => exact h.advance m.pipe m.sem (by rw [hd]; rfl)
  | wake i hi hphase hsem =>
      apply Locked.connect
      apply Locked.setPhase
      · exact ⟨h.dispatcher, h.worker⟩
      · simp [hphase, WorkerPhase.inside]
  | receive i hphase hpassed => exact h.setPhase (by rw [hphase]; rfl)
  | giveUp i hphase => exact h.connect i
  | lock i hphase hlock =>
      obtain ⟨hd, hfree⟩ := h.free hlock
      refine ⟨by simp [Multiplex.setPhase, hd], fun j => ?_⟩
      by_cases hj : j = i
      · subst hj
        simp [Multiplex.setPhase, WorkerPhase.inside]
      · simp [Multiplex.setPhase, Function.update_of_ne hj, hfree j, Ne.symm hj]
  | count i hphase =>
      have hnext : Locked (m.setPhase i .counted) := h.setPhase (by rw [hphase]; rfl)
      exact ⟨hnext.dispatcher, hnext.worker⟩
  | close i hphase hlast =>
      have hnext : Locked (m.setPhase i .leaving) := h.setPhase (by rw [hphase]; rfl)
      exact ⟨hnext.dispatcher, hnext.worker⟩
  | pass i hphase hlast => exact h.setPhase (by rw [hphase]; rfl)
  | unlock i hphase =>
      obtain ⟨hd, halone⟩ := h.alone (i := i) (by rw [hphase]; rfl)
      refine ⟨by simp [Multiplex.setPhase, hd], fun j => ?_⟩
      by_cases hj : j = i
      · subst hj
        simp [Multiplex.setPhase, WorkerPhase.inside]
      · have hout : (m.phase j).inside = false := by
          by_contra hin
          exact hj (halone j (by simpa using hin))
        simp [Multiplex.setPhase, Function.update_of_ne hj, hout]

/-- A sum over the first workers. -/
def total (f : WorkerPhase → Nat) (phases : Nat → WorkerPhase) : Nat → Nat
  | 0 => 0
  | i + 1 => total f phases i + f (phases i)

theorem total_congr (f : WorkerPhase → Nat) {phases phases' : Nat → WorkerPhase} {k : Nat}
    (h : ∀ i < k, phases' i = phases i) : total f phases' k = total f phases k := by
  induction k with
  | zero => rfl
  | succ k ih =>
      rw [total, total, ih fun i hi => h i (hi.trans (Nat.lt_succ_self k)),
        h k (Nat.lt_succ_self k)]

theorem total_update (f : WorkerPhase → Nat) (phases : Nat → WorkerPhase) (phase : WorkerPhase)
    {i k : Nat} (hi : i < k) :
    total f (Function.update phases i phase) k + f (phases i) = total f phases k + f phase := by
  induction k with
  | zero => exact absurd hi (Nat.not_lt_zero i)
  | succ k ih =>
      rw [total, total]
      by_cases hk : i = k
      · subst hk
        have hbelow : total f (Function.update phases i phase) i = total f phases i :=
          total_congr f fun j hj => Function.update_of_ne hj.ne phase phases
        rw [hbelow, Function.update_self]
        omega
      · have := ih (by omega)
        rw [Function.update_of_ne (Ne.symm hk)]
        omega

theorem present_le_one (phase : WorkerPhase) : phase.present ≤ 1 := by
  cases phase <;> decide

theorem serving_of_outside {phase : WorkerPhase} (hpresent : phase.present = 1)
    (houtside : phase.inside = false) : phase = .serving := by
  cases phase with
  | waiting | asking | ready | locked => cases hpresent
  | counted | leaving => cases houtside
  | serving => rfl

theorem total_present_le (phases : Nat → WorkerPhase) (k : Nat) :
    total WorkerPhase.present phases k ≤ k := by
  induction k with
  | zero => exact Nat.le_refl 0
  | succ k ih => exact Nat.add_le_add ih (present_le_one (phases k))

/-- Everyone is there exactly if the sum says so. -/
theorem total_present_eq {phases : Nat → WorkerPhase} {k : Nat} :
    total WorkerPhase.present phases k = k ↔ ∀ i < k, (phases i).present = 1 := by
  induction k with
  | zero => exact ⟨fun _ i hi => absurd hi (Nat.not_lt_zero i), fun _ => rfl⟩
  | succ k ih =>
      have hbelow := total_present_le phases k
      have hone := present_le_one (phases k)
      rw [total, Nat.forall_lt_succ_right, ← ih]
      omega

/-- The count of the workers, and when the pipe is closed. -/
structure Counted (n : Nat) (m : Multiplex) : Prop where
  connected : m.nconnected = total WorkerPhase.present m.phase n
  closes : m.closes = if m.pipe = .closed then 1 else 0
  settled : m.pipe = .closed → ∀ i < n, m.phase i = .leaving ∨ m.phase i = .serving
  last : m.nconnected = n → 0 < n → m.pipe = .closed ∨ ∃ i, m.phase i = .counted
  left : m.dispatcher = .left ∨ m.dispatcher = .done → m.pipe = .closed
  workers : m.pipe = .closed → 0 < n

theorem Counted.connect (h : Counted n m) (i : Nat) : Counted n (m.connect i) := by
  unfold Multiplex.connect
  split <;> exact ⟨h.connected, h.closes, h.settled, h.last, h.left, h.workers⟩

theorem Counted.accept (h : Counted n m) (conn : Nat × Nat) (rest : List (Nat × Nat)) :
    Counted n (m.accept conn rest) := by
  unfold Multiplex.accept
  split <;> exact ⟨h.connected, h.closes, h.settled, h.last, h.left, h.workers⟩

/-- The dispatcher goes on, and is not behind its loop. -/
theorem Counted.advance (h : Counted n m) {phase : DispatcherPhase} (pipe : PipeState)
    (lock : Option Thread) (sem : Nat → Nat) (hpipe : pipe = .closed ↔ m.pipe = .closed)
    (hleft : phase = .left ∨ phase = .done → m.pipe = .closed) :
    Counted n { m with dispatcher := phase, pipe := pipe, lock := lock, sem := sem } where
  connected := h.connected
  closes := by simpa only [hpipe] using h.closes
  settled hclosed := h.settled (hpipe.mp hclosed)
  last hall hpos := (h.last hall hpos).imp_left hpipe.mpr
  left hphase := hpipe.mpr (hleft hphase)
  workers hclosed := h.workers (hpipe.mp hclosed)

/-- A worker that has not added itself yet goes on, the pipe is open. -/
theorem Counted.setPhase (h : Counted n m) {i : Nat} {phase : WorkerPhase} (hi : i < n)
    (hbefore : (m.phase i).present = 0) (hafter : phase.present = 0) :
    Counted n (m.setPhase i phase) where
  connected := by
    have := total_update WorkerPhase.present m.phase phase hi
    rw [hbefore, hafter] at this
    exact h.connected.trans this.symm
  closes := h.closes
  settled hclosed := by
    obtain hphase | hphase := h.settled hclosed i hi
    all_goals
      rw [hphase] at hbefore
      cases hbefore
  last hall hpos := by
    have hone := total_present_eq.mp (h.connected.symm.trans hall) i hi
    rw [hbefore] at hone
    cases hone
  left := h.left
  workers := h.workers

theorem Counted.leaving (h : Counted n m) {i : Nat} (hi : i < n) (hphase : m.phase i = .counted) :
    m.nconnected = total WorkerPhase.present (m.setPhase i .leaving).phase n := by
  have := total_update WorkerPhase.present m.phase .leaving hi
  rw [hphase] at this
  exact h.connected.trans (Nat.add_right_cancel this).symm

/-- The last worker comes when the others serve. -/
theorem Counted.others_serve (h : Counted n m) (hlocked : Locked m) {i : Nat}
    (hphase : m.phase i = .counted) (hlast : m.nconnected = n) {j : Nat} (hj : j < n)
    (hji : j ≠ i) : m.phase j = .serving := by
  have halone := (hlocked.alone (i := i) (by rw [hphase]; rfl)).2
  apply serving_of_outside (total_present_eq.mp (h.connected.symm.trans hlast) j hj)
  by_contra hin
  exact hji (halone j (by simpa using hin))

theorem Counted.init : Counted n init where
  connected := by
    have hzero : ∀ k, total WorkerPhase.present (fun _ => .waiting) k = 0 := by
      intro k
      induction k with
      | zero => rfl
      | succ k ih => rw [total, ih]; rfl
    exact (hzero n).symm
  closes := rfl
  settled hclosed := by cases hclosed
  last hall hpos := absurd hall hpos.ne
  left hphase := by rcases hphase with hphase | hphase <;> cases hphase
  workers hclosed := by cases hclosed

theorem Counted.step (h : Counted n m) (hwoken : Woken n m) (hlocked : Locked m)
    (hm : Moves n m action m') : Counted n m' := by
  cases hm with
  | listen hd =>
      have habsent := hwoken.absent.mpr hd
      exact h.advance _ m.lock m.sem (by simp [habsent]) (by simp)
  | post i hd hi => exact h.advance m.pipe m.lock _ Iff.rfl (by simp)
  | posted i hd hi => exact h.advance m.pipe m.lock m.sem Iff.rfl (by simp)
  | acquire hd hlock => exact h.advance m.pipe _ m.sem Iff.rfl (by simp)
  | accept conn rest hd hpipe hbacklog => exact h.accept conn rest
  | written hd hpeers => exact ⟨h.connected, h.closes, h.settled, h.last, h.left, h.workers⟩
  | pollAgain hd hactive => exact h.advance m.pipe _ m.sem Iff.rfl (by simp)
  | leave hd hactive =>
      have hclosed : m.pipe = .closed := by
        cases hpipe : m.pipe with
        | absent =>
            have hstarting := hwoken.absent.mp hpipe
            rw [hd] at hstarting
            cases hstarting
        | listening => exact absurd (Or.inl hpipe) hactive
        | closed => rfl
      exact h.advance m.pipe m.lock m.sem Iff.rfl fun _ => hclosed
  | unlink hd =>
      exact h.advance m.pipe m.lock m.sem Iff.rfl fun _ => h.left (Or.inl hd)
  | wake i hi hphase hsem =>
      apply Counted.connect
      apply Counted.setPhase _ hi (by simp [hphase, WorkerPhase.present]) rfl
      exact ⟨h.connected, h.closes, h.settled, h.last, h.left, h.workers⟩
  | receive i hphase hpassed =>
      have hi : i < n := hwoken.lt (by simp [hphase])
      exact h.setPhase hi (by rw [hphase]; rfl) rfl
  | giveUp i hphase => exact h.connect i
  | lock i hphase hlock =>
      have hi : i < n := hwoken.lt (by simp [hphase])
      have hnext : Counted n (m.setPhase i .locked) := h.setPhase hi (by rw [hphase]; rfl) rfl
      exact ⟨hnext.connected, hnext.closes, hnext.settled, hnext.last, hnext.left,
        hnext.workers⟩
  | count i hphase =>
      have hi : i < n := hwoken.lt (by simp [hphase])
      refine ⟨?_, h.closes, ?_, fun _ _ => Or.inr ⟨i, setPhase_self m i _⟩, h.left, h.workers⟩
      · have := total_update WorkerPhase.present m.phase .counted hi
        rw [hphase] at this
        exact (congrArg (· + 1) h.connected).trans this.symm
      · intro hclosed
        exact absurd (h.settled hclosed i hi) (by simp [hphase])
  | close i hphase hlast =>
      have hi : i < n := hwoken.lt (by simp [hphase])
      have hopen : m.pipe ≠ .closed := by
        intro hclosed
        exact absurd (h.settled hclosed i hi) (by simp [hphase])
      refine ⟨h.leaving hi hphase, ?_, ?_, fun _ _ => Or.inl rfl, fun _ => rfl,
        fun _ => Nat.zero_lt_of_lt hi⟩
      · have := h.closes
        rw [if_neg hopen] at this
        exact congrArg (· + 1) this
      · intro _ j hj
        by_cases hji : j = i
        · subst hji
          exact Or.inl (setPhase_self m j _)
        · have hserving := h.others_serve hlocked hphase hlast hj hji
          exact Or.inr ((setPhase_of_ne m _ hji).trans hserving)
  | pass i hphase hlast =>
      have hi : i < n := hwoken.lt (by simp [hphase])
      refine ⟨h.leaving hi hphase, h.closes, ?_, fun hall => absurd hall hlast, h.left,
        h.workers⟩
      intro hclosed
      exact absurd (h.settled hclosed i hi) (by simp [hphase])
  | unlock i hphase =>
      have hi : i < n := hwoken.lt (by simp [hphase])
      refine ⟨?_, h.closes, ?_, ?_, h.left, h.workers⟩
      · have := total_update WorkerPhase.present m.phase .serving hi
        rw [hphase] at this
        exact h.connected.trans (Nat.add_right_cancel this).symm
      · intro hclosed j hj
        by_cases hji : j = i
        · subst hji
          exact Or.inr (setPhase_self m j _)
        · exact (h.settled hclosed j hj).imp (setPhase_of_ne m _ hji).trans
            (setPhase_of_ne m _ hji).trans
      · intro hall hpos
        obtain hclosed | ⟨j, hj⟩ := h.last hall hpos
        · exact Or.inl hclosed
        · have hji := (hlocked.alone (i := i) (by rw [hphase]; rfl)).2 j (by rw [hj]; rfl)
          rw [hji, hphase] at hj
          cases hj

/-- What holds in every run. -/
structure Sound (n : Nat) (m : Multiplex) : Prop where
  woken : Woken n m
  locked : Locked m
  counted : Counted n m

theorem Sound.step (h : Sound n m) (hstep : step n m action = some m') : Sound n m' :=
  have hm := (step_moves hstep).2
  ⟨h.woken.step hm, h.locked.step hm, h.counted.step h.woken h.locked hm⟩

theorem Sound.init : Sound n init :=
  ⟨Woken.init, Locked.init, Counted.init⟩

theorem Sound.run {actions : List MultiplexAction} (h : Sound n m)
    (hrun : run n m actions = some m') : Sound n m' :=
  Runs.run_keeps (Sound n) (fun _ _ _ hs hstep => hs.step hstep) h hrun

/-- When the dispatcher has left its loop every worker serves. -/
theorem Sound.all_serve (h : Sound n m)
    (hleft : m.dispatcher = .left ∨ m.dispatcher = .done) {i : Nat} (hi : i < n) :
    m.phase i = .serving := by
  have hinside : m.dispatcher.inside = true := by
    obtain hd | hd := hleft
    all_goals
      rw [hd]
      rfl
  have hout := h.locked.dispatching hinside i
  obtain hphase | hphase := h.counted.settled (h.counted.left hleft) i hi
  · rw [hphase] at hout
    cases hout
  · exact hphase

end Multiplex

/-- A worker that gets the socket. -/
def getsSocket (i : Nat) : List MultiplexAction :=
  [.wake i, .acquire, .accept, .written, .runEnds, .receive i, .lock i, .count i, .check i,
    .unlock i]

end IdAllocator
