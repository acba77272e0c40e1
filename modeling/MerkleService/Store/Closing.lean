import MerkleService.LTS.Basic
import MerkleService.Store.SqlExpiry

/-!
# Closing the SQL backend

The closer that `New` (`internal/store/sql/sql.go`) leaves in the registry cancels the context of
the sweeper, waits for its goroutine to return, and closes the database.  The goroutine may be in
the middle of a pass over the tables, or have a tick waiting for it.

* `system` : the goroutine of the sweeper, statement by statement, and the closer.
* `Sound` : the invariant; **the sweeper gives no statement to a closed database.**
* `close_returns` : **`Close` is not held back for long**: the goroutine ends the statement that it
  is in, and the statements of the pass that are left fail at once.  Only a `select` that prefers
  the ticks to the end of the context can go on.
-/

namespace MerkleService

namespace SqlStore

namespace Closing

/-! ### The code -/

/-- `ttlTables`. -/
def ttlTables : List TTLTable :=
  [.registrations, .callbackDedup, .subtreeCounters, .callbackAccumulator]

/-- Where `run` is: at its `select`, before batch number `i` of the first of the tables that are
left, in that statement, or behind `close(s.done)`. -/
inductive Position where
  | selecting
  | deleting (rest : List TTLTable) (i : ℕ)
  | executing (rest : List TTLTable) (i : ℕ)
  | stopped

/-- Where the closer is: not called, or after `cancelSweeper`, `waitStopped` and `db.Close`. -/
inductive Closer where
  | idle
  | cancelled
  | waited
  | closed
  deriving DecidableEq

structure State where
  run : Position
  closer : Closer
  /-- There is a tick in `t.C`, which has room for one. -/
  tick : Bool
  /-- The statements that were given to the closed database. -/
  late : ℕ

inductive Label where
  /-- The ticker sends. -/
  | tick
  /-- The `select` takes a tick, or sees the end of the context. -/
  | selectTick
  | selectDone
  /-- `db.ExecContext` is called, and returns: with an error, or with the number of rows. -/
  | exec
  | result (rows : Option ℕ)
  | cancel
  | wait
  | close
  deriving DecidableEq

/-- The loop of `sweepOnce`, with the tables that are left. -/
def nextTable : List TTLTable → Position
  | [] => .selecting
  | table :: rest => .deleting (table :: rest) 0

/-- The loop of `sweepTable` after batch number `i`. -/
def afterBatch (rest : List TTLTable) (i : ℕ) : Option ℕ → Position
  | none => nextTable rest.tail
  | some rows => if rows < batch ∨ i + 1 = 10 then nextTable rest.tail else .deleting rest (i + 1)

def step (s : State) : Label → Option State
  | .tick => some { s with tick := true }
  | .selectTick =>
    match s.run, s.tick with
    | .selecting, true => some { s with run := nextTable ttlTables, tick := false }
    | _, _ => none
  | .selectDone =>
    match s.run with
    | .selecting => if s.closer = .idle then none else some { s with run := .stopped }
    | _ => none
  | .exec =>
    match s.run with
    | .deleting rest i =>
      let late := if s.closer = .closed then s.late + 1 else s.late
      -- a context that has ended is an error before the statement is sent
      if s.closer = .idle then some { s with run := .executing rest i, late := late }
      else some { s with run := nextTable rest.tail, late := late }
    | _ => none
  | .result rows =>
    match s.run with
    | .executing rest i => some { s with run := afterBatch rest i rows }
    | _ => none
  | .cancel => if s.closer = .idle then some { s with closer := .cancelled } else none
  | .wait =>
    match s.run with
    | .stopped => if s.closer = .cancelled then some { s with closer := .waited } else none
    | _ => none
  | .close => if s.closer = .waited then some { s with closer := .closed } else none

def system : LTS State Label := ⟨step⟩

/-- `New` has started the goroutine. -/
def init : State := ⟨.selecting, .idle, false, 0⟩

/-! ### What a step does -/

theorem step_inv {s s' : State} {l : Label} (h : step s l = some s') :
    (l = .tick ∧ s' = { s with tick := true }) ∨
    (l = .selectTick ∧ s.run = .selecting ∧
      s' = { s with run := .deleting ttlTables 0, tick := false }) ∨
    (l = .selectDone ∧ s.run = .selecting ∧ s.closer ≠ .idle ∧ s' = { s with run := .stopped }) ∨
    (∃ rest i, l = .exec ∧ s.run = .deleting rest i ∧ s.closer = .idle ∧
      s' = { s with run := .executing rest i }) ∨
    (∃ rest i, l = .exec ∧ s.run = .deleting rest i ∧ s.closer ≠ .idle ∧
      s' = { s with
        run := nextTable rest.tail
        late := if s.closer = .closed then s.late + 1 else s.late }) ∨
    (∃ rest i rows, l = .result rows ∧ s.run = .executing rest i ∧
      s' = { s with run := afterBatch rest i rows }) ∨
    (l = .cancel ∧ s.closer = .idle ∧ s' = { s with closer := .cancelled }) ∨
    (l = .wait ∧ s.closer = .cancelled ∧ s.run = .stopped ∧ s' = { s with closer := .waited }) ∨
    (l = .close ∧ s.closer = .waited ∧ s' = { s with closer := .closed }) := by
  have hfirst : nextTable ttlTables = .deleting ttlTables 0 := rfl
  cases l with
  | tick => exact .inl ⟨rfl, (Option.some.inj h).symm⟩
  | selectTick =>
    simp only [step, hfirst] at h
    grind
  | selectDone =>
    simp only [step] at h
    grind
  | exec =>
    simp only [step] at h
    grind
  | result rows =>
    simp only [step] at h
    grind
  | cancel =>
    simp only [step] at h
    grind
  | wait =>
    simp only [step] at h
    grind
  | close =>
    simp only [step] at h
    grind

/-! ### Nothing after the end -/

/-- **The invariant**: behind `waitStopped` the goroutine has returned, and in a pass there is a
table left, of four. -/
structure Sound (s : State) : Prop where
  stopped : s.closer = .waited ∨ s.closer = .closed → s.run = .stopped
  deleting : ∀ rest i, s.run = .deleting rest i ∨ s.run = .executing rest i →
    rest ≠ [] ∧ rest.length ≤ 4
  late : s.late = 0

theorem sound_init : Sound init := ⟨by simp [init], by simp [init], rfl⟩

theorem nextTable_eq_deleting {rest rest' : List TTLTable} {i : ℕ}
    (h : nextTable rest = .deleting rest' i) : rest' = rest ∧ rest ≠ [] := by
  cases rest with
  | nil => cases h
  | cons table rest =>
    obtain ⟨rfl, rfl⟩ := Position.deleting.inj h
    exact ⟨rfl, List.cons_ne_nil _ _⟩

theorem nextTable_ne_executing {rest rest' : List TTLTable} {i : ℕ} :
    nextTable rest ≠ .executing rest' i := by
  cases rest with
  | nil => simp [nextTable]
  | cons table rest => simp [nextTable]

theorem deleting_nextTable {rest rest' : List TTLTable} {i : ℕ}
    (h : nextTable rest.tail = .deleting rest' i ∨ nextTable rest.tail = .executing rest' i)
    (hle : rest.length ≤ 4) : rest' ≠ [] ∧ rest'.length ≤ 4 := by
  rcases h with h | h
  · obtain ⟨rfl, hne⟩ := nextTable_eq_deleting h
    exact ⟨hne, by rw [List.length_tail]; omega⟩
  · exact absurd h nextTable_ne_executing

theorem Sound.step {s s' : State} {l : Label} (h : Sound s) (hst : system.step s l = some s') :
    Sound s' := by
  obtain ⟨hstopped, hdeleting, hlate⟩ := h
  obtain ⟨rfl, rfl⟩ | ⟨rfl, hrun, rfl⟩ | ⟨rfl, hrun, hcloser, rfl⟩ |
    ⟨rest, i, rfl, hrun, hcloser, rfl⟩ | ⟨rest, i, rfl, hrun, hcloser, rfl⟩ |
    ⟨rest, i, rows, rfl, hrun, rfl⟩ | ⟨rfl, hcloser, rfl⟩ | ⟨rfl, hcloser, hrun, rfl⟩ |
    ⟨rfl, hcloser, rfl⟩ := step_inv hst
  · exact ⟨hstopped, hdeleting, hlate⟩
  · refine ⟨fun hcloser => ?_, ?_, hlate⟩
    · rw [hstopped hcloser] at hrun
      cases hrun
    · rintro rest i (hpos | hpos)
      · obtain ⟨rfl, -⟩ := Position.deleting.inj hpos
        exact ⟨by simp [ttlTables], by simp [ttlTables]⟩
      · cases hpos
  · exact ⟨fun _ => rfl, by simp, hlate⟩
  · refine ⟨fun hwaited => ?_, ?_, hlate⟩
    · simp [hcloser] at hwaited
    · rintro rest' i' (hpos | hpos)
      · cases hpos
      · obtain ⟨rfl, rfl⟩ := Position.executing.inj hpos
        exact hdeleting rest i (.inl hrun)
  · have hnot : ¬ (s.closer = .waited ∨ s.closer = .closed) := by
      intro hwaited
      rw [hstopped hwaited] at hrun
      cases hrun
    refine ⟨fun hwaited => absurd hwaited hnot, fun rest' i' hpos => ?_, ?_⟩
    · exact deleting_nextTable hpos (hdeleting rest i (.inl hrun)).2
    · rw [if_neg fun hclosed => hnot (.inr hclosed), hlate]
  · have hleft := hdeleting rest i (.inr hrun)
    refine ⟨fun hwaited => ?_, fun rest' i' hpos => ?_, hlate⟩
    · rw [hstopped hwaited] at hrun
      cases hrun
    · cases rows with
      | none => exact deleting_nextTable hpos hleft.2
      | some rows =>
        simp only [afterBatch] at hpos
        split_ifs at hpos with hend
        · exact deleting_nextTable hpos hleft.2
        · rcases hpos with hpos | hpos
          · obtain ⟨rfl, -⟩ := Position.deleting.inj hpos
            exact hleft
          · cases hpos
  · exact ⟨by simp, hdeleting, hlate⟩
  · exact ⟨fun _ => hrun, hdeleting, hlate⟩
  · exact ⟨fun _ => hstopped (.inl hcloser), hdeleting, hlate⟩

theorem sound_of_reachable {s : State} (h : system.Reachable init s) : Sound s :=
  h.invariant sound_init fun _ _ _ hs _ hst => hs.step hst

/-! ### The end -/

/-- The steps that the goroutine takes after the context has ended, unless it takes a tick. -/
def Position.left : Position → ℕ
  | .selecting => 1
  | .deleting rest _ => rest.length + 1
  | .executing rest _ => rest.length + 2
  | .stopped => 0

def Closer.left : Closer → ℕ
  | .idle => 3
  | .cancelled => 2
  | .waited => 1
  | .closed => 0

def State.left (s : State) : ℕ := s.run.left + s.closer.left

theorem left_nextTable (rest : List TTLTable) : (nextTable rest).left = rest.length + 1 := by
  cases rest with
  | nil => rfl
  | cons table rest => rfl

theorem left_afterBatch (rest : List TTLTable) (i : ℕ) (rows : Option ℕ) :
    (afterBatch rest i rows).left < rest.length + 2 := by
  have htail : (nextTable rest.tail).left < rest.length + 2 := by
    rw [left_nextTable, List.length_tail]
    omega
  cases rows with
  | none => exact htail
  | some rows =>
    simp only [afterBatch]
    split_ifs
    · exact htail
    · simp [Position.left]

/-- The step is one of the goroutine or of the closer. -/
def Label.moves : Label → Bool
  | .tick => false
  | _ => true

def Label.takesTick : Label → Bool
  | .selectTick => true
  | _ => false

/-- **A step after the context has ended** comes nearer to the end, but for a tick. -/
theorem left_step {s s' : State} {l : Label} (hsound : Sound s) (hcancelled : s.closer ≠ .idle)
    (h : system.step s l = some s') : s'.closer ≠ .idle ∧
      (if l.moves then 1 else 0) + s'.left ≤ s.left + 5 * if l.takesTick then 1 else 0 := by
  obtain ⟨rfl, rfl⟩ | ⟨rfl, hrun, rfl⟩ | ⟨rfl, hrun, hcloser, rfl⟩ |
    ⟨rest, i, rfl, hrun, hcloser, rfl⟩ | ⟨rest, i, rfl, hrun, hcloser, rfl⟩ |
    ⟨rest, i, rows, rfl, hrun, rfl⟩ | ⟨rfl, hcloser, rfl⟩ | ⟨rfl, hcloser, hrun, rfl⟩ |
    ⟨rfl, hcloser, rfl⟩ := step_inv h
  · exact ⟨hcancelled, by simp [State.left, Label.moves]⟩
  · refine ⟨hcancelled, ?_⟩
    simp only [State.left, hrun, Position.left, ttlTables, List.length_cons, List.length_nil,
      Label.moves, Label.takesTick, if_true]
    omega
  · refine ⟨hcancelled, ?_⟩
    simp only [State.left, hrun, Position.left, Label.moves, if_true]
    omega
  · exact absurd hcloser hcancelled
  · refine ⟨hcancelled, ?_⟩
    have hpos := List.length_pos_iff.2 (hsound.deleting rest i (.inl hrun)).1
    have hleft : s.run.left = rest.length + 1 := by rw [hrun, Position.left]
    simp only [State.left, hleft, left_nextTable, List.length_tail, Label.moves, if_true]
    omega
  · refine ⟨hcancelled, ?_⟩
    have hlt := left_afterBatch rest i rows
    have hleft : s.run.left = rest.length + 2 := by rw [hrun, Position.left]
    simp only [State.left, hleft, Label.moves, if_true]
    omega
  · exact absurd hcloser hcancelled
  · refine ⟨by simp, ?_⟩
    simp only [State.left, hcloser, Closer.left, Label.moves, if_true]
    omega
  · refine ⟨by simp, ?_⟩
    simp only [State.left, hcloser, Closer.left, Label.moves, if_true]
    omega

theorem countP_le {s t : State} {ls : List Label} (hsound : Sound s) (hcancelled : s.closer ≠ .idle)
    (h : system.exec s ls = some t) : t.closer ≠ .idle ∧ Sound t ∧
      ls.countP Label.moves + t.left ≤ s.left + 5 * ls.countP Label.takesTick := by
  induction ls generalizing s with
  | nil =>
    obtain rfl := Option.some.inj h
    exact ⟨hcancelled, hsound, by simp⟩
  | cons l ls ih =>
    obtain ⟨s', hst, hexec⟩ := Option.bind_eq_some_iff.1 h
    obtain ⟨hcancelled', hleft⟩ := left_step hsound hcancelled hst
    obtain ⟨hcancelled'', hsound', hrest⟩ := ih (hsound.step hst) hcancelled' hexec
    refine ⟨hcancelled'', hsound', ?_⟩
    rw [List.countP_cons, List.countP_cons]
    omega

/-- After the context has ended somebody can go on, without a tick, until the database is closed. -/
theorem exists_step {s : State} (hcancelled : s.closer ≠ .idle) (hopen : s.closer ≠ .closed) :
    ∃ l : Label, l.moves = true ∧ l.takesTick = false ∧ (system.step s l).isSome = true := by
  cases hrun : s.run with
  | selecting => exact ⟨.selectDone, rfl, rfl, by simp [system, step, hrun, hcancelled]⟩
  | deleting rest i => exact ⟨.exec, rfl, rfl, by simp [system, step, hrun, hcancelled]⟩
  | executing rest i => exact ⟨.result none, rfl, rfl, by simp [system, step, hrun]⟩
  | stopped =>
    cases hcloser : s.closer with
    | idle => exact absurd hcloser hcancelled
    | cancelled => exact ⟨.wait, rfl, rfl, by simp [system, step, hrun, hcloser]⟩
    | waited => exact ⟨.close, rfl, rfl, by simp [system, step, hcloser]⟩
    | closed => exact absurd hcloser hopen

/-- **Closing is safe, and is not held back for long.**  The sweeper gives no statement to a closed
database, and it has returned before.  After `cancelSweeper`, whatever the goroutine was doing,
there are at most eight steps until the database is closed, and five more for each tick that the
`select` takes in spite of the end of the context; and until then there is always a step to make
without a tick. -/
theorem close_returns (s : State) (hreach : system.Reachable init s) :
    s.late = 0 ∧ (s.closer = .closed → s.run = .stopped) ∧
    ∀ ls t, s.closer ≠ .idle → system.exec s ls = some t →
      ls.countP Label.moves ≤ 8 + 5 * ls.countP Label.takesTick ∧
      (t.closer = .closed ∨
        ∃ l : Label, l.moves = true ∧ l.takesTick = false ∧ (system.step t l).isSome = true) := by
  have hsound := sound_of_reachable hreach
  refine ⟨hsound.late, fun hclosed => hsound.stopped (.inr hclosed), ?_⟩
  intro ls t hcancelled hexec
  obtain ⟨hcancelled', -, hcount⟩ := countP_le hsound hcancelled hexec
  have hleft : s.left ≤ 8 := by
    have hrun : s.run.left ≤ 6 := by
      cases hpos : s.run with
      | selecting => decide
      | deleting rest i =>
        have hle := (hsound.deleting rest i (.inl hpos)).2
        rw [Position.left]
        omega
      | executing rest i =>
        have hle := (hsound.deleting rest i (.inr hpos)).2
        rw [Position.left]
        omega
      | stopped => decide
    have hcloser : s.closer.left ≤ 2 := by
      cases hclose : s.closer with
      | idle => exact absurd hclose hcancelled
      | cancelled => decide
      | waited => decide
      | closed => decide
    rw [State.left]
    omega
  refine ⟨by omega, ?_⟩
  by_cases hclosed : t.closer = .closed
  · exact .inl hclosed
  · exact .inr (exists_step hcancelled' hclosed)

/-- `Close` is called while a statement of the first pass is executed. -/
def sampleClosing : State := ⟨.executing ttlTables 0, .cancelled, false, 0⟩

theorem close_returns_executing :
    system.exec sampleClosing [.result (some 1000), .exec, .exec, .exec, .exec, .selectDone, .wait,
      .close] = some ⟨.stopped, .closed, false, 0⟩ ∧
    [Label.result (some 1000), .exec, .exec, .exec, .exec, .selectDone, .wait,
      .close].countP Label.moves ≤ 8 := by
  have hexec : system.exec init [.tick, .selectTick, .exec, .cancel] = some sampleClosing := rfl
  have hreach := LTS.Run.exec .start (LTS.Along.of_forall (fun _ _ => trivial) _ _) hexec
  have hclose : system.exec sampleClosing [.result (some 1000), .exec, .exec, .exec, .exec,
      .selectDone, .wait, .close] = some ⟨.stopped, .closed, false, 0⟩ := rfl
  have hreturns := (close_returns sampleClosing hreach).2.2 _ _ (by simp [sampleClosing]) hclose
  exact ⟨hclose, hreturns.1⟩

end Closing

end SqlStore

end MerkleService
