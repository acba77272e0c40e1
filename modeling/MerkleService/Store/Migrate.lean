import MerkleService.LTS.Basic
import MerkleService.Data.Lines

/-!
# Migrating the SQL schema at start-up

`runMigrations` (`internal/store/sql/migrate.go`) reads the set of applied versions once, and then
applies each of the other migrations in a transaction that executes its statements and inserts its
version into `schema_migrations`, whose primary key the version is.  Several processes may run it on
one database.  On PostgreSQL they take an advisory lock; on SQLite `acquireMigrationLock` takes
none, and a migration can be committed by another process after the versions were read.

Here processes run statement by statement in any order.  What a transaction writes is visible when
it commits; on SQLite a transaction begins when no other is open.  No statement fails for reasons of
input or output, but the insertion of a version that is there fails, and so may the statements of a
migration that is applied already.

* `Phase` : where a process is; `procStep` : its next statement; `Does` : what that can be.
* `Permits` : on SQLite, a migration whose transaction begins is not recorded yet.
* `Locking` : who holds the lock and the transaction; `Locking.progress` : nobody waits for ever.
* `Inv` : the invariant of the permitted runs.
* `migrated_iff` : **when all processes have returned, none has failed and the pending migrations
  have been committed once each and in order, if and only if all steps were permitted**.  All runs
  on PostgreSQL are (`along_permits_postgres`).
* `sqlite_second_fails` : on SQLite the second of two processes fails.
-/

namespace MerkleService

namespace Migrate

inductive Dialect where
  | postgres
  | sqlite
  deriving DecidableEq, Repr

/-- The pairs of `strings.NewReplacer` in `rewrite`. -/
def Dialect.replacements : Dialect → List (String × String)
  | .postgres =>
    [("$\x7bBYTEA\x7d", "bytea"), ("$\x7bTIMESTAMPTZ\x7d", "timestamptz"),
      ("$\x7bAUTOINC\x7d", "bigserial"), ("$\x7bIF_NOT_EXISTS_INDEX\x7d", "IF NOT EXISTS")]
  | .sqlite =>
    [("$\x7bBYTEA\x7d", "blob"), ("$\x7bTIMESTAMPTZ\x7d", "datetime"),
      ("$\x7bAUTOINC\x7d", "integer primary key autoincrement"),
      ("$\x7bIF_NOT_EXISTS_INDEX\x7d", "IF NOT EXISTS")]

/-- `Replacer.Replace`, after the `skip` characters that a match has left. -/
def replace (pairs : List (String × String)) : ℕ → List Char → List Char
  | _, [] => []
  | skip + 1, _ :: cs => replace pairs skip cs
  | 0, c :: cs =>
    match pairs.find? fun pair => pair.1.toList.isPrefixOf (c :: cs) with
    | some pair => pair.2.toList ++ replace pairs (pair.1.toList.length - 1) cs
    | none => c :: replace pairs 0 cs

def Dialect.rewrite (d : Dialect) (stmt : String) : String :=
  String.ofList (replace d.replacements 0 stmt.toList)

def splitStatements (body : String) : List String :=
  let lines := (body.toList.splitOn '\n').filter fun line =>
    !(['-', '-'].isPrefixOf (Lines.trim line))
  ((lines.flatMap fun line => line ++ ['\n']).splitOn ';').map String.ofList

structure Migration where
  version : ℤ
  name : String
  body : String
  deriving DecidableEq, Repr

/-- The statements that `applyMigration` executes. -/
def Migration.statements (d : Dialect) (m : Migration) : List String :=
  (splitStatements (d.rewrite m.body)).filter fun stmt => !(Lines.trim stmt.toList).isEmpty

/-- The embedded migrations, as `loadMigrations` returns them. -/
structure Migrations where
  list : List Migration
  ascending : list.Pairwise fun a b => a.version < b.version

def versions (l : List Migration) : List ℤ := l.map Migration.version

/-- The part of the database that migrating uses. -/
structure Database where
  /-- The process that holds the advisory lock. -/
  lock : Option ℕ := none
  /-- The process whose transaction is open, on SQLite. -/
  tx : Option ℕ := none
  /-- The table `schema_migrations` exists. -/
  table : Bool
  /-- Its rows. -/
  versions : List ℤ
  /-- The migrations whose bodies have been committed since start-up, in order. -/
  committed : List ℤ := []
  deriving DecidableEq, Repr

/-- Where a process is in `runMigrations`. -/
inductive Phase where
  /-- Before `acquireMigrationLock`. -/
  | idle
  /-- Before `schema_migrations` is created. -/
  | locked
  /-- Before `queryAppliedVersions`. -/
  | bootstrapped
  /-- In the loop over the migrations, before those in `todo`. -/
  | looping (applied : List ℤ) (todo : List Migration)
  /-- In `applyMigration`, before the statements in `stmts`. -/
  | executing (applied : List ℤ) (m : Migration) (stmts : List String) (todo : List Migration)
  /-- Before `Commit`. -/
  | inserted (applied : List ℤ) (m : Migration) (todo : List Migration)
  /-- Before the lock is released. -/
  | returning (err : Option String)
  | returned (err : Option String)
  deriving DecidableEq, Repr

/-- A process executes its next statement.  The errors are those of the driver, if the statement
fails. -/
structure Label where
  proc : ℕ
  execErr : Option String := none
  insertErr : String := ""

/-- `%04d`. -/
def pad4 (v : ℤ) : String :=
  let digits := toString v.natAbs
  let width := if v < 0 then 3 else 4
  let zeros := String.ofList (List.replicate (width - digits.length) '0')
  (if v < 0 then "-" else "") ++ zeros ++ digits

def applyErr (m : Migration) (err : String) : String :=
  s!"apply migration {pad4 m.version}_{m.name}: {err}"

section

variable (d : Dialect) (M : Migrations)

/-- The next statement of a process. -/
def procStep (l : Label) (db : Database) : Phase → Option (Database × Phase)
  | .idle =>
    if M.list.length = 0 then some (db, .returned none)
    else
      match d with
      | .postgres =>
        -- `pg_advisory_lock` waits for the holder.
        if db.lock = none then some ({ db with lock := some l.proc }, .locked) else none
      | .sqlite => some (db, .locked)
  | .locked => some ({ db with table := true }, .bootstrapped)
  | .bootstrapped => some (db, .looping (if db.table then db.versions else []) M.list)
  | .looping _ [] => some (db, .returning none)
  | .looping applied (m :: todo) =>
    if m.version ∈ applied then some (db, .looping applied todo)
    else
      match d with
      | .postgres => some (db, .executing applied m (m.statements d) todo)
      | .sqlite =>
        -- Writers are serialized; an open transaction is waited for.
        if db.tx = none then
          some ({ db with tx := some l.proc }, .executing applied m (m.statements d) todo)
        else none
  | .executing applied m (stmt :: stmts) todo =>
    match l.execErr with
    | none => some (db, .executing applied m stmts todo)
    | some err =>
      -- A body that has not been applied can be executed.
      if m.version ∈ db.versions then
        some ({ db with tx := none },
          .returning (some (applyErr m s!"exec stmt: {err}\n---\n{stmt}")))
      else none
  | .executing applied m [] todo =>
    -- The primary key refuses a version that is there.
    if m.version ∈ db.versions then
      some ({ db with tx := none },
        .returning (some (applyErr m s!"record migration: {l.insertErr}")))
    else some (db, .inserted applied m todo)
  | .inserted applied m todo =>
    -- The versions that were read at the beginning are not read again.
    some ({ db with
      tx := none
      versions := db.versions ++ [m.version]
      committed := db.committed ++ [m.version] }, .looping applied todo)
  | .returning err => some ({ db with lock := none }, .returned err)
  | .returned _ => none

/-- The database and the processes. -/
structure State where
  db : Database
  procs : List Phase
  deriving DecidableEq, Repr

def State.step (s : State) (l : Label) : Option State :=
  (s.procs[l.proc]?).bind fun phase =>
    (procStep d M l s.db phase).map fun r => ⟨r.1, s.procs.set l.proc r.2⟩

def machine : LTS State Label := ⟨State.step d M⟩

/-- `n` processes start on a database in which the first `k` migrations are recorded. -/
def start (table : Bool) (k n : ℕ) : State :=
  ⟨{ table := table, versions := versions (M.list.take k) }, List.replicate n .idle⟩

/-- On SQLite, the migration whose transaction begins is not recorded. -/
def Permits (s : State) (l : Label) : Prop :=
  d = .sqlite → ∀ applied m todo, s.procs[l.proc]? = some (.looping applied (m :: todo)) →
    m.version ∉ applied → m.version ∉ s.db.versions

end

/-! ### What a statement can do -/

/-- The outcomes of a statement. -/
inductive Does (d : Dialect) (M : Migrations) (q : ℕ) (db : Database) :
    Phase → Database × Phase → Prop
  | nothing (hempty : M.list.length = 0) : Does d M q db .idle (db, .returned none)
  | lock (hd : d = .postgres) (hfree : db.lock = none) :
    Does d M q db .idle ({ db with lock := some q }, .locked)
  | unlocked (hd : d = .sqlite) : Does d M q db .idle (db, .locked)
  | create : Does d M q db .locked ({ db with table := true }, .bootstrapped)
  | query :
    Does d M q db .bootstrapped (db, .looping (if db.table then db.versions else []) M.list)
  | finish {applied : List ℤ} : Does d M q db (.looping applied []) (db, .returning none)
  | skip {applied : List ℤ} {m : Migration} {todo : List Migration}
      (hmem : m.version ∈ applied) :
    Does d M q db (.looping applied (m :: todo)) (db, .looping applied todo)
  | begin {applied : List ℤ} {m : Migration} {todo : List Migration} (hd : d = .postgres)
      (hmem : m.version ∉ applied) :
    Does d M q db (.looping applied (m :: todo))
      (db, .executing applied m (m.statements d) todo)
  | beginTx {applied : List ℤ} {m : Migration} {todo : List Migration} (hd : d = .sqlite)
      (hmem : m.version ∉ applied) (hfree : db.tx = none) :
    Does d M q db (.looping applied (m :: todo))
      ({ db with tx := some q }, .executing applied m (m.statements d) todo)
  | exec {applied : List ℤ} {m : Migration} {stmt : String} {stmts : List String}
      {todo : List Migration} :
    Does d M q db (.executing applied m (stmt :: stmts) todo) (db, .executing applied m stmts todo)
  | rollback {applied : List ℤ} {m : Migration} {stmts : List String} {todo : List Migration}
      (err : String) (hmem : m.version ∈ db.versions) :
    Does d M q db (.executing applied m stmts todo)
      ({ db with tx := none }, .returning (some err))
  | insert {applied : List ℤ} {m : Migration} {todo : List Migration}
      (hmem : m.version ∉ db.versions) :
    Does d M q db (.executing applied m [] todo) (db, .inserted applied m todo)
  | commit {applied : List ℤ} {m : Migration} {todo : List Migration} :
    Does d M q db (.inserted applied m todo)
      ({ db with
        tx := none
        versions := db.versions ++ [m.version]
        committed := db.committed ++ [m.version] }, .looping applied todo)
  | release {err : Option String} :
    Does d M q db (.returning err) ({ db with lock := none }, .returned err)

section

variable {d : Dialect} {M : Migrations} {db : Database} {l : Label} {r : Database × Phase}

theorem idle_does (hst : procStep d M l db .idle = some r) : Does d M l.proc db .idle r := by
  by_cases hempty : M.list.length = 0
  · simp only [procStep, if_pos hempty] at hst
    obtain rfl := Option.some.inj hst
    exact .nothing hempty
  · cases d with
    | postgres =>
      simp only [procStep, if_neg hempty] at hst
      split_ifs at hst with hfree
      obtain rfl := Option.some.inj hst
      exact .lock rfl hfree
    | sqlite =>
      simp only [procStep, if_neg hempty] at hst
      obtain rfl := Option.some.inj hst
      exact .unlocked rfl

theorem looping_does {applied : List ℤ} {todo : List Migration}
    (hst : procStep d M l db (.looping applied todo) = some r) :
    Does d M l.proc db (.looping applied todo) r := by
  cases todo with
  | nil =>
    obtain rfl := Option.some.inj hst
    exact .finish
  | cons m todo =>
    by_cases hmem : m.version ∈ applied
    · simp only [procStep, if_pos hmem] at hst
      obtain rfl := Option.some.inj hst
      exact .skip hmem
    · cases d with
      | postgres =>
        simp only [procStep, if_neg hmem] at hst
        obtain rfl := Option.some.inj hst
        exact .begin rfl hmem
      | sqlite =>
        simp only [procStep, if_neg hmem] at hst
        split_ifs at hst with hfree
        obtain rfl := Option.some.inj hst
        exact .beginTx rfl hmem hfree

theorem executing_does {applied : List ℤ} {m : Migration} {stmts : List String}
    {todo : List Migration} (hst : procStep d M l db (.executing applied m stmts todo) = some r) :
    Does d M l.proc db (.executing applied m stmts todo) r := by
  cases stmts with
  | nil =>
    simp only [procStep] at hst
    split_ifs at hst with hmem
    · obtain rfl := Option.some.inj hst
      exact .rollback _ hmem
    · obtain rfl := Option.some.inj hst
      exact .insert hmem
  | cons stmt stmts =>
    simp only [procStep] at hst
    split at hst
    · obtain rfl := Option.some.inj hst
      exact .exec
    · split_ifs at hst with hmem
      obtain rfl := Option.some.inj hst
      exact .rollback _ hmem

theorem procStep_does {phase : Phase} (hst : procStep d M l db phase = some r) :
    Does d M l.proc db phase r := by
  cases phase with
  | idle => exact idle_does hst
  | locked =>
    obtain rfl := Option.some.inj hst
    exact .create
  | bootstrapped =>
    obtain rfl := Option.some.inj hst
    exact .query
  | looping applied todo => exact looping_does hst
  | executing applied m stmts todo => exact executing_does hst
  | inserted applied m todo =>
    obtain rfl := Option.some.inj hst
    exact .commit
  | returning err =>
    obtain rfl := Option.some.inj hst
    exact .release
  | returned err => cases hst

theorem step_eq_some {s s' : State} (hst : (machine d M).step s l = some s') :
    ∃ phase, s.procs[l.proc]? = some phase ∧
      ∃ r, Does d M l.proc s.db phase r ∧ s' = ⟨r.1, s.procs.set l.proc r.2⟩ := by
  obtain ⟨phase, hphase, hmap⟩ := Option.bind_eq_some_iff.1 hst
  obtain ⟨r, hr, rfl⟩ := Option.map_eq_some_iff.1 hmap
  exact ⟨phase, hphase, r, procStep_does hr, rfl⟩

end

/-! ### Versions -/

section

variable {M : Migrations}

theorem version_mem_take {i j : ℕ} {m : Migration} (h : M.list[i]? = some m) :
    m.version ∈ versions (M.list.take j) ↔ i < j := by
  obtain ⟨hi, rfl⟩ := List.getElem?_eq_some_iff.1 h
  have hmono := List.pairwise_iff_getElem.1 M.ascending
  constructor
  · intro hmem
    obtain ⟨x, hx, hversion⟩ := List.mem_map.1 hmem
    obtain ⟨i', hi', rfl⟩ := List.mem_take_iff_getElem.1 hx
    have hlt : i' < M.list.length := by omega
    rcases Nat.lt_trichotomy i i' with hcmp | rfl | hcmp
    · have := hmono i i' hi hlt hcmp
      omega
    · omega
    · have := hmono i' i hlt hi hcmp
      omega
  · intro hlt
    refine List.mem_map.2 ⟨_, List.mem_take_iff_getElem.2 ⟨i, by omega, rfl⟩, rfl⟩

theorem getElem?_of_drop {i : ℕ} {m : Migration} {todo : List Migration}
    (h : M.list.drop i = m :: todo) : M.list[i]? = some m ∧ M.list.drop (i + 1) = todo := by
  constructor
  · rw [← List.head?_drop, h, List.head?_cons]
  · rw [← List.drop_drop, h, List.drop_one, List.tail_cons]

theorem length_versions_take {j : ℕ} (hj : j ≤ M.list.length) :
    (versions (M.list.take j)).length = j := by
  rw [versions, List.length_map, List.length_take_of_le hj]

theorem versions_take_succ {j : ℕ} {m : Migration} (h : M.list[j]? = some m) :
    versions (M.list.take (j + 1)) = versions (M.list.take j) ++ [m.version] := by
  rw [versions, versions, List.take_add_one, h, Option.toList_some, List.map_append,
    List.map_singleton]

end

/-! ### The lock and the transaction -/

/-- The process is between taking and releasing the lock. -/
def Phase.active : Phase → Bool
  | idle | returned _ => false
  | _ => true

/-- The process has a transaction open. -/
def Phase.inTx : Phase → Bool
  | executing _ _ _ _ | inserted _ _ _ => true
  | _ => false

/-- The process has returned. -/
def Phase.done : Phase → Bool
  | returned _ => true
  | _ => false

section

variable (d : Dialect)

/-- The process holds the lock, and has the open transaction, exactly where it should. -/
structure Held (db : Database) (p : ℕ) (phase : Phase) : Prop where
  lock : d = .postgres → (db.lock = some p ↔ phase.active = true)
  tx : d = .sqlite → (db.tx = some p ↔ phase.inTx = true)

structure Locking (s : State) : Prop where
  proc : ∀ p phase, s.procs[p]? = some phase → Held d s.db p phase
  holder : ∀ p, s.db.lock = some p ∨ s.db.tx = some p → p < s.procs.length

/-- What a statement of process `q` may do to the database. -/
structure Moves (q : ℕ) (db db' : Database) : Prop where
  lock : d = .postgres → ∀ p, p ≠ q → (db'.lock = some p ↔ db.lock = some p)
  tx : d = .sqlite → ∀ p, p ≠ q → (db'.tx = some p ↔ db.tx = some p)
  holder : ∀ p, db'.lock = some p ∨ db'.tx = some p → p = q ∨ db.lock = some p ∨ db.tx = some p
  table : db.table = true → db'.table = true
  versions : db'.versions = db.versions ∨ (∃ v, db'.versions = db.versions ++ [v]) ∧
    (d = .postgres → db.lock = some q) ∧ (d = .sqlite → db.tx = some q)

end

section

variable {d : Dialect} {M : Migrations} {db db' : Database} {l : Label} {r : Database × Phase}

theorem some_iff_none {p q : ℕ} (hne : p ≠ q) : some q = some p ↔ none = some p := by
  rw [Option.some.injEq]
  exact iff_of_false (Ne.symm hne) (by simp)

theorem Moves.refl (d : Dialect) (q : ℕ) (db : Database) : Moves d q db db where
  lock _ _ _ := Iff.rfl
  tx _ _ _ := Iff.rfl
  holder _ h := .inr h
  table h := h
  versions := .inl rfl

theorem Moves.subset {q : ℕ} (h : Moves d q db db') : ∀ v ∈ db.versions, v ∈ db'.versions := by
  intro v hv
  rcases h.versions with heq | ⟨⟨v', heq⟩, -⟩
  · rwa [heq]
  · rw [heq]
    exact List.mem_append_left _ hv

theorem Moves.length_le {q : ℕ} (h : Moves d q db db') :
    db.versions.length ≤ db'.versions.length := by
  rcases h.versions with heq | ⟨⟨v', heq⟩, -⟩
  · rw [heq]
  · rw [heq, List.length_append]
    exact Nat.le_add_right _ _

/-- Nobody else records a migration while the process relies on what is recorded. -/
theorem Moves.versions_eq {p q : ℕ} {phase : Phase} (hmove : Moves d q db db')
    (h : Held d db p phase) (hne : p ≠ q) (hactive : phase.active = true)
    (hin : d = .sqlite → phase.inTx = true) : db'.versions = db.versions := by
  rcases hmove.versions with heq | ⟨-, hlock, htx⟩
  · exact heq
  · exfalso
    cases d with
    | postgres =>
      have hp := (h.lock rfl).2 hactive
      rw [hlock rfl, Option.some.injEq] at hp
      exact hne hp.symm
    | sqlite =>
      have hp := (h.tx rfl).2 (hin rfl)
      rw [htx rfl, Option.some.injEq] at hp
      exact hne hp.symm

theorem Held.other {p q : ℕ} {phase : Phase} (h : Held d db p phase) (hne : p ≠ q)
    (hmove : Moves d q db db') : Held d db' p phase :=
  ⟨fun hd => (hmove.lock hd p hne).trans (h.lock hd),
    fun hd => (hmove.tx hd p hne).trans (h.tx hd)⟩

theorem Held.same {q : ℕ} {phase phase' : Phase} (h : Held d db q phase)
    (hactive : phase'.active = phase.active) (hin : phase'.inTx = phase.inTx) :
    Moves d q db db ∧ Held d db q phase' :=
  ⟨.refl _ _ _, fun hd => by rw [hactive]; exact h.lock hd, fun hd => by rw [hin]; exact h.tx hd⟩

theorem Held.closed {q : ℕ} {phase phase' : Phase} (h : Held d db q phase)
    (hin : phase.inTx = true) (hactive : phase.active = true) (hin' : phase'.inTx = false)
    (hactive' : phase'.active = true) (hlock : db'.lock = db.lock) (htx : db'.tx = none)
    (htable : db'.table = db.table)
    (hversions : db'.versions = db.versions ∨ ∃ v, db'.versions = db.versions ++ [v]) :
    Moves d q db db' ∧ Held d db' q phase' := by
  refine ⟨⟨fun _ _ _ => by rw [hlock], fun hd p hne => ?_, fun p hp => ?_,
    fun ht => by rw [htable, ht], ?_⟩, ⟨fun hd => ?_, fun _ => ?_⟩⟩
  · rw [htx, (h.tx hd).2 hin]
    exact (some_iff_none hne).symm
  · rw [hlock, htx] at hp
    rcases hp with hp | hp
    · exact .inr (.inl hp)
    · cases hp
  · rcases hversions with heq | hex
    · exact .inl heq
    · exact .inr ⟨hex, fun hd => (h.lock hd).2 hactive, fun hd => (h.tx hd).2 hin⟩
  · rw [hlock, h.lock hd, hactive, hactive']
  · rw [htx, hin']
    simp

/-- **The lock and the transaction, in one statement.** -/
theorem Does.moves {q : ℕ} {phase : Phase} (h : Does d M q db phase r) (hheld : Held d db q phase) :
    Moves d q db r.1 ∧ Held d r.1 q r.2 := by
  cases h with
  | nothing _ => exact hheld.same rfl rfl
  | lock hd hfree =>
    subst hd
    refine ⟨⟨fun _ p hne => ?_, fun hd => (nomatch hd), fun p hp => ?_, id, .inl rfl⟩,
      ⟨fun _ => iff_of_true rfl rfl, fun hd => (nomatch hd)⟩⟩
    · rw [hfree]
      exact some_iff_none hne
    · rcases hp with hp | hp
      · exact .inl (Option.some.inj hp).symm
      · exact .inr (.inr hp)
  | unlocked hd =>
    subst hd
    exact ⟨.refl _ _ _, ⟨fun hd => (nomatch hd), hheld.tx⟩⟩
  | create =>
    exact ⟨⟨fun _ _ _ => Iff.rfl, fun _ _ _ => Iff.rfl, fun _ => .inr, fun _ => rfl, .inl rfl⟩,
      ⟨hheld.lock, hheld.tx⟩⟩
  | query => exact hheld.same rfl rfl
  | finish => exact hheld.same rfl rfl
  | skip _ => exact hheld.same rfl rfl
  | begin hd _ =>
    subst hd
    exact ⟨.refl _ _ _, ⟨hheld.lock, fun hd => (nomatch hd)⟩⟩
  | beginTx hd _ hfree =>
    subst hd
    refine ⟨⟨fun hd => (nomatch hd), fun _ p hne => ?_, fun p hp => ?_, id, .inl rfl⟩,
      ⟨fun hd => (nomatch hd), fun _ => iff_of_true rfl rfl⟩⟩
    · rw [hfree]
      exact some_iff_none hne
    · rcases hp with hp | hp
      · exact .inr (.inl hp)
      · exact .inl (Option.some.inj hp).symm
  | exec => exact hheld.same rfl rfl
  | rollback _ _ => exact hheld.closed rfl rfl rfl rfl rfl rfl rfl (.inl rfl)
  | insert _ => exact hheld.same rfl rfl
  | commit => exact hheld.closed rfl rfl rfl rfl rfl rfl rfl (.inr ⟨_, rfl⟩)
  | release =>
    refine ⟨⟨fun hd p hne => ?_, fun _ _ _ => Iff.rfl, fun p hp => ?_, id, .inl rfl⟩,
      ⟨fun _ => by simp [Phase.active], hheld.tx⟩⟩
    · rw [(hheld.lock hd).2 rfl]
      exact (some_iff_none hne).symm
    · rcases hp with hp | hp
      · cases hp
      · exact .inr (.inr hp)

theorem Locking.step {s s' : State} (h : Locking d s) (hst : (machine d M).step s l = some s') :
    Locking d s' := by
  obtain ⟨phase, hphase, r, hr, rfl⟩ := step_eq_some hst
  obtain ⟨hmove, hheld⟩ := hr.moves (h.proc _ _ hphase)
  refine ⟨fun p phase' hp => ?_, fun p hp => ?_⟩
  · rcases List.getElem?_set_cases hp with ⟨rfl, rfl⟩ | ⟨hne, hp⟩
    · exact hheld
    · exact (h.proc p phase' hp).other hne hmove
  · rw [List.length_set]
    rcases hmove.holder p hp with rfl | hp
    · exact (List.getElem?_eq_some_iff.1 hphase).1
    · exact h.holder p hp

theorem locking_start (table : Bool) (k n : ℕ) : Locking d (start M table k n) where
  proc p phase hp := by
    obtain rfl := List.eq_of_mem_replicate (List.mem_of_getElem? hp)
    exact ⟨fun _ => by simp [start, Phase.active], fun _ => by simp [start, Phase.inTx]⟩
  holder p hp := by simp [start] at hp

end

/-! ### Every run ends -/

section

variable {d : Dialect} {M : Migrations} {db : Database} {l : Label} {r : Database × Phase}

/-- The statements that `todo` takes at most. -/
def work (d : Dialect) (todo : List Migration) : ℕ :=
  (todo.map fun m => (m.statements d).length + 3).sum

/-- The statements that a process has before it at most. -/
def Phase.rank (d : Dialect) (M : Migrations) : Phase → ℕ
  | idle => work d M.list + 5
  | locked => work d M.list + 4
  | bootstrapped => work d M.list + 3
  | looping _ todo => work d todo + 2
  | executing _ _ stmts todo => stmts.length + work d todo + 4
  | inserted _ _ todo => work d todo + 3
  | returning _ => 1
  | returned _ => 0

def State.rank (d : Dialect) (M : Migrations) (s : State) : ℕ := (s.procs.map (Phase.rank d M)).sum

theorem Does.rank_lt {q : ℕ} {phase : Phase} (h : Does d M q db phase r) :
    r.2.rank d M < phase.rank d M := by
  cases h with
  | skip _ | begin _ _ | beginTx _ _ _ =>
    simp only [Phase.rank, work, List.map_cons, List.sum_cons]
    omega
  | exec =>
    simp only [Phase.rank, List.length_cons]
    omega
  | _ =>
    simp only [Phase.rank]
    omega

theorem step_rank_lt {s s' : State} (hst : (machine d M).step s l = some s') :
    s'.rank d M < s.rank d M := by
  obtain ⟨phase, hphase, r, hr, rfl⟩ := step_eq_some hst
  have hsum := List.sum_map_set (Phase.rank d M) hphase r.2
  have hlt := hr.rank_lt
  simp only [State.rank]
  omega

theorem rank_start (table : Bool) (k n : ℕ) :
    (start M table k n).rank d M = n * (work d M.list + 5) := by
  simp only [start, State.rank, List.map_replicate, List.sum_replicate, smul_eq_mul, Phase.rank]

/-- A statement is held up by the lock or by an open transaction only. -/
theorem isSome_procStep {q : ℕ} {phase : Phase} (hdone : phase.done = false)
    (hlock : d = .postgres → db.lock = none ∨ phase.active = true)
    (htx : d = .sqlite → db.tx = none ∨ phase.inTx = true) :
    (procStep d M { proc := q } db phase).isSome = true := by
  cases phase with
  | idle =>
    by_cases hempty : M.list.length = 0
    · simp only [procStep, if_pos hempty, Option.isSome_some]
    · cases d with
      | postgres =>
        have hfree := (hlock rfl).resolve_right (by simp [Phase.active])
        simp only [procStep, if_neg hempty, if_pos hfree, Option.isSome_some]
      | sqlite => simp only [procStep, if_neg hempty, Option.isSome_some]
  | looping applied todo =>
    cases todo with
    | nil => rfl
    | cons m todo =>
      by_cases hmem : m.version ∈ applied
      · simp only [procStep, if_pos hmem, Option.isSome_some]
      · cases d with
        | postgres => simp only [procStep, if_neg hmem, Option.isSome_some]
        | sqlite =>
          have hfree := (htx rfl).resolve_right (by simp [Phase.inTx])
          simp only [procStep, if_neg hmem, if_pos hfree, Option.isSome_some]
  | executing applied m stmts todo =>
    cases stmts with
    | nil =>
      simp only [procStep]
      split_ifs <;> rfl
    | cons stmt stmts => rfl
  | returned err => cases hdone
  | _ => rfl

theorem isSome_step {s : State} {p : ℕ} {phase : Phase} (hp : s.procs[p]? = some phase)
    (h : (procStep d M { proc := p } s.db phase).isSome = true) :
    ((machine d M).step s { proc := p }).isSome = true := by
  simp only [machine, State.step, hp, Option.bind_some, Option.isSome_map, h]

/-- **The processes do not block one another.** -/
theorem Locking.progress {s : State} (h : Locking d s) {p : ℕ} {phase : Phase}
    (hp : s.procs[p]? = some phase) (hdone : phase.done = false) :
    ∃ l, ((machine d M).step s l).isSome = true := by
  -- Who holds the lock or the transaction can go on; if nobody does, anyone can.
  cases d with
  | postgres =>
    cases hlock : s.db.lock with
    | none =>
      exact ⟨_, isSome_step hp (isSome_procStep hdone (fun _ => .inl hlock)
        (fun hd => (nomatch hd)))⟩
    | some q =>
      have hq := h.holder q (.inl hlock)
      have hget := List.getElem?_eq_getElem hq
      have hactive := ((h.proc q _ hget).lock rfl).1 hlock
      refine ⟨_, isSome_step hget (isSome_procStep ?_ (fun _ => .inr hactive)
        (fun hd => (nomatch hd)))⟩
      cases hphase : s.procs[q] <;> first | rfl | simp [hphase, Phase.active] at hactive
  | sqlite =>
    cases htx : s.db.tx with
    | none =>
      exact ⟨_, isSome_step hp (isSome_procStep hdone (fun hd => (nomatch hd))
        (fun _ => .inl htx))⟩
    | some q =>
      have hq := h.holder q (.inr htx)
      have hget := List.getElem?_eq_getElem hq
      have hin := ((h.proc q _ hget).tx rfl).1 htx
      refine ⟨_, isSome_step hget (isSome_procStep ?_ (fun hd => (nomatch hd))
        (fun _ => .inr hin))⟩
      cases hphase : s.procs[q] <;> first | rfl | simp [hphase, Phase.inTx] at hin

end

/-! ### The rows -/

section

variable (d : Dialect) (M : Migrations) (k : ℕ)

/-- The recorded migrations are the first ones, of which the first `k` were there. -/
def Rows (db : Database) : Prop :=
  ∃ j, k ≤ j ∧ j ≤ M.list.length ∧ db.versions = versions (M.list.take j) ∧
    db.committed = versions ((M.list.take j).drop k)

/-- What is known about the migrations still to do.  Under the lock nobody else applies one. -/
def Known (db : Database) (applied : List ℤ) (todo : List Migration) : Prop :=
  (∀ v ∈ applied, v ∈ db.versions) ∧
    (d = .postgres → ∀ m ∈ todo, m.version ∈ db.versions → m.version ∈ applied)

/-- What is known where the process is: it has passed recorded migrations only, and the one that it
applies is the first that is not recorded. -/
def Place (db : Database) : Phase → Prop
  | .idle | .locked => True
  | .bootstrapped => db.table = true
  | .looping applied todo =>
    (∃ i ≤ db.versions.length, M.list.drop i = todo) ∧ Known d db applied todo
  | .executing applied m _ todo | .inserted applied m todo =>
    M.list.drop db.versions.length = m :: todo ∧ Known d db applied todo
  | .returning err | .returned err => err = none ∧ M.list.length ≤ db.versions.length

structure Inv (s : State) : Prop where
  locking : Locking d s
  rows : Rows M k s.db
  place : ∀ (p : ℕ) phase, s.procs[p]? = some phase → Place d M s.db phase

end

section

variable {d : Dialect} {M : Migrations} {k : ℕ} {db db' : Database} {r : Database × Phase}

theorem Rows.versions_eq (h : Rows M k db) :
    db.versions = versions (M.list.take db.versions.length) := by
  obtain ⟨j, -, hj, hversions, -⟩ := h
  rw [hversions, length_versions_take hj]

theorem Rows.mem_iff (h : Rows M k db) {i : ℕ} {m : Migration} (hm : M.list[i]? = some m) :
    m.version ∈ db.versions ↔ i < db.versions.length := by
  rw [h.versions_eq, version_mem_take hm, ← h.versions_eq]

theorem Rows.notMem (h : Rows M k db) {m : Migration} {todo : List Migration}
    (hdrop : M.list.drop db.versions.length = m :: todo) : m.version ∉ db.versions := by
  rw [h.mem_iff (getElem?_of_drop hdrop).1]
  exact lt_irrefl _

theorem Rows.append (h : Rows M k db) {m : Migration} {todo : List Migration}
    (hdrop : M.list.drop db.versions.length = m :: todo)
    (hversions : db'.versions = db.versions ++ [m.version])
    (hcommitted : db'.committed = db.committed ++ [m.version]) : Rows M k db' := by
  obtain ⟨j, hk, hj, hv, hc⟩ := h
  have hlen : db.versions.length = j := by rw [hv, length_versions_take hj]
  rw [hlen] at hdrop
  obtain ⟨hget, -⟩ := getElem?_of_drop hdrop
  have hlt : j < M.list.length := (List.getElem?_eq_some_iff.1 hget).1
  refine ⟨j + 1, by omega, hlt, ?_, ?_⟩
  · rw [hversions, hv, versions_take_succ hget]
  · rw [hcommitted, hc, List.take_add_one, hget, Option.toList_some,
      List.drop_append_of_le_length (by rw [List.length_take_of_le hj]; exact hk), versions,
      versions, List.map_append, List.map_singleton]

theorem Rows.all (h : Rows M k db) (hall : M.list.length ≤ db.versions.length) :
    db.versions = versions M.list ∧ db.committed = versions (M.list.drop k) := by
  obtain ⟨j, -, hj, hv, hc⟩ := h
  rw [hv, length_versions_take hj] at hall
  rw [hv, hc, List.take_of_length_le hall]
  exact ⟨rfl, rfl⟩

theorem Known.mono {applied : List ℤ} {todo : List Migration} (h : Known d db applied todo)
    (hsub : ∀ v ∈ db.versions, v ∈ db'.versions)
    (hnew : d = .postgres → ∀ m ∈ todo, m.version ∈ db'.versions → m.version ∈ db.versions) :
    Known d db' applied todo :=
  ⟨fun v hv => hsub v (h.1 v hv), fun hd m hm hmem => h.2 hd m hm (hnew hd m hm hmem)⟩

theorem Known.tail {applied : List ℤ} {m : Migration} {todo : List Migration}
    (h : Known d db applied (m :: todo)) : Known d db applied todo :=
  ⟨h.1, fun hd x hx => h.2 hd x (List.mem_cons_of_mem _ hx)⟩

/-- **What holds of the other processes stays**: those that rely on what is recorded hold the lock
or the transaction, and then nobody else records. -/
theorem Place.other {p q : ℕ} {phase : Phase} (h : Place d M db phase) (hheld : Held d db p phase)
    (hne : p ≠ q) (hmove : Moves d q db db') : Place d M db' phase := by
  have hknown : ∀ {applied todo}, phase.active = true → Known d db applied todo →
      Known d db' applied todo := by
    intro applied todo hactive hk
    -- On SQLite nothing is known about what the others record.
    refine hk.mono hmove.subset fun hd m _ hmem => ?_
    rwa [hmove.versions_eq hheld hne hactive (fun hd' => by simp [hd] at hd')] at hmem
  cases phase with
  | idle => trivial
  | locked => trivial
  | bootstrapped => exact hmove.table h
  | looping applied todo =>
    obtain ⟨⟨i, hi, hdrop⟩, hk⟩ := h
    exact ⟨⟨i, hi.trans hmove.length_le, hdrop⟩, hknown rfl hk⟩
  | executing applied m stmts todo =>
    refine ⟨?_, hknown rfl h.2⟩
    rw [hmove.versions_eq hheld hne rfl (fun _ => rfl)]
    exact h.1
  | inserted applied m todo =>
    refine ⟨?_, hknown rfl h.2⟩
    rw [hmove.versions_eq hheld hne rfl (fun _ => rfl)]
    exact h.1
  | returning err => exact ⟨h.1, h.2.trans hmove.length_le⟩
  | returned err => exact ⟨h.1, h.2.trans hmove.length_le⟩

/-- A migration that the process has not passed, and that is not recorded, is the next one. -/
theorem place_executing {applied : List ℤ} {m : Migration} {todo : List Migration}
    (hrows : Rows M k db) (h : Place d M db (.looping applied (m :: todo)))
    (hnew : m.version ∉ db.versions) (stmts : List String) :
    Place d M db (.executing applied m stmts todo) := by
  obtain ⟨⟨i, hi, hdrop⟩, hknown⟩ := h
  rw [hrows.mem_iff (getElem?_of_drop hdrop).1] at hnew
  obtain rfl : i = db.versions.length := by omega
  exact ⟨hdrop, hknown.tail⟩

theorem place_commit {applied : List ℤ} {m : Migration} {todo : List Migration}
    (h : Place d M db (.inserted applied m todo))
    (hversions : db'.versions = db.versions ++ [m.version]) :
    Place d M db' (.looping applied todo) := by
  obtain ⟨hdrop, hknown⟩ := h
  obtain ⟨hget, hrest⟩ := getElem?_of_drop hdrop
  refine ⟨⟨_, ?_, hrest⟩, hknown.mono ?_ ?_⟩
  · rw [hversions, List.length_append, List.length_singleton]
  · intro v hv
    rw [hversions]
    exact List.mem_append_left _ hv
  · -- The migration that was recorded is not among the later ones.
    intro _ x hx hmem
    rw [hversions, List.mem_append] at hmem
    refine hmem.resolve_right fun hmem => ?_
    rw [← hrest] at hx
    obtain ⟨i, hi⟩ := List.getElem?_of_mem hx
    rw [List.getElem?_drop] at hi
    have hiff := @version_mem_take M _ (db.versions.length + 1) x hi
    rw [versions_take_succ hget, List.mem_append] at hiff
    have := hiff.1 (.inr hmem)
    omega

/-- **One permitted statement.** -/
theorem Does.place {q : ℕ} {phase : Phase} (h : Does d M q db phase r) (hrows : Rows M k db)
    (hplace : Place d M db phase)
    (hok : d = .sqlite → ∀ applied m todo, phase = .looping applied (m :: todo) →
      m.version ∉ applied → m.version ∉ db.versions) :
    Rows M k r.1 ∧ Place d M r.1 r.2 := by
  cases h with
  | nothing hempty => exact ⟨hrows, rfl, by omega⟩
  | lock _ _ => exact ⟨hrows, trivial⟩
  | unlocked _ => exact ⟨hrows, trivial⟩
  | create => exact ⟨hrows, rfl⟩
  | query =>
    have htable : db.table = true := hplace
    refine ⟨hrows, ⟨0, Nat.zero_le _, rfl⟩, ?_⟩
    rw [if_pos htable]
    exact ⟨fun _ hv => hv, fun _ _ _ hmem => hmem⟩
  | finish =>
    obtain ⟨⟨i, hi, hdrop⟩, -⟩ := hplace
    exact ⟨hrows, rfl, (List.drop_eq_nil_iff.1 hdrop).trans hi⟩
  | skip hmem =>
    obtain ⟨⟨i, hi, hdrop⟩, hknown⟩ := hplace
    obtain ⟨hget, hrest⟩ := getElem?_of_drop hdrop
    have hlt := (hrows.mem_iff hget).1 (hknown.1 _ hmem)
    exact ⟨hrows, ⟨i + 1, hlt, hrest⟩, hknown.tail⟩
  | @begin applied m todo hd hmem =>
    -- Under the lock nobody has recorded a migration since the versions were read.
    have hnew : m.version ∉ db.versions :=
      fun hrec => hmem (hplace.2.2 hd m List.mem_cons_self hrec)
    exact ⟨hrows, place_executing hrows hplace hnew (m.statements d)⟩
  | @beginTx applied m todo hd hmem _ =>
    have hnew := hok hd applied m todo rfl hmem
    exact ⟨hrows, place_executing hrows hplace hnew (m.statements d)⟩
  | exec => exact ⟨hrows, hplace⟩
  | rollback _ hmem => exact absurd hmem (hrows.notMem hplace.1)
  | insert _ => exact ⟨hrows, hplace⟩
  | commit => exact ⟨hrows.append hplace.1 rfl rfl, place_commit hplace rfl⟩
  | release => exact ⟨hrows, hplace⟩

theorem Inv.step {s s' : State} {l : Label} (h : Inv d M k s) (hok : Permits d s l)
    (hst : (machine d M).step s l = some s') : Inv d M k s' := by
  have hlocking := h.locking.step hst
  obtain ⟨phase, hphase, r, hr, rfl⟩ := step_eq_some hst
  obtain ⟨hmove, -⟩ := hr.moves (h.locking.proc _ _ hphase)
  obtain ⟨hrows, hplace⟩ := hr.place h.rows (h.place _ _ hphase)
    fun hd applied m todo heq => hok hd applied m todo (by rw [hphase, heq])
  refine ⟨hlocking, hrows, fun p phase' hp => ?_⟩
  rcases List.getElem?_set_cases hp with ⟨rfl, rfl⟩ | ⟨hne, hp⟩
  · exact hplace
  · exact (h.place p phase' hp).other (h.locking.proc p phase' hp) hne hmove

theorem inv_start (table : Bool) {k : ℕ} (hk : k ≤ M.list.length) (n : ℕ) :
    Inv d M k (start M table k n) where
  locking := locking_start table k n
  rows := by
    refine ⟨k, le_refl k, hk, rfl, ?_⟩
    rw [List.drop_take, Nat.sub_self, List.take_zero]
    rfl
  place p phase hp := by
    obtain rfl := List.eq_of_mem_replicate (List.mem_of_getElem? hp)
    trivial

end

/-! ### Migrations that were recorded meanwhile -/

/-- The process will not return nil. -/
def Phase.Doomed (db : Database) : Phase → Prop
  | executing _ m _ _ => m.version ∈ db.versions
  | returning err | returned err => err ≠ none
  | _ => False

def Failing (s : State) : Prop :=
  ∃ (p : ℕ) (phase : Phase), s.procs[p]? = some phase ∧ phase.Doomed s.db

section

variable {d : Dialect} {M : Migrations} {db db' : Database} {l : Label} {r : Database × Phase}

theorem Phase.Doomed.mono {phase : Phase} (h : phase.Doomed db)
    (hsub : ∀ v ∈ db.versions, v ∈ db'.versions) : phase.Doomed db' := by
  cases phase with
  | executing applied m stmts todo => exact hsub _ h
  | returning err => exact h
  | returned err => exact h
  | _ => cases h

theorem Does.doomed {q : ℕ} {phase : Phase} (h : Does d M q db phase r)
    (hdoomed : phase.Doomed db) : r.2.Doomed r.1 := by
  cases h with
  | exec => exact hdoomed
  | rollback err _ => exact Option.some_ne_none err
  | insert hmem => exact absurd hdoomed hmem
  | release => exact hdoomed
  | _ => cases hdoomed

theorem failing_step {s s' : State} (hlocking : Locking d s) (h : Failing s)
    (hst : (machine d M).step s l = some s') : Failing s' := by
  obtain ⟨p, phase, hp, hdoomed⟩ := h
  obtain ⟨phase', hphase', r, hr, rfl⟩ := step_eq_some hst
  obtain ⟨hmove, -⟩ := hr.moves (hlocking.proc _ _ hphase')
  by_cases hpq : p = l.proc
  · subst hpq
    obtain rfl := Option.some.inj (hp.symm.trans hphase')
    refine ⟨l.proc, r.2, ?_, hr.doomed hdoomed⟩
    rw [List.getElem?_set_self (List.getElem?_eq_some_iff.1 hp).1]
  · refine ⟨p, phase, ?_, hdoomed.mono hmove.subset⟩
    rw [List.getElem?_set_ne (Ne.symm hpq)]
    exact hp

/-- The transaction of a migration that is recorded already cannot commit. -/
theorem failing_of_not_permits {s s' : State} (h : ¬ Permits d s l)
    (hst : (machine d M).step s l = some s') : Failing s' := by
  simp only [Permits, not_forall, not_not] at h
  obtain ⟨hd, applied, m, todo, hphase, hnew, hmem⟩ := h
  obtain ⟨phase', hphase', r, hr, rfl⟩ := step_eq_some hst
  obtain rfl := Option.some.inj (hphase.symm.trans hphase')
  refine ⟨l.proc, r.2, ?_, ?_⟩
  · rw [List.getElem?_set_self (List.getElem?_eq_some_iff.1 hphase).1]
  · cases hr with
    | skip hmem' => exact absurd hmem' hnew
    | begin hd' _ => exact hmem
    | beginTx _ _ _ => exact hmem

end

/-! ### Whole runs -/

/-- All processes return nil, the pending migrations are committed once each and in order, and all
versions are recorded. -/
def Migrated (M : Migrations) (k : ℕ) (s : State) : Prop :=
  (∀ phase ∈ s.procs, phase = .returned none) ∧ s.db.versions = versions M.list ∧
    s.db.committed = versions (M.list.drop k)

section

variable {d : Dialect} {M : Migrations} {k n : ℕ} {table : Bool} {ls : List Label} {s : State}

theorem Inv.migrated (h : Inv d M k s) (hne : s.procs ≠ [])
    (hdone : ∀ phase ∈ s.procs, phase.done = true) : Migrated M k s := by
  have hplace : ∀ phase ∈ s.procs,
      phase = .returned none ∧ M.list.length ≤ s.db.versions.length := by
    intro phase hmem
    obtain ⟨p, hp⟩ := List.getElem?_of_mem hmem
    have hp' := h.place p phase hp
    have hd := hdone phase hmem
    cases phase with
    | returned err =>
      obtain ⟨rfl, hall⟩ := hp'
      exact ⟨rfl, hall⟩
    | _ => cases hd
  obtain ⟨phase, hmem⟩ := List.exists_mem_of_ne_nil _ hne
  exact ⟨fun phase hmem => (hplace phase hmem).1, h.rows.all (hplace phase hmem).2⟩

theorem not_failing_of_migrated (h : Migrated M k s) : ¬ Failing s := by
  rintro ⟨p, phase, hp, hdoomed⟩
  rw [h.1 phase (List.mem_of_getElem? hp)] at hdoomed
  exact hdoomed rfl

theorem length_procs (hexec : (machine d M).exec (start M table k n) ls = some s) :
    s.procs.length = n := by
  refine LTS.exec_invariant (I := fun s => s.procs.length = n) ?_ (List.length_replicate) hexec
  intro s l s' hlen hst
  obtain ⟨phase, -, r, -, rfl⟩ := step_eq_some hst
  rw [List.length_set, hlen]

end

/-- On PostgreSQL every run is permitted. -/
theorem along_permits_postgres (M : Migrations) (s : State) (ls : List Label) :
    (machine .postgres M).Along (Permits .postgres) s ls :=
  .of_forall (fun _ _ hd => nomatch hd) s ls

/-- Two migrations, the second with two statements. -/
def twoMigrations : Migrations where
  list := [⟨1, "init.sql", "CREATE a"⟩, ⟨2, "more.sql", "CREATE b; CREATE c"⟩]
  ascending := by decide

/-- Process `p` executes `n` statements. -/
def turns (p n : ℕ) : List Label := List.replicate n { proc := p }

end Migrate

end MerkleService
