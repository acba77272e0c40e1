import MerkleService.Block.Dispatch
import MerkleService.Block.SubtreeWorker
import MerkleService.Store.Accumulator
import MerkleService.Store.Backends
import MerkleService.Store.Sweeping
import MerkleService.Subtree.Registrations

/-!
# The models of a store agree

A store is modelled as far as the results about it need.  The processors have the registrations as a
map and a counter as a number; `Backends` has the calls of both backends, one after the other;
`SqlStore` has the rows with their times; and `Accumulator` has the statements of calls that
overlap.  These are one store each.

* `callbacks_run` : the registrations of a processor are the records of `Backends.aerospike`.
* `rows_answers` : **the rows with times answer as those of `Backends.sql`**, at any times, as long
  as they are not swept.
* `deliveryStep_decrement`, `initCounter_eq` : the counters of the workers and of the block
  processor are the rows with times.
* `postgres_append`, `postgres_readAndDelete`, `aerospike_append`, `aerospike_readAndDelete` :
  **calls of the accumulator that do not overlap** do what the rows with times do.
-/

namespace MerkleService

namespace Store

open Subtree (Registrations)
open Backends (Driver Sql aerospike sql Fits)

/-! ### Registrations -/

/-- What a call registers. -/
def register (r : Registrations) : Backends.Call → Registrations
  | .add txid callbackURL => r.add txid callbackURL
  | _ => r

theorem callbacks_step (threshold : ℤ) (s : Backends.Aerospike) (c : Backends.Call) :
    ((aerospike threshold).step s c).1.callbacks = register s.callbacks c := by
  cases c with
  | decrement blockHash =>
    simp only [aerospike, Backends.Aerospike.step]
    split <;> rfl
  | _ => rfl

/-- The records of the bin `callbacks` are the registrations, and `BatchGet` answers with them. -/
theorem callbacks_run (threshold : ℤ) (calls : List Backends.Call) (s : Backends.Aerospike) :
    ((aerospike threshold).run s calls).callbacks = calls.foldl register s.callbacks ∧
      ∀ txids, ((aerospike threshold).step ((aerospike threshold).run s calls)
        (.batchGet txids)).2 =
          .urls (Registrations.batchGet (calls.foldl register s.callbacks) txids) := by
  have hrun : ((aerospike threshold).run s calls).callbacks = calls.foldl register s.callbacks := by
    induction calls generalizing s with
    | nil => rfl
    | cons c calls ih => rw [Mealy.run, ih, callbacks_step, List.foldl_cons]
  refine ⟨hrun, fun txids => ?_⟩
  rw [← hrun]
  rfl

/-! ### Rows with times -/

/-- The column `remaining` of a block. -/
def remaining (t : SqlStore.Tables) (blockHash : String) : Option ℤ :=
  (t.subtreeCounters.lookup blockHash).map ExpiringRow.data

theorem remaining_initCounter (cfg : SqlStore.Config) (t : SqlStore.Tables) (now : ℤ)
    (blockHash : String) (count : ℤ) :
    remaining (SqlStore.initCounter cfg t now blockHash count) =
      Function.update (remaining t) blockHash (some count) := by
  funext b
  unfold remaining SqlStore.initCounter
  by_cases hb : b = blockHash
  · subst hb
    rw [Function.update_self, AList.lookup_insert]
    rfl
  · rw [Function.update_of_ne hb, AList.lookup_insert_ne hb]

theorem decrement_remaining (t : SqlStore.Tables) (blockHash : String) :
    (SqlStore.decrement t blockHash).1 = (remaining t blockHash).map (· - 1) ∧
      remaining (SqlStore.decrement t blockHash).2 =
        Function.update (remaining t) blockHash ((remaining t blockHash).map (· - 1)) := by
  unfold SqlStore.decrement
  cases hrow : t.subtreeCounters.lookup blockHash with
  | none =>
    have hnone : remaining t blockHash = none := by rw [remaining, hrow]; rfl
    rw [hnone]
    exact ⟨rfl, (Function.update_eq_self_iff.2 hnone.symm).symm⟩
  | some row =>
    have hsome : remaining t blockHash = some row.data := by rw [remaining, hrow]; rfl
    refine ⟨by rw [hsome]; rfl, ?_⟩
    funext b
    by_cases hb : b = blockHash
    · subst hb
      rw [Function.update_self, hsome, remaining, AList.lookup_insert]
      rfl
    · rw [Function.update_of_ne hb, remaining, AList.lookup_insert_ne hb]
      rfl

/-- What the tables with times have in common with the rows of `Backends.Sql`. -/
structure SameRows (q : Sql) (t : SqlStore.Tables) : Prop where
  registrations : ∀ txid, txid ∈ q.registrations ↔ txid ∈ t.registrations
  urls : q.registrationURLs = t.registrationURLs
  counters : Option.map Int64.toInt ∘ q.subtreeCounters = remaining t

/-- The call on the tables with times; they do not have the seen counters. -/
def rowCall : Backends.Call → Option SqlStore.Call
  | .add txid callbackURL => some (.add txid callbackURL)
  | .batchGet txids => some (.batchGet txids)
  | .increment _ _ => none
  | .init blockHash count => some (.initCounter blockHash count.toInt)
  | .decrement blockHash => some (.decrement blockHash)

/-- The same answer; a counter whose time has passed counts on. -/
inductive SameAnswer : Backends.Answer → SqlStore.Answer → Prop where
  | done : SameAnswer .done .done
  | urls (result : String → Option (List String)) : SameAnswer (.urls result) (.found result)
  | remaining (count : Int64) : SameAnswer (.remaining count) (.remaining (some count.toInt))
  | overdue (count : Int64) : SameAnswer (.remaining count) (.overdue count.toInt)
  | missing : SameAnswer .error (.remaining none)

/-- The driver can take the values of the call, and no counter is at the least number. -/
def FitsRows (d : Driver) (q : Sql) (c : Backends.Call) : Prop :=
  Fits d { Backends.Aerospike.empty with counters := q.subtreeCounters } c ∧
    ∀ blockHash, c = .decrement blockHash → q.subtreeCounters blockHash ≠ some Int64.minValue

/-- The calls on the tables with times, each with its time. -/
def rowStore (cfg : SqlStore.Config) :
    Mealy SqlStore.Tables (ℤ × Backends.Call) (Option SqlStore.Answer) where
  step t i :=
    match rowCall i.2 with
    | some c => ((SqlStore.call cfg false t i.1 c).1, some (SqlStore.call cfg false t i.1 c).2)
    | none => (t, none)

section

variable {d : Driver} {threshold : ℤ} {cfg : SqlStore.Config} {q : Sql} {t : SqlStore.Tables}

theorem SameRows.add (h : SameRows q t) (txid callbackURL : String) :
    SameRows { q with
      registrations := Backends.insertOrIgnore txid q.registrations
      registrationURLs := Backends.insertOrIgnore (txid, callbackURL) q.registrationURLs }
      (SqlStore.add t txid callbackURL) where
  registrations := by
    intro txid'
    have hrow : txid' ∈ Backends.insertOrIgnore txid q.registrations ↔
        txid' = txid ∨ txid' ∈ q.registrations := by
      refine Backends.mem_ite_mem ?_
      rw [List.mem_append, List.mem_singleton, or_comm]
    exact hrow.trans (Iff.trans (by rw [h.registrations]) ExpiringTable.mem_insertOrIgnore.symm)
  urls := by
    unfold Backends.insertOrIgnore SqlStore.add
    dsimp only
    rw [h.urls]
    split_ifs <;> rfl
  counters := h.counters

theorem SameRows.setCounter (h : SameRows q t) {t' : SqlStore.Tables}
    (hreg : t'.registrations = t.registrations) (hurls : t'.registrationURLs = t.registrationURLs)
    {blockHash : String} {count : Option Int64}
    (hcount : remaining t' = Function.update (remaining t) blockHash (count.map Int64.toInt)) :
    SameRows { q with subtreeCounters := Function.update q.subtreeCounters blockHash count }
      t' where
  registrations := by
    rw [hreg]
    exact h.registrations
  urls := h.urls.trans hurls.symm
  counters := by
    rw [Function.comp_update, h.counters, hcount]

theorem SameRows.remaining_eq (h : SameRows q t) (blockHash : String) :
    remaining t blockHash = (q.subtreeCounters blockHash).map Int64.toInt := by
  rw [← h.counters]
  rfl

theorem toInt_pred {a : Int64} (h : a ≠ Int64.minValue) : (a - 1).toInt = a.toInt - 1 := by
  have hle := Int64.toInt_le a
  have hge := Int64.minValue_le_toInt a
  rw [Int64.toInt_maxValue] at hle
  rw [Int64.toInt_minValue] at hge
  have hne : a.toInt ≠ -2 ^ 63 := fun heq => h (Int64.toInt_inj.1 heq)
  have hone : (1 : Int64).toInt = 1 := rfl
  rw [Int64.toInt_sub, hone]
  refine Int.bmod_eq_of_le ?_ ?_ <;> norm_num <;> omega

theorem SameRows.decrement (h : SameRows q t) {now : ℤ} {blockHash : String}
    (hcount : ∀ count ∈ q.subtreeCounters blockHash, d.fitsInteger (count - 1) = true)
    (hmin : q.subtreeCounters blockHash ≠ some Int64.minValue)
    (htext : d.fitsText blockHash = true) :
    SameRows (q.step d threshold (.decrement blockHash)).1 (SqlStore.decrement t blockHash).2 ∧
      SameAnswer (q.step d threshold (.decrement blockHash)).2
        (SqlStore.decrementAnswer t now blockHash) := by
  have hfound := h.remaining_eq blockHash
  have hrest := (decrement_remaining t blockHash).2
  simp only [Sql.step, if_pos htext]
  cases hq : q.subtreeCounters blockHash with
  | none =>
    have hrow : t.subtreeCounters.lookup blockHash = none := by
      rw [hq] at hfound
      exact Option.map_eq_none_iff.1 hfound
    rw [SqlStore.decrement, SqlStore.decrementAnswer, hrow]
    exact ⟨h, .missing⟩
  | some count =>
    have hne : count ≠ Int64.minValue := by
      rintro rfl
      exact hmin hq
    have hpred := toInt_pred hne
    obtain ⟨row, hrow, hdata⟩ : ∃ row, t.subtreeCounters.lookup blockHash = some row ∧
        row.data = count.toInt := by
      rw [hq] at hfound
      exact Option.map_eq_some_iff.1 hfound
    simp only [if_pos (hcount count hq)]
    refine ⟨h.setCounter ?_ ?_ ?_, ?_⟩
    · rw [SqlStore.decrement, hrow]
    · rw [SqlStore.decrement, hrow]
    · rw [hrest, hfound, hq, Option.map_some, Option.map_some, Option.map_some, hpred]
    · rw [SqlStore.decrementAnswer, hrow]
      dsimp only
      rw [hdata, ← hpred]
      split_ifs
      · exact .overdue _
      · exact .remaining _

/-- **One call** that fits is answered alike, and keeps the rows alike. -/
theorem SameRows.step (h : SameRows q t) (i : ℤ × Backends.Call) (hfits : FitsRows d q i.2) :
    SameRows ((sql d threshold).step q i.2).1 ((rowStore cfg).step t i).1 ∧
      ∀ answer ∈ ((rowStore cfg).step t i).2,
        SameAnswer ((sql d threshold).step q i.2).2 answer := by
  obtain ⟨now, c⟩ := i
  obtain ⟨hfits, hmin⟩ := hfits
  cases c with
  | add txid callbackURL =>
    have hfits' : d.fitsText txid = true ∧ d.fitsText callbackURL = true := hfits
    simp only [sql, Sql.step, if_pos hfits']
    exact ⟨h.add txid callbackURL, fun _ hmem => by cases hmem; exact .done⟩
  | batchGet txids =>
    have hfits' : txids.length ≤ d.maxParams ∧ txids.all d.fitsText = true := hfits
    have hurls : SqlStore.batchGet t txids = fun txid =>
        if txid ∈ txids ∧ q.urls txid ≠ [] then some (q.urls txid) else none := by
      funext txid
      rw [SqlStore.batchGet, SqlStore.urls, Sql.urls, h.urls]
    simp only [sql, Sql.step]
    by_cases hnil : txids = []
    · subst hnil
      refine ⟨h, fun answer hmem => ?_⟩
      obtain rfl := Option.some.inj hmem
      simp only [SqlStore.call, hurls, List.not_mem_nil, false_and, if_false]
      exact .urls _
    · rw [if_neg hnil, if_pos hfits']
      refine ⟨h, fun answer hmem => ?_⟩
      obtain rfl := Option.some.inj hmem
      rw [SqlStore.call, hurls]
      exact .urls _
  | increment txid subtreeID =>
    refine ⟨?_, fun answer hmem => (Option.not_mem_none answer hmem).elim⟩
    have hfits' : d.fitsText txid = true ∧ d.fitsText subtreeID = true := hfits
    simp only [sql, Sql.step, if_pos hfits']
    exact ⟨h.registrations, h.urls, h.counters⟩
  | init blockHash count =>
    have hfits' : d.fitsText blockHash = true ∧ d.fitsInteger count = true := hfits
    simp only [sql, Sql.step, if_pos hfits']
    have hcount := remaining_initCounter cfg t now blockHash count.toInt
    refine ⟨@SameRows.setCounter _ _ h (SqlStore.initCounter cfg t now blockHash count.toInt) rfl
      rfl blockHash (some count) hcount, ?_⟩
    intro answer hmem
    cases hmem
    exact .done
  | decrement blockHash =>
    obtain ⟨hrows, hsame⟩ := @SameRows.decrement d threshold q t h now blockHash hfits.2
      (hmin blockHash rfl) hfits.1
    refine ⟨hrows, fun answer hmem => ?_⟩
    cases hmem
    exact hsame

/-- **The rows with times answer alike**, from empty tables and at any times. -/
theorem rows_answers (d : Driver) (threshold : ℤ) (cfg : SqlStore.Config)
    (calls : List (ℤ × Backends.Call))
    (hfits : Mealy.Along ⟨fun q i => (sql d threshold).step q i.2⟩ (fun q i => FitsRows d q i.2)
      .empty calls) :
    List.Forall₂ (fun answer answer' => ∀ a ∈ answer', SameAnswer answer a)
      (Mealy.answers ⟨fun q i => (sql d threshold).step q i.2⟩ .empty calls)
      ((rowStore cfg).answers SqlStore.init calls) := by
  refine Mealy.forall₂_answers (R := SameRows) (fun q t i h hfits => h.step i hfits) ?_ hfits
  exact ⟨fun _ => Iff.rfl, rfl, rfl⟩

end

/-- The `Decrement` of a worker is that of the rows. -/
theorem deliveryStep_decrement (producer : Kafka.Producer) (t : SqlStore.Tables)
    (s : SubtreeWorker.State) (w : Kafka.SubtreeWorkMessage) (delivery : ℕ)
    (h : s.counter = remaining t) :
    SubtreeWorker.deliveryStep producer s w .decrementing (.decrement delivery true) =
      some ({ s with counter := remaining (SqlStore.decrement t w.blockHash).2 },
        SubtreeWorker.afterDecrement (SqlStore.decrement t w.blockHash).1) := by
  obtain ⟨hanswer, hrest⟩ := decrement_remaining t w.blockHash
  rw [hanswer, hrest, ← h]
  rfl

/-- The `Init` of the block processor is that of the rows. -/
theorem initCounter_eq (cfg : SqlStore.Config) (t : SqlStore.Tables) (now : ℤ)
    (p : BlockProcessor.Processor) (h : p.subtreeCounter = some (remaining t)) (hash : String)
    (count : ℕ) :
    (p.initCounter hash count).subtreeCounter =
      some (remaining (SqlStore.initCounter cfg t now hash count)) := by
  rw [remaining_initCounter, BlockProcessor.Processor.initCounter, h]
  rfl

/-! ### Accumulated callbacks -/

section

open Accumulator (AppendCall groupByURL)

/-- The row of `callback_accumulator_entries` that an `Append` inserts. -/
def row (c : AppendCall) : SqlStore.Entry :=
  ⟨c.blockHash, c.callbackURL, c.subtreeIndex, c.txids, c.stumpData⟩

/-- What is read of an entry. -/
def accumulated (c : AppendCall) : SqlStore.AccumulatedCallbackEntry :=
  ⟨c.txids, c.subtreeIndex, c.stumpData⟩

/-- The entries of the accumulator are the rows. -/
def SameEntries (entries : List Accumulator.Entry) (t : SqlStore.Tables) : Prop :=
  entries.map (fun e => row e.toAppendCall) = t.callbackAccumulatorEntries

/-- The entries are handed over as the rows are; `nil` is a map without entries. -/
def SameResult (result : Accumulator.Result)
    (handed : Option (String → List SqlStore.AccumulatedCallbackEntry)) : Prop :=
  ∀ url, (result url).map (fun e => accumulated e.toAppendCall) = handed.elim [] (· url)

variable {entries : List Accumulator.Entry} {t : SqlStore.Tables}

theorem SameEntries.append (h : SameEntries entries t) (cfg : SqlStore.Config) (now : ℤ)
    (c : AppendCall) (call : ℕ) :
    SameEntries (entries ++ [⟨c, call⟩]) (SqlStore.append cfg t now (row c)) := by
  rw [SameEntries, List.map_append, h]
  rfl

theorem SameEntries.delete (h : SameEntries entries t) (blockHash : String) :
    SameEntries (entries.filter (·.blockHash ≠ blockHash))
      (SqlStore.readAndDelete t blockHash).2 := by
  have hrows : (SqlStore.readAndDelete t blockHash).2.callbackAccumulatorEntries =
      t.callbackAccumulatorEntries.filter fun e => e.blockHash ≠ blockHash := rfl
  rw [SameEntries, hrows, ← h, List.filter_map]
  rfl

theorem SameEntries.read (h : SameEntries entries t) (blockHash : String) :
    SameResult (groupByURL (entries.filter (·.blockHash = blockHash)))
      (SqlStore.readAndDelete t blockHash).1 := by
  have hrows : SqlStore.entries t blockHash =
      (entries.filter (·.blockHash = blockHash)).map fun e => row e.toAppendCall := by
    rw [SqlStore.entries, ← h, List.filter_map]
    rfl
  intro url
  unfold SqlStore.readAndDelete groupByURL
  dsimp only
  rw [hrows]
  split_ifs with hnil
  · rw [List.map_eq_nil_iff.1 hnil]
    rfl
  · rw [Option.elim_some]
    dsimp only
    rw [List.filter_map, List.map_map]
    rfl

/-! ### Calls that do not overlap -/

/-- No transaction is under way. -/
structure Idle (s : Accumulator.SqlState) : Prop where
  parentLock : s.parentLock = fun _ => none
  locked : ∀ tx ∈ s.txs, tx.locked = []

theorem Idle.concat {s : Accumulator.SqlState} (h : Idle s) {tx : Accumulator.Tx}
    (htx : tx.locked = []) : ∀ tx' ∈ s.txs ++ [tx], tx'.locked = [] := by
  intro tx' hmem
  rcases List.mem_append.1 hmem with hold | hnew
  · exact h.locked tx' hold
  · rw [List.mem_singleton.1 hnew]
    exact htx

theorem postgres_append {s : Accumulator.SqlState} (hidle : Idle s) (h : SameEntries s.entries t)
    (cfg : SqlStore.Config) (now : ℤ) (c : AppendCall) :
    ∃ s', Accumulator.postgres.exec s
        [.upsert c, .insert s.txs.length, .commitAppend s.txs.length] = some s' ∧
      Idle s' ∧ SameEntries s'.entries (SqlStore.append cfg t now (row c)) := by
  refine ⟨⟨s.entries ++ [⟨c, s.txs.length⟩], Function.update s.parents c.blockHash true,
    Function.update (Function.update s.parentLock c.blockHash (some s.txs.length)) c.blockHash none,
    s.appended ++ [⟨c, s.txs.length⟩], s.txs ++ [.append c .committed]⟩, ?_, ⟨?_, ?_⟩, ?_⟩
  · simp [LTS.exec, Accumulator.postgres, Accumulator.SqlState.step, hidle.parentLock]
  · rw [hidle.parentLock, Function.update_idem]
    exact Function.update_eq_self_iff.2 rfl
  · exact hidle.concat rfl
  · exact h.append cfg now c s.txs.length

/-- One more `ReadAndDelete` is under way. -/
def reading (s : Accumulator.SqlState) (blockHash : String) (phase : Accumulator.ReadPhase) :
    Accumulator.SqlState :=
  { s with txs := s.txs ++ [.readAndDelete blockHash phase] }

section

variable {s : Accumulator.SqlState} (blockHash : String) (list deleted : List Accumulator.Entry)

theorem step_select :
    Accumulator.postgres.step s (.select blockHash) =
      some (reading s blockHash (.selected (s.entries.filter (·.blockHash = blockHash)))) := rfl

theorem step_deleteEntries :
    Accumulator.postgres.step (reading s blockHash (.selected list)) (.deleteEntries s.txs.length) =
      some (reading s blockHash
        (.deleting list (s.entries.filter (·.blockHash = blockHash)))) := by
  simp [Accumulator.postgres, Accumulator.SqlState.step, reading]

theorem step_lockEntries (hidle : Idle s) (targets : List Accumulator.Entry) :
    Accumulator.postgres.step (reading s blockHash (.deleting list targets))
        (.lockEntries s.txs.length) =
      some (reading s blockHash (.deletedEntries list
        (targets.filter fun e => decide (e ∈ s.entries)))) := by
  have hunlocked : ((s.txs ++ [Accumulator.Tx.readAndDelete blockHash (.deleting list targets)]).any
      fun tx => tx.locked.any fun e => decide (e ∈ targets)) = false := by
    rw [List.any_eq_false]
    intro tx hmem
    rw [hidle.concat rfl tx hmem]
    simp
  simp only [Accumulator.postgres, Accumulator.SqlState.step, reading,
    List.getElem?_concat_length, hunlocked]
  simp

/-- The rest of the transaction, in which it takes the parent row and gives it back. -/
theorem exec_commitRead (hidle : Idle s) :
    Accumulator.postgres.exec (reading s blockHash (.deletedEntries list deleted))
        [.deleteParent s.txs.length, .commitRead s.txs.length] =
      some { reading s blockHash (.committed list) with
        entries := s.entries.filter fun e => !decide (e ∈ deleted)
        parents := Function.update s.parents blockHash false } := by
  by_cases hparent : s.parents blockHash = false
  · simp [LTS.exec, Accumulator.postgres, Accumulator.SqlState.step, reading, hparent,
      hidle.parentLock]
  · simp [LTS.exec, Accumulator.postgres, Accumulator.SqlState.step, reading, hparent,
      hidle.parentLock]

end

theorem postgres_readAndDelete {s : Accumulator.SqlState} (hidle : Idle s)
    (h : SameEntries s.entries t) (blockHash : String) :
    ∃ s' result, Accumulator.postgres.exec s
        [.select blockHash, .deleteEntries s.txs.length, .lockEntries s.txs.length,
          .deleteParent s.txs.length, .commitRead s.txs.length] = some s' ∧
      Idle s' ∧ s'.results = s.results ++ [result] ∧
      SameResult result (SqlStore.readAndDelete t blockHash).1 ∧
      SameEntries s'.entries (SqlStore.readAndDelete t blockHash).2 := by
  -- the rows are read and deleted in one state, so they are the same ones
  have hdeleted : (s.entries.filter fun e => !decide (e ∈
      (s.entries.filter (·.blockHash = blockHash)).filter fun e => decide (e ∈ s.entries))) =
      s.entries.filter (·.blockHash ≠ blockHash) := by
    refine List.filter_congr fun e he => ?_
    simp [he]
  refine ⟨{ reading s blockHash (.committed (s.entries.filter (·.blockHash = blockHash))) with
      entries := s.entries.filter fun e => !decide (e ∈
        (s.entries.filter (·.blockHash = blockHash)).filter fun e => decide (e ∈ s.entries))
      parents := Function.update s.parents blockHash false },
    groupByURL (s.entries.filter (·.blockHash = blockHash)), ?_,
    ⟨hidle.parentLock, hidle.concat rfl⟩, ?_, h.read blockHash, ?_⟩
  · rw [LTS.exec, step_select, Option.bind_some, LTS.exec, step_deleteEntries, Option.bind_some,
      LTS.exec, step_lockEntries _ _ hidle, Option.bind_some, exec_commitRead _ _ _ hidle]
  · exact List.map_append
  · rw [hdeleted]
    exact h.delete blockHash

theorem aerospike_append {s : Accumulator.AerospikeState} (h : SameEntries s.entries t)
    (cfg : SqlStore.Config) (now : ℤ) (c : AppendCall) :
    ∃ s', Accumulator.aerospike.exec s [.operate c] = some s' ∧
      SameEntries s'.entries (SqlStore.append cfg t now (row c)) :=
  ⟨_, rfl, h.append cfg now c s.appended.length⟩

/-- A `Get` that finds no record has no `Delete` after it. -/
theorem aerospike_readAndDelete {s : Accumulator.AerospikeState} (h : SameEntries s.entries t)
    (hurl : ∀ e ∈ s.entries, e.callbackURL ≠ "") (blockHash : String) :
    ∃ labels s' result, labels <+: [.get blockHash, .delete s.readers.length] ∧
      Accumulator.aerospike.exec s labels = some s' ∧
      s'.results = s.results ++ [result] ∧
      SameResult result (SqlStore.readAndDelete t blockHash).1 ∧
      SameEntries s'.entries (SqlStore.readAndDelete t blockHash).2 := by
  have hread := h.read blockHash
  have hdelete := h.delete blockHash
  by_cases hnil : s.entries.filter (·.blockHash = blockHash) = []
  · have hkept : s.entries.filter (·.blockHash ≠ blockHash) = s.entries := by
      rw [List.filter_eq_self]
      rw [List.filter_eq_nil_iff] at hnil
      intro e he
      simpa using hnil e he
    rw [hnil] at hread
    rw [hkept] at hdelete
    refine ⟨[.get blockHash], { s with readers := s.readers ++ [⟨blockHash, .done []⟩] },
      groupByURL [], ⟨[.delete s.readers.length], rfl⟩, ?_, List.map_append, hread, hdelete⟩
    simp [LTS.exec, Accumulator.aerospike, Accumulator.AerospikeState.step, hnil]
  · have hurls : (s.entries.filter (·.blockHash = blockHash)).filter (·.callbackURL ≠ "") =
        s.entries.filter (·.blockHash = blockHash) := by
      rw [List.filter_eq_self]
      intro e he
      exact decide_eq_true (hurl e (List.mem_of_mem_filter he))
    rw [← hurls] at hread
    refine ⟨[.get blockHash, .delete s.readers.length],
      { s with
        entries := s.entries.filter (·.blockHash ≠ blockHash)
        readers := s.readers ++ [⟨blockHash, .done (s.entries.filter (·.blockHash = blockHash))⟩] },
      _, List.prefix_refl _, ?_, List.map_append, hread, hdelete⟩
    simp [LTS.exec, Accumulator.aerospike, Accumulator.AerospikeState.step, hnil]

end

end Store

end MerkleService
