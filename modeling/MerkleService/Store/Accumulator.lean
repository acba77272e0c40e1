import MerkleService.Data.Handover
import MerkleService.LTS.Basic

/-!
# The accumulator of callbacks

`CallbackAccumulatorStore` collects entries per block with `Append`, and hands them over with
`ReadAndDelete`.  Both backends read and delete in separate steps.

On Aerospike (`internal/store/callback_accumulator.go`) `Append` is one `Operate`, and
`ReadAndDelete` is a `Get` and a `Delete`.  On PostgreSQL
(`internal/store/sql/callback_accumulator.go`) both are transactions under READ COMMITTED: every
statement sees what is committed when it begins; a row that another transaction has deleted or
locked is waited for.

Every entry carries the number of its `Append` call, which the stores do not have.

* `aerospike`, `postgres` : any interleaving of the calls.
* `ExactlyOnce` : every entry appended is stored or was returned, once.
* `handed_over_once` : **so it is in every run in which** no reader finds entries that another one
  has read and is about to delete, and none deletes entries that it has not read.
* `not_handed_over_once` : without this, entries are lost and returned twice on both backends.
-/

namespace MerkleService

namespace Store

namespace Accumulator

/-- The arguments of `Append`. -/
structure AppendCall where
  blockHash : String
  callbackURL : String
  txids : List String
  subtreeIndex : ℤ
  stumpData : List UInt8
  deriving DecidableEq

/-- An entry of the store, with the number of the call that made it. -/
structure Entry extends AppendCall where
  call : ℕ
  deriving DecidableEq

/-- What `ReadAndDelete` returns: for each URL its entries, in order; nothing at a URL that is not a
key of the map. -/
abbrev Result := String → List Entry

/-- The loop that groups the entries by callback URL. -/
def groupByURL (list : List Entry) : Result := fun url => list.filter (·.callbackURL = url)

/-- How often the calls of `ReadAndDelete` have returned an entry. -/
def returns (results : List Result) (e : Entry) : ℕ :=
  (results.map fun r => (r e.callbackURL).count e).sum

/-- Every entry whose `Append` returned is stored, or was returned by one `ReadAndDelete`. -/
def ExactlyOnce (appended stored : List Entry) (results : List Result) : Prop :=
  ∀ e ∈ appended, returns results e + stored.count e = 1

/-! ### Aerospike -/

/-- Where a `ReadAndDelete` stands: between `Get` and `Delete`, or returned. -/
inductive AerospikePhase where
  | got (list : List Entry)
  | done (list : List Entry)
  deriving DecidableEq

structure AerospikeReader where
  blockHash : String
  phase : AerospikePhase
  deriving DecidableEq

/-- The entries of all records, those whose `Append` returned, and the calls of `ReadAndDelete`. -/
structure AerospikeState where
  entries : List Entry
  appended : List Entry
  readers : List AerospikeReader

inductive AerospikeLabel where
  | operate (c : AppendCall)
  | get (blockHash : String)
  | delete (reader : ℕ)

/-- What a call returns; entries without a URL are skipped. -/
def AerospikeReader.result (r : AerospikeReader) : Result :=
  match r.phase with
  | .got _ => fun _ => []
  | .done list => groupByURL (list.filter (·.callbackURL ≠ ""))

def AerospikeState.step (s : AerospikeState) : AerospikeLabel → Option AerospikeState
  | .operate c =>
    let entry : Entry := ⟨c, s.appended.length⟩
    some { s with entries := s.entries ++ [entry], appended := s.appended ++ [entry] }
  | .get blockHash =>
    let list := s.entries.filter (·.blockHash = blockHash)
    -- without a record there is nothing to delete
    let phase := if list = [] then .done [] else .got list
    some { s with readers := s.readers ++ [⟨blockHash, phase⟩] }
  | .delete reader =>
    match s.readers[reader]? with
    | some ⟨blockHash, .got list⟩ =>
      some { s with
        entries := s.entries.filter (·.blockHash ≠ blockHash)
        readers := s.readers.set reader ⟨blockHash, .done list⟩ }
    | _ => none

def aerospike : LTS AerospikeState AerospikeLabel := ⟨AerospikeState.step⟩

def AerospikeState.init : AerospikeState := ⟨[], [], []⟩

/-- What the calls of `ReadAndDelete` have returned. -/
def AerospikeState.results (s : AerospikeState) : List Result :=
  s.readers.map AerospikeReader.result

/-- The entries of a reader between `Get` and `Delete`. -/
def AerospikeReader.noted (r : AerospikeReader) : List Entry :=
  match r.phase with
  | .got list => list
  | .done _ => []

/-- The steps that keep the handover safe: a URL is given; no other reader of the block is between
its `Get` and its `Delete`; the record has no entries that the reader has not got. -/
def AerospikeState.Safe (s : AerospikeState) : AerospikeLabel → Prop
  | .operate c => c.callbackURL ≠ ""
  | .get blockHash => ∀ r ∈ s.readers, r.blockHash = blockHash → r.noted = []
  | .delete reader => ∀ r ∈ s.readers[reader]?,
      ∀ e ∈ s.entries, e.blockHash = r.blockHash → e ∈ r.noted

instance (s : AerospikeState) (l : AerospikeLabel) : Decidable (s.Safe l) :=
  match l with
  | .operate c => inferInstanceAs (Decidable (c.callbackURL ≠ ""))
  | .get blockHash =>
    inferInstanceAs (Decidable (∀ r ∈ s.readers, r.blockHash = blockHash → r.noted = []))
  | .delete reader =>
    inferInstanceAs (Decidable (∀ r ∈ s.readers[reader]?,
      ∀ e ∈ s.entries, e.blockHash = r.blockHash → e ∈ r.noted))

/-! ### PostgreSQL -/

/-- Where the transaction of an `Append` stands. -/
inductive AppendPhase where
  /-- The parent row is inserted or updated, and locked. -/
  | upserted
  | inserted
  | committed
  deriving DecidableEq

/-- Where the transaction of a `ReadAndDelete` stands. -/
inductive ReadPhase where
  | selected (list : List Entry)
  /-- The statement that deletes the entries has begun: it sees the rows `targets`. -/
  | deleting (list targets : List Entry)
  | deletedEntries (list deleted : List Entry)
  | deletedParent (list deleted : List Entry)
  | committed (list : List Entry)
  deriving DecidableEq

inductive Tx where
  | append (c : AppendCall) (phase : AppendPhase)
  | readAndDelete (blockHash : String) (phase : ReadPhase)
  deriving DecidableEq

/-- The committed rows, the locks on the parent rows, and all transactions so far. -/
structure SqlState where
  /-- `callback_accumulator_entries`. -/
  entries : List Entry
  /-- `callback_accumulator`. -/
  parents : String → Bool
  /-- The transaction that has inserted, updated or deleted the row of a block. -/
  parentLock : String → Option ℕ
  appended : List Entry
  txs : List Tx

inductive SqlLabel where
  | upsert (c : AppendCall)
  | insert (tx : ℕ)
  | commitAppend (tx : ℕ)
  | select (blockHash : String)
  | deleteEntries (tx : ℕ)
  | lockEntries (tx : ℕ)
  | deleteParent (tx : ℕ)
  | commitRead (tx : ℕ)

/-- The rows that a transaction has deleted and not committed yet. -/
def Tx.locked : Tx → List Entry
  | .readAndDelete _ (.deletedEntries _ deleted) => deleted
  | .readAndDelete _ (.deletedParent _ deleted) => deleted
  | _ => []

/-- What a committed transaction returns. -/
def Tx.result : Tx → Result
  | .readAndDelete _ (.committed list) => groupByURL list
  | _ => fun _ => []

def SqlState.step (s : SqlState) : SqlLabel → Option SqlState
  | .upsert c =>
    -- waits for the transaction that has the parent row
    if s.parentLock c.blockHash = none then
      some { s with
        parentLock := Function.update s.parentLock c.blockHash (some s.txs.length)
        txs := s.txs ++ [.append c .upserted] }
    else none
  | .insert tx =>
    match s.txs[tx]? with
    | some (.append c .upserted) => some { s with txs := s.txs.set tx (.append c .inserted) }
    | _ => none
  | .commitAppend tx =>
    match s.txs[tx]? with
    | some (.append c .inserted) =>
      some {
        entries := s.entries ++ [⟨c, tx⟩]
        parents := Function.update s.parents c.blockHash true
        parentLock := Function.update s.parentLock c.blockHash none
        appended := s.appended ++ [⟨c, tx⟩]
        txs := s.txs.set tx (.append c .committed) }
    | _ => none
  | .select blockHash =>
    let list := s.entries.filter (·.blockHash = blockHash)
    some { s with txs := s.txs ++ [.readAndDelete blockHash (.selected list)] }
  | .deleteEntries tx =>
    match s.txs[tx]? with
    | some (.readAndDelete blockHash (.selected list)) =>
      let targets := s.entries.filter (·.blockHash = blockHash)
      some { s with txs := s.txs.set tx (.readAndDelete blockHash (.deleting list targets)) }
    | _ => none
  | .lockEntries tx =>
    match s.txs[tx]? with
    | some (.readAndDelete blockHash (.deleting list targets)) =>
      -- waits for transactions that have deleted one of the rows; rows that are gone then are left
      if s.txs.any fun tx' => tx'.locked.any fun e => decide (e ∈ targets) then none
      else
        let deleted := targets.filter fun e => decide (e ∈ s.entries)
        some { s with
          txs := s.txs.set tx (.readAndDelete blockHash (.deletedEntries list deleted)) }
    | _ => none
  | .deleteParent tx =>
    match s.txs[tx]? with
    | some (.readAndDelete blockHash (.deletedEntries list deleted)) =>
      let txs := s.txs.set tx (.readAndDelete blockHash (.deletedParent list deleted))
      if s.parents blockHash = false then some { s with txs := txs }
      else if s.parentLock blockHash = none then
        some { s with
          parentLock := Function.update s.parentLock blockHash (some tx)
          txs := txs }
      else none
    | _ => none
  | .commitRead tx =>
    match s.txs[tx]? with
    | some (.readAndDelete blockHash (.deletedParent list deleted)) =>
      let holds := s.parentLock blockHash = some tx
      some { s with
        entries := s.entries.filter fun e => !decide (e ∈ deleted)
        parents := if holds then Function.update s.parents blockHash false else s.parents
        parentLock :=
          if holds then Function.update s.parentLock blockHash none else s.parentLock
        txs := s.txs.set tx (.readAndDelete blockHash (.committed list)) }
    | _ => none

def postgres : LTS SqlState SqlLabel := ⟨SqlState.step⟩

def SqlState.init : SqlState := ⟨[], fun _ => false, fun _ => none, [], []⟩

/-- What the committed transactions have returned. -/
def SqlState.results (s : SqlState) : List Result := s.txs.map Tx.result

/-- The entries that a running transaction has read. -/
def Tx.noted : Tx → List Entry
  | .readAndDelete _ (.selected list) => list
  | .readAndDelete _ (.deleting list _) => list
  | .readAndDelete _ (.deletedEntries list _) => list
  | .readAndDelete _ (.deletedParent list _) => list
  | _ => []

/-- The block of a transaction. -/
def Tx.blockHash : Tx → String
  | .append c _ => c.blockHash
  | .readAndDelete blockHash _ => blockHash

/-- The steps that keep the handover safe: a reader begins when no running one has read entries of
the block, and deletes when there are none that it has not read. -/
def SqlState.Safe (s : SqlState) : SqlLabel → Prop
  | .select blockHash => ∀ tx ∈ s.txs, tx.blockHash = blockHash → tx.noted = []
  | .deleteEntries tx => ∀ t ∈ s.txs[tx]?,
      ∀ e ∈ s.entries, e.blockHash = t.blockHash → e ∈ t.noted
  | _ => True

instance (s : SqlState) (l : SqlLabel) : Decidable (s.Safe l) :=
  match l with
  | .select blockHash =>
    inferInstanceAs (Decidable (∀ tx ∈ s.txs, tx.blockHash = blockHash → tx.noted = []))
  | .deleteEntries tx =>
    inferInstanceAs (Decidable (∀ t ∈ s.txs[tx]?,
      ∀ e ∈ s.entries, e.blockHash = t.blockHash → e ∈ t.noted))
  | .upsert _ | .insert _ | .commitAppend _ | .lockEntries _ | .deleteParent _ | .commitRead _ =>
    instDecidableTrue

/-! ### Aerospike: the safe runs -/

/-- A reader of the abstract handover. -/
def AerospikeReader.abs (r : AerospikeReader) : Reader Entry :=
  match r.phase with
  | .got list => .reading list
  | .done list => .finished list

/-- What the calls have done, as an abstract handover. -/
def AerospikeState.handover (s : AerospikeState) : Handover Entry :=
  ⟨s.entries, s.appended, s.readers.map AerospikeReader.abs⟩

/-- What holds in the safe runs on Aerospike. -/
structure AerospikeState.Inv (s : AerospikeState) : Prop where
  handover : s.handover.Inv
  call : ∀ e ∈ s.appended, e.call < s.appended.length
  url : ∀ e ∈ s.appended, e.callbackURL ≠ ""
  block : ∀ r ∈ s.readers, ∀ e ∈ r.noted, e.blockHash = r.blockHash

theorem AerospikeReader.noted_abs (r : AerospikeReader) : r.abs.noted = r.noted := by
  obtain ⟨b, phase⟩ := r
  cases phase <;> rfl

theorem count_groupByURL (list : List Entry) (e : Entry) :
    (groupByURL list e.callbackURL).count e = list.count e :=
  List.count_filter (by simp)

theorem AerospikeReader.count_result (r : AerospikeReader) {e : Entry} (he : e.callbackURL ≠ "") :
    (r.result e.callbackURL).count e = r.abs.returned.count e := by
  obtain ⟨b, phase⟩ := r
  cases phase with
  | got list => rfl
  | done list =>
    simp only [result, abs, Reader.returned]
    rw [count_groupByURL, List.count_filter]
    simpa using he

theorem AerospikeState.Inv.exactlyOnce {s : AerospikeState} (h : s.Inv) :
    ExactlyOnce s.appended s.entries s.results := by
  intro e he
  have hone := h.handover.once e he
  have hresults : returns s.results e = s.handover.returns e := by
    simp only [returns, results, Handover.returns, AerospikeState.handover, List.map_map]
    congr 1
    apply List.map_congr_left
    intro r _
    exact r.count_result (h.url e he)
  rw [hresults]
  exact hone

theorem AerospikeState.Inv.operate {s : AerospikeState} (h : s.Inv) {c : AppendCall}
    (hurl : c.callbackURL ≠ "") :
    Inv { s with
      entries := s.entries ++ [⟨c, s.appended.length⟩]
      appended := s.appended ++ [⟨c, s.appended.length⟩] } where
  handover := by
    refine h.handover.append ?_
    intro hmem
    exact absurd (h.call _ hmem) (Nat.lt_irrefl _)
  call := by
    intro e he
    rw [List.length_append, List.length_singleton]
    rcases List.mem_append.1 he with hold | hnew
    · exact (h.call e hold).trans (Nat.lt_succ_self _)
    · obtain rfl := List.mem_singleton.1 hnew
      exact Nat.lt_succ_self _
  url := by
    intro e he
    rcases List.mem_append.1 he with hold | hnew
    · exact h.url e hold
    · obtain rfl := List.mem_singleton.1 hnew
      exact hurl
  block := h.block

theorem AerospikeState.Inv.get {s : AerospikeState} (h : s.Inv) {b : String}
    (hfree : ∀ r ∈ s.readers, r.blockHash = b → r.noted = []) {phase : AerospikePhase}
    (hphase : phase = .done [] ∨ phase = .got (s.entries.filter (·.blockHash = b))) :
    Inv { s with readers := s.readers ++ [⟨b, phase⟩] } := by
  have hnoted : ∀ e ∈ AerospikeReader.noted ⟨b, phase⟩, e ∈ s.entries ∧ e.blockHash = b := by
    rcases hphase with rfl | rfl
    · exact List.forall_mem_nil _
    · intro e he
      simpa using List.mem_filter.1 he
  refine ⟨?_, h.call, h.url, ?_⟩
  · have hjoin := @Handover.Inv.join _ _ _ h.handover (AerospikeReader.abs ⟨b, phase⟩) ?_ ?_ ?_ ?_
    · simpa [AerospikeState.handover] using hjoin
    · rcases hphase with rfl | rfl <;> rfl
    · rcases hphase with rfl | rfl
      · exact List.nodup_nil
      · exact h.handover.nodup_stored.filter _
    · rw [AerospikeReader.noted_abs]
      exact fun e he => (hnoted e he).1
    · intro r' hr' e he hmem
      obtain ⟨r, hr, rfl⟩ := List.mem_map.1 hr'
      rw [AerospikeReader.noted_abs] at he hmem
      -- a reader that has noted one of these entries has the same block
      have hblock : r.blockHash = b := (h.block r hr e he).symm.trans (hnoted e hmem).2
      rw [hfree r hr hblock] at he
      cases he
  · intro r hr e he
    rcases List.mem_append.1 hr with hold | hnew
    · exact h.block r hold e he
    · obtain rfl := List.mem_singleton.1 hnew
      exact (hnoted e he).2

theorem AerospikeState.Inv.delete {s : AerospikeState} (h : s.Inv) {i : ℕ} {b : String}
    {list : List Entry} (hr : s.readers[i]? = some ⟨b, .got list⟩)
    (hall : ∀ e ∈ s.entries, e.blockHash = b → e ∈ list) :
    Inv { s with
      entries := s.entries.filter (·.blockHash ≠ b)
      readers := s.readers.set i ⟨b, .done list⟩ } := by
  have hblock := h.block _ (List.mem_of_getElem? hr)
  refine ⟨?_, h.call, h.url, ?_⟩
  · have hstored : s.entries.filter (·.blockHash ≠ b) =
        s.handover.stored.filter fun e => !decide (e ∈ list) := by
      apply List.filter_congr
      intro e he
      rw [← decide_not, decide_eq_decide, not_iff_not]
      exact ⟨hall e he, hblock e⟩
    have hreader : s.handover.readers[i]? = some (.reading list) := by
      simp [AerospikeState.handover, hr, AerospikeReader.abs]
    have hfinish := h.handover.finish hreader hstored
    simpa [AerospikeState.handover, AerospikeReader.abs, List.map_set] using hfinish
  · intro r hrmem e he
    obtain ⟨k, hk⟩ := List.mem_iff_getElem?.1 hrmem
    rcases List.getElem?_set_cases hk with ⟨-, rfl⟩ | ⟨-, hold⟩
    · cases he
    · exact h.block r (List.mem_of_getElem? hold) e he

theorem AerospikeState.Inv.step {s s' : AerospikeState} {l : AerospikeLabel} (h : s.Inv)
    (hsafe : s.Safe l) (hst : s.step l = some s') : s'.Inv := by
  cases l with
  | operate c =>
    obtain rfl := Option.some.inj hst
    exact h.operate hsafe
  | get b =>
    obtain rfl := Option.some.inj hst
    refine h.get hsafe ?_
    split_ifs
    · exact .inl rfl
    · exact .inr rfl
  | delete i =>
    simp only [AerospikeState.step] at hst
    split at hst
    next b list hr =>
      obtain rfl := Option.some.inj hst
      exact h.delete hr fun e he hb => hsafe _ hr e he hb
    next => cases hst

/-! ### PostgreSQL: the safe runs -/

/-- A participant of the abstract handover. -/
def Tx.abs : Tx → Reader Entry
  | .append _ _ => .idle
  | .readAndDelete _ (.selected list) => .reading list
  | .readAndDelete _ (.deleting list _) => .reading list
  | .readAndDelete _ (.deletedEntries list _) => .reading list
  | .readAndDelete _ (.deletedParent list _) => .reading list
  | .readAndDelete _ (.committed list) => .finished list

/-- The rows that a transaction deletes. -/
def Tx.targets : Tx → List Entry
  | .readAndDelete _ (.deleting _ targets) => targets
  | .readAndDelete _ (.deletedEntries _ deleted) => deleted
  | .readAndDelete _ (.deletedParent _ deleted) => deleted
  | tx => tx.noted

/-- What holds in the safe runs on PostgreSQL: the handover, and that a transaction deletes what it
has read. -/
structure SqlInv (entries appended : List Entry) (txs : List Tx) : Prop where
  handover : Handover.Inv ⟨entries, appended, txs.map Tx.abs⟩
  call : ∀ e ∈ appended, ∃ c, txs[e.call]? = some (.append c .committed)
  block : ∀ tx ∈ txs, ∀ e ∈ tx.noted, e.blockHash = tx.blockHash
  targets : ∀ tx ∈ txs, ∀ e, e ∈ tx.targets ↔ e ∈ tx.noted

theorem Tx.noted_abs (tx : Tx) : tx.abs.noted = tx.noted := by
  rcases tx with ⟨c, phase⟩ | ⟨b, phase⟩
  · rfl
  · cases phase <;> rfl

theorem Tx.count_result (tx : Tx) (e : Entry) :
    (tx.result e.callbackURL).count e = tx.abs.returned.count e := by
  rcases tx with ⟨c, phase⟩ | ⟨b, phase⟩
  · rfl
  · cases phase with
    | committed list => exact count_groupByURL list e
    | _ => rfl

namespace SqlInv

variable {entries appended : List Entry} {txs : List Tx}

theorem exactlyOnce (h : SqlInv entries appended txs) :
    ExactlyOnce appended entries (txs.map Tx.result) := by
  intro e he
  have hone := h.handover.once e he
  have hresults : returns (txs.map Tx.result) e =
      Handover.returns ⟨entries, appended, txs.map Tx.abs⟩ e := by
    simp only [returns, Handover.returns, List.map_map]
    congr 1
    apply List.map_congr_left
    intro tx _
    exact tx.count_result e
  rw [hresults]
  exact hone

/-- A transaction begins: one that has read nothing, or entries that no running one has read. -/
theorem begin_tx (h : SqlInv entries appended txs) {tx : Tx} (hreturned : tx.abs.returned = [])
    (hnodup : tx.noted.Nodup) (hnoted : ∀ e ∈ tx.noted, e ∈ entries ∧ e.blockHash = tx.blockHash)
    (htargets : tx.targets = tx.noted)
    (hfree : ∀ tx' ∈ txs, tx'.blockHash = tx.blockHash → tx.noted ≠ [] → tx'.noted = []) :
    SqlInv entries appended (txs ++ [tx]) := by
  refine ⟨?_, ?_, ?_, ?_⟩
  · have hjoin := @Handover.Inv.join _ _ _ h.handover tx.abs hreturned ?_ ?_ ?_
    · simpa using hjoin
    · rwa [Tx.noted_abs]
    · rw [Tx.noted_abs]
      exact fun e he => (hnoted e he).1
    · intro r' hr' e he hmem
      obtain ⟨tx', htx', rfl⟩ := List.mem_map.1 hr'
      rw [Tx.noted_abs] at he hmem
      have hblock : tx'.blockHash = tx.blockHash :=
        (h.block tx' htx' e he).symm.trans (hnoted e hmem).2
      rw [hfree tx' htx' hblock (List.ne_nil_of_mem hmem)] at he
      cases he
  · intro e he
    obtain ⟨c, hc⟩ := h.call e he
    have hlt := (List.getElem?_eq_some_iff.1 hc).1
    exact ⟨c, by rwa [List.getElem?_append_left hlt]⟩
  · intro tx' htx' e he
    rcases List.mem_append.1 htx' with hold | hnew
    · exact h.block tx' hold e he
    · obtain rfl := List.mem_singleton.1 hnew
      exact (hnoted e he).2
  · intro tx' htx' e
    rcases List.mem_append.1 htx' with hold | hnew
    · exact h.targets tx' hold e
    · obtain rfl := List.mem_singleton.1 hnew
      rw [htargets]

variable {i : ℕ} {tx tx' : Tx}

theorem set_of_handover {entries' : List Entry} (h : SqlInv entries appended txs)
    (htx : txs[i]? = some tx) (hrunning : ∀ c, tx ≠ .append c .committed)
    (hhandover : Handover.Inv ⟨entries', appended, (txs.set i tx').map Tx.abs⟩)
    (hblock : tx'.blockHash = tx.blockHash) (hnoted : ∀ e ∈ tx'.noted, e ∈ tx.noted)
    (htargets : ∀ e, e ∈ tx'.targets ↔ e ∈ tx'.noted) :
    SqlInv entries' appended (txs.set i tx') := by
  refine ⟨hhandover, ?_, ?_, ?_⟩
  · intro e he
    obtain ⟨c, hc⟩ := h.call e he
    have hne : i ≠ e.call := by
      rintro rfl
      exact hrunning c (Option.some.inj (htx.symm.trans hc))
    exact ⟨c, by rwa [List.getElem?_set_ne hne]⟩
  · intro t ht e he
    obtain ⟨k, hk⟩ := List.mem_iff_getElem?.1 ht
    rcases List.getElem?_set_cases hk with ⟨-, rfl⟩ | ⟨-, hold⟩
    · rw [hblock]
      exact h.block tx (List.mem_of_getElem? htx) e (hnoted e he)
    · exact h.block t (List.mem_of_getElem? hold) e he
  · intro t ht e
    obtain ⟨k, hk⟩ := List.mem_iff_getElem?.1 ht
    rcases List.getElem?_set_cases hk with ⟨-, rfl⟩ | ⟨-, hold⟩
    · exact htargets e
    · exact h.targets t (List.mem_of_getElem? hold) e

/-- A running transaction moves on, and neither notes nor returns entries by that. -/
theorem set (h : SqlInv entries appended txs) (htx : txs[i]? = some tx)
    (hrunning : ∀ c, tx ≠ .append c .committed) (habs : tx'.abs = tx.abs)
    (hblock : tx'.blockHash = tx.blockHash) (htargets : ∀ e, e ∈ tx'.targets ↔ e ∈ tx'.noted) :
    SqlInv entries appended (txs.set i tx') := by
  have hnoted : tx'.noted = tx.noted := by rw [← Tx.noted_abs, habs, Tx.noted_abs]
  refine h.set_of_handover htx hrunning ?_ hblock (fun e he => by rwa [← hnoted]) htargets
  have hsame : (txs.set i tx').map Tx.abs = txs.map Tx.abs := by
    obtain ⟨hlt, rfl⟩ := List.getElem?_eq_some_iff.1 htx
    rw [List.map_set, habs, ← List.map_set, List.set_getElem_self]
  rw [hsame]
  exact h.handover

theorem commitAppend (h : SqlInv entries appended txs) {c : AppendCall}
    (htx : txs[i]? = some (.append c .inserted)) :
    SqlInv (entries ++ [⟨c, i⟩]) (appended ++ [⟨c, i⟩]) (txs.set i (.append c .committed)) := by
  have hset : SqlInv entries appended (txs.set i (.append c .committed)) :=
    h.set htx (by simp) rfl rfl fun e => Iff.rfl
  refine ⟨hset.handover.append ?_, ?_, hset.block, hset.targets⟩
  · intro hmem
    obtain ⟨c', hc'⟩ := h.call _ hmem
    simpa using htx.symm.trans hc'
  · intro e he
    rcases List.mem_append.1 he with hold | hnew
    · exact hset.call e hold
    · obtain rfl := List.mem_singleton.1 hnew
      have hlt := (List.getElem?_eq_some_iff.1 htx).1
      exact ⟨c, by simp [hlt]⟩

end SqlInv

theorem SqlInv.step {s s' : SqlState} {l : SqlLabel} (h : SqlInv s.entries s.appended s.txs)
    (hsafe : s.Safe l) (hst : s.step l = some s') : SqlInv s'.entries s'.appended s'.txs := by
  cases l with
  | upsert c =>
    simp only [SqlState.step] at hst
    split_ifs at hst
    obtain rfl := Option.some.inj hst
    exact h.begin_tx rfl List.nodup_nil (List.forall_mem_nil _) rfl fun _ _ _ hne => absurd rfl hne
  | insert i =>
    simp only [SqlState.step] at hst
    split at hst
    next c htx =>
      obtain rfl := Option.some.inj hst
      exact h.set htx (by simp) rfl rfl fun e => Iff.rfl
    next => cases hst
  | commitAppend i =>
    simp only [SqlState.step] at hst
    split at hst
    next c htx =>
      obtain rfl := Option.some.inj hst
      exact h.commitAppend htx
    next => cases hst
  | select b =>
    obtain rfl := Option.some.inj hst
    refine h.begin_tx rfl (h.handover.nodup_stored.filter _) ?_ rfl ?_
    rotate_left
    · intro tx htx hb _
      exact hsafe tx htx hb
    intro e he
    obtain ⟨hmem, hblock⟩ := List.mem_filter.1 he
    exact ⟨hmem, of_decide_eq_true hblock⟩
  | deleteEntries i =>
    simp only [SqlState.step] at hst
    split at hst
    next b list htx =>
      obtain rfl := Option.some.inj hst
      refine h.set htx (by simp) rfl rfl ?_
      -- the rows that the statement sees are those that were read
      have hblock := h.block _ (List.mem_of_getElem? htx)
      have hnoted := (h.handover.noted _ (List.mem_map_of_mem (List.mem_of_getElem? htx))).2
      intro e
      simp only [Tx.targets, List.mem_filter, decide_eq_true_eq]
      exact ⟨fun he => hsafe _ htx e he.1 he.2, fun he => ⟨hnoted e he, hblock e he⟩⟩
    next => cases hst
  | lockEntries i =>
    simp only [SqlState.step] at hst
    split at hst
    next b list targets htx =>
      split_ifs at hst
      obtain rfl := Option.some.inj hst
      refine h.set htx (by simp) rfl rfl ?_
      have htargets := h.targets _ (List.mem_of_getElem? htx)
      have hnoted := (h.handover.noted _ (List.mem_map_of_mem (List.mem_of_getElem? htx))).2
      intro e
      simp only [Tx.targets, List.mem_filter, decide_eq_true_eq]
      exact ⟨fun he => (htargets e).1 he.1, fun he => ⟨(htargets e).2 he, hnoted e he⟩⟩
    next => cases hst
  | deleteParent i =>
    simp only [SqlState.step] at hst
    split at hst
    next b list deleted htx =>
      have htargets := h.targets _ (List.mem_of_getElem? htx)
      have hset : SqlInv s.entries s.appended
          (s.txs.set i (.readAndDelete b (.deletedParent list deleted))) :=
        h.set htx (by simp) rfl rfl htargets
      split_ifs at hst
      · obtain rfl := Option.some.inj hst
        exact hset
      · obtain rfl := Option.some.inj hst
        exact hset
    next => cases hst
  | commitRead i =>
    simp only [SqlState.step] at hst
    split at hst
    next b list deleted htx =>
      obtain rfl := Option.some.inj hst
      refine h.set_of_handover htx (by simp) ?_ rfl (List.forall_mem_nil _) fun e => Iff.rfl
      have htargets : ∀ e, e ∈ deleted ↔ e ∈ list := h.targets _ (List.mem_of_getElem? htx)
      have hstored : (s.entries.filter fun e => !decide (e ∈ deleted)) =
          s.entries.filter fun e => !decide (e ∈ list) := by
        apply List.filter_congr
        intro e _
        rw [decide_eq_decide.2 (htargets e)]
      have hfinish := h.handover.finish (i := i) (by simp [htx, Tx.abs]) hstored
      rwa [List.map_set]
    next => cases hst

/-! ### The result -/

/-- **Handed over once.**  In every run of safe steps, on either backend, every entry whose `Append`
returned is stored or was returned by one `ReadAndDelete`. -/
theorem handed_over_once (s : AerospikeState) (t : SqlState) :
    (aerospike.Run AerospikeState.Safe .init s → ExactlyOnce s.appended s.entries s.results) ∧
    (postgres.Run SqlState.Safe .init t → ExactlyOnce t.appended t.entries t.results) := by
  refine ⟨?_, ?_⟩
  · intro hrun
    have hinit : AerospikeState.Inv .init := by
      refine ⟨Handover.inv_empty, ?_, ?_, ?_⟩ <;> exact List.forall_mem_nil _
    have hinv : s.Inv := hrun.invariant hinit fun _ _ _ h hsafe hst => h.step hsafe hst
    exact hinv.exactlyOnce
  · intro hrun
    have hinit : SqlInv [] [] [] := by
      refine ⟨Handover.inv_empty, ?_, ?_, ?_⟩ <;> exact List.forall_mem_nil _
    have hinv : SqlInv t.entries t.appended t.txs :=
      LTS.Run.invariant (I := fun s => SqlInv s.entries s.appended s.txs) hrun hinit
        fun _ _ _ h hsafe hst => h.step hsafe hst
    exact hinv.exactlyOnce

def firstCall : AppendCall := ⟨"block", "http://a/cb", ["t1"], 0, [1]⟩

def secondCall : AppendCall := ⟨"block", "http://a/cb", ["t2"], 1, [2]⟩

def otherCall : AppendCall := ⟨"other", "http://a/cb", ["t3"], 0, [3]⟩

/-- On Aerospike the reader of one block is between its `Get` and its `Delete` when the other block
is appended to and read; on PostgreSQL an entry is appended while the reader of its block is
deleting those it has read. -/
theorem handed_over_once_overlapping :
    (∃ s, aerospike.Run AerospikeState.Safe .init s ∧ returns s.results ⟨firstCall, 0⟩ = 1 ∧
      returns s.results ⟨otherCall, 1⟩ = 1 ∧ ExactlyOnce s.appended s.entries s.results) ∧
    ∃ s, postgres.Run SqlState.Safe .init s ∧ returns s.results ⟨firstCall, 0⟩ = 1 ∧
      s.entries = [⟨secondCall, 2⟩] ∧ ExactlyOnce s.appended s.entries s.results := by
  have haerospike : aerospike.Along AerospikeState.Safe .init
      [.operate firstCall, .get "block", .operate otherCall, .get "other", .delete 0, .delete 1] :=
    .cons (by decide) rfl (.cons (by decide) rfl (.cons (by decide) rfl (.cons (by decide) rfl
      (.cons (by decide) rfl (.cons (by decide) rfl trivial)))))
  have hpostgres : postgres.Along SqlState.Safe .init
      [.upsert firstCall, .insert 0, .commitAppend 0, .select "block", .upsert secondCall,
        .deleteEntries 1, .insert 2, .lockEntries 1, .commitAppend 2, .deleteParent 1,
        .commitRead 1] :=
    .cons trivial rfl (.cons trivial rfl (.cons trivial rfl (.cons (by decide) rfl
      (.cons trivial rfl (.cons (by decide) rfl (.cons trivial rfl (.cons trivial rfl
        (.cons trivial rfl (.cons trivial rfl (.cons trivial rfl trivial))))))))))
  have hrun₁ := LTS.Run.exec .start haerospike rfl
  have hrun₂ := LTS.Run.exec .start hpostgres rfl
  exact ⟨⟨_, hrun₁, by decide, by decide, (handed_over_once _ .init).1 hrun₁⟩,
    ⟨_, hrun₂, by decide, by decide, (handed_over_once .init _).2 hrun₂⟩⟩

/-- Without this condition, an entry is deleted that nobody has read, and an entry is returned
twice, on both backends. -/
theorem not_handed_over_once :
    (∃ s, aerospike.exec .init
        [.operate firstCall, .get "block", .operate secondCall, .delete 0] = some s ∧
      ⟨secondCall, 1⟩ ∈ s.appended ∧ ⟨secondCall, 1⟩ ∉ s.entries ∧
      returns s.results ⟨secondCall, 1⟩ = 0) ∧
    (∃ s, aerospike.exec .init
        [.operate firstCall, .get "block", .get "block", .delete 0, .delete 1] = some s ∧
      ⟨firstCall, 0⟩ ∈ s.appended ∧ returns s.results ⟨firstCall, 0⟩ = 2) ∧
    (∃ s, postgres.exec .init
        [.upsert firstCall, .insert 0, .commitAppend 0, .select "block",
          .upsert secondCall, .insert 2, .commitAppend 2, .deleteEntries 1, .lockEntries 1,
          .deleteParent 1, .commitRead 1] = some s ∧
      ⟨secondCall, 2⟩ ∈ s.appended ∧ ⟨secondCall, 2⟩ ∉ s.entries ∧
      returns s.results ⟨secondCall, 2⟩ = 0) ∧
    ∃ s, postgres.exec .init
        [.upsert firstCall, .insert 0, .commitAppend 0, .select "block", .select "block",
          .deleteEntries 1, .lockEntries 1, .deleteParent 1, .commitRead 1,
          .deleteEntries 2, .lockEntries 2, .deleteParent 2, .commitRead 2] = some s ∧
      ⟨firstCall, 0⟩ ∈ s.appended ∧ returns s.results ⟨firstCall, 0⟩ = 2 := by
  refine ⟨⟨_, rfl, ?_⟩, ⟨_, rfl, ?_⟩, ⟨_, rfl, ?_⟩, ⟨_, rfl, ?_⟩⟩
  · decide
  · decide
  · decide
  · decide

end Accumulator

end Store

end MerkleService
