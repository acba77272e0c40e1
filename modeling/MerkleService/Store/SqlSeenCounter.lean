import MerkleService.LTS.Basic
import MerkleService.Data.List
import Mathlib.Tactic

/-!
# The SQL seen counter

`seenCounter.Increment` (`internal/store/sql/seen_counter.go`) is one transaction: it inserts the
row of the txid into `seen_counters` and the pair of txid and subtree into `seen_counter_subtrees`,
unless they are there, counts the subtrees of the txid, reads `threshold_fired` with `FOR UPDATE`,
and sets it when it was not set and the count has reached the threshold.

The machine has any number of transactions, which run statement by statement under READ COMMITTED:

* a statement sees the rows that are committed when it starts, and those of its own transaction;
* an insert blocks while another transaction has inserted the same key and has not ended;
* `FOR UPDATE` blocks while another transaction holds the lock of the row, and then reads the row
  again.

The count is taken before the row is locked, and two transactions do not see the rows of each other.

* `CountsAll` : the condition, on the `SELECT COUNT(*)` of a transaction that has inserted its
  subtree.
* `Inv` : the invariant of the runs that meet it, for a txid.
* `threshold_fires_once` : **in these runs exactly one call fires**, when all transactions have
  ended and there are enough subtrees.
* `countsAll_of_le_two` : a threshold of one or two meets the condition in every run, since the
  first transaction of a txid holds the others back.
* `threshold_never_fires` : at a threshold of three, two calls miss the row of each other.
-/

namespace MerkleService

namespace SqlSeenCounter

/-! ### Transactions -/

structure IncrementResult where
  newCount : ℕ
  thresholdReached : Bool
  deriving DecidableEq

/-- What the next statement of a transaction is. -/
inductive Phase where
  /-- The insert into `seen_counters`. -/
  | begun
  /-- The insert into `seen_counter_subtrees`. -/
  | inserting
  /-- The `SELECT COUNT(*)`. -/
  | counting
  /-- The `SELECT threshold_fired ... FOR UPDATE`. -/
  | locking (count : ℕ)
  /-- The row is locked: the `UPDATE` or the commit. -/
  | locked (count : ℕ) (fired : Bool)
  /-- The commit, after the `UPDATE`. -/
  | updated (count : ℕ)
  | committed (result : IncrementResult)
  | rolledBack
  deriving DecidableEq

structure Tx where
  txid : String
  subtreeID : String
  phase : Phase
  /-- The transaction has inserted the row of `seen_counters`, -/
  ownsCounter : Bool := false
  /-- and that of `seen_counter_subtrees`. -/
  ownsSubtree : Bool := false
  deriving DecidableEq

/-- The transaction has not ended. -/
def Tx.active (tx : Tx) : Bool :=
  match tx.phase with
  | .committed _ | .rolledBack => false
  | _ => true

/-- The transaction holds the lock of the row of its txid. -/
def Tx.holdsLock (tx : Tx) : Bool :=
  match tx.phase with
  | .locked _ _ | .updated _ => true
  | _ => false

/-- The committed rows. -/
structure Tables where
  /-- `threshold_fired`, for each row of `seen_counters`. -/
  seenCounters : String → Option Bool
  seenCounterSubtrees : List (String × String)

/-- The number of committed subtrees of a txid. -/
def Tables.subtrees (db : Tables) (txid : String) : ℕ :=
  (db.seenCounterSubtrees.filter fun row => row.1 = txid).length

structure State where
  db : Tables
  txs : List Tx

inductive Label where
  /-- `BeginTx` of a call of `Increment`. -/
  | begin (txid subtreeID : String)
  | insertCounter (t : ℕ)
  | insertSubtree (t : ℕ)
  | count (t : ℕ)
  | lock (t : ℕ)
  | update (t : ℕ)
  | commit (t : ℕ)
  /-- After an error or when the time is up. -/
  | rollback (t : ℕ)

/-- What `SELECT COUNT(*)` returns. -/
def Tables.count (db : Tables) (tx : Tx) : ℕ := db.subtrees tx.txid + tx.ownsSubtree.toNat

/-- The tables after the commit of a transaction, which has set `threshold_fired` or not. -/
def Tables.commit (db : Tables) (tx : Tx) (fired : Bool) : Tables where
  seenCounters :=
    if tx.ownsCounter ∨ fired then Function.update db.seenCounters tx.txid (some fired)
    else db.seenCounters
  seenCounterSubtrees :=
    if tx.ownsSubtree then db.seenCounterSubtrees ++ [(tx.txid, tx.subtreeID)]
    else db.seenCounterSubtrees

/-- The next statement of a transaction; `none` while it is blocked. -/
def txStep (threshold : ℕ) (s : State) (tx : Tx) : Label → Option (Tables × Tx)
  | .insertCounter _ =>
    if tx.phase = .begun ∧
        ∀ other ∈ s.txs, other.txid = tx.txid → other.active → other.ownsCounter = false then
      some (s.db, { tx with
        phase := .inserting
        ownsCounter := (s.db.seenCounters tx.txid).isNone })
    else none
  | .insertSubtree _ =>
    if tx.phase = .inserting ∧
        ∀ other ∈ s.txs, other.txid = tx.txid → other.subtreeID = tx.subtreeID →
          other.active → other.ownsSubtree = false then
      some (s.db, { tx with
        phase := .counting
        ownsSubtree := !s.db.seenCounterSubtrees.contains (tx.txid, tx.subtreeID) })
    else none
  | .count _ =>
    if tx.phase = .counting then
      some (s.db, { tx with phase := .locking (s.db.count tx) })
    else none
  | .lock _ =>
    match tx.phase with
    | .locking count =>
      if ∀ other ∈ s.txs, other.txid = tx.txid → other.holdsLock = false then
        match if tx.ownsCounter then some false else s.db.seenCounters tx.txid with
        | some fired => some (s.db, { tx with phase := .locked count fired })
        -- no row
        | none => some (s.db, { tx with phase := .rolledBack })
      else none
    | _ => none
  | .update _ =>
    match tx.phase with
    | .locked count fired =>
      if fired = false ∧ threshold ≤ count then some (s.db, { tx with phase := .updated count })
      else none
    | _ => none
  | .commit _ =>
    match tx.phase with
    | .locked count fired =>
      if fired = false ∧ threshold ≤ count then none
      else some (s.db.commit tx false, { tx with phase := .committed ⟨count, false⟩ })
    | .updated count => some (s.db.commit tx true, { tx with phase := .committed ⟨count, true⟩ })
    | _ => none
  | .rollback _ => if tx.active then some (s.db, { tx with phase := .rolledBack }) else none
  | .begin _ _ => none

/-- The transaction a label belongs to. -/
def Label.mover : Label → Option ℕ
  | .begin _ _ => none
  | .insertCounter t | .insertSubtree t | .count t | .lock t | .update t | .commit t
  | .rollback t => some t

def step (threshold : ℕ) (s : State) : Label → Option State
  | .begin txid subtreeID =>
    some { s with txs := s.txs ++ [{ txid := txid, subtreeID := subtreeID, phase := .begun }] }
  | l => do
    let t ← l.mover
    let tx ← s.txs[t]?
    let (db, tx') ← txStep threshold s tx l
    return ⟨db, s.txs.set t tx'⟩

def machine (threshold : ℕ) : LTS State Label := ⟨step threshold⟩

def init : State := ⟨⟨fun _ => none, []⟩, []⟩

/-! ### Counting transactions -/

/-- The sum of `f` over the transactions. -/
def State.tally (s : State) (f : Tx → ℕ) : ℕ := (s.txs.map f).sum

/-- The row of `seen_counter_subtrees` is not committed yet. -/
def Tx.pending (txid : String) (tx : Tx) : ℕ :=
  if tx.txid = txid ∧ tx.active ∧ tx.ownsSubtree then 1 else 0

/-- All rows of `seen_counter_subtrees` for a txid, committed or not. -/
def State.rows (s : State) (txid : String) : ℕ := s.db.subtrees txid + s.tally (Tx.pending txid)

/-- The call has returned `ThresholdReached: true`. -/
def Tx.reached (txid : String) (tx : Tx) : ℕ :=
  match tx.phase with
  | .committed result => if tx.txid = txid ∧ result.thresholdReached then 1 else 0
  | _ => 0

/-- The number of calls that returned `ThresholdReached: true`. -/
def State.fires (s : State) (txid : String) : ℕ := s.tally (Tx.reached txid)

/-- When the count of a transaction that has inserted its subtree stays below the threshold, then
also with the rows of the other transactions there are fewer than the threshold. -/
def CountsAll (threshold : ℕ) (s : State) : Label → Prop
  | .count t => ∀ tx, s.txs[t]? = some tx → tx.ownsSubtree = true → s.db.count tx < threshold →
      s.rows tx.txid < threshold
  | _ => True

/-! ### What a step can do -/

/-- What a statement does to the tables and its transaction. -/
inductive Move (threshold : ℕ) (l : Label) (s : State) (tx : Tx) : Tables → Tx → Prop
  | insertCounter : tx.phase = .begun →
      (∀ other ∈ s.txs, other.txid = tx.txid → other.active → other.ownsCounter = false) →
      Move threshold l s tx s.db
        { tx with phase := .inserting, ownsCounter := (s.db.seenCounters tx.txid).isNone }
  | insertSubtree {owns : Bool} : tx.phase = .inserting →
      owns = !s.db.seenCounterSubtrees.contains (tx.txid, tx.subtreeID) →
      Move threshold l s tx s.db { tx with phase := .counting, ownsSubtree := owns }
  | count (t : ℕ) : l = .count t → tx.phase = .counting →
      Move threshold l s tx s.db { tx with phase := .locking (s.db.count tx) }
  | lock {count : ℕ} {fired : Bool} : tx.phase = .locking count →
      (∀ other ∈ s.txs, other.txid = tx.txid → other.holdsLock = false) →
      (if tx.ownsCounter then some false else s.db.seenCounters tx.txid) = some fired →
      Move threshold l s tx s.db { tx with phase := .locked count fired }
  | update {count : ℕ} {fired : Bool} : tx.phase = .locked count fired →
      fired = false → threshold ≤ count →
      Move threshold l s tx s.db { tx with phase := .updated count }
  | commit {count : ℕ} {fired : Bool} : tx.phase = .locked count fired →
      ¬ (fired = false ∧ threshold ≤ count) →
      Move threshold l s tx (s.db.commit tx false) { tx with phase := .committed ⟨count, false⟩ }
  | commitUpdate {count : ℕ} : tx.phase = .updated count →
      Move threshold l s tx (s.db.commit tx true) { tx with phase := .committed ⟨count, true⟩ }
  | rollback : tx.active = true →
      Move threshold l s tx s.db { tx with phase := .rolledBack }

variable {threshold : ℕ}

theorem txStep_move {s : State} {tx tx' : Tx} {db : Tables} {l : Label}
    (h : txStep threshold s tx l = some (db, tx')) : Move threshold l s tx db tx' := by
  cases l with
  | begin => cases h
  | insertCounter t =>
    simp only [txStep] at h
    split_ifs at h with hc
    obtain ⟨rfl, rfl⟩ := Prod.mk.inj (Option.some.inj h)
    exact .insertCounter hc.1 hc.2
  | insertSubtree t =>
    simp only [txStep] at h
    split_ifs at h with hc
    obtain ⟨rfl, rfl⟩ := Prod.mk.inj (Option.some.inj h)
    exact .insertSubtree hc.1 rfl
  | count t =>
    simp only [txStep] at h
    split_ifs at h with hc
    obtain ⟨rfl, rfl⟩ := Prod.mk.inj (Option.some.inj h)
    exact .count t rfl hc
  | lock t =>
    simp only [txStep] at h
    split at h
    · rename_i count hp
      by_cases hfree : ∀ other ∈ s.txs, other.txid = tx.txid → other.holdsLock = false
      case neg => simp [hfree] at h
      rw [if_pos hfree] at h
      split at h
      · rename_i fired hfired
        obtain ⟨rfl, rfl⟩ := Prod.mk.inj (Option.some.inj h)
        exact .lock hp hfree hfired
      · obtain ⟨rfl, rfl⟩ := Prod.mk.inj (Option.some.inj h)
        exact .rollback (by simp [Tx.active, hp])
    · cases h
  | update t =>
    simp only [txStep] at h
    split at h
    · rename_i count fired hp
      split_ifs at h with hc
      obtain ⟨rfl, rfl⟩ := Prod.mk.inj (Option.some.inj h)
      exact .update hp hc.1 hc.2
    · cases h
  | commit t =>
    simp only [txStep] at h
    split at h
    · rename_i count fired hp
      split_ifs at h with hc
      obtain ⟨rfl, rfl⟩ := Prod.mk.inj (Option.some.inj h)
      exact .commit hp hc
    · rename_i count hp
      obtain ⟨rfl, rfl⟩ := Prod.mk.inj (Option.some.inj h)
      exact .commitUpdate hp
    · cases h
  | rollback t =>
    simp only [txStep] at h
    split_ifs at h with hc
    obtain ⟨rfl, rfl⟩ := Prod.mk.inj (Option.some.inj h)
    exact .rollback hc

/-- **What a step does**: begin a transaction, or perform a statement of one. -/
theorem step_cases {s s' : State} {l : Label} (h : step threshold s l = some s') :
    (∃ txid subtreeID, s'.db = s.db ∧
      s'.txs = s.txs ++ [{ txid := txid, subtreeID := subtreeID, phase := .begun }]) ∨
    (∃ t tx tx', l.mover = some t ∧ s.txs[t]? = some tx ∧ s'.txs = s.txs.set t tx' ∧
      Move threshold l s tx s'.db tx') := by
  unfold step at h
  split at h
  · rename_i txid subtreeID
    obtain rfl := Option.some.inj h
    exact Or.inl ⟨txid, subtreeID, rfl, rfl⟩
  · simp only [Option.bind_eq_bind, Option.bind_eq_some_iff] at h
    obtain ⟨t, ht, tx, htx, ⟨db, tx'⟩, hst, h⟩ := h
    obtain rfl := Option.some.inj h
    exact Or.inr ⟨t, tx, tx', ht, htx, rfl, txStep_move hst⟩

theorem Move.txid {l : Label} {s : State} {tx tx' : Tx} {db : Tables}
    (h : Move threshold l s tx db tx') : tx'.txid = tx.txid := by
  cases h <;> rfl

/-! ### The invariant -/

/-- The transaction has inserted the row of the txid and has not committed it. -/
def Tx.owner (txid : String) (tx : Tx) : ℕ :=
  if tx.txid = txid ∧ tx.active ∧ tx.ownsCounter then 1 else 0

def Tx.holder (txid : String) (tx : Tx) : ℕ := if tx.txid = txid ∧ tx.holdsLock then 1 else 0

/-- The transaction has not missed the threshold: it is still to count, or has counted enough. -/
def Tx.counts (threshold : ℕ) (tx : Tx) : Bool :=
  match tx.phase with
  | .counting | .updated _ => true
  | .locking count | .locked count _ => decide (threshold ≤ count)
  | _ => false

/-- A transaction with a subtree of its own that has not missed the threshold. -/
def Tx.hopeful (threshold : ℕ) (txid : String) (tx : Tx) : ℕ :=
  if tx.txid = txid ∧ tx.ownsSubtree ∧ tx.counts threshold then 1 else 0

/-- What holds of a transaction, when `counter` is the committed row of its txid. -/
structure TxInv (counter : Option Bool) (tx : Tx) : Prop where
  begun : tx.phase = .begun → tx.ownsCounter = false
  inserting : tx.phase = .begun ∨ tx.phase = .inserting → tx.ownsSubtree = false
  seen : tx.active = true → tx.phase ≠ .begun → tx.ownsCounter = true ∨ counter ≠ none
  /-- What was read under the lock is still so. -/
  locked : ∀ count fired, tx.phase = .locked count fired → fired = decide (counter = some true)
  updated : ∀ count, tx.phase = .updated count → counter ≠ some true

/-- **The invariant**, for one txid. -/
structure Inv (threshold : ℕ) (txid : String) (s : State) : Prop where
  /-- The row is committed, or one transaction has inserted it. -/
  owners : s.tally (Tx.owner txid) + (s.db.seenCounters txid).isSome.toNat ≤ 1
  holders : s.tally (Tx.holder txid) ≤ 1
  tx : ∀ tx ∈ s.txs, tx.txid = txid → TxInv (s.db.seenCounters txid) tx
  once : s.fires txid = if s.db.seenCounters txid = some true then 1 else 0
  /-- The rows of the transactions that have missed the threshold, and the committed ones, are too
  few. -/
  reach : s.db.seenCounters txid = some true ∨
    s.rows txid < threshold + s.tally (Tx.hopeful threshold txid)

theorem inv_init (hthreshold : 1 ≤ threshold) (txid : String) : Inv threshold txid init where
  owners := Nat.zero_le _
  holders := Nat.zero_le _
  tx := by simp [init]
  once := rfl
  reach := Or.inr hthreshold

variable {s s' : State} {t : ℕ} {tx tx' : Tx} {txid : String}

theorem tally_set (f : Tx → ℕ) (htx : s.txs[t]? = some tx) (hs' : s'.txs = s.txs.set t tx') :
    s'.tally f + f tx = s.tally f + f tx' := by
  unfold State.tally
  rw [hs']
  exact List.sum_map_set f htx tx'

theorem Inv.quiet (h : Inv threshold txid s) (htx : s.txs[t]? = some tx)
    (hs' : s'.txs = s.txs.set t tx') (hdb : s'.db = s.db)
    (howner : tx'.owner txid ≤ tx.owner txid ∨
      s.tally (Tx.owner txid) = 0 ∧ s.db.seenCounters txid = none ∧ tx'.owner txid ≤ 1)
    (hholder : tx'.holder txid ≤ tx.holder txid ∨
      s.tally (Tx.holder txid) = 0 ∧ tx'.holder txid ≤ 1)
    (hinv : tx'.txid = txid → TxInv (s.db.seenCounters txid) tx')
    (hreached : tx'.reached txid = tx.reached txid)
    (hreach : tx'.pending txid + tx.hopeful threshold txid ≤
        tx.pending txid + tx'.hopeful threshold txid ∨
      tx'.pending txid ≤ tx.pending txid ∧ s.rows txid < threshold) : Inv threshold txid s' := by
  have hset : ∀ f, s'.tally f + f tx = s.tally f + f tx' := fun f => tally_set f htx hs'
  have howners := h.owners
  have hholders := h.holders
  refine ⟨?_, ?_, ?_, ?_, ?_⟩
  · have hsum := hset (Tx.owner txid)
    rw [hdb]
    rcases howner with hle | ⟨hzero, hnone, hle⟩
    · omega
    · rw [hnone, Option.isSome_none, Bool.toNat_false]
      omega
  · have hsum := hset (Tx.holder txid)
    rcases hholder with hle | ⟨hzero, hle⟩ <;> omega
  · intro x hx hxid
    rw [hs'] at hx
    rw [hdb]
    rcases List.mem_or_eq_of_mem_set hx with hx | rfl
    · exact h.tx x hx hxid
    · exact hinv hxid
  · have hsum := hset (Tx.reached txid)
    have honce := h.once
    unfold State.fires at honce ⊢
    rw [hdb, ← honce]
    omega
  · rw [hdb]
    refine h.reach.imp_right ?_
    intro hlt
    have hp := hset (Tx.pending txid)
    have hh := hset (Tx.hopeful threshold txid)
    unfold State.rows at hlt hreach ⊢
    rw [hdb]
    rcases hreach with hle | ⟨hle, hfew⟩ <;> omega

theorem Inv.begin (h : Inv threshold txid s) {txid' subtreeID : String} (hdb : s'.db = s.db)
    (hs' : s'.txs = s.txs ++ [{ txid := txid', subtreeID := subtreeID, phase := .begun }]) :
    Inv threshold txid s' := by
  have happ : ∀ f : Tx → ℕ, f { txid := txid', subtreeID := subtreeID, phase := .begun } = 0 →
      s'.tally f = s.tally f := by
    intro f hf
    simp [State.tally, hs', hf]
  refine ⟨?_, ?_, ?_, ?_, ?_⟩
  · rw [hdb, happ _ (by simp [Tx.owner])]
    exact h.owners
  · rw [happ _ (by simp [Tx.holder, Tx.holdsLock])]
    exact h.holders
  · intro x hx hxid
    rw [hs'] at hx
    rw [hdb]
    rcases List.mem_append.1 hx with hx | hx
    · exact h.tx x hx hxid
    · obtain rfl := List.mem_singleton.1 hx
      constructor <;> simp
  · unfold State.fires
    rw [hdb, happ _ (by simp [Tx.reached])]
    exact h.once
  · unfold State.rows
    rw [hdb, happ _ (by simp [Tx.pending]), happ _ (by simp [Tx.hopeful])]
    exact h.reach

/-! ### The commit -/

theorem subtrees_commit (db : Tables) (tx : Tx) (fired : Bool) (txid : String) :
    (db.commit tx fired).subtrees txid =
      db.subtrees txid + if tx.txid = txid ∧ tx.ownsSubtree then 1 else 0 := by
  unfold Tables.subtrees Tables.commit
  by_cases howns : tx.ownsSubtree = true
  · by_cases hid : tx.txid = txid <;> simp [howns, hid]
  · simp [howns]

theorem seenCounters_commit (db : Tables) (tx : Tx) (fired : Bool) (txid : String) :
    (db.commit tx fired).seenCounters txid =
      if tx.txid = txid ∧ (tx.ownsCounter ∨ fired) then some fired else db.seenCounters txid := by
  unfold Tables.commit
  dsimp only
  by_cases hwrites : tx.ownsCounter ∨ fired
  · rw [if_pos hwrites, Function.update_apply]
    simp only [hwrites, and_true, eq_comm (a := txid)]
  · simp [hwrites]

theorem Move.db_other {l : Label} {db : Tables} (h : Move threshold l s tx db tx')
    (hne : tx.txid ≠ txid) :
    db.seenCounters txid = s.db.seenCounters txid ∧ db.subtrees txid = s.db.subtrees txid := by
  have hcommit : ∀ fired, (s.db.commit tx fired).seenCounters txid = s.db.seenCounters txid ∧
      (s.db.commit tx fired).subtrees txid = s.db.subtrees txid := by
    intro fired
    rw [seenCounters_commit, subtrees_commit, if_neg (not_and_of_not_left _ hne),
      if_neg (not_and_of_not_left _ hne)]
    exact ⟨rfl, rfl⟩
  cases h with
  | commit => exact hcommit false
  | commitUpdate => exact hcommit true
  | _ => exact ⟨rfl, rfl⟩

theorem Inv.other (h : Inv threshold txid s) (htx : s.txs[t]? = some tx)
    (hs' : s'.txs = s.txs.set t tx') (hid : tx'.txid = tx.txid) (hne : tx.txid ≠ txid)
    (hcounter : s'.db.seenCounters txid = s.db.seenCounters txid)
    (hsubtrees : s'.db.subtrees txid = s.db.subtrees txid) : Inv threshold txid s' := by
  have hne' : tx'.txid ≠ txid := hid ▸ hne
  have hsame : ∀ f : Tx → ℕ, (∀ x : Tx, x.txid ≠ txid → f x = 0) → s'.tally f = s.tally f := by
    intro f hf
    have hsum := tally_set f htx hs'
    rw [hf tx hne, hf tx' hne'] at hsum
    exact hsum
  refine ⟨?_, ?_, ?_, ?_, ?_⟩
  · rw [hcounter, hsame (Tx.owner txid) fun x hx => if_neg (not_and_of_not_left _ hx)]
    exact h.owners
  · rw [hsame (Tx.holder txid) fun x hx => if_neg (not_and_of_not_left _ hx)]
    exact h.holders
  · intro x hx hxid
    rw [hs'] at hx
    rw [hcounter]
    rcases List.mem_or_eq_of_mem_set hx with hx | rfl
    · exact h.tx x hx hxid
    · exact absurd hxid hne'
  · unfold State.fires
    rw [hcounter, hsame (Tx.reached txid) fun x hx => by unfold Tx.reached; split <;> simp [hx]]
    exact h.once
  · unfold State.rows
    rw [hcounter, hsubtrees, hsame (Tx.pending txid) fun x hx => if_neg (not_and_of_not_left _ hx),
      hsame (Tx.hopeful threshold txid) fun x hx => if_neg (not_and_of_not_left _ hx)]
    exact h.reach

theorem Inv.counter_eq_none (h : Inv threshold txid s) (hmem : tx ∈ s.txs) (hid : tx.txid = txid)
    (hactive : tx.active = true) (howns : tx.ownsCounter = true) :
    s.db.seenCounters txid = none := by
  have hle := List.le_sum_map (Tx.owner txid) hmem
  have hone : tx.owner txid = 1 := by simp [Tx.owner, hid, hactive, howns]
  have howners := h.owners
  unfold State.tally at howners
  cases hc : s.db.seenCounters txid with
  | none => rfl
  | some f =>
    simp only [hc, Option.isSome_some, Bool.toNat_true] at howners
    omega

theorem active_of_holdsLock (h : tx.holdsLock = true) : tx.active = true := by
  unfold Tx.holdsLock at h
  unfold Tx.active
  split at h <;> simp_all

/-- The transaction at `t`, which holds the lock, commits. -/
structure Commits (s : State) (t : ℕ) (tx : Tx) (result : IncrementResult) (s' : State) : Prop where
  pos : s.txs[t]? = some tx
  lock : tx.holdsLock = true
  txs : s'.txs = s.txs.set t { tx with phase := .committed result }
  db : s'.db = s.db.commit tx result.thresholdReached

namespace Commits

variable {result : IncrementResult}

theorem tally (h : Commits s t tx result s') (f : Tx → ℕ) :
    s'.tally f + f tx = s.tally f + f { tx with phase := .committed result } :=
  tally_set f h.pos h.txs

theorem begun (h : Commits s t tx result s') : tx.phase ≠ .begun := by
  intro hp
  have hlock := h.lock
  simp [Tx.holdsLock, hp] at hlock

theorem seen (h : Commits s t tx result s') (hinv : Inv threshold tx.txid s) :
    tx.ownsCounter = true ∨ s.db.seenCounters tx.txid ≠ none :=
  (hinv.tx tx (List.mem_of_getElem? h.pos) rfl).seen (active_of_holdsLock h.lock) h.begun

theorem counter_eq_none (h : Commits s t tx result s') (hinv : Inv threshold tx.txid s)
    (howns : tx.ownsCounter = true) : s.db.seenCounters tx.txid = none :=
  hinv.counter_eq_none (List.mem_of_getElem? h.pos) rfl (active_of_holdsLock h.lock) howns

theorem counter (h : Commits s t tx result s') : s'.db.seenCounters tx.txid =
    if tx.ownsCounter ∨ result.thresholdReached then some result.thresholdReached
    else s.db.seenCounters tx.txid := by
  rw [h.db, seenCounters_commit]
  simp

theorem counter_eq_true (h : Commits s t tx result s') (hinv : Inv threshold tx.txid s)
    (htrue : s.db.seenCounters tx.txid = some true) : s'.db.seenCounters tx.txid = some true := by
  have hnot : tx.ownsCounter = false := by
    by_contra howns
    rw [h.counter_eq_none hinv (Bool.eq_true_of_not_eq_false howns)] at htrue
    cases htrue
  rw [h.counter]
  split_ifs with hwrites
  · have hreached : result.thresholdReached = true := by simpa [hnot] using hwrites
    rw [hreached]
  · exact htrue

theorem owners (h : Commits s t tx result s') (hinv : Inv threshold tx.txid s) :
    s'.tally (Tx.owner tx.txid) + (s'.db.seenCounters tx.txid).isSome.toNat ≤ 1 := by
  have hsum := h.tally (Tx.owner tx.txid)
  have howners := hinv.owners
  have hle := Bool.toNat_le (s'.db.seenCounters tx.txid).isSome
  have hended : Tx.owner tx.txid { tx with phase := .committed result } = 0 := by
    simp [Tx.owner, Tx.active]
  rcases h.seen hinv with howns | hne
  · have hone : tx.owner tx.txid = 1 := by simp [Tx.owner, active_of_holdsLock h.lock, howns]
    omega
  · obtain ⟨f, hf⟩ := Option.ne_none_iff_exists'.1 hne
    simp only [hf, Option.isSome_some, Bool.toNat_true] at howners
    omega

theorem holders (h : Commits s t tx result s') (hinv : Inv threshold tx.txid s) :
    s'.tally (Tx.holder tx.txid) ≤ 1 := by
  have hsum := h.tally (Tx.holder tx.txid)
  have hholders := hinv.holders
  have hended : Tx.holder tx.txid { tx with phase := .committed result } = 0 := by
    simp [Tx.holder, Tx.holdsLock]
  omega

theorem lock_free (h : Commits s t tx result s') (hinv : Inv threshold tx.txid s) {k : ℕ} {x : Tx}
    (hk : s.txs[k]? = some x) (hne : t ≠ k) (hid : x.txid = tx.txid) : x.holdsLock = false := by
  by_contra hheld
  have hsum := List.add_le_sum_map (Tx.holder tx.txid) hne h.pos hk
  have hholders := hinv.holders
  unfold State.tally at hholders
  simp only [Tx.holder, h.lock, hid, Bool.eq_true_of_not_eq_false hheld, and_self,
    ↓reduceIte] at hsum hholders
  omega

theorem txInv (h : Commits s t tx result s') (hinv : Inv threshold tx.txid s) :
    ∀ x ∈ s'.txs, x.txid = tx.txid → TxInv (s'.db.seenCounters tx.txid) x := by
  intro x hx hid
  obtain ⟨k, hk⟩ := List.mem_iff_getElem?.1 hx
  rw [h.txs, List.getElem?_set] at hk
  split_ifs at hk with htk
  · obtain rfl := Option.some.inj hk
    constructor <;> simp [Tx.active]
  · -- what the others have read under the lock does not matter, since they do not hold it
    have hfree := h.lock_free hinv hk htk hid
    have hx := hinv.tx x (List.mem_of_getElem? hk) hid
    refine ⟨hx.begun, hx.inserting, fun hactive hbegun => ?_, fun c f hp => ?_, fun c hp => ?_⟩
    · refine (hx.seen hactive hbegun).imp_right fun hne => ?_
      rw [h.counter]
      split_ifs
      · simp
      · exact hne
    · simp [Tx.holdsLock, hp] at hfree
    · simp [Tx.holdsLock, hp] at hfree

theorem once (h : Commits s t tx result s') (hinv : Inv threshold tx.txid s)
    (hfired : result.thresholdReached = true → s.db.seenCounters tx.txid ≠ some true) :
    s'.fires tx.txid = if s'.db.seenCounters tx.txid = some true then 1 else 0 := by
  have hsum := h.tally (Tx.reached tx.txid)
  have honce := hinv.once
  have hnot : tx.reached tx.txid = 0 := by
    have hlock := h.lock
    unfold Tx.holdsLock at hlock
    unfold Tx.reached
    split <;> simp_all
  have hnew : Tx.reached tx.txid { tx with phase := .committed result } =
      result.thresholdReached.toNat := by
    cases hr : result.thresholdReached <;> simp [Tx.reached, hr]
  unfold State.fires at honce ⊢
  rw [hnot, hnew, honce] at hsum
  rw [h.counter]
  cases hr : result.thresholdReached with
  | true => simpa [hr, hfired hr] using hsum
  | false =>
    cases howns : tx.ownsCounter with
    | true => simpa [hr, h.counter_eq_none hinv howns] using hsum
    | false => simpa [hr] using hsum

theorem rows (h : Commits s t tx result s') : s'.rows tx.txid = s.rows tx.txid := by
  have hsum := h.tally (Tx.pending tx.txid)
  have hended : Tx.pending tx.txid { tx with phase := .committed result } = 0 := by
    simp [Tx.pending, Tx.active]
  have hold : tx.pending tx.txid = if tx.txid = tx.txid ∧ tx.ownsSubtree then 1 else 0 := by
    simp [Tx.pending, active_of_holdsLock h.lock]
  unfold State.rows
  rw [h.db, subtrees_commit]
  omega

theorem reach (h : Commits s t tx result s') (hinv : Inv threshold tx.txid s)
    (hmissed : result.thresholdReached = false → tx.counts threshold = true →
      s.db.seenCounters tx.txid = some true) :
    s'.db.seenCounters tx.txid = some true ∨
      s'.rows tx.txid < threshold + s'.tally (Tx.hopeful threshold tx.txid) := by
  by_cases htrue : s.db.seenCounters tx.txid = some true
  · exact Or.inl (h.counter_eq_true hinv htrue)
  cases hr : result.thresholdReached with
  | true =>
    left
    rw [h.counter, hr]
    simp
  | false =>
    -- a transaction that has counted enough fires, or finds the flag set
    right
    have hcounts : tx.counts threshold = false := by
      by_contra hcounts
      exact htrue (hmissed hr (Bool.eq_true_of_not_eq_false hcounts))
    have hzero : tx.hopeful threshold tx.txid = 0 := by simp [Tx.hopeful, hcounts]
    have hsum := h.tally (Tx.hopeful threshold tx.txid)
    have hlt := hinv.reach.resolve_left htrue
    rw [h.rows]
    omega

/-- **The commit.** -/
theorem inv (h : Commits s t tx result s') (hinv : Inv threshold tx.txid s)
    (hfired : result.thresholdReached = true → s.db.seenCounters tx.txid ≠ some true)
    (hmissed : result.thresholdReached = false → tx.counts threshold = true →
      s.db.seenCounters tx.txid = some true) : Inv threshold tx.txid s' where
  owners := h.owners hinv
  holders := h.holders hinv
  tx := h.txInv hinv
  once := h.once hinv hfired
  reach := h.reach hinv hmissed

end Commits

/-! ### Runs -/

theorem tally_eq_zero {f : Tx → ℕ} (h : ∀ x ∈ s.txs, f x = 0) : s.tally f = 0 := by
  refine List.sum_eq_zero ?_
  intro n hn
  obtain ⟨x, hx, rfl⟩ := List.mem_map.1 hn
  exact h x hx

theorem Inv.insertCounter (h : Inv threshold tx.txid s) (htx : s.txs[t]? = some tx)
    (hp : tx.phase = .begun)
    (hfree : ∀ other ∈ s.txs, other.txid = tx.txid → other.active → other.ownsCounter = false)
    (hs' : s'.txs = s.txs.set t
      { tx with phase := .inserting, ownsCounter := (s.db.seenCounters tx.txid).isNone })
    (hdb : s'.db = s.db) : Inv threshold tx.txid s' := by
  have hno : tx.ownsSubtree = false :=
    (h.tx tx (List.mem_of_getElem? htx) rfl).inserting (Or.inl hp)
  refine h.quiet htx hs' hdb ?_ ?_ ?_ ?_ ?_
  · cases hc : s.db.seenCounters tx.txid with
    | none =>
      refine Or.inr ⟨tally_eq_zero fun x hx => ?_, rfl, ?_⟩
      · refine if_neg ?_
        rintro ⟨hid, hactive, howns⟩
        rw [hfree x hx hid hactive] at howns
        cases howns
      · unfold Tx.owner
        split_ifs <;> simp
    | some f => exact Or.inl (by simp [Tx.owner])
  · exact Or.inl (by simp [Tx.holder, Tx.holdsLock])
  · intro _
    refine ⟨by simp, fun _ => hno, fun _ _ => ?_, by simp, by simp⟩
    cases hc : s.db.seenCounters tx.txid with
    | none => exact Or.inl rfl
    | some f => exact Or.inr (by simp)
  · simp [Tx.reached, hp]
  · exact Or.inl (by simp [Tx.pending, Tx.hopeful, hno])

/-- The insert into `seen_counter_subtrees`: the new row is one of a transaction that is still to
count. -/
theorem Inv.insertSubtree (h : Inv threshold tx.txid s) (htx : s.txs[t]? = some tx)
    (hp : tx.phase = .inserting) {owns : Bool}
    (hs' : s'.txs = s.txs.set t { tx with phase := .counting, ownsSubtree := owns })
    (hdb : s'.db = s.db) : Inv threshold tx.txid s' := by
  have hinv := h.tx tx (List.mem_of_getElem? htx) rfl
  have hno : tx.ownsSubtree = false := hinv.inserting (Or.inr hp)
  refine h.quiet htx hs' hdb ?_ ?_ ?_ ?_ ?_
  · exact Or.inl (by simp [Tx.owner, Tx.active, hp])
  · exact Or.inl (by simp [Tx.holder, Tx.holdsLock])
  · exact fun _ => ⟨by simp, by simp, fun _ _ => hinv.seen (by simp [Tx.active, hp]) (by simp [hp]),
      by simp, by simp⟩
  · simp [Tx.reached, hp]
  · exact Or.inl (by simp [Tx.pending, Tx.hopeful, Tx.active, Tx.counts, hno])

/-- The `SELECT COUNT(*)`: a transaction misses the threshold only when the rows are too few. -/
theorem Inv.count (h : Inv threshold tx.txid s) (htx : s.txs[t]? = some tx)
    (hp : tx.phase = .counting)
    (hs' : s'.txs = s.txs.set t { tx with phase := .locking (s.db.count tx) }) (hdb : s'.db = s.db)
    (hok : tx.ownsSubtree = true → s.db.count tx < threshold → s.rows tx.txid < threshold) :
    Inv threshold tx.txid s' := by
  have hinv := h.tx tx (List.mem_of_getElem? htx) rfl
  refine h.quiet htx hs' hdb ?_ ?_ ?_ ?_ ?_
  · exact Or.inl (by simp [Tx.owner, Tx.active, hp])
  · exact Or.inl (by simp [Tx.holder, Tx.holdsLock])
  · exact fun _ => ⟨by simp, by simp, fun _ _ => hinv.seen (by simp [Tx.active, hp]) (by simp [hp]),
      by simp, by simp⟩
  · simp [Tx.reached, hp]
  · cases howns : tx.ownsSubtree with
    | false => exact Or.inl (by simp [Tx.pending, Tx.hopeful, howns])
    | true =>
      by_cases hlt : s.db.count tx < threshold
      · exact Or.inr ⟨by simp [Tx.pending, Tx.active, hp, howns], hok howns hlt⟩
      · exact Or.inl (by simp [Tx.pending, Tx.hopeful, Tx.active, Tx.counts, hp, howns,
          not_lt.1 hlt])

theorem Inv.lock (h : Inv threshold tx.txid s) (htx : s.txs[t]? = some tx) {count : ℕ}
    {fired : Bool} (hp : tx.phase = .locking count)
    (hfree : ∀ other ∈ s.txs, other.txid = tx.txid → other.holdsLock = false)
    (hread : (if tx.ownsCounter then some false else s.db.seenCounters tx.txid) = some fired)
    (hs' : s'.txs = s.txs.set t { tx with phase := .locked count fired }) (hdb : s'.db = s.db) :
    Inv threshold tx.txid s' := by
  have hmem := List.mem_of_getElem? htx
  have hinv := h.tx tx hmem rfl
  refine h.quiet htx hs' hdb ?_ ?_ ?_ ?_ ?_
  · exact Or.inl (by simp [Tx.owner, Tx.active, hp])
  · refine Or.inr ⟨tally_eq_zero fun x hx => ?_, ?_⟩
    · refine if_neg ?_
      rintro ⟨hid, hheld⟩
      rw [hfree x hx hid] at hheld
      cases hheld
    · unfold Tx.holder
      split_ifs <;> simp
  · intro _
    refine ⟨by simp, by simp, fun _ _ => hinv.seen (by simp [Tx.active, hp]) (by simp [hp]), ?_,
      by simp⟩
    intro c f hp'
    obtain ⟨rfl, rfl⟩ := Phase.locked.inj hp'
    split_ifs at hread with howns
    · rw [h.counter_eq_none hmem rfl (by simp [Tx.active, hp]) howns]
      simpa using hread.symm
    · rw [hread]
      simp
  · simp [Tx.reached, hp]
  · exact Or.inl (by simp [Tx.pending, Tx.hopeful, Tx.active, Tx.counts, hp])

theorem Inv.update (h : Inv threshold tx.txid s) (htx : s.txs[t]? = some tx) {count : ℕ}
    (hp : tx.phase = .locked count false) (hle : threshold ≤ count)
    (hs' : s'.txs = s.txs.set t { tx with phase := .updated count }) (hdb : s'.db = s.db) :
    Inv threshold tx.txid s' := by
  have hinv := h.tx tx (List.mem_of_getElem? htx) rfl
  refine h.quiet htx hs' hdb ?_ ?_ ?_ ?_ ?_
  · exact Or.inl (by simp [Tx.owner, Tx.active, hp])
  · exact Or.inl (by simp [Tx.holder, Tx.holdsLock, hp])
  · intro _
    refine ⟨by simp, by simp, fun _ _ => hinv.seen (by simp [Tx.active, hp]) (by simp [hp]),
      by simp, fun _ _ => ?_⟩
    simpa using (hinv.locked _ _ hp).symm
  · simp [Tx.reached, hp]
  · exact Or.inl (by simp [Tx.pending, Tx.hopeful, Tx.active, Tx.counts, hp, hle])

theorem Inv.rollback (h : Inv threshold tx.txid s) (htx : s.txs[t]? = some tx)
    (hactive : tx.active = true) (hs' : s'.txs = s.txs.set t { tx with phase := .rolledBack })
    (hdb : s'.db = s.db) : Inv threshold tx.txid s' := by
  refine h.quiet htx hs' hdb ?_ ?_ ?_ ?_ ?_
  · exact Or.inl (by simp [Tx.owner, Tx.active])
  · exact Or.inl (by simp [Tx.holder, Tx.holdsLock])
  · exact fun _ => ⟨by simp, by simp, by simp [Tx.active], by simp, by simp⟩
  · unfold Tx.active at hactive
    unfold Tx.reached
    split at hactive <;> simp_all
  · -- a row goes, and with it at most one hope
    left
    have hle : tx.hopeful threshold tx.txid ≤ tx.pending tx.txid := by
      unfold Tx.hopeful Tx.pending
      split_ifs with hh hp <;> simp_all
    simpa [Tx.pending, Tx.hopeful, Tx.active, Tx.counts] using hle

theorem Inv.move {l : Label} (h : Inv threshold tx.txid s) (htx : s.txs[t]? = some tx)
    (hmover : l.mover = some t) (hs' : s'.txs = s.txs.set t tx')
    (hmove : Move threshold l s tx s'.db tx') (hok : CountsAll threshold s l) :
    Inv threshold tx.txid s' := by
  have hinv := h.tx tx (List.mem_of_getElem? htx) rfl
  generalize hdb : s'.db = db at hmove
  cases hmove with
  | insertCounter hp hfree => exact h.insertCounter htx hp hfree hs' hdb
  | insertSubtree hp => exact h.insertSubtree htx hp hs' hdb
  | count k hl hp =>
    obtain rfl : k = t := by simpa [hl, Label.mover] using hmover
    rw [hl] at hok
    exact h.count htx hp hs' hdb (hok tx htx)
  | lock hp hfree hread => exact h.lock htx hp hfree hread hs' hdb
  | update hp hfired hle =>
    subst hfired
    exact h.update htx hp hle hs' hdb
  | @commit count fired hp hnot =>
    have hcommits : Commits s t tx ⟨count, false⟩ s' := ⟨htx, by simp [Tx.holdsLock, hp], hs', hdb⟩
    refine hcommits.inv h (by simp) ?_
    intro _ hcounts
    have hle : threshold ≤ count := by simpa [Tx.counts, hp] using hcounts
    have hfired : fired = true := by
      by_contra hf
      exact hnot ⟨Bool.eq_false_iff.2 hf, hle⟩
    simpa [hfired] using hinv.locked _ _ hp
  | @commitUpdate count hp =>
    have hcommits : Commits s t tx ⟨count, true⟩ s' := ⟨htx, by simp [Tx.holdsLock, hp], hs', hdb⟩
    exact hcommits.inv h (fun _ => hinv.updated _ hp) (by simp)
  | rollback hactive => exact h.rollback htx hactive hs' hdb

/-- **The invariant is kept.** -/
theorem inv_step {l : Label} (h : Inv threshold txid s) (hok : CountsAll threshold s l)
    (hst : step threshold s l = some s') : Inv threshold txid s' := by
  obtain ⟨txid', subtreeID, hdb, hs'⟩ | ⟨t, tx, tx', hmover, htx, hs', hmove⟩ := step_cases hst
  · exact h.begin hdb hs'
  · by_cases hid : tx.txid = txid
    · subst hid
      exact h.move htx hmover hs' hmove hok
    · obtain ⟨hcounter, hsubtrees⟩ := hmove.db_other hid
      exact h.other htx hs' hmove.txid hid hcounter hsubtrees

/-- **The threshold fires once.**  In a run in which every transaction that has inserted its subtree
and counts fewer subtrees than the threshold does so while the rows of the txid, committed or not,
are fewer: when all transactions have ended and the txid has as many different subtrees as the
threshold says, exactly one call has returned `ThresholdReached: true`. -/
theorem threshold_fires_once (hthreshold : 1 ≤ threshold)
    (h : (machine threshold).Run (CountsAll threshold) init s)
    (hended : ∀ tx ∈ s.txs, tx.active = false) (txid : String)
    (hsubtrees : threshold ≤
      ((s.db.seenCounterSubtrees.filter fun row => row.1 = txid).map Prod.snd).dedup.length) :
    s.fires txid = 1 := by
  have hinv : Inv threshold txid s := h.invariant (inv_init hthreshold txid) fun _ _ _ hs hok hst =>
    inv_step hs hok hst
  have hle : threshold ≤ s.db.subtrees txid := by
    refine hsubtrees.trans ?_
    have hdedup := (List.dedup_sublist
      ((s.db.seenCounterSubtrees.filter fun row => row.1 = txid).map Prod.snd)).length_le
    rwa [List.length_map] at hdedup
  have hhopeful : s.tally (Tx.hopeful threshold txid) = 0 := by
    refine tally_eq_zero fun tx htx => if_neg ?_
    rintro ⟨-, -, hcounts⟩
    have hactive := hended tx htx
    unfold Tx.active at hactive
    unfold Tx.counts at hcounts
    split at hactive <;> simp_all
  have htrue : s.db.seenCounters txid = some true := by
    refine hinv.reach.resolve_right ?_
    rw [hhopeful]
    unfold State.rows
    omega
  rw [hinv.once, if_pos htrue]

/-! ### The first transaction of a txid -/

/-- The transaction that inserts the row of the txid is the first to commit a subtree. -/
structure First (txid : String) (s : State) : Prop where
  absent : s.db.seenCounters txid = none → s.db.subtrees txid = 0
  present : s.db.seenCounters txid ≠ none → 1 ≤ s.db.subtrees txid
  owner : ∀ tx ∈ s.txs, tx.txid = txid → tx.active = true → tx.ownsCounter = true →
    tx.phase ≠ .inserting → tx.ownsSubtree = true

theorem first_init (txid : String) : First txid init :=
  ⟨fun _ => rfl, fun h => absurd rfl h, by simp [init]⟩

theorem First.set (h : First txid s) (hs' : s'.txs = s.txs.set t tx')
    (hcounter : s'.db.seenCounters txid = s.db.seenCounters txid)
    (hsubtrees : s'.db.subtrees txid = s.db.subtrees txid)
    (htx' : tx'.txid = txid → tx'.active = true → tx'.ownsCounter = true → tx'.phase ≠ .inserting →
      tx'.ownsSubtree = true) : First txid s' := by
  refine ⟨?_, ?_, ?_⟩
  · rw [hcounter, hsubtrees]
    exact h.absent
  · rw [hcounter, hsubtrees]
    exact h.present
  · intro x hx hid
    rw [hs'] at hx
    rcases List.mem_or_eq_of_mem_set hx with hx | rfl
    · exact h.owner x hx hid
    · exact htx' hid

theorem First.commit {result : IncrementResult} (h : First tx.txid s)
    (hinv : Inv threshold tx.txid s) (hcommits : Commits s t tx result s') : First tx.txid s' := by
  have hmem := List.mem_of_getElem? hcommits.pos
  have hinserting : tx.phase ≠ .inserting := by
    intro hp
    have hlock := hcommits.lock
    simp [Tx.holdsLock, hp] at hlock
  -- a subtree is committed now, if there was none before
  have hpos : 1 ≤ s'.db.subtrees tx.txid := by
    rw [hcommits.db, subtrees_commit]
    rcases hcommits.seen hinv with howns | hne
    · have hactive := active_of_holdsLock hcommits.lock
      rw [if_pos ⟨rfl, h.owner tx hmem rfl hactive howns hinserting⟩]
      omega
    · have hle := h.present hne
      omega
  have hne : s'.db.seenCounters tx.txid ≠ none := by
    rw [hcommits.counter]
    split_ifs with hwrites
    · simp
    · refine (hcommits.seen hinv).resolve_left ?_
      intro howns
      exact hwrites (Or.inl howns)
  refine ⟨fun hnone => absurd hnone hne, fun _ => hpos, ?_⟩
  intro x hx hid hactive
  rw [hcommits.txs] at hx
  rcases List.mem_or_eq_of_mem_set hx with hx | rfl
  · exact h.owner x hx hid hactive
  · simp [Tx.active] at hactive

theorem First.move {l : Label} (h : First tx.txid s) (hinv : Inv threshold tx.txid s)
    (htx : s.txs[t]? = some tx) (hs' : s'.txs = s.txs.set t tx')
    (hmove : Move threshold l s tx s'.db tx') : First tx.txid s' := by
  have hmem := List.mem_of_getElem? htx
  generalize hdb : s'.db = db at hmove
  cases hmove with
  | insertCounter => exact h.set hs' (by rw [hdb]) (by rw [hdb]) fun _ _ _ hne => absurd rfl hne
  | insertSubtree hp howns =>
    refine h.set hs' (by rw [hdb]) (by rw [hdb]) fun _ _ howner _ => ?_
    -- there is no subtree yet, and so not this one
    have hzero := h.absent (hinv.counter_eq_none hmem rfl (by simp [Tx.active, hp]) howner)
    have hnot : (tx.txid, tx.subtreeID) ∉ s.db.seenCounterSubtrees := by
      intro hrow
      have hfilter := List.length_eq_zero_iff.1 hzero
      have hin : (tx.txid, tx.subtreeID) ∈
          s.db.seenCounterSubtrees.filter fun row => row.1 = tx.txid :=
        List.mem_filter.2 ⟨hrow, by simp⟩
      rw [hfilter] at hin
      cases hin
    simp [howns, hnot]
  | count t' _ hp =>
    refine h.set hs' (by rw [hdb]) (by rw [hdb]) fun _ _ howns _ => ?_
    exact h.owner tx hmem rfl (by simp [Tx.active, hp]) howns (by simp [hp])
  | lock hp =>
    refine h.set hs' (by rw [hdb]) (by rw [hdb]) fun _ _ howns _ => ?_
    exact h.owner tx hmem rfl (by simp [Tx.active, hp]) howns (by simp [hp])
  | update hp =>
    refine h.set hs' (by rw [hdb]) (by rw [hdb]) fun _ _ howns _ => ?_
    exact h.owner tx hmem rfl (by simp [Tx.active, hp]) howns (by simp [hp])
  | @commit count _ hp =>
    have hcommits : Commits s t tx ⟨count, false⟩ s' := ⟨htx, by simp [Tx.holdsLock, hp], hs', hdb⟩
    exact h.commit hinv hcommits
  | @commitUpdate count hp =>
    have hcommits : Commits s t tx ⟨count, true⟩ s' := ⟨htx, by simp [Tx.holdsLock, hp], hs', hdb⟩
    exact h.commit hinv hcommits
  | rollback => exact h.set hs' (by rw [hdb]) (by rw [hdb]) (by simp [Tx.active])

theorem first_step {l : Label} (h : First txid s) (hinv : Inv threshold txid s)
    (hst : step threshold s l = some s') : First txid s' := by
  obtain ⟨txid', subtreeID, hdb, hs'⟩ | ⟨t, tx, tx', -, htx, hs', hmove⟩ := step_cases hst
  · refine ⟨hdb ▸ h.absent, hdb ▸ h.present, ?_⟩
    intro x hx hid hactive howns hp
    rw [hs'] at hx
    rcases List.mem_append.1 hx with hx | hx
    · exact h.owner x hx hid hactive howns hp
    · obtain rfl := List.mem_singleton.1 hx
      cases howns
  · by_cases hid : tx.txid = txid
    · subst hid
      exact h.move hinv htx hs' hmove
    · obtain ⟨hcounter, hsubtrees⟩ := hmove.db_other hid
      refine h.set hs' hcounter hsubtrees fun hid' => ?_
      exact absurd (hmove.txid.symm.trans hid') hid

/-- While no subtree is committed, only the transaction that has inserted the row of the txid can
have one. -/
theorem First.rows_le (h : First txid s) (hinv : Inv threshold txid s)
    (hzero : s.db.subtrees txid = 0) : s.rows txid ≤ 1 := by
  have hnone : s.db.seenCounters txid = none := by
    by_contra hne
    have hpos := h.present hne
    omega
  have hle : s.tally (Tx.pending txid) ≤ s.tally (Tx.owner txid) := by
    refine List.sum_le_sum ?_
    intro x hx
    unfold Tx.pending Tx.owner
    split_ifs with hp ho
    · exact le_rfl
    · obtain ⟨hid, hactive, howns⟩ := hp
      have htx := hinv.tx x hx hid
      have hbegun : x.phase ≠ .begun := by
        intro hp
        rw [htx.inserting (Or.inl hp)] at howns
        cases howns
      have hcounter := (htx.seen hactive hbegun).resolve_right (not_not_intro hnone)
      exact absurd ⟨hid, hactive, hcounter⟩ ho
    · exact Nat.zero_le _
    · exact le_rfl
  have howners := hinv.owners
  unfold State.rows
  omega

/-- At a threshold of one or two the condition always holds. -/
theorem countsAll_of_le_two (hthreshold : 1 ≤ threshold) (htwo : threshold ≤ 2)
    (h : (machine threshold).Reachable init s) :
    (machine threshold).Run (CountsAll threshold) init s := by
  -- the condition follows from the invariants, which are kept under the condition
  have hinv : (machine threshold).Run (CountsAll threshold) init s ∧
      ∀ txid, Inv threshold txid s ∧ First txid s := by
    refine LTS.Run.invariant (I := fun s => (machine threshold).Run (CountsAll threshold) init s ∧
      ∀ txid, Inv threshold txid s ∧ First txid s) h
      ⟨.start, fun txid => ⟨inv_init hthreshold txid, first_init txid⟩⟩ ?_
    rintro s l s' ⟨hrun, hs⟩ - hst
    have hok : CountsAll threshold s l := by
      cases l with
      | count t =>
        intro tx htx howns hlt
        obtain ⟨hinv, hfirst⟩ := hs tx.txid
        have hcount : s.db.count tx = s.db.subtrees tx.txid + 1 := by simp [Tables.count, howns]
        have hle := hfirst.rows_le hinv (by omega)
        omega
      | _ => trivial
    refine ⟨hrun.next hok hst, fun txid => ?_⟩
    obtain ⟨hinv, hfirst⟩ := hs txid
    exact ⟨inv_step hinv hok hst, first_step hfirst hinv hst⟩
  exact hinv.1

/-! ### Two runs -/

/-- Two calls count the first subtree and their own at the same time, and both reach the threshold;
the one that locks the row later finds that the other has fired. -/
theorem threshold_fires_once_overlapping :
    ∃ s, (machine 2).Run (CountsAll 2) init s ∧ s.fires "tx" = 1 ∧
      s.db.seenCounterSubtrees.length = 3 := by
  have h₁ : (machine 2).Reachable init _ := LTS.Run.start.next (l := .begin "tx" "s0") trivial rfl
  have h₂ := h₁.next (l := .insertCounter 0) trivial rfl
  have h₃ := h₂.next (l := .begin "tx" "s1") trivial rfl
  have h₄ := h₃.next (l := .begin "tx" "s2") trivial rfl
  have h₅ := h₄.next (l := .insertSubtree 0) trivial rfl
  have h₆ := h₅.next (l := .count 0) trivial rfl
  have h₇ := h₆.next (l := .lock 0) trivial rfl
  have h₈ := h₇.next (l := .commit 0) trivial rfl
  have h₉ := h₈.next (l := .insertCounter 1) trivial rfl
  have h₁₀ := h₉.next (l := .insertCounter 2) trivial rfl
  have h₁₁ := h₁₀.next (l := .insertSubtree 1) trivial rfl
  have h₁₂ := h₁₁.next (l := .insertSubtree 2) trivial rfl
  have h₁₃ := h₁₂.next (l := .count 1) trivial rfl
  have h₁₄ := h₁₃.next (l := .count 2) trivial rfl
  have h₁₅ := h₁₄.next (l := .lock 2) trivial rfl
  have h₁₆ := h₁₅.next (l := .update 2) trivial rfl
  have h₁₇ := h₁₆.next (l := .commit 2) trivial rfl
  have h₁₈ := h₁₇.next (l := .lock 1) trivial rfl
  have h₁₉ := h₁₈.next (l := .commit 1) trivial rfl
  have hrun := countsAll_of_le_two (by decide) le_rfl h₁₉
  exact ⟨_, hrun, threshold_fires_once (by decide) hrun (by decide) "tx" (by decide), by decide⟩

/-- Two calls count before the other one has committed, and both count two subtrees of three. -/
theorem threshold_never_fires :
    ¬ ∀ threshold s, 1 ≤ threshold → (machine threshold).Reachable init s →
      (∀ tx ∈ s.txs, ∃ result, tx.phase = .committed result) → ∀ txid, threshold ≤
        ((s.db.seenCounterSubtrees.filter fun row => row.1 = txid).map Prod.snd).dedup.length →
      s.fires txid = 1 := by
  intro hall
  have h₁ : (machine 3).Reachable init _ := LTS.Run.start.next (l := .begin "tx" "s0") trivial rfl
  have h₂ := h₁.next (l := .insertCounter 0) trivial rfl
  have h₃ := h₂.next (l := .insertSubtree 0) trivial rfl
  have h₄ := h₃.next (l := .count 0) trivial rfl
  have h₅ := h₄.next (l := .lock 0) trivial rfl
  have h₆ := h₅.next (l := .commit 0) trivial rfl
  have h₇ := h₆.next (l := .begin "tx" "s1") trivial rfl
  have h₈ := h₇.next (l := .begin "tx" "s2") trivial rfl
  have h₉ := h₈.next (l := .insertCounter 1) trivial rfl
  have h₁₀ := h₉.next (l := .insertCounter 2) trivial rfl
  have h₁₁ := h₁₀.next (l := .insertSubtree 1) trivial rfl
  have h₁₂ := h₁₁.next (l := .insertSubtree 2) trivial rfl
  have h₁₃ := h₁₂.next (l := .count 1) trivial rfl
  have h₁₄ := h₁₃.next (l := .count 2) trivial rfl
  have h₁₅ := h₁₄.next (l := .lock 1) trivial rfl
  have h₁₆ := h₁₅.next (l := .commit 1) trivial rfl
  have h₁₇ := h₁₆.next (l := .lock 2) trivial rfl
  have h₁₈ := h₁₇.next (l := .commit 2) trivial rfl
  refine absurd (hall 3 _ (by decide) h₁₈ ?_ "tx" (by decide)) (by decide)
  intro tx htx
  fin_cases htx <;> exact ⟨_, rfl⟩

end SqlSeenCounter

end MerkleService
