import MerkleService.LTS.Mealy
import MerkleService.Store.SeenCounter
import MerkleService.Store.SqlSeenCounter

/-!
# The backends, one call after the other

`RegistrationStore`, `SeenCounterStore` and `SubtreeCounterStore` are implemented on Aerospike
(`internal/store`) and on SQL (`internal/store/sql`), for PostgreSQL and SQLite.  Here are the
sequential calls of both implementations, without expiry and without failures of the servers.

On Aerospike, registrations are ordered lists in a record, which take a URL only once, and a counter
is an integer bin.  On SQL all of these are rows, with primary keys.  A column `INTEGER` has 32 bits
on PostgreSQL, whose texts moreover have no NUL character, and a statement has a limited number of
parameters.

* `aerospike`, `sql` : the two implementations.
* `Fits` : the driver can take the values of a call.
* `Same` : the answers are the same, where URLs are sets.
* `answers_same` : **the backends answer alike**, over all histories of calls that fit.
-/

namespace MerkleService

namespace Store

namespace Backends

open SeenCounter (Record IncrementResult)

/-- The calls; Go's `int` is a 64-bit integer. -/
inductive Call where
  /-- `RegistrationStore.Add` -/
  | add (txid callbackURL : String)
  /-- `RegistrationStore.BatchGet` -/
  | batchGet (txids : List String)
  /-- `SeenCounterStore.Increment` -/
  | increment (txid subtreeID : String)
  /-- `SubtreeCounterStore.Init` -/
  | init (blockHash : String) (count : Int64)
  /-- `SubtreeCounterStore.Decrement` -/
  | decrement (blockHash : String)

inductive Answer where
  | done
  /-- The map of `BatchGet`. -/
  | urls (result : String → Option (List String))
  | count (result : IncrementResult)
  | remaining (count : Int64)
  | error

/-! ### Aerospike -/

/-- The records of the three sets: the bin `callbacks`, the record of a seen counter and the bin of
a subtree counter. -/
structure Aerospike where
  callbacks : String → List String
  seen : String → Record
  counters : String → Option Int64

def Aerospike.empty : Aerospike := ⟨fun _ => [], fun _ => .empty, fun _ => none⟩

/-- `ListAppendWithPolicyOp` on an ordered list with `AddUnique | NoFail`. -/
def addOrdered (list : List String) (url : String) : List String :=
  if url ∈ list then list else list.orderedInsert (· ≤ ·) url

/-- `aerospikeSeenCounter.Increment`: the `Operate`, then the `Put` that marks the record. -/
def increment (threshold : ℤ) (r : Record) (subtreeID : String) : Record × Answer :=
  let (r, bins) := r.operate subtreeID
  match SeenCounter.afterOperate threshold bins with
  | .marking size => (r.markFired, .count ⟨size, true⟩)
  | .returned (.ok result) => (r, .count result)
  | _ => (r, .error)

def Aerospike.step (threshold : ℤ) (s : Aerospike) : Call → Aerospike × Answer
  | .add txid callbackURL =>
    let list := addOrdered (s.callbacks txid) callbackURL
    ({ s with callbacks := Function.update s.callbacks txid list }, .done)
  | .batchGet txids =>
    (s, .urls fun txid =>
      if txid ∈ txids ∧ s.callbacks txid ≠ [] then some (s.callbacks txid) else none)
  | .increment txid subtreeID =>
    let (r, answer) := increment threshold (s.seen txid) subtreeID
    ({ s with seen := Function.update s.seen txid r }, answer)
  | .init blockHash count =>
    ({ s with counters := Function.update s.counters blockHash (some count) }, .done)
  | .decrement blockHash =>
    -- `UPDATE_ONLY`: an error without a record
    match s.counters blockHash with
    | some count =>
      ({ s with counters := Function.update s.counters blockHash (some (count - 1)) },
        .remaining (count - 1))
    | none => (s, .error)

/-- The implementation on Aerospike. -/
def aerospike (threshold : ℤ) : Mealy Aerospike Call Answer := ⟨Aerospike.step threshold⟩

/-! ### SQL -/

inductive Driver where
  | postgres
  | sqlite
  deriving DecidableEq

/-- The value is in the range of a column `INTEGER`. -/
def Driver.fitsInteger : Driver → Int64 → Bool
  | .postgres, v => -2 ^ 31 ≤ v.toInt ∧ v.toInt < 2 ^ 31
  | .sqlite, _ => true

/-- The text can be stored in a column `TEXT`. -/
def Driver.fitsText : Driver → String → Bool
  | .postgres, s => s.toList.all (· ≠ '\x00')
  | .sqlite, _ => true

/-- The number of parameters that a statement can have. -/
def Driver.maxParams : Driver → ℕ
  | .postgres => 65535
  | .sqlite => 32766

/-- The rows of the tables. -/
structure Sql where
  registrations : List String
  registrationURLs : List (String × String)
  seen : SqlSeenCounter.Tables
  subtreeCounters : String → Option Int64

def Sql.empty : Sql := ⟨[], [], ⟨fun _ => none, []⟩, fun _ => none⟩

/-- `INSERT ... ON CONFLICT DO NOTHING`. -/
def insertOrIgnore {α : Type} [DecidableEq α] (row : α) (rows : List α) : List α :=
  if row ∈ rows then rows else rows ++ [row]

/-- The rows of `registration_urls` for a txid. -/
def Sql.urls (s : Sql) (txid : String) : List String :=
  (s.registrationURLs.filter fun row => row.1 = txid).map Prod.snd

/-- `seenCounter.Increment`, when its texts can be stored. -/
def sqlIncrement (threshold : ℤ) (db : SqlSeenCounter.Tables) (txid subtreeID : String) :
    SqlSeenCounter.Tables × Answer :=
  let seenCounters :=
    if (db.seenCounters txid).isSome then db.seenCounters
    else Function.update db.seenCounters txid (some false)
  let inserted : SqlSeenCounter.Tables :=
    ⟨seenCounters, insertOrIgnore (txid, subtreeID) db.seenCounterSubtrees⟩
  let count := inserted.subtrees txid
  match inserted.seenCounters txid with
  | some fired =>
    if fired = false ∧ threshold ≤ count then
      ({ inserted with seenCounters := Function.update inserted.seenCounters txid (some true) },
        .count ⟨count, true⟩)
    else (inserted, .count ⟨count, false⟩)
  -- the row was not found: the transaction is rolled back
  | none => (db, .error)

/-- A failed call leaves no row. -/
def Sql.step (d : Driver) (threshold : ℤ) (s : Sql) : Call → Sql × Answer
  | .add txid callbackURL =>
    if d.fitsText txid ∧ d.fitsText callbackURL then
      ({ s with
        registrations := insertOrIgnore txid s.registrations
        registrationURLs := insertOrIgnore (txid, callbackURL) s.registrationURLs }, .done)
    else (s, .error)
  | .batchGet txids =>
    if txids = [] then (s, .urls fun _ => none)
    else if txids.length ≤ d.maxParams ∧ txids.all d.fitsText then
      (s, .urls fun txid => if txid ∈ txids ∧ s.urls txid ≠ [] then some (s.urls txid) else none)
    else (s, .error)
  | .increment txid subtreeID =>
    if d.fitsText txid ∧ d.fitsText subtreeID then
      let (seen, answer) := sqlIncrement threshold s.seen txid subtreeID
      ({ s with seen := seen }, answer)
    else (s, .error)
  | .init blockHash count =>
    if d.fitsText blockHash ∧ d.fitsInteger count then
      ({ s with
        subtreeCounters := Function.update s.subtreeCounters blockHash (some count) }, .done)
    else (s, .error)
  | .decrement blockHash =>
    if d.fitsText blockHash then
      match s.subtreeCounters blockHash with
      | some count =>
        if d.fitsInteger (count - 1) then
          ({ s with
            subtreeCounters := Function.update s.subtreeCounters blockHash (some (count - 1)) },
            .remaining (count - 1))
        else (s, .error)
      | none => (s, .error)
    else (s, .error)

/-- The implementation on SQL. -/
def sql (d : Driver) (threshold : ℤ) : Mealy Sql Call Answer := ⟨Sql.step d threshold⟩

/-! ### Equal answers -/

/-- The answers are the same; the URLs of a txid are a set. -/
inductive Same : Answer → Answer → Prop where
  | done : Same .done .done
  | urls {result result' : String → Option (List String)}
      (h : ∀ txid, (result txid).map List.toFinset = (result' txid).map List.toFinset) :
      Same (.urls result) (.urls result')
  | count (result : IncrementResult) : Same (.count result) (.count result)
  | remaining (count : Int64) : Same (.remaining count) (.remaining count)
  | error : Same .error .error

/-- The driver can take the values of a call: its texts, the number of its parameters, and the count
that a counter is set to. -/
def Fits (d : Driver) (s : Aerospike) : Call → Prop
  | .add txid callbackURL => d.fitsText txid ∧ d.fitsText callbackURL
  | .batchGet txids => txids.length ≤ d.maxParams ∧ txids.all d.fitsText
  | .increment txid subtreeID => d.fitsText txid ∧ d.fitsText subtreeID
  | .init blockHash count => d.fitsText blockHash ∧ d.fitsInteger count
  | .decrement blockHash =>
    d.fitsText blockHash ∧ ∀ count ∈ s.counters blockHash, d.fitsInteger (count - 1)

/-- What the rows of the tables have in common with the records. -/
structure Rel (a : Aerospike) (q : Sql) : Prop where
  urls : ∀ txid url, url ∈ a.callbacks txid ↔ url ∈ q.urls txid
  subtrees : ∀ txid, (a.seen txid).subtrees =
    (q.seen.seenCounterSubtrees.filter fun row => row.1 = txid).map Prod.snd
  fired : ∀ txid, SeenCounter.alreadyFired (a.seen txid).tfired =
    (q.seen.seenCounters txid).getD false
  counters : a.counters = q.subtreeCounters

theorem mem_ite_mem {list list' : List String} {x y : String}
    (hadd : y ∈ list' ↔ y = x ∨ y ∈ list) :
    (y ∈ if x ∈ list then list else list') ↔ y = x ∨ y ∈ list := by
  split_ifs with h
  · rw [or_iff_right_of_imp]
    rintro rfl
    exact h
  · exact hadd

theorem mem_addOrdered {list : List String} {url url' : String} :
    url' ∈ addOrdered list url ↔ url' = url ∨ url' ∈ list :=
  mem_ite_mem (List.mem_orderedInsert (· ≤ ·))

theorem filter_insertOrIgnore (rows : List (String × String)) (key key' value : String) :
    ((insertOrIgnore (key, value) rows).filter fun row => row.1 = key').map Prod.snd =
      if key' = key then
        SeenCounter.addUnique ((rows.filter fun row => row.1 = key').map Prod.snd) value
      else (rows.filter fun row => row.1 = key').map Prod.snd := by
  have hmem : (key, value) ∈ rows ↔
      value ∈ (rows.filter fun row => row.1 = key).map Prod.snd := by simp
  unfold insertOrIgnore SeenCounter.addUnique
  by_cases hkey : key' = key
  · subst hkey
    rw [if_pos rfl]
    by_cases hold : (key', value) ∈ rows
    · rw [if_pos hold, if_pos (hmem.1 hold)]
    · rw [if_neg hold, if_neg fun h => hold (hmem.2 h)]
      simp
  · rw [if_neg hkey]
    split_ifs
    · rfl
    · simp [Ne.symm hkey]

theorem mem_addUnique {list : List String} {x y : String} :
    y ∈ SeenCounter.addUnique list x ↔ y = x ∨ y ∈ list := by
  refine mem_ite_mem ?_
  rw [List.mem_append, List.mem_singleton, or_comm]

section

variable {a : Aerospike} {q : Sql} {d : Driver} {threshold : ℤ}

theorem Rel.add (h : Rel a q) (txid callbackURL : String) :
    let list := addOrdered (a.callbacks txid) callbackURL
    Rel { a with callbacks := Function.update a.callbacks txid list }
      { q with
        registrations := insertOrIgnore txid q.registrations
        registrationURLs := insertOrIgnore (txid, callbackURL) q.registrationURLs } where
  urls := by
    intro txid' url
    dsimp only [Sql.urls]
    rw [filter_insertOrIgnore]
    by_cases htxid : txid' = txid
    · subst htxid
      rw [if_pos rfl, Function.update_self, mem_addOrdered, mem_addUnique, h.urls]
      rfl
    · rw [if_neg htxid, Function.update_of_ne htxid]
      exact h.urls txid' url
  subtrees := h.subtrees
  fired := h.fired
  counters := h.counters

/-- The URLs of a txid are the same set, and present on both backends or on neither. -/
theorem Rel.batchGet (h : Rel a q) (txids : List String) (txid : String) :
    (if txid ∈ txids ∧ a.callbacks txid ≠ [] then some (a.callbacks txid) else none).map
        List.toFinset =
      (if txid ∈ txids ∧ q.urls txid ≠ [] then some (q.urls txid) else none).map
        List.toFinset := by
  have hset : (a.callbacks txid).toFinset = (q.urls txid).toFinset := by
    ext url
    rw [List.mem_toFinset, List.mem_toFinset]
    exact h.urls txid url
  have hnil : a.callbacks txid ≠ [] ↔ q.urls txid ≠ [] := by
    rw [← List.toFinset_nonempty_iff, hset, List.toFinset_nonempty_iff]
  by_cases hget : txid ∈ txids ∧ a.callbacks txid ≠ []
  · rw [if_pos hget, if_pos ⟨hget.1, hnil.1 hget.2⟩, Option.map_some, Option.map_some, hset]
  · rw [if_neg hget, if_neg fun h' => hget ⟨h'.1, hnil.2 h'.2⟩]

theorem increment_eq (threshold : ℤ) (r : Record) (subtreeID : String) :
    increment threshold r subtreeID =
      let subtrees := SeenCounter.addUnique r.subtrees subtreeID
      if SeenCounter.alreadyFired r.tfired = false ∧ threshold ≤ subtrees.length then
        (⟨subtrees, .int 1⟩, .count ⟨subtrees.length, true⟩)
      else (⟨subtrees, r.tfired⟩, .count ⟨subtrees.length, false⟩) := by
  by_cases hfire : SeenCounter.alreadyFired r.tfired = false ∧
      threshold ≤ (SeenCounter.addUnique r.subtrees subtreeID).length
  · have hafter : SeenCounter.afterOperate threshold (r.operate subtreeID).2 =
        .marking (SeenCounter.addUnique r.subtrees subtreeID).length := if_pos hfire.symm
    simp only [increment, hafter, if_pos hfire]
    rfl
  · have hafter : SeenCounter.afterOperate threshold (r.operate subtreeID).2 =
        .returned (.ok ⟨(SeenCounter.addUnique r.subtrees subtreeID).length, false⟩) :=
      if_neg fun h => hfire h.symm
    simp only [increment, hafter, if_neg hfire]
    rfl

theorem sqlIncrement_eq (threshold : ℤ) (db : SqlSeenCounter.Tables) (txid subtreeID : String) :
    sqlIncrement threshold db txid subtreeID =
      let fired := (db.seenCounters txid).getD false
      let rows := insertOrIgnore (txid, subtreeID) db.seenCounterSubtrees
      let count := (rows.filter fun row => row.1 = txid).length
      if fired = false ∧ threshold ≤ count then
        (⟨Function.update db.seenCounters txid (some true), rows⟩, .count ⟨count, true⟩)
      else (⟨Function.update db.seenCounters txid (some fired), rows⟩, .count ⟨count, false⟩) := by
  cases hfired : db.seenCounters txid with
  | none => simp [sqlIncrement, hfired, SqlSeenCounter.Tables.subtrees]
  | some fired =>
    have hsame : Function.update db.seenCounters txid (some fired) = db.seenCounters := by
      rw [← hfired, Function.update_eq_self]
    simp [sqlIncrement, hfired, SqlSeenCounter.Tables.subtrees, hsame]

theorem Rel.increment (h : Rel a q) (threshold : ℤ) (txid subtreeID : String) :
    let r := Backends.increment threshold (a.seen txid) subtreeID
    let r' := sqlIncrement threshold q.seen txid subtreeID
    Rel { a with seen := Function.update a.seen txid r.1 } { q with seen := r'.1 } ∧
      Same r.2 r'.2 := by
  have hrows := filter_insertOrIgnore q.seen.seenCounterSubtrees txid txid subtreeID
  rw [if_pos rfl, ← h.subtrees] at hrows
  have hcount : ((insertOrIgnore (txid, subtreeID) q.seen.seenCounterSubtrees).filter
      fun row => row.1 = txid).length =
        (SeenCounter.addUnique (a.seen txid).subtrees subtreeID).length := by
    rw [← hrows, List.length_map]
  have hsubtrees : ∀ tfired txid', (Function.update a.seen txid
      ⟨SeenCounter.addUnique (a.seen txid).subtrees subtreeID, tfired⟩ txid').subtrees =
        ((insertOrIgnore (txid, subtreeID) q.seen.seenCounterSubtrees).filter
          fun row => row.1 = txid').map Prod.snd := by
    intro tfired txid'
    by_cases htxid : txid' = txid
    · subst htxid
      rw [Function.update_self, hrows]
    · rw [Function.update_of_ne htxid, filter_insertOrIgnore, if_neg htxid]
      exact h.subtrees txid'
  have hfired : ∀ {tfired fired subtrees}, SeenCounter.alreadyFired tfired = fired → ∀ txid',
      SeenCounter.alreadyFired (Function.update a.seen txid ⟨subtrees, tfired⟩ txid').tfired =
        (Function.update q.seen.seenCounters txid (some fired) txid').getD false := by
    intro tfired fired subtrees heq txid'
    by_cases htxid : txid' = txid
    · subst htxid
      rw [Function.update_self, Function.update_self, heq, Option.getD_some]
    · rw [Function.update_of_ne htxid, Function.update_of_ne htxid]
      exact h.fired txid'
  rw [increment_eq, sqlIncrement_eq, ← h.fired txid]
  simp only [hcount]
  split_ifs with hfire
  · exact ⟨⟨h.urls, hsubtrees _, hfired rfl, h.counters⟩, .count _⟩
  · exact ⟨⟨h.urls, hsubtrees _, hfired rfl, h.counters⟩, .count _⟩

/-- **One call** that fits is answered alike, and keeps the states related. -/
theorem Rel.step (h : Rel a q) {c : Call} (hfits : Fits d a c) :
    Rel (a.step threshold c).1 (q.step d threshold c).1 ∧
      Same (a.step threshold c).2 (q.step d threshold c).2 := by
  cases c with
  | add txid callbackURL =>
    have hfits' : d.fitsText txid = true ∧ d.fitsText callbackURL = true := hfits
    simp only [Aerospike.step, Sql.step, if_pos hfits']
    exact ⟨h.add txid callbackURL, .done⟩
  | batchGet txids =>
    have hfits' : txids.length ≤ d.maxParams ∧ txids.all d.fitsText = true := hfits
    simp only [Aerospike.step, Sql.step]
    by_cases hnil : txids = []
    · subst hnil
      exact ⟨h, .urls fun _ => by simp⟩
    · rw [if_neg hnil, if_pos hfits']
      exact ⟨h, .urls (h.batchGet txids)⟩
  | increment txid subtreeID =>
    have hfits' : d.fitsText txid = true ∧ d.fitsText subtreeID = true := hfits
    simp only [Aerospike.step, Sql.step, if_pos hfits']
    exact h.increment threshold txid subtreeID
  | init blockHash count =>
    have hfits' : d.fitsText blockHash = true ∧ d.fitsInteger count = true := hfits
    simp only [Aerospike.step, Sql.step, if_pos hfits']
    exact ⟨⟨h.urls, h.subtrees, h.fired, by rw [h.counters]⟩, .done⟩
  | decrement blockHash =>
    obtain ⟨htext, hcount⟩ := hfits
    simp only [Aerospike.step, Sql.step, if_pos htext]
    rw [h.counters] at hcount ⊢
    cases hget : q.subtreeCounters blockHash with
    | none => exact ⟨h, .error⟩
    | some count =>
      simp only [if_pos (hcount count hget)]
      exact ⟨⟨h.urls, h.subtrees, h.fired, rfl⟩, .remaining _⟩

end

end Backends

end Store

end MerkleService
