import MerkleService.LTS.Basic
import MerkleService.Data.ExpiringTable
import MerkleService.Data.Hex
import Mathlib.Data.List.Sort

/-!
# Expiry in the SQL stores

The SQL backend (`internal/store/sql`) emulates the TTL of records with a column `expires_at` and a
sweeper, which deletes the rows whose time has passed.  A registration is a row of `registrations`,
which has the time, and rows of `registration_urls`, which have the URLs; an accumulated block is a
row of `callback_accumulator` and rows of `callback_accumulator_entries`.  The sweeper knows the
first of the two tables only, and the reads use the second one only.

An operation is one step.  It reads the clock once, and the clock of a step is any.

* `sweepTable_complete` : a sweep that neither fails nor comes to its cap deletes exactly the
  expired rows.
* `Fresh` : every read returns data of a record that is there and has not expired.
* `sweepOnce_fresh_iff` : **after a complete sweep the reads are fresh exactly if the sweep has
  found no expired registration and no expired accumulated block**.
* `expired_url_read` : a URL outlives its registration.
-/

namespace MerkleService

namespace SqlStore

/-- The configuration of the stores, and what they use of the standard library. -/
structure Config where
  /-- The `ttlSec` of the accumulator and of the counters. -/
  accumulatorTTLSec : ℤ
  counterTTLSec : ℤ
  /-- `int(ttl.Seconds())` of a duration. -/
  seconds : ℤ → ℤ
  sha256 : String → List UInt8

/-- A row of `callback_accumulator_entries`; the txids are kept as a JSON array. -/
structure Entry where
  blockHash : String
  callbackURL : String
  subtreeIndex : ℤ
  txids : List String
  stumpData : List UInt8
  deriving DecidableEq

/-- The tables, less the ones that have no TTL. -/
structure Tables where
  registrations : ExpiringTable String Unit
  registrationURLs : List (String × String)
  callbackDedup : ExpiringTable String Unit
  /-- With the column `remaining`. -/
  subtreeCounters : ExpiringTable String ℤ
  callbackAccumulator : ExpiringTable String Unit
  callbackAccumulatorEntries : List Entry

/-- `now() + N seconds`, in microseconds. -/
def intervalSeconds (now seconds : ℤ) : ℤ := now + seconds * 1000000

/-! ### Registrations -/

/-- `registrationStore.Add`. -/
def add (s : Tables) (txid callbackURL : String) : Tables :=
  { s with
    registrations := s.registrations.insertOrIgnore txid ⟨none, ()⟩
    registrationURLs := if (txid, callbackURL) ∈ s.registrationURLs then s.registrationURLs
      else s.registrationURLs ++ [(txid, callbackURL)] }

/-- The rows of `registration_urls` for a txid. -/
def urls (s : Tables) (txid : String) : List String :=
  (s.registrationURLs.filter fun row => row.1 = txid).map Prod.snd

/-- `registrationStore.Get`. -/
def get (s : Tables) (txid : String) : List String := (urls s txid).insertionSort (· ≤ ·)

/-- `registrationStore.BatchGet`, as the map it returns. -/
def batchGet (s : Tables) (txids : List String) (txid : String) : Option (List String) :=
  if txid ∈ txids ∧ urls s txid ≠ [] then some (urls s txid) else none

/-- `registrationStore.BatchUpdateTTL`. -/
def batchUpdateTTL (cfg : Config) (s : Tables) (now : ℤ) (txids : List String) (ttl : ℤ) : Tables :=
  { s with registrations :=
      s.registrations.setExpiry txids (some (intervalSeconds now (cfg.seconds ttl))) }

/-- `registrationStore.UpdateTTL`. -/
def updateTTL (cfg : Config) (s : Tables) (now : ℤ) (txid : String) (ttl : ℤ) : Tables :=
  batchUpdateTTL cfg s now [txid] ttl

/-! ### Dedup -/

def dedupKey (cfg : Config) (txid callbackURL statusType : String) : String :=
  Hex.encode (cfg.sha256 (txid ++ ":" ++ callbackURL ++ ":" ++ statusType))

/-- `callbackDedup.Exists`. -/
def dedupExists (cfg : Config) (s : Tables) (now : ℤ) (txid callbackURL statusType : String) :
    Bool :=
  match s.callbackDedup.lookup (dedupKey cfg txid callbackURL statusType) with
  | some row => row.expiresAt.all fun expiresAt => decide (now < expiresAt)
  | none => false

/-- `callbackDedup.Record`. -/
def record (cfg : Config) (s : Tables) (now : ℤ) (txid callbackURL statusType : String) (ttl : ℤ) :
    Tables :=
  { s with
    callbackDedup := s.callbackDedup.insert (dedupKey cfg txid callbackURL statusType)
      ⟨if 0 < ttl then some (intervalSeconds now (cfg.seconds ttl)) else none, ()⟩ }

/-! ### Counters -/

/-- `subtreeCounter.Init`. -/
def initCounter (cfg : Config) (s : Tables) (now : ℤ) (blockHash : String) (count : ℤ) : Tables :=
  { s with
    subtreeCounters := s.subtreeCounters.insert blockHash
      ⟨some (intervalSeconds now cfg.counterTTLSec), count⟩ }

/-- `subtreeCounter.Decrement`; an error when there is no row. -/
def decrement (s : Tables) (blockHash : String) : Option ℤ × Tables :=
  match s.subtreeCounters.lookup blockHash with
  | some row => (some (row.data - 1),
      { s with subtreeCounters :=
          s.subtreeCounters.insert blockHash { row with data := row.data - 1 } })
  | none => (none, s)

/-! ### The accumulator -/

/-- `callbackAccumulator.Append`. -/
def append (cfg : Config) (s : Tables) (now : ℤ) (entry : Entry) : Tables :=
  { s with
    callbackAccumulator := s.callbackAccumulator.insert entry.blockHash
      ⟨some (intervalSeconds now cfg.accumulatorTTLSec), ()⟩
    callbackAccumulatorEntries := s.callbackAccumulatorEntries ++ [entry] }

def entries (s : Tables) (blockHash : String) : List Entry :=
  s.callbackAccumulatorEntries.filter fun entry => entry.blockHash = blockHash

structure AccumulatedCallbackEntry where
  txids : List String
  subtreeIndex : ℤ
  stumpData : List UInt8

/-- `callbackAccumulator.ReadAndDelete`: the entries of the block by URL, or `nil`. -/
def readAndDelete (s : Tables) (blockHash : String) :
    Option (String → List AccumulatedCallbackEntry) × Tables :=
  (if entries s blockHash = [] then none
    else some fun callbackURL =>
      ((entries s blockHash).filter fun entry => entry.callbackURL = callbackURL).map
        fun entry => ⟨entry.txids, entry.subtreeIndex, entry.stumpData⟩,
    { s with
      callbackAccumulatorEntries :=
        s.callbackAccumulatorEntries.filter fun entry => entry.blockHash ≠ blockHash
      callbackAccumulator := s.callbackAccumulator.erase blockHash })

/-! ### The sweeper -/

/-- The rows of one `DELETE`. -/
def batch : ℕ := 1000

/-- The number of rows `sweepTable` has deleted, and whether it returned an error. -/
structure SweepResult where
  rows : ℕ
  failed : Bool

/-- No error, and a last batch that was not full. -/
def SweepResult.complete (r : SweepResult) : Prop := r.failed = false ∧ r.rows < 10 * batch

section

variable {α : Type}

/-- The loop of `sweepTable`, with the number of batches that are left; `fails` says which of them
fail. -/
def sweepLoop (limit : Limit String batch) (fails : ℕ → Bool) (now : ℤ) :
    ℕ → ExpiringTable String α → ExpiringTable String α × SweepResult
  | 0, t => (t, ⟨0, false⟩)
  | n + 1, t =>
    if fails n then (t, ⟨0, true⟩)
    else
      let keys := limit.pick (t.expiredKeys now)
      if keys.length < batch then (t.delete keys, ⟨keys.length, false⟩)
      else
        let (t', r) := sweepLoop limit fails now n (t.delete keys)
        (t', ⟨keys.length + r.rows, r.failed⟩)

def sweepTable (limit : Limit String batch) (fails : ℕ → Bool) (now : ℤ)
    (t : ExpiringTable String α) :
    ExpiringTable String α × SweepResult := sweepLoop limit fails now 10 t

end

/-- `ttlTables`. -/
inductive TTLTable where
  | registrations
  | callbackDedup
  | subtreeCounters
  | callbackAccumulator

/-- What a sweep depends on: the clock, the rows that the limits pick, and the batches that fail. -/
structure Sweep where
  now : ℤ
  limit : Limit String batch
  fails : TTLTable → ℕ → Bool

/-- `sweepOnce`: an error in one table does not keep it from the next. -/
def sweepOnce (s : Tables) (w : Sweep) : Tables × (TTLTable → SweepResult) :=
  let registrations := sweepTable w.limit (w.fails .registrations) w.now s.registrations
  let callbackDedup := sweepTable w.limit (w.fails .callbackDedup) w.now s.callbackDedup
  let subtreeCounters := sweepTable w.limit (w.fails .subtreeCounters) w.now s.subtreeCounters
  let callbackAccumulator :=
    sweepTable w.limit (w.fails .callbackAccumulator) w.now s.callbackAccumulator
  ({ s with
      registrations := registrations.1
      callbackDedup := callbackDedup.1
      subtreeCounters := subtreeCounters.1
      callbackAccumulator := callbackAccumulator.1 },
    fun
      | .registrations => registrations.2
      | .callbackDedup => callbackDedup.2
      | .subtreeCounters => subtreeCounters.2
      | .callbackAccumulator => callbackAccumulator.2)

/-! ### The machine -/

inductive Label where
  | add (txid callbackURL : String)
  | updateTTL (now : ℤ) (txid : String) (ttl : ℤ)
  | batchUpdateTTL (now : ℤ) (txids : List String) (ttl : ℤ)
  | record (now : ℤ) (txid callbackURL statusType : String) (ttl : ℤ)
  | initCounter (now : ℤ) (blockHash : String) (count : ℤ)
  | decrement (blockHash : String)
  | append (now : ℤ) (entry : Entry)
  | readAndDelete (blockHash : String)
  | sweepOnce (w : Sweep)

def step (cfg : Config) (s : Tables) : Label → Tables
  | .add txid callbackURL => add s txid callbackURL
  | .updateTTL now txid ttl => updateTTL cfg s now txid ttl
  | .batchUpdateTTL now txids ttl => batchUpdateTTL cfg s now txids ttl
  | .record now txid callbackURL statusType ttl => record cfg s now txid callbackURL statusType ttl
  | .initCounter now blockHash count => initCounter cfg s now blockHash count
  | .decrement blockHash => (decrement s blockHash).2
  | .append now entry => append cfg s now entry
  | .readAndDelete blockHash => (readAndDelete s blockHash).2
  | .sweepOnce w => (sweepOnce s w).1

def machine (cfg : Config) : LTS Tables Label := ⟨fun s l => some (step cfg s l)⟩

/-- The tables after the migrations. -/
def init : Tables := ⟨∅, [], ∅, ∅, ∅, []⟩

/-- A record that is there and has not expired. -/
def Live {α : Type} (now : ℤ) (t : ExpiringTable String α) (key : String) : Prop :=
  ∃ row, t.lookup key = some row ∧ row.expired now = false

/-- What the reads return is data of a record that has not expired. -/
structure Fresh (cfg : Config) (now : ℤ) (s : Tables) : Prop where
  get : ∀ txid, get s txid ≠ [] → Live now s.registrations txid
  batchGet : ∀ txids txid, batchGet s txids txid ≠ none → Live now s.registrations txid
  dedup : ∀ txid callbackURL statusType, dedupExists cfg s now txid callbackURL statusType = true →
    Live now s.callbackDedup (dedupKey cfg txid callbackURL statusType)
  readAndDelete : ∀ blockHash, (readAndDelete s blockHash).1.isSome = true →
    Live now s.callbackAccumulator blockHash
  decrement : ∀ blockHash, (decrement s blockHash).1 ≠ none → Live now s.subtreeCounters blockHash

/-- No registration and no accumulated block has expired when the sweep comes to it. -/
def NothingExpired (s : Tables) : Label → Prop
  | .sweepOnce w => s.registrations.expiredKeys w.now = [] ∧
    s.callbackAccumulator.expiredKeys w.now = []
  | _ => True

/-! ### A sweep of one table -/

section

variable {α : Type} {limit : Limit String batch} {fails : ℕ → Bool} {now : ℤ}

theorem sweepLoop_complete {n : ℕ} {t : ExpiringTable String α}
    (hok : (sweepLoop limit fails now n t).2.failed = false)
    (hcap : (sweepLoop limit fails now n t).2.rows < n * batch) (key : String) :
    (sweepLoop limit fails now n t).1.lookup key =
      if key ∈ t.expiredKeys now then none else t.lookup key := by
  induction n generalizing t with
  | zero => simp at hcap
  | succ n ih =>
    unfold sweepLoop at hok hcap ⊢
    by_cases hfails : fails n = true
    · simp [hfails] at hok
    rw [if_neg hfails] at hok hcap ⊢
    dsimp only at hok hcap ⊢
    by_cases hlast : (limit.pick (t.expiredKeys now)).length < batch
    · -- the last batch has all rows that were left
      rw [if_pos hlast, ExpiringTable.lookup_delete, limit.pick_eq_of_length_lt hlast]
    · rw [if_neg hlast] at hok hcap ⊢
      dsimp only at hok hcap ⊢
      have hfull : (limit.pick (t.expiredKeys now)).length = batch := by
        have hlength := limit.length (t.expiredKeys now)
        omega
      rw [hfull, Nat.succ_mul] at hcap
      rw [ih hok (by omega), ExpiringTable.lookup_delete]
      by_cases hkey : key ∈ limit.pick (t.expiredKeys now)
      · have hexpired := (limit.sublist _).subset hkey
        simp [hkey, hexpired]
      · simp [ExpiringTable.mem_expiredKeys_delete, hkey]

/-- **A complete sweep** of a table deletes the rows that have expired. -/
theorem sweepTable_complete {t : ExpiringTable String α}
    (h : (sweepTable limit fails now t).2.complete) (key : String) :
    (sweepTable limit fails now t).1.lookup key =
      if key ∈ t.expiredKeys now then none else t.lookup key :=
  sweepLoop_complete h.1 h.2 key

theorem sweepLoop_quiet {t : ExpiringTable String α} (h : t.expiredKeys now = []) (n : ℕ) :
    (sweepLoop limit fails now n t).1 = t := by
  cases n with
  | zero => rfl
  | succ n =>
    have hpick : limit.pick (t.expiredKeys now) = [] := by
      have hsub := limit.sublist (t.expiredKeys now)
      rw [h] at hsub ⊢
      exact List.sublist_nil.1 hsub
    unfold sweepLoop
    dsimp only
    rw [hpick]
    split_ifs with hfails hlast
    · rfl
    · rfl
    · exact absurd (by decide : ([] : List String).length < batch) hlast

theorem sweepTable_quiet {t : ExpiringTable String α} (h : t.expiredKeys now = []) :
    (sweepTable limit fails now t).1 = t := sweepLoop_quiet h 10

end

/-! ### The two halves of a record -/

variable {cfg : Config} {s : Tables}

theorem urls_ne_nil {txid : String} :
    urls s txid ≠ [] ↔ ∃ callbackURL, (txid, callbackURL) ∈ s.registrationURLs := by
  unfold urls
  rw [ne_eq, List.map_eq_nil_iff, List.filter_eq_nil_iff]
  push Not
  simp

theorem get_ne_nil {txid : String} : get s txid ≠ [] ↔ urls s txid ≠ [] := by
  unfold get
  rw [← List.length_pos_iff, ← List.length_pos_iff, (List.perm_insertionSort _ _).length_eq]

theorem entries_ne_nil {blockHash : String} : entries s blockHash ≠ [] ↔
    ∃ entry ∈ s.callbackAccumulatorEntries, entry.blockHash = blockHash := by
  unfold entries
  rw [ne_eq, List.filter_eq_nil_iff]
  push Not
  simp

/-- A registration has a URL and a URL a registration, and the same for accumulated blocks. -/
structure Paired (s : Tables) : Prop where
  registration : ∀ txid, txid ∈ s.registrations ↔ urls s txid ≠ []
  accumulator : ∀ blockHash, blockHash ∈ s.callbackAccumulator ↔ entries s blockHash ≠ []

theorem paired_init : Paired init := ⟨by simp [init, urls], by simp [init, entries]⟩

theorem paired_add (h : Paired s) (txid callbackURL : String) :
    Paired (add s txid callbackURL) := by
  refine ⟨fun txid' => ?_, h.accumulator⟩
  have hmem : ∀ row, row ∈ (add s txid callbackURL).registrationURLs ↔
      row = (txid, callbackURL) ∨ row ∈ s.registrationURLs := by
    intro row
    unfold add
    dsimp only
    split_ifs with hin
    · constructor
      · exact Or.inr
      · rintro (rfl | hrow)
        · exact hin
        · exact hrow
    · rw [List.mem_append, List.mem_singleton, or_comm]
  have hreg : txid' ∈ (add s txid callbackURL).registrations ↔
    txid' = txid ∨ txid' ∈ s.registrations :=
    ExpiringTable.mem_insertOrIgnore
  rw [hreg, h.registration, urls_ne_nil, urls_ne_nil]
  constructor
  · rintro (rfl | ⟨url, hurl⟩)
    · exact ⟨callbackURL, (hmem _).2 (Or.inl rfl)⟩
    · exact ⟨url, (hmem _).2 (Or.inr hurl)⟩
  · rintro ⟨url, hurl⟩
    rcases (hmem _).1 hurl with heq | hold
    · exact Or.inl (Prod.mk.inj heq).1
    · exact Or.inr ⟨url, hold⟩

theorem paired_append (h : Paired s) (now : ℤ) (entry : Entry) :
    Paired (append cfg s now entry) := by
  refine ⟨h.registration, fun blockHash => ?_⟩
  have hacc : blockHash ∈ (append cfg s now entry).callbackAccumulator ↔
      blockHash = entry.blockHash ∨ blockHash ∈ s.callbackAccumulator := AList.mem_insert _
  rw [hacc, h.accumulator, entries_ne_nil, entries_ne_nil]
  have hmem : ∀ e, e ∈ (append cfg s now entry).callbackAccumulatorEntries ↔
      e ∈ s.callbackAccumulatorEntries ∨ e = entry := by
    intro e
    rw [append, List.mem_append, List.mem_singleton]
  constructor
  · rintro (rfl | ⟨e, he, hb⟩)
    · exact ⟨entry, (hmem _).2 (Or.inr rfl), rfl⟩
    · exact ⟨e, (hmem _).2 (Or.inl he), hb⟩
  · rintro ⟨e, he, hb⟩
    rcases (hmem _).1 he with he | rfl
    · exact Or.inr ⟨e, he, hb⟩
    · exact Or.inl hb.symm

theorem paired_readAndDelete (h : Paired s) (blockHash : String) :
    Paired (readAndDelete s blockHash).2 := by
  refine ⟨h.registration, fun blockHash' => ?_⟩
  have hacc : blockHash' ∈ (readAndDelete s blockHash).2.callbackAccumulator ↔
      blockHash' ≠ blockHash ∧ blockHash' ∈ s.callbackAccumulator := AList.mem_erase
  have hmem : ∀ e, e ∈ (readAndDelete s blockHash).2.callbackAccumulatorEntries ↔
      e ∈ s.callbackAccumulatorEntries ∧ e.blockHash ≠ blockHash := by
    intro e
    simp [readAndDelete]
  rw [hacc, h.accumulator, entries_ne_nil, entries_ne_nil]
  constructor
  · rintro ⟨hne, e, he, rfl⟩
    exact ⟨e, (hmem e).2 ⟨he, hne⟩, rfl⟩
  · rintro ⟨e, he, rfl⟩
    obtain ⟨he, hne⟩ := (hmem e).1 he
    exact ⟨hne, e, he, rfl⟩

/-- A sweep that finds no expired registration and no expired block leaves both as they are. -/
theorem sweepOnce_quiet {w : Sweep} (h : NothingExpired s (.sweepOnce w)) :
    (sweepOnce s w).1.registrations = s.registrations ∧
      (sweepOnce s w).1.callbackAccumulator = s.callbackAccumulator :=
  ⟨sweepTable_quiet h.1, sweepTable_quiet h.2⟩

theorem paired_step {l : Label} (h : Paired s) (hok : NothingExpired s l) :
    Paired (step cfg s l) := by
  cases l with
  | add txid callbackURL => exact paired_add h txid callbackURL
  | updateTTL now txid ttl =>
    exact ⟨fun _ => ExpiringTable.mem_setExpiry.trans (h.registration _), h.accumulator⟩
  | batchUpdateTTL now txids ttl =>
    exact ⟨fun _ => ExpiringTable.mem_setExpiry.trans (h.registration _), h.accumulator⟩
  | record => exact ⟨h.registration, h.accumulator⟩
  | initCounter => exact ⟨h.registration, h.accumulator⟩
  | decrement blockHash =>
    unfold step decrement
    dsimp only
    split <;> exact ⟨h.registration, h.accumulator⟩
  | append now entry => exact paired_append h now entry
  | readAndDelete blockHash => exact paired_readAndDelete h blockHash
  | sweepOnce w =>
    obtain ⟨hreg, hacc⟩ := sweepOnce_quiet hok
    refine ⟨fun txid => ?_, fun blockHash => ?_⟩
    · rw [step, hreg]
      exact h.registration txid
    · rw [step, hacc]
      exact h.accumulator blockHash

/-! ### The reads after a sweep -/

theorem live_of_mem {α : Type} {t : ExpiringTable String α} {now : ℤ} {key : String}
    (hnone : t.expiredKeys now = []) (hmem : key ∈ t) : Live now t key := by
  obtain ⟨row, hrow⟩ := Option.isSome_iff_exists.1 (AList.lookup_isSome.2 hmem)
  exact ⟨row, hrow, ExpiringTable.expiredKeys_eq_nil.1 hnone key row hrow⟩

theorem not_live_sweepTable {α : Type} {t : ExpiringTable String α} {limit : Limit String batch}
    {fails : ℕ → Bool} {now : ℤ} (hcomplete : (sweepTable limit fails now t).2.complete)
    {key : String}
    (hkey : key ∈ t.expiredKeys now) : ¬ Live now (sweepTable limit fails now t).1 key := by
  rintro ⟨row, hrow, -⟩
  rw [sweepTable_complete hcomplete, if_pos hkey] at hrow
  cases hrow

theorem mem_of_mem_expiredKeys {α : Type} {t : ExpiringTable String α} {now : ℤ} {key : String}
    (hkey : key ∈ t.expiredKeys now) : key ∈ t := by
  obtain ⟨row, hrow, -⟩ := ExpiringTable.mem_expiredKeys.1 hkey
  exact AList.lookup_isSome.1 (by rw [hrow]; rfl)

theorem readAndDelete_isSome {blockHash : String} :
    (readAndDelete s blockHash).1.isSome = true ↔ entries s blockHash ≠ [] := by
  unfold readAndDelete
  dsimp only
  split_ifs with h <;> simp [h]

theorem live_of_dedupExists {now : ℤ} {txid callbackURL statusType : String}
    (h : dedupExists cfg s now txid callbackURL statusType = true) :
    Live now s.callbackDedup (dedupKey cfg txid callbackURL statusType) := by
  unfold dedupExists at h
  split at h
  · rename_i row hrow
    refine ⟨row, hrow, ?_⟩
    unfold ExpiringRow.expired
    cases hexp : row.expiresAt with
    | none => rfl
    | some expiresAt =>
      have hlt : now < expiresAt := by simpa [hexp] using h
      simpa using hlt.le
  · cases h

theorem decrement_ne_none {blockHash : String} (h : (decrement s blockHash).1 ≠ none) :
    ∃ row, s.subtreeCounters.lookup blockHash = some row := by
  unfold decrement at h
  split at h
  · rename_i row hrow
    exact ⟨row, hrow⟩
  · exact absurd rfl h

/-- **Only what has not expired is read** after a sweep without error that has not come to its cap,
in a run whose sweeps have found no expired registration and no expired accumulated block so far,
exactly if this one has found none either. -/
theorem sweepOnce_fresh_iff (h : (machine cfg).Run NothingExpired init s) {w : Sweep}
    (hcomplete : ∀ table, ((sweepOnce s w).2 table).complete) :
    Fresh cfg w.now (sweepOnce s w).1 ↔ NothingExpired s (.sweepOnce w) := by
  have hpaired : Paired s := by
    refine h.invariant paired_init ?_
    rintro s l s' hs hok hst
    obtain rfl := Option.some.inj hst
    exact paired_step hs hok
  constructor
  · intro hfresh
    refine ⟨List.eq_nil_iff_forall_not_mem.2 fun txid hkey => ?_,
      List.eq_nil_iff_forall_not_mem.2 fun blockHash hkey => ?_⟩
    · -- the URLs of an expired registration are still there
      have hurls := (hpaired.registration txid).1 (mem_of_mem_expiredKeys hkey)
      exact not_live_sweepTable (hcomplete .registrations) hkey
        (hfresh.get txid (get_ne_nil.2 hurls))
    · have hentries := (hpaired.accumulator blockHash).1 (mem_of_mem_expiredKeys hkey)
      exact not_live_sweepTable (hcomplete .callbackAccumulator) hkey
        (hfresh.readAndDelete blockHash (readAndDelete_isSome.2 hentries))
  · intro hok
    obtain ⟨hreg, hacc⟩ := sweepOnce_quiet hok
    have hlive : ∀ txid, urls s txid ≠ [] → Live w.now (sweepOnce s w).1.registrations txid := by
      intro txid hurls
      rw [hreg]
      exact live_of_mem hok.1 ((hpaired.registration txid).2 hurls)
    refine ⟨fun txid hget => hlive txid (get_ne_nil.1 hget), fun txids txid hget => ?_,
      fun _ _ _ hexists => live_of_dedupExists hexists, fun blockHash hread => ?_,
      fun blockHash hdec => ?_⟩
    · refine hlive txid fun hnil => hget ?_
      exact if_neg (not_and_of_not_right _ (not_not_intro hnil))
    · rw [hacc]
      exact live_of_mem hok.2 ((hpaired.accumulator blockHash).2 (readAndDelete_isSome.1 hread))
    · obtain ⟨row, hrow⟩ := decrement_ne_none hdec
      refine ⟨row, hrow, ?_⟩
      have hswept : (sweepOnce s w).1.subtreeCounters.lookup blockHash =
          if blockHash ∈ s.subtreeCounters.expiredKeys w.now then none
          else s.subtreeCounters.lookup blockHash :=
        sweepTable_complete (hcomplete .subtreeCounters) blockHash
      rw [hswept] at hrow
      split_ifs at hrow with hkey
      by_contra hexpired
      exact hkey (ExpiringTable.mem_expiredKeys.2
        ⟨row, hrow, Bool.eq_true_of_not_eq_false hexpired⟩)

/-- Times to live of ten minutes. -/
def tenMinutes : Config := ⟨600, 600, fun ttl => ttl.tdiv 1000000000, fun _ => []⟩

/-- A sweep at a time in seconds that meets no errors. -/
def sweepAt (seconds : ℤ) : Sweep :=
  ⟨intervalSeconds 0 seconds, .first String batch, fun _ _ => false⟩

/-- The counter of a block has expired and is gone after the sweep, the registration has not. -/
theorem sweepOnce_fresh_one : ∃ s, (machine tenMinutes).Run NothingExpired init s ∧
    get (sweepOnce s (sweepAt 700)).1 "tx" = ["u"] ∧
    (decrement (sweepOnce s (sweepAt 700)).1 "b").1 = none ∧
    Fresh tenMinutes (sweepAt 700).now (sweepOnce s (sweepAt 700)).1 := by
  have h₁ : (machine tenMinutes).Run NothingExpired init _ :=
    LTS.Run.start.next (l := Label.add "tx" "u") trivial rfl
  have h₂ := h₁.next (l := Label.updateTTL 0 "tx" 1800000000000) trivial rfl
  have h₃ := h₂.next (l := Label.initCounter 0 "b" 3) trivial rfl
  refine ⟨_, h₃, by decide, by decide, (sweepOnce_fresh_iff h₃ ?_).2 ⟨by decide, by decide⟩⟩
  intro table
  cases table <;> exact ⟨by decide, by decide⟩

/-- The row of the registration is gone, its URL is still returned. -/
theorem expired_url_read :
    ¬ ∀ cfg s w, (machine cfg).Reachable init s → (∀ table, ((sweepOnce s w).2 table).complete) →
      Fresh cfg w.now (sweepOnce s w).1 := by
  intro hall
  have h₁ : (machine tenMinutes).Reachable init _ :=
    LTS.Run.start.next (l := Label.add "tx" "u") trivial rfl
  have h₂ := h₁.next (l := Label.updateTTL 0 "tx" 600000000000) trivial rfl
  have hfresh := hall _ _ (sweepAt 700) h₂
    (by intro table; cases table <;> exact ⟨by decide, by decide⟩)
  obtain ⟨row, hrow, -⟩ := hfresh.get "tx" (by decide)
  cases hrow

end SqlStore

end MerkleService
