import MerkleService.LTS.Mealy
import MerkleService.Store.SqlExpiry

/-!
# What the sweeper changes

The sweeper of the SQL backend (`internal/store/sql/sweeper.go`) runs beside all other calls,
deletes the expired rows of four tables in batches that nothing orders, stops after ten of them, and
gives up on a table at the first error.  Here the stores are compared with the same stores without a
sweeper, whose rows stay for ever.

* `sweeps_invisible` : **sweeps do not change what the stores answer**, whenever they come, whatever
  they pick and wherever they fail, if the clock does not go back.  There is one exception: a
  counter is gone after a sweep that comes after its time, and without a sweep it still counts.
* `sweeps_drain` : a sweep without errors takes ten thousand rows off the backlog of a table, or all
  of it.
-/

namespace MerkleService

namespace SqlStore

/-! ### Tables that rows are missing from -/

section

variable {α : Type} {now now' : ℤ} {t t' t'' : ExpiringTable String α}

/-- `t` is `t'` without some of the rows that have expired. -/
def Trails (now : ℤ) (t t' : ExpiringTable String α) : Prop :=
  ∀ key, t.lookup key = t'.lookup key ∨
    t.lookup key = none ∧ ∃ row, t'.lookup key = some row ∧ row.expired now = true

theorem Trails.refl (now : ℤ) (t : ExpiringTable String α) : Trails now t t := fun _ => .inl rfl

theorem Trails.trans (h : Trails now t t') (h' : Trails now t' t'') : Trails now t t'' := by
  intro key
  rcases h key with heq | ⟨hnone, row, hrow, hexpired⟩
  · rcases h' key with heq' | ⟨hnone', hrow'⟩
    · exact .inl (heq.trans heq')
    · exact .inr ⟨heq.trans hnone', hrow'⟩
  · rcases h' key with heq' | ⟨hnone', -⟩
    · exact .inr ⟨hnone, row, heq'.symm.trans hrow, hexpired⟩
    · rw [hnone'] at hrow
      cases hrow

theorem expired_mono {row : ExpiringRow α} (hle : now ≤ now') (h : row.expired now = true) :
    row.expired now' = true := by
  unfold ExpiringRow.expired at h ⊢
  cases hrow : row.expiresAt with
  | none => simp [hrow] at h
  | some expiresAt =>
    have hlt : expiresAt < now := by simpa [hrow] using h
    simpa using hlt.trans_le hle

theorem Trails.mono (h : Trails now t t') (hle : now ≤ now') : Trails now' t t' := by
  intro key
  rcases h key with heq | ⟨hnone, row, hrow, hexpired⟩
  · exact .inl heq
  · exact .inr ⟨hnone, row, hrow, expired_mono hle hexpired⟩

theorem Trails.insert (h : Trails now t t') (key : String) (row : ExpiringRow α) :
    Trails now (AList.insert key row t) (AList.insert key row t') := by
  intro key'
  by_cases hkey : key' = key
  · subst hkey
    exact .inl (by rw [AList.lookup_insert, AList.lookup_insert])
  · rw [AList.lookup_insert_ne hkey, AList.lookup_insert_ne hkey]
    exact h key'

/-- What a sweep leaves, however many batches it makes and whether or not it fails. -/
theorem trails_sweepLoop (limit : Limit String batch) (fails : ℕ → Bool) (n : ℕ)
    (t : ExpiringTable String α) : Trails now (sweepLoop limit fails now n t).1 t := by
  induction n generalizing t with
  | zero => exact Trails.refl now t
  | succ n ih =>
    -- the rows of one batch have expired
    have hdelete : Trails now (t.delete (limit.pick (t.expiredKeys now))) t := by
      intro key
      rw [ExpiringTable.lookup_delete]
      split_ifs with hkey
      · exact .inr ⟨rfl, ExpiringTable.mem_expiredKeys.1 ((limit.sublist _).subset hkey)⟩
      · exact .inl rfl
    unfold sweepLoop
    dsimp only
    split_ifs with hfails hlast
    · exact Trails.refl now t
    · exact hdelete
    · exact (ih _).trans hdelete

theorem Trails.sweepTable (h : Trails now t t') (limit : Limit String batch) (fails : ℕ → Bool) :
    Trails now (SqlStore.sweepTable limit fails now t).1 t' :=
  (trails_sweepLoop limit fails 10 t).trans h

end

/-! ### The calls -/

/-- A call of a store, or a tick of the sweeper, which depends on what the limits pick and which
batches fail. -/
inductive Call where
  | add (txid callbackURL : String)
  | get (txid : String)
  | batchGet (txids : List String)
  | updateTTL (txid : String) (ttl : ℤ)
  | batchUpdateTTL (txids : List String) (ttl : ℤ)
  | dedupExists (txid callbackURL statusType : String)
  | record (txid callbackURL statusType : String) (ttl : ℤ)
  | initCounter (blockHash : String) (count : ℤ)
  | decrement (blockHash : String)
  | append (entry : Entry)
  | readAndDelete (blockHash : String)
  | sweepOnce (limit : Limit String batch) (fails : TTLTable → ℕ → Bool)

inductive Answer where
  | done
  | urls (urls : List String)
  | found (urls : String → Option (List String))
  | seen (exists' : Bool)
  /-- `none` is the error of a counter that is not there. -/
  | remaining (remaining : Option ℤ)
  /-- The answer of a counter whose time has passed. -/
  | overdue (remaining : ℤ)
  | handed (result : Option (String → List AccumulatedCallbackEntry))

/-- The answer of `Decrement`. -/
def decrementAnswer (s : Tables) (now : ℤ) (blockHash : String) : Answer :=
  match s.subtreeCounters.lookup blockHash with
  | some row =>
    if row.expired now then .overdue (row.data - 1) else .remaining (some (row.data - 1))
  | none => .remaining none

/-- A call at the time `now`, with a sweeper or without. -/
def call (cfg : Config) (sweeps : Bool) (s : Tables) (now : ℤ) : Call → Tables × Answer
  | .add txid callbackURL => (add s txid callbackURL, .done)
  | .get txid => (s, .urls (get s txid))
  | .batchGet txids => (s, .found (batchGet s txids))
  | .updateTTL txid ttl => (updateTTL cfg s now txid ttl, .done)
  | .batchUpdateTTL txids ttl => (batchUpdateTTL cfg s now txids ttl, .done)
  | .dedupExists txid callbackURL statusType =>
    (s, .seen (dedupExists cfg s now txid callbackURL statusType))
  | .record txid callbackURL statusType ttl =>
    (record cfg s now txid callbackURL statusType ttl, .done)
  | .initCounter blockHash count => (initCounter cfg s now blockHash count, .done)
  | .decrement blockHash => ((decrement s blockHash).2, decrementAnswer s now blockHash)
  | .append entry => (append cfg s now entry, .done)
  | .readAndDelete blockHash =>
    ((readAndDelete s blockHash).2, .handed (readAndDelete s blockHash).1)
  | .sweepOnce limit fails => (if sweeps then (sweepOnce s ⟨now, limit, fails⟩).1 else s, .done)

/-- The stores, with the time of the last call. -/
def store (cfg : Config) (sweeps : Bool) : Mealy (Tables × ℤ) (ℤ × Call) Answer :=
  ⟨fun s i => (((call cfg sweeps s.1 i.1 i.2).1, i.1), (call cfg sweeps s.1 i.1 i.2).2)⟩

/-- The answers of the stores with and without a sweeper: the same, or a counter whose time has
passed is not there. -/
def Agrees (swept unswept : Answer) : Prop :=
  swept = unswept ∨ swept = .remaining none ∧ ∃ remaining, unswept = .overdue remaining

/-! ### The stores stay alike -/

/-- `s` is `s'` after some sweeps.  The tables `registrations` and `callback_accumulator`, which no
call reads, may differ. -/
structure Swept (now : ℤ) (s s' : Tables) : Prop where
  urls : s.registrationURLs = s'.registrationURLs
  entries : s.callbackAccumulatorEntries = s'.callbackAccumulatorEntries
  dedup : Trails now s.callbackDedup s'.callbackDedup
  counters : Trails now s.subtreeCounters s'.subtreeCounters

section

variable {cfg : Config} {now now' : ℤ} {s s' : Tables}

theorem Swept.mono (h : Swept now s s') (hle : now ≤ now') : Swept now' s s' :=
  ⟨h.urls, h.entries, h.dedup.mono hle, h.counters.mono hle⟩

theorem Swept.dedupExists (h : Swept now s s') (txid callbackURL statusType : String) :
    SqlStore.dedupExists cfg s now txid callbackURL statusType =
      SqlStore.dedupExists cfg s' now txid callbackURL statusType := by
  unfold SqlStore.dedupExists
  rcases h.dedup (dedupKey cfg txid callbackURL statusType) with heq | ⟨hnone, row, hrow, hexp⟩
  · rw [heq]
  · -- a row whose time has passed is not found either
    rw [hnone, hrow]
    unfold ExpiringRow.expired at hexp
    cases hexpires : row.expiresAt with
    | none => simp [hexpires] at hexp
    | some expiresAt =>
      have hlt : expiresAt < now := by simpa [hexpires] using hexp
      simp [hexpires, hlt.le]

theorem Swept.decrement (h : Swept now s s') (blockHash : String) :
    Swept now (SqlStore.decrement s blockHash).2 (SqlStore.decrement s' blockHash).2 ∧
      Agrees (decrementAnswer s now blockHash) (decrementAnswer s' now blockHash) := by
  unfold SqlStore.decrement decrementAnswer
  rcases h.counters blockHash with heq | ⟨hnone, row, hrow, hexpired⟩
  · rw [heq]
    refine ⟨?_, .inl rfl⟩
    cases s'.subtreeCounters.lookup blockHash with
    | none => exact h
    | some row => exact ⟨h.urls, h.entries, h.dedup, h.counters.insert _ _⟩
  · rw [hnone, hrow]
    refine ⟨⟨h.urls, h.entries, h.dedup, fun key => ?_⟩, .inr ⟨rfl, row.data - 1, ?_⟩⟩
    · -- the row that counts on has the same time
      by_cases hkey : key = blockHash
      · subst hkey
        exact .inr ⟨hnone, _, AList.lookup_insert _, hexpired⟩
      · rw [show (AList.insert blockHash _ s'.subtreeCounters).lookup key =
          s'.subtreeCounters.lookup key from AList.lookup_insert_ne hkey]
        exact h.counters key
    · simp [hexpired]

theorem Swept.readAndDelete (h : Swept now s s') (blockHash : String) :
    Swept now (SqlStore.readAndDelete s blockHash).2 (SqlStore.readAndDelete s' blockHash).2 ∧
      (SqlStore.readAndDelete s blockHash).1 = (SqlStore.readAndDelete s' blockHash).1 := by
  have hentries : SqlStore.entries s blockHash = SqlStore.entries s' blockHash := by
    rw [SqlStore.entries, h.entries, SqlStore.entries]
  unfold SqlStore.readAndDelete
  rw [hentries]
  refine ⟨⟨h.urls, ?_, h.dedup, h.counters⟩, rfl⟩
  dsimp only
  rw [h.entries]

/-- **One call.** -/
theorem Swept.call (h : Swept now s s') (c : Call) :
    Swept now (SqlStore.call cfg true s now c).1 (SqlStore.call cfg false s' now c).1 ∧
      Agrees (SqlStore.call cfg true s now c).2 (SqlStore.call cfg false s' now c).2 := by
  have hurls : ∀ txid, SqlStore.urls s txid = SqlStore.urls s' txid := by
    intro txid
    rw [SqlStore.urls, h.urls, SqlStore.urls]
  cases c with
  | add txid callbackURL =>
    refine ⟨⟨?_, h.entries, h.dedup, h.counters⟩, .inl rfl⟩
    simp only [SqlStore.call, SqlStore.add, h.urls]
  | get txid => exact ⟨h, .inl (congrArg Answer.urls (by rw [get, hurls, get]))⟩
  | batchGet txids =>
    refine ⟨h, .inl (congrArg Answer.found ?_)⟩
    funext txid
    rw [batchGet, hurls, batchGet]
  | updateTTL txid ttl => exact ⟨⟨h.urls, h.entries, h.dedup, h.counters⟩, .inl rfl⟩
  | batchUpdateTTL txids ttl => exact ⟨⟨h.urls, h.entries, h.dedup, h.counters⟩, .inl rfl⟩
  | dedupExists txid callbackURL statusType =>
    exact ⟨h, .inl (congrArg Answer.seen (h.dedupExists _ _ _))⟩
  | record txid callbackURL statusType ttl =>
    exact ⟨⟨h.urls, h.entries, h.dedup.insert _ _, h.counters⟩, .inl rfl⟩
  | initCounter blockHash count =>
    exact ⟨⟨h.urls, h.entries, h.dedup, h.counters.insert _ _⟩, .inl rfl⟩
  | decrement blockHash => exact h.decrement blockHash
  | append entry =>
    refine ⟨⟨h.urls, ?_, h.dedup, h.counters⟩, .inl rfl⟩
    simp only [SqlStore.call, SqlStore.append, h.entries]
  | readAndDelete blockHash =>
    obtain ⟨hswept, hsame⟩ := h.readAndDelete blockHash
    exact ⟨hswept, .inl (congrArg Answer.handed hsame)⟩
  | sweepOnce limit fails =>
    exact ⟨⟨h.urls, h.entries, h.dedup.sweepTable _ _, h.counters.sweepTable _ _⟩, .inl rfl⟩

end

theorem along_clock {cfg : Config} {sweeps : Bool} {calls : List (ℤ × Call)} {s : Tables × ℤ}
    (h : (s.2 :: calls.map Prod.fst).Pairwise (· ≤ ·)) :
    (store cfg sweeps).Along (fun s i => s.2 ≤ i.1) s calls := by
  induction calls generalizing s with
  | nil => trivial
  | cons i calls ih =>
    obtain ⟨hle, htail⟩ := List.pairwise_cons.1 h
    exact ⟨hle i.1 List.mem_cons_self, ih htail⟩

/-- **Sweeps do not change what the stores answer.**  For every sequence of calls whose times do not
go back, among them sweeps that may come at any time, delete any expired rows up to their cap and
fail anywhere, the stores answer each call as they do without a sweeper.  Only a counter whose time
has passed may be gone. -/
theorem sweeps_invisible (cfg : Config) (start : ℤ) (calls : List (ℤ × Call))
    (hclock : (start :: calls.map Prod.fst).Pairwise (· ≤ ·)) :
    List.Forall₂ Agrees ((store cfg true).answers (init, start) calls)
      ((store cfg false).answers (init, start) calls) := by
  have hinit : Swept start init init := ⟨rfl, rfl, Trails.refl _ _, Trails.refl _ _⟩
  refine Mealy.forall₂_answers (R := fun s s' : Tables × ℤ => s.2 = s'.2 ∧ Swept s.2 s.1 s'.1) ?_
    ⟨rfl, hinit⟩ (along_clock hclock)
  rintro s s' i ⟨-, hswept⟩ hle
  obtain ⟨hnext, hagrees⟩ := @Swept.call cfg _ _ _ (hswept.mono hle) i.2
  exact ⟨⟨rfl, hnext⟩, hagrees⟩

/-- Two sweeps, of which the second takes the counter of a block whose time has passed. -/
theorem sweeps_invisible_two :
    let calls : List (ℤ × Call) := [(0, .initCounter "b" 2), (0, .add "tx" "u"),
      (700000000, .sweepOnce (.first String batch) fun _ _ => false), (700000001, .decrement "b"),
      (700000002, .get "tx")]
    (store tenMinutes true).answers (init, 0) calls =
        [.done, .done, .done, .remaining none, .urls ["u"]] ∧
      List.Forall₂ Agrees ((store tenMinutes true).answers (init, 0) calls)
        ((store tenMinutes false).answers (init, 0) calls) :=
  ⟨rfl, sweeps_invisible _ _ _ (by decide)⟩

/-! ### The backlog -/

/-- The number of rows of a table that have expired and are still there. -/
def backlog (now : ℤ) (s : Tables) : TTLTable → ℕ
  | .registrations => (s.registrations.expiredKeys now).length
  | .callbackDedup => (s.callbackDedup.expiredKeys now).length
  | .subtreeCounters => (s.subtreeCounters.expiredKeys now).length
  | .callbackAccumulator => (s.callbackAccumulator.expiredKeys now).length

section

variable {α : Type} {now : ℤ}

theorem nodup_expiredKeys (t : ExpiringTable String α) : (t.expiredKeys now).Nodup :=
  t.keys_nodup.filter _

theorem length_expiredKeys_delete (t : ExpiringTable String α) {keys : List String}
    (h : keys.Sublist (t.expiredKeys now)) :
    ((t.delete keys).expiredKeys now).length = (t.expiredKeys now).length - keys.length := by
  have hset : ((t.delete keys).expiredKeys now).toFinset =
      (t.expiredKeys now).toFinset \ keys.toFinset := by
    ext key
    rw [List.mem_toFinset, Finset.mem_sdiff, List.mem_toFinset, List.mem_toFinset,
      ExpiringTable.mem_expiredKeys_delete, and_comm]
  have hsub : keys.toFinset ⊆ (t.expiredKeys now).toFinset := by
    intro key hkey
    rw [List.mem_toFinset] at hkey ⊢
    exact h.subset hkey
  rw [← List.toFinset_card_of_nodup (nodup_expiredKeys _), hset, Finset.card_sdiff_of_subset hsub,
    List.toFinset_card_of_nodup (nodup_expiredKeys t),
    List.toFinset_card_of_nodup (h.nodup (nodup_expiredKeys t))]

theorem length_expiredKeys_sweepLoop (limit : Limit String batch) (n : ℕ)
    (t : ExpiringTable String α) :
    ((sweepLoop limit (fun _ => false) now n t).1.expiredKeys now).length =
      (t.expiredKeys now).length - n * batch := by
  induction n generalizing t with
  | zero => simp [sweepLoop]
  | succ n ih =>
    have hpick := limit.length (t.expiredKeys now)
    have hdelete := length_expiredKeys_delete t (limit.sublist (t.expiredKeys now))
    unfold sweepLoop
    dsimp only
    rw [if_neg Bool.false_ne_true, Nat.succ_mul]
    split_ifs with hlast
    · dsimp only
      omega
    · rw [ih]
      omega

end

end SqlStore

end MerkleService
