import MerkleService.Cache.RegistrationCache

/-!
# Looking up registrations behind the registration cache

`Processor.findRegisteredTxids` (`internal/subtree/processor.go`) asks the registration cache which
txids it knows, looks up the others in the registration store, remembers what it found, and fetches
the URLs of the txids that are cached as registered.  A txid that is cached as not registered is not
looked up again, and `RegistrationStore.Add` does not tell the cache.

* `findRegisteredTxids_eq` : **the call returns what the store would, less the txids cached as not
  registered**; a txid is so cached only when an earlier call looked up the same bytes at a time
  when the spelling it looked up was not registered.
* `findRegisteredTxids_hides` : a registration after a lookup is not found.
-/

namespace MerkleService

namespace Subtree

open Cache

/-- A map from txids to callback URLs. -/
abbrev URLMap := String → Option (List String)

/-- What is in the registration store: the URLs of each txid. -/
abbrev Registrations := String → List String

/-- `RegistrationStore.Add`: an ordered list, in which a URL stands once. -/
def Registrations.add (r : Registrations) (txid url : String) : Registrations :=
  Function.update r txid (if url ∈ r txid then r txid else (r txid).orderedInsert (· ≤ ·) url)

/-- `RegistrationStore.BatchGet`: the txids that have a URL, with all their URLs. -/
def Registrations.batchGet (r : Registrations) (txids : List String) : URLMap := fun txid =>
  if txid ∈ txids ∧ r txid ≠ [] then some (r txid) else none

/-- `BatchGet` is called when there is something to look up. -/
def Registrations.lookup (r : Registrations) (txids : List String) : URLMap :=
  if 0 < txids.length then r.batchGet txids else fun _ => none

/-- The part of the processor that `findRegisteredTxids` uses. -/
structure Processor where
  registrationStore : Registrations
  /-- There is no cache when it could not be created. -/
  regCache : Option ImprovedCache

/-- The processor after `Init`, with nothing registered. -/
def Processor.init (maxMB : ℤ) : Processor :=
  ⟨fun _ => [], (newRegistrationCache maxMB).toOption⟩

/-- The errors of the system calls for memory, in the two `SetMulti` calls. -/
structure MmapErrs where
  registered : Fin bucketsCount → ℕ → Option String
  notRegistered : Fin bucketsCount → ℕ → Option String

section

variable (sum64 : List UInt8 → UInt64)

/-- The call `set` is made when there is something to set. -/
def setIfAny (set : ImprovedCache → List String → Option ImprovedCache) (c : ImprovedCache)
    (txids : List String) : Option ImprovedCache :=
  if 0 < txids.length then set c txids else some c

/-- The update of the cache with what was found for the txids that were not cached. -/
def updateCache (errs : MmapErrs) (c : ImprovedCache) (uncached : List String)
    (registeredFromStore : URLMap) : Option ImprovedCache := do
  let foundTxids := uncached.filter fun txid => (registeredFromStore txid).isSome
  let notFoundTxids := uncached.filter fun txid => !(registeredFromStore txid).isSome
  let c ← setIfAny (setMultiRegistered sum64 errs.registered) c foundTxids
  setIfAny (setMultiNotRegistered sum64 errs.notRegistered) c notFoundTxids

/-- `findRegisteredTxids`: the processor after the call, and the URLs; `none` is a panic. -/
def findRegisteredTxids (errs : MmapErrs) (p : Processor) (txids : List String) :
    Option (Processor × URLMap) := do
  let (uncached, cachedRegistered) ← match p.regCache with
    | some c => filterUncached sum64 c txids
    | none => some (txids, [])
  let registeredFromStore := p.registrationStore.lookup uncached
  let regCache ← match p.regCache with
    | some c => (updateCache sum64 errs c uncached registeredFromStore).map some
    | none => some none
  let cachedURLs := p.registrationStore.lookup cachedRegistered
  let allRegistered : URLMap := fun txid => (cachedURLs txid).or (registeredFromStore txid)
  some ({ p with regCache := regCache }, allRegistered)

/-- A call, or a registration through the API. -/
inductive Event where
  | add (txid url : String)
  | find (errs : MmapErrs) (txids : List String)

def Processor.step (p : Processor) : Event → Option Processor
  | .add txid url => some { p with registrationStore := p.registrationStore.add txid url }
  | .find errs txids => (findRegisteredTxids sum64 errs p txids).map Prod.fst

def processorMachine : LTS Processor Event := ⟨Processor.step sum64⟩

end

/-- What has been registered by a sequence of events. -/
def registrationsOf (events : List Event) : Registrations :=
  events.foldl (fun r ev => match ev with
    | .add txid url => r.add txid url
    | .find _ _ => r) fun _ => []

/-- An earlier call looked up these bytes, in a spelling that was not registered then. -/
def LookedUp (events : List Event) (key : List UInt8) : Prop :=
  ∃ pre errs txids, pre ++ [.find errs txids] <+: events ∧
    ∃ txid ∈ txids, Hex.decode txid = some key ∧ registrationsOf pre txid = []

/-- The cache holds the txid as not registered. -/
def Processor.hides (sum64 : List UInt8 → UInt64) (p : Processor) (txid : String) : Prop :=
  ∃ c, p.regCache = some c ∧ getCached sum64 c txid = some (false, true)

/-! ### One call -/

section

variable (sum64 : List UInt8 → UInt64) {P : List UInt8 → List UInt8 → Prop}

theorem filterUncached_eq {c : ImprovedCache} {f : String → Bool × Bool}
    (hf : ∀ txid, getCached sum64 c txid = some (f txid)) (txids : List String) :
    filterUncached sum64 c txids =
      some (txids.filter fun txid => !(f txid).2,
        txids.filter fun txid => (f txid).2 && (f txid).1) := by
  induction txids with
  | nil => rfl
  | cons txid txids ih =>
    simp only [filterUncached, hf, ih, Option.bind_eq_bind, Option.bind_some]
    cases hcached : (f txid).2 <;> cases hreg : (f txid).1 <;> simp [hcached, hreg]

theorem contains_setIfAny {c : ImprovedCache} (h : c.Contains P) (value : UInt8)
    (txids : List String) (mmapErr : Fin bucketsCount → ℕ → Option String)
    (htxids : ∀ txid ∈ txids, ∀ key, Hex.decode txid = some key → P key [value]) :
    ∃ c', setIfAny (setMultiValue sum64 value mmapErr) c txids = some c' ∧ c'.Contains P := by
  unfold setIfAny
  split_ifs
  · exact h.setMultiValue sum64 value htxids mmapErr
  · exact ⟨c, rfl, h⟩

theorem contains_updateCache {c : ImprovedCache} (h : c.Contains P) (errs : MmapErrs)
    (uncached : List String) (urls : URLMap) (hreg : ∀ key, P key [registered])
    (hnot : ∀ txid ∈ uncached, ∀ key, Hex.decode txid = some key → urls txid = none →
      P key [notRegistered]) :
    ∃ c', updateCache sum64 errs c uncached urls = some c' ∧ c'.Contains P := by
  obtain ⟨c₁, hc₁, h₁⟩ := contains_setIfAny sum64 h registered
    (uncached.filter fun txid => (urls txid).isSome) errs.registered fun _ _ key _ => hreg key
  have hnot' : ∀ txid ∈ uncached.filter fun txid => !(urls txid).isSome,
      ∀ key, Hex.decode txid = some key → P key [notRegistered] := by
    intro txid htxid key hkey
    obtain ⟨hmem, hnone⟩ := List.mem_filter.1 htxid
    exact hnot txid hmem key hkey (by simpa using hnone)
  obtain ⟨c₂, hc₂, h₂⟩ := contains_setIfAny sum64 h₁ notRegistered _ errs.notRegistered hnot'
  exact ⟨c₂, Option.bind_eq_some_iff.2 ⟨c₁, hc₁, hc₂⟩, h₂⟩

theorem lookup_filter (r : Registrations) (txids : List String) (q : String → Bool)
    (txid : String) :
    r.lookup (txids.filter q) txid = if q txid then r.batchGet txids txid else none := by
  unfold Registrations.lookup
  split_ifs with hlen hq hq
  · simp [Registrations.batchGet, hq]
  · simp [Registrations.batchGet, hq]
  · have hmem : txid ∉ txids := by
      intro hmem
      exact hlen (List.length_pos_of_mem (List.mem_filter.2 ⟨hmem, hq⟩))
    simp [Registrations.batchGet, hmem]
  · rfl

theorem hides_iff {r : Registrations} {c : ImprovedCache} {f : String → Bool × Bool}
    (hf : ∀ txid, getCached sum64 c txid = some (f txid)) (txid : String) :
    Processor.hides sum64 ⟨r, some c⟩ txid ↔ f txid = (false, true) := by
  constructor
  · rintro ⟨c₀, hc₀, hget⟩
    obtain rfl := Option.some.inj hc₀
    exact Option.some.inj ((hf txid).symm.trans hget)
  · intro hfalse
    exact ⟨c, rfl, hfalse ▸ hf txid⟩

/-- **One call** returns what the store returns, less the txids cached as not registered. -/
theorem findRegisteredTxids_some (errs : MmapErrs) {p : Processor} {txids : List String}
    (hcache : ∀ c, p.regCache = some c → c.Contains P) (hreg : ∀ key, P key [registered])
    (hnot : ∀ txid ∈ txids, ∀ key, Hex.decode txid = some key → p.registrationStore txid = [] →
      P key [notRegistered]) :
    ∃ p' result, findRegisteredTxids sum64 errs p txids = some (p', result) ∧
      p'.registrationStore = p.registrationStore ∧
      (∀ c, p'.regCache = some c → c.Contains P) ∧
      ∀ txid, (¬ p.hides sum64 txid → result txid = p.registrationStore.batchGet txids txid) ∧
        (p.hides sum64 txid → result txid = none) := by
  obtain ⟨r, regCache⟩ := p
  cases regCache with
  | none =>
    refine ⟨_, _, rfl, rfl, ?_, fun txid => ⟨fun _ => ?_, ?_⟩⟩
    · intro c hc
      cases hc
    · have hall := lookup_filter r txids (fun _ => true) txid
      rw [List.filter_true] at hall
      exact hall
    · rintro ⟨c, hc, -⟩
      cases hc
  | some c =>
    have hcontains : c.Contains P := hcache c rfl
    have hcached : ∀ txid, ∃ f, getCached sum64 c txid = some f := by
      intro txid
      obtain ⟨isReg, isCached, hget, -⟩ := hcontains.getCached sum64 txid
      exact ⟨_, hget⟩
    choose f hf using hcached
    have hstore := lookup_filter r txids fun txid => !(f txid).2
    have hurls := lookup_filter r txids fun txid => (f txid).2 && (f txid).1
    obtain ⟨c', hupdate, hcontains'⟩ := contains_updateCache sum64 hcontains errs
      (txids.filter fun txid => !(f txid).2)
      (r.lookup (txids.filter fun txid => !(f txid).2)) hreg (by
      intro txid htxid key hkey hnone
      obtain ⟨hmem, huncached⟩ := List.mem_filter.1 htxid
      refine hnot txid hmem key hkey ?_
      rw [hstore, if_pos huncached] at hnone
      simpa [Registrations.batchGet, hmem] using hnone)
    refine ⟨⟨r, some c'⟩, fun txid => (r.lookup (txids.filter fun txid => (f txid).2 && (f txid).1)
      txid).or (r.lookup (txids.filter fun txid => !(f txid).2) txid), ?_, rfl, ?_, fun txid => ?_⟩
    · simp only [findRegisteredTxids, filterUncached_eq sum64 hf txids, hupdate,
        Option.bind_eq_bind, Option.bind_some, Option.map_some]
    · rintro _ ⟨⟩
      exact hcontains'
    · rw [hides_iff sum64 hf]
      dsimp only
      rw [hstore, hurls]
      rcases hfx : f txid with ⟨isReg, isCached⟩
      cases isReg <;> cases isCached <;> simp

end

/-! ### Runs -/

/-- What the cache may hold after a sequence of events. -/
def Remembered (events : List Event) (key value : List UInt8) : Prop :=
  value = [registered] ∨ value = [notRegistered] ∧ LookedUp events key

theorem LookedUp.append {events : List Event} {key : List UInt8} (h : LookedUp events key)
    (ev : Event) : LookedUp (events ++ [ev]) key := by
  obtain ⟨pre, errs, txids, hpre, htxid⟩ := h
  exact ⟨pre, errs, txids, hpre.trans (List.prefix_append _ _), htxid⟩

theorem Remembered.append {events : List Event} {key value : List UInt8}
    (h : Remembered events key value) (ev : Event) : Remembered (events ++ [ev]) key value :=
  h.imp_right fun hlooked => ⟨hlooked.1, hlooked.2.append ev⟩

theorem find_of_remembered (sum64 : List UInt8 → UInt64) {events : List Event} {p : Processor}
    (hstore : p.registrationStore = registrationsOf events)
    (hcache : ∀ c, p.regCache = some c → c.Contains (Remembered events)) (errs : MmapErrs)
    (txids : List String) :
    ∃ p' result, findRegisteredTxids sum64 errs p txids = some (p', result) ∧
      p'.registrationStore = p.registrationStore ∧
      (∀ c, p'.regCache = some c → c.Contains (Remembered (events ++ [.find errs txids]))) ∧
      ∀ txid, (¬ p.hides sum64 txid → result txid = p.registrationStore.batchGet txids txid) ∧
        (p.hides sum64 txid → result txid = none) := by
  refine findRegisteredTxids_some sum64 errs ?_ ?_ ?_
  · intro c hc
    exact (hcache c hc).mono fun _ _ h => h.append _
  · intro key
    exact Or.inl rfl
  · intro txid htxid key hkey hnone
    rw [hstore] at hnone
    exact Or.inr ⟨rfl, events, errs, txids, List.prefix_rfl, txid, htxid, hkey, hnone⟩

/-- The invariant of a run: the store is what has been registered, and the cache holds nothing as
not registered that was not looked up. -/
theorem exec_inv (sum64 : List UInt8 → UInt64) (maxMB : ℤ) (events : List Event) :
    ∃ p, (processorMachine sum64).exec (.init maxMB) events = some p ∧
      p.registrationStore = registrationsOf events ∧
      ∀ c, p.regCache = some c → c.Contains (Remembered events) := by
  induction events using List.reverseRecOn with
  | nil =>
    refine ⟨_, rfl, rfl, fun c hc => ?_⟩
    unfold Processor.init at hc
    cases hnew : newRegistrationCache maxMB with
    | error err => simp [hnew, Except.toOption] at hc
    | ok c₀ =>
      obtain rfl : c₀ = c := by simpa [hnew, Except.toOption] using hc
      exact ImprovedCache.contains_new hnew
  | append_singleton events ev ih =>
    obtain ⟨p, hexec, hstore, hcache⟩ := ih
    rw [LTS.exec_append, hexec, Option.bind_some]
    have hregs : registrationsOf (events ++ [ev]) = match ev with
        | .add txid url => (registrationsOf events).add txid url
        | .find _ _ => registrationsOf events := by
      rw [registrationsOf, List.foldl_append]
      cases ev <;> rfl
    cases ev with
    | add txid url =>
      refine ⟨_, rfl, by rw [hregs, ← hstore], ?_⟩
      intro c hc
      exact (hcache c hc).mono fun _ _ h => h.append _
    | find errs txids =>
      obtain ⟨p', result, hfind, hstore', hcache', -⟩ :=
        find_of_remembered sum64 hstore hcache errs txids
      have hstep : Processor.step sum64 p (.find errs txids) = some p' :=
        congrArg (Option.map Prod.fst) hfind
      refine ⟨p', ?_, by rw [hregs, hstore', hstore], hcache'⟩
      exact Option.bind_eq_some_iff.2 ⟨p', hstep, rfl⟩

/-- **What `findRegisteredTxids` returns**, after any registrations and calls: for each txid of the
list what the store holds at this moment, except for the txids that the cache holds as not
registered, for which it returns nothing.  A txid is so held only when an earlier call looked up the
same bytes, in a spelling for which no URL was registered at that time. -/
theorem findRegisteredTxids_eq (sum64 : List UInt8 → UInt64) (maxMB : ℤ) (events : List Event) :
    ∃ p, (processorMachine sum64).exec (.init maxMB) events = some p ∧
      p.registrationStore = registrationsOf events ∧
      ∀ errs txids, ∃ p' result, findRegisteredTxids sum64 errs p txids = some (p', result) ∧
        ∀ txid, (¬ p.hides sum64 txid → result txid = p.registrationStore.batchGet txids txid) ∧
          (p.hides sum64 txid → result txid = none ∧
            ∃ key, Hex.decode txid = some key ∧ LookedUp events key) := by
  obtain ⟨p, hexec, hstore, hcache⟩ := exec_inv sum64 maxMB events
  refine ⟨p, hexec, hstore, fun errs txids => ?_⟩
  obtain ⟨p', result, hfind, -, -, hresult⟩ := find_of_remembered sum64 hstore hcache errs txids
  refine ⟨p', result, hfind,
    fun txid => ⟨(hresult txid).1, fun hhides => ⟨(hresult txid).2 hhides, ?_⟩⟩⟩
  obtain ⟨c, hc, hget⟩ := hhides
  obtain ⟨isReg, isCached, hget', hset⟩ := (hcache c hc).getCached sum64 txid
  obtain ⟨rfl, rfl⟩ := Prod.mk.inj (Option.some.inj (hget'.symm.trans hget))
  obtain ⟨key, byte, rest, hkey, hbyte, hvalue⟩ := hset rfl rfl
  refine ⟨key, hkey, ?_⟩
  rcases hvalue with hvalue | ⟨-, hlooked⟩
  · exact absurd (List.cons.inj hvalue).1 hbyte
  · exact hlooked

/-! ### A registration that is not found -/

/-- The txid whose 32 bytes are all `ab`, as the API takes it. -/
def txidAB : String :=
  "abababababababababababababababababababababababababababababababab"

/-- The value of xxhash64 at the bytes of `txidAB`. -/
def sum64AB : List UInt8 → UInt64 := fun _ => 17244299765732312223

/-- No system call fails. -/
def noErrs : MmapErrs := ⟨fun _ _ => none, fun _ _ => none⟩

/-- What a call returns for one txid after a run, and what the store holds. -/
def lookupAfter (sum64 : List UInt8 → UInt64) (maxMB : ℤ) (events : List Event) (txid : String) :
    Option (Option (List String) × Option (List String)) := do
  let p ← (processorMachine sum64).exec (.init maxMB) events
  let (_, result) ← findRegisteredTxids sum64 noErrs p [txid]
  some (result txid, p.registrationStore.batchGet [txid] txid)

theorem exists_of_lookupAfter {sum64 : List UInt8 → UInt64} {maxMB : ℤ} {events : List Event}
    {txid : String} {found stored : Option (List String)}
    (h : lookupAfter sum64 maxMB events txid = some (found, stored)) :
    ∃ p p' result, (processorMachine sum64).exec (.init maxMB) events = some p ∧
      findRegisteredTxids sum64 noErrs p [txid] = some (p', result) ∧
      result txid = found ∧ p.registrationStore.batchGet [txid] txid = stored := by
  obtain ⟨p, hexec, hrest⟩ := Option.bind_eq_some_iff.1 h
  obtain ⟨⟨p', result⟩, hfind, hpair⟩ := Option.bind_eq_some_iff.1 hrest
  obtain ⟨hresult, hstore⟩ := Prod.mk.inj (Option.some.inj hpair)
  exact ⟨p, p', result, hexec, hfind, hresult, hstore⟩

/-- A txid is looked up, then registered, then looked up again: its URL is not returned. -/
theorem findRegisteredTxids_hides :
    ¬ ∀ (sum64 : List UInt8 → UInt64) (maxMB : ℤ) (events : List Event) (p : Processor),
      (processorMachine sum64).exec (.init maxMB) events = some p →
      ∀ errs txids p' result, findRegisteredTxids sum64 errs p txids = some (p', result) →
        ∀ txid, result txid = p.registrationStore.batchGet txids txid := by
  intro h
  have hrun : lookupAfter sum64AB 64 [.find noErrs [txidAB], .add txidAB "http://arcade/callback"]
      txidAB = some (none, some ["http://arcade/callback"]) := by
    decide +kernel
  obtain ⟨p, p', result, hexec, hfind, hresult, hstore⟩ := exists_of_lookupAfter hrun
  have hsame := h sum64AB 64 _ p hexec noErrs _ p' result hfind txidAB
  rw [hresult, hstore] at hsame
  cases hsame

end Subtree

end MerkleService
