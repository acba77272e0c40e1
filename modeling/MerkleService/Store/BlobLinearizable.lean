import MerkleService.Store.FileSteps

/-!
# The file store behaves like the memory store

The calls of `FileBlobStore` take effect when they read, write or remove the file, and
`SetCurrentBlockHeight` when it removes the files.  In this order they are calls of
`MemoryBlobStore`, as long as no step interferes with a call that is between its two steps.

* `Tracks` : the calls that have taken effect, in this order.
* `Agrees` : the memory store has the blobs of the file store, and the heights that it has or is
  going to have.
* `Follows.step` : **the simulation**.
* `linearizable` : **in runs of permitted steps the file store behaves like the memory store**.
* `not_linearizable` : a blob that is stored again while its old height is reached can be lost.
-/

namespace MerkleService

namespace Store

open FilePath

namespace Concurrent

/-! ### The heights of the memory store -/

/-- A key has one height, and a blob with it. -/
structure Coherent (a : Blobs String) : Prop where
  unique : ∀ key d d', (key, d) ∈ a.dah → (key, d') ∈ a.dah → d = d'
  blob : ∀ key d, (key, d) ∈ a.dah → a.blob key ≠ none

theorem coherent_write {a : Blobs String} (h : Coherent a) (key : String) (data : List UInt8) :
    Coherent (a.write id key data) where
  unique := h.unique
  blob := by
    intro k d hd
    rw [Blobs.blob_write]
    split_ifs
    · simp
    · exact h.blob k d hd

theorem coherent_step {a : Blobs String} (h : Coherent a) (c : Call) :
    Coherent (memory.step a c).1 := by
  cases c with
  | set key data deleteAtHeight =>
    have hwrite := coherent_write h key data
    rw [step_set]
    split_ifs
    · refine ⟨?_, ?_⟩
      · intro k d d' hd hd'
        by_cases hk : k = key
        · subst hk
          rw [Blobs.mem_record_self] at hd hd'
          rw [hd, hd']
        · rw [Blobs.mem_record_of_ne hk] at hd hd'
          exact h.unique k d d' hd hd'
      · intro k d hd
        by_cases hk : k = key
        · exact (Blobs.blob_write data k).trans_ne (by simp [hk])
        · rw [Blobs.mem_record_of_ne hk] at hd
          exact hwrite.blob k d hd
    · exact hwrite
  | get key => exact h
  | del key =>
    rw [step_del]
    refine ⟨?_, ?_⟩
    · intro k d d' hd hd'
      exact h.unique k d d' (Blobs.mem_forget.1 hd).1 (Blobs.mem_forget.1 hd').1
    · intro k d hd
      obtain ⟨hd, hk⟩ := Blobs.mem_forget.1 hd
      rw [Blobs.blob_remove]
      split_ifs with hkey
      · exact absurd hkey hk
      · exact h.blob k d hd
  | setCurrentBlockHeight height =>
    refine ⟨?_, ?_⟩
    · intro k d d' hd hd'
      rw [memory, Blobs.mem_dah_setCurrentBlockHeight] at hd hd'
      exact h.unique k d d' hd.1 hd'.1
    · intro k d hd
      rw [memory, Blobs.mem_dah_setCurrentBlockHeight] at hd
      simp only [memory, Blobs.setCurrentBlockHeight]
      split_ifs with hany
      · -- the height that was reached is the height of the key
        obtain ⟨⟨k', d'⟩, hd', hcond⟩ := List.any_eq_true.1 hany
        simp only [id, Bool.and_eq_true, decide_eq_true_eq] at hcond
        obtain rfl := hcond.2
        obtain rfl := h.unique k' d d' hd.1 hd'
        exact absurd hd.2 (UInt64.not_lt.2 hcond.1.1)
      · exact h.blob k d hd.1

theorem coherent_run (cs : List Call) : Coherent (memory.run .empty cs) := by
  have hempty : Coherent .empty :=
    ⟨fun k d d' hd => absurd hd List.not_mem_nil, fun k d hd => absurd hd List.not_mem_nil⟩
  exact @Mealy.run_invariant _ _ _ memory Coherent (fun _ => True)
    (fun a c h _ => coherent_step h c) _ hempty cs fun c _ => trivial

/-! ### The calls and their order -/

/-- The call, before it takes effect: `Set` does when the file is written, and `Del` when it is
removed. -/
def Progress.toDo : Progress → Option Call
  | invoked call => some call
  | parented key data deleteAtHeight => some (.set key data deleteAtHeight)
  | forgotten key _ => some (.del key)
  | _ => none

/-- The answer of a call that has taken effect and has not returned. -/
def Progress.answer : Progress → Option Answer
  | written _ _ _ => some .ok
  | finished answer => some answer
  | _ => none

/-- The calls that have taken effect are in the order, and the others have begun. -/
structure Tracks (calls : List Progress) (history : List (Event Call Answer))
    (order : List (Placed Call Answer)) : Prop where
  lin : Linearization memory .empty history order
  begun : ∀ i c, .invoked i c ∈ history → i < calls.length
  toDo : ∀ (i : ℕ) (p : Progress) (c : Call), calls[i]? = some p → p.toDo = some c →
    c.Keyed ∧ .invoked i c ∈ history ∧ ∀ e ∈ order, e.id ≠ i
  answer : ∀ (i : ℕ) (p : Progress) (o : Answer), calls[i]? = some p → p.answer = some o →
    ∃ c, ⟨i, c, o⟩ ∈ order

namespace Tracks

variable {calls : List Progress} {history : List (Event Call Answer)}
  {order : List (Placed Call Answer)} {i : ℕ} {p p' : Progress}

theorem invoke (h : Tracks calls history order) {c : Call} (hc : c.Keyed) :
    Tracks (calls ++ [.invoked c]) (history ++ [.invoked calls.length c]) order where
  lin := h.lin.invoke fun c' hc' => (h.begun _ c' hc').ne rfl
  begun := by
    intro j c' hmem
    rw [List.length_append, List.length_singleton]
    simp only [List.mem_append, List.mem_singleton, Event.invoked.injEq] at hmem
    rcases hmem with hmem | ⟨rfl, -⟩
    · exact Nat.lt_succ_of_lt (h.begun j c' hmem)
    · exact Nat.lt_succ_self _
  toDo := by
    intro j q c' hj hq
    rcases List.getElem?_concat_cases hj with hj | ⟨rfl, rfl⟩
    · obtain ⟨hkeyed, hmem, hnew⟩ := h.toDo j q c' hj hq
      exact ⟨hkeyed, List.mem_append_left _ hmem, hnew⟩
    · obtain rfl := Option.some.inj hq
      refine ⟨hc, by simp, ?_⟩
      intro e he hid
      exact (h.begun _ e.call (hid ▸ h.lin.invoked e he)).ne rfl
  answer := by
    intro j q o hj hq
    rcases List.getElem?_concat_cases hj with hj | ⟨rfl, rfl⟩
    · exact h.answer j q o hj hq
    · cases hq

theorem move (h : Tracks calls history order) (hi : calls[i]? = some p) (htoDo : p'.toDo = p.toDo)
    (hanswer : p'.answer = p.answer) : Tracks (calls.set i p') history order where
  lin := h.lin
  begun := by
    intro j c hmem
    rw [List.length_set]
    exact h.begun j c hmem
  toDo := by
    intro j q c hj hq
    rcases List.getElem?_set_cases hj with ⟨rfl, rfl⟩ | ⟨-, hj⟩
    · exact h.toDo _ p c hi (htoDo ▸ hq)
    · exact h.toDo j q c hj hq
  answer := by
    intro j q o hj hq
    rcases List.getElem?_set_cases hj with ⟨rfl, rfl⟩ | ⟨-, hj⟩
    · exact h.answer _ p o hi (hanswer ▸ hq)
    · exact h.answer j q o hj hq

theorem effect (h : Tracks calls history order) (hi : calls[i]? = some p) {c : Call}
    (hc : p.toDo = some c) (htoDo : p'.toDo = none)
    (hanswer : p'.answer = some (memory.step (memory.run .empty (order.map Placed.call)) c).2) :
    Tracks (calls.set i p') history
      (order ++ [⟨i, c, (memory.step (memory.run .empty (order.map Placed.call)) c).2⟩]) where
  lin := h.lin.effect (h.toDo i p c hi hc).2.1 (h.toDo i p c hi hc).2.2
  begun := by
    intro j c' hmem
    rw [List.length_set]
    exact h.begun j c' hmem
  toDo := by
    intro j q c' hj hq
    rcases List.getElem?_set_cases hj with ⟨rfl, rfl⟩ | ⟨hne, hj⟩
    · rw [htoDo] at hq
      cases hq
    · obtain ⟨hkeyed, hmem, hnew⟩ := h.toDo j q c' hj hq
      refine ⟨hkeyed, hmem, ?_⟩
      intro e he
      rcases List.mem_append.1 he with he | he
      · exact hnew e he
      · obtain rfl := List.mem_singleton.1 he
        exact Ne.symm hne
  answer := by
    intro j q o hj hq
    rcases List.getElem?_set_cases hj with ⟨rfl, rfl⟩ | ⟨-, hj⟩
    · obtain rfl := Option.some.inj (hanswer.symm.trans hq)
      exact ⟨c, by simp⟩
    · obtain ⟨c', hc'⟩ := h.answer j q o hj hq
      exact ⟨c', List.mem_append_left _ hc'⟩

theorem ret (h : Tracks calls history order) {o : Answer} (hi : calls[i]? = some (.finished o)) :
    Tracks (calls.set i .returned) (history ++ [.returned i o]) order := by
  obtain ⟨c, hc⟩ := h.answer i _ o hi rfl
  refine ⟨h.lin.finish hc, ?_, ?_, ?_⟩
  · intro j c' hmem
    simp only [List.mem_append, List.mem_singleton, reduceCtorEq, or_false] at hmem
    rw [List.length_set]
    exact h.begun j c' hmem
  · intro j q c' hj hq
    rcases List.getElem?_set_cases hj with ⟨rfl, rfl⟩ | ⟨-, hj⟩
    · cases hq
    · obtain ⟨hkeyed, hmem, hnew⟩ := h.toDo j q c' hj hq
      exact ⟨hkeyed, List.mem_append_left _ hmem, hnew⟩
  · intro j q o' hj hq
    rcases List.getElem?_set_cases hj with ⟨rfl, rfl⟩ | ⟨-, hj⟩
    · cases hq
    · exact h.answer j q o' hj hq

end Tracks

/-! ### The calls that matter for a key -/

/-- The call is between two steps for this key. -/
def Progress.About (key : String) : Progress → Prop
  | written k _ _ => k = key
  | forgotten k _ => k = key
  | _ => False

/-- The call has a height of this key to record. -/
def Progress.Records (key : String) : Progress → Prop
  | written k _ _ => k = key
  | _ => False

/-- The calls that have come so far are the same. -/
def SameOn (Q : Progress → Prop) (calls calls' : List Progress) : Prop :=
  ∀ (j : ℕ) (p : Progress), Q p → (calls'[j]? = some p ↔ calls[j]? = some p)

section

variable {Q : Progress → Prop} {calls calls' : List Progress} {key : String} {i : ℕ}
  {p p' : Progress} {b b' : Blobs AbsPath}

theorem sameOn_set (hi : calls[i]? = some p) (hp : ¬ Q p) (hp' : ¬ Q p') :
    SameOn Q calls (calls.set i p') := by
  intro j q hq
  constructor
  · intro hj
    rcases List.getElem?_set_cases hj with ⟨-, rfl⟩ | ⟨-, hj⟩
    · exact absurd hq hp'
    · exact hj
  · intro hj
    have hne : i ≠ j := by
      rintro rfl
      obtain rfl := Option.some.inj (hi.symm.trans hj)
      exact hp hq
    rwa [List.getElem?_set_ne hne]

theorem sameOn_concat (hp : ¬ Q p) : SameOn Q calls (calls ++ [p]) := by
  intro j q hq
  constructor
  · intro hj
    rcases List.getElem?_concat_cases hj with hj | ⟨-, rfl⟩
    · exact hj
    · exact absurd hq hp
  · intro hj
    rwa [List.getElem?_append_left (List.getElem?_eq_some_iff.1 hj).1]

theorem SameOn.records (h : SameOn (Progress.About key) calls calls') :
    SameOn (Progress.Records key) calls calls' := by
  intro j q hq
  cases q with
  | written k d n => exact h j _ hq
  | _ => cases hq

theorem SameOn.waits (h : SameOn (Progress.Records key) calls calls') :
    Waits calls' key ↔ Waits calls key :=
  exists_congr fun j => exists_congr fun d => exists_congr fun n => h j (.written key d n) rfl

theorem SameOn.latest (h : SameOn (Progress.Records key) calls calls') (d : UInt64) :
    Latest calls' key d ↔ Latest calls key d := by
  refine exists_congr fun i => exists_congr fun n => and_congr (h i (.written key d n) rfl) ?_
  exact forall_congr' fun j => forall_congr' fun d' => forall_congr' fun m =>
    imp_congr_left (h j (.written key d' m) rfl)

theorem SameOn.taken (h : SameOn (Progress.About key) calls calls')
    (hb : ∀ d, (key, d) ∈ b'.dah ↔ (key, d) ∈ b.dah) (d : UInt64) :
    Taken b' calls' key d ↔ Taken b calls key d := by
  refine and_congr (not_congr h.records.waits) (and_congr ?_ ?_)
  · exact forall_congr' fun d' => not_congr (hb d')
  · exact exists_congr fun j => exists_congr fun taken =>
      and_congr_left' (h j (.forgotten key taken) rfl)

theorem exists_latest {writes : ℕ} (hwaits : Waits calls key)
    (hlt : ∀ (j : ℕ) (d : UInt64) (n : ℕ), calls[j]? = some (.written key d n) → n < writes) :
    ∃ d, Latest calls key d := by
  classical
  obtain ⟨i, d, n, hi⟩ := hwaits
  let IsWrite : ℕ → Prop := fun n => ∃ (i : ℕ) (d : UInt64), calls[i]? = some (.written key d n)
  have hgreatest : IsWrite (Nat.findGreatest IsWrite writes) :=
    Nat.findGreatest_spec (hlt i d n hi).le ⟨i, d, hi⟩
  obtain ⟨j, d', hj⟩ := hgreatest
  refine ⟨d', j, _, hj, ?_⟩
  intro k d'' m hk
  exact Nat.le_findGreatest (hlt k d'' m hk).le ⟨k, d'', hk⟩

end

/-! ### The heights -/

/-- The memory store has the height of a key that the file store has, or is going to have. -/
structure Heights (b : Blobs AbsPath) (calls : List Progress) (a : Blobs String) (key : String) :
    Prop where
  due : ∀ d, (key, d) ∈ a.dah →
    Latest calls key d ∨ ¬ Waits calls key ∧ (key, d) ∈ b.dah ∨ Taken b calls key d
  latest : ∀ d, Latest calls key d → (key, d) ∈ a.dah
  settled : ¬ Waits calls key → ∀ d, (key, d) ∈ b.dah → (key, d) ∈ a.dah

/-- The writes are numbered. -/
structure Numbered (calls : List Progress) (writes : ℕ) : Prop where
  lt : ∀ (i : ℕ) (key : String) (d : UInt64) (n : ℕ), calls[i]? = some (.written key d n) →
    IsKey key ∧ n < writes
  inj : ∀ (i j : ℕ) (key key' : String) (d d' : UInt64) (n : ℕ),
    calls[i]? = some (.written key d n) → calls[j]? = some (.written key' d' n) → i = j

/-- The memory store has the blobs of the file store, and its heights. -/
structure Agrees (dir : AbsPath) (b : Blobs AbsPath) (calls : List Progress) (writes : ℕ)
    (a : Blobs String) : Prop where
  numbered : Numbered calls writes
  keys : ∀ e ∈ b.dah, IsKey e.1
  blob : ∀ key, IsKey key → b.blob (dir.join key) = a.blob key
  heights : ∀ key, Heights b calls a key

section

variable {dir : AbsPath} {b b' : Blobs AbsPath} {calls calls' : List Progress} {writes : ℕ}
  {a a' : Blobs String} {key : String} {i : ℕ} {p p' : Progress}

theorem Heights.congr (h : Heights b calls a key) (hsame : SameOn (Progress.About key) calls calls')
    (hb : ∀ d, (key, d) ∈ b'.dah ↔ (key, d) ∈ b.dah)
    (ha : ∀ d, (key, d) ∈ a'.dah ↔ (key, d) ∈ a.dah) : Heights b' calls' a' key where
  due := by
    intro d hd
    rw [hsame.records.latest, hsame.records.waits, hb, hsame.taken hb]
    exact h.due d ((ha d).1 hd)
  latest := by
    intro d hd
    rw [hsame.records.latest] at hd
    exact (ha d).2 (h.latest d hd)
  settled := by
    intro hwaits d hd
    rw [hsame.records.waits] at hwaits
    exact (ha d).2 (h.settled hwaits d ((hb d).1 hd))

theorem Numbered.mono (h : Numbered calls writes)
    (hsub : ∀ (j : ℕ) (k : String) (d : UInt64) (n : ℕ), calls'[j]? = some (.written k d n) →
      calls[j]? = some (.written k d n)) {writes' : ℕ} (hle : writes ≤ writes') :
    Numbered calls' writes' where
  lt := by
    intro j k d n hj
    obtain ⟨hkey, hlt⟩ := h.lt j k d n (hsub j k d n hj)
    exact ⟨hkey, hlt.trans_le hle⟩
  inj := fun j₁ j₂ k₁ k₂ d₁ d₂ n h₁ h₂ =>
    h.inj j₁ j₂ k₁ k₂ d₁ d₂ n (hsub j₁ k₁ d₁ n h₁) (hsub j₂ k₂ d₂ n h₂)

theorem Numbered.set (h : Numbered calls writes) (hp' : ∀ k d n, p' ≠ .written k d n) :
    Numbered (calls.set i p') writes := by
  refine h.mono ?_ le_rfl
  intro j k d n hj
  rcases List.getElem?_set_cases hj with ⟨-, heq⟩ | ⟨-, hj⟩
  · exact absurd heq.symm (hp' k d n)
  · exact hj

theorem Numbered.write (h : Numbered calls writes) (hkey : IsKey key) (d : UInt64) :
    Numbered (calls.set i (.written key d writes)) (writes + 1) where
  lt := by
    intro j k d' n hj
    rcases List.getElem?_set_cases hj with ⟨-, heq⟩ | ⟨-, hj⟩
    · obtain ⟨rfl, -, rfl⟩ := Progress.written.inj heq
      exact ⟨hkey, Nat.lt_succ_self _⟩
    · obtain ⟨hk, hlt⟩ := h.lt j k d' n hj
      exact ⟨hk, Nat.lt_succ_of_lt hlt⟩
  inj := by
    intro j₁ j₂ k₁ k₂ d₁ d₂ n h₁ h₂
    rcases List.getElem?_set_cases h₁ with ⟨hj₁, heq₁⟩ | ⟨-, hold₁⟩
    · rcases List.getElem?_set_cases h₂ with ⟨hj₂, -⟩ | ⟨-, hold₂⟩
      · exact hj₁.trans hj₂.symm
      · obtain ⟨-, -, rfl⟩ := Progress.written.inj heq₁
        exact absurd (h.lt j₂ k₂ d₂ n hold₂).2 (lt_irrefl n)
    · rcases List.getElem?_set_cases h₂ with ⟨-, heq₂⟩ | ⟨-, hold₂⟩
      · obtain ⟨-, -, rfl⟩ := Progress.written.inj heq₂
        exact absurd (h.lt j₁ k₁ d₁ n hold₁).2 (lt_irrefl n)
      · exact h.inj j₁ j₂ k₁ k₂ d₁ d₂ n hold₁ hold₂

namespace Agrees

theorem invoke (h : Agrees dir b calls writes a) (c : Call) :
    Agrees dir b (calls ++ [.invoked c]) writes a where
  numbered := by
    refine h.numbered.mono ?_ le_rfl
    intro j k d n hj
    rcases List.getElem?_concat_cases hj with hj | ⟨-, heq⟩
    · exact hj
    · cases heq
  keys := h.keys
  blob := h.blob
  heights := fun k => (h.heights k).congr (sameOn_concat id) (fun _ => Iff.rfl) fun _ => Iff.rfl

/-- A call goes on, and is between two steps for no key, before and after. -/
theorem move (h : Agrees dir b calls writes a) (hi : calls[i]? = some p)
    (hp : ∀ k, ¬ p.About k) (hp' : ∀ k, ¬ p'.About k) :
    Agrees dir b (calls.set i p') writes a where
  numbered := by
    refine h.numbered.set ?_
    rintro k d n rfl
    exact hp' k rfl
  keys := h.keys
  blob := h.blob
  heights := fun k =>
    (h.heights k).congr (sameOn_set hi (hp k) (hp' k)) (fun _ => Iff.rfl) fun _ => Iff.rfl

theorem succ (h : Agrees dir b calls writes a) : Agrees dir b calls (writes + 1) a :=
  { h with numbered := h.numbered.mono (fun _ _ _ _ hj => hj) (Nat.le_succ writes) }

theorem write (h : Agrees dir b calls writes a) (hkey : IsKey key) (data : List UInt8) :
    Agrees dir (b.write dir.join key data) calls writes (a.write id key data) where
  numbered := h.numbered
  keys := h.keys
  blob := by
    intro k hk
    rw [Blobs.blob_write, Blobs.blob_write, h.blob k hk]
    exact if_congr (join_inj dir hk hkey) rfl rfl
  heights := fun k =>
    (h.heights k).congr (fun _ _ _ => Iff.rfl) (fun _ => Iff.rfl) fun _ => Iff.rfl

section

variable (hi : calls[i]? = some p) (hp : ∀ k, ¬ p.About k)

include hi

theorem heights_wait (hnumbered : Numbered calls writes) (d : UInt64) :
    Heights b (calls.set i (.written key d writes)) (a.record key d) key := by
  have hset : (calls.set i (.written key d writes))[i]? = some (.written key d writes) :=
    List.getElem?_set_self (List.getElem?_eq_some_iff.1 hi).1
  refine ⟨?_, ?_, ?_⟩
  · intro d' hd'
    obtain rfl := Blobs.mem_record_self.1 hd'
    refine .inl ⟨i, writes, hset, ?_⟩
    intro j d'' m hj
    rcases List.getElem?_set_cases hj with ⟨-, heq⟩ | ⟨-, hj⟩
    · exact (Progress.written.inj heq).2.2.le
    · exact (hnumbered.lt j key d'' m hj).2.le
  · rintro d' ⟨j, n, hj, hmax⟩
    rw [Blobs.mem_record_self]
    rcases List.getElem?_set_cases hj with ⟨-, heq⟩ | ⟨-, hold⟩
    · exact (Progress.written.inj heq).2.1
    · exact absurd (hmax i d writes hset) (not_le.2 (hnumbered.lt j key d' n hold).2)
  · intro hwaits
    exact absurd ⟨i, d, writes, hset⟩ hwaits

include hp

theorem wait (h : Agrees dir b calls writes a) (hkey : IsKey key) (d : UInt64) :
    Agrees dir b (calls.set i (.written key d writes)) (writes + 1) (a.record key d) where
  numbered := h.numbered.write hkey d
  keys := h.keys
  blob := h.blob
  heights := by
    intro k
    by_cases hk : k = key
    · subst hk
      exact heights_wait hi h.numbered d
    · exact (h.heights k).congr (sameOn_set hi (hp k) (Ne.symm hk)) (fun _ => Iff.rfl) fun _ =>
        Blobs.mem_record_of_ne hk

theorem heights_forget (h : Heights b calls a key) :
    Heights (b.forget key)
      (calls.set i (.forgotten key (b.dah.filter fun e => e.1 = key))) a key := by
  have hset : (calls.set i (.forgotten key (b.dah.filter fun e => e.1 = key)))[i]? =
      some (.forgotten key (b.dah.filter fun e => e.1 = key)) :=
    List.getElem?_set_self (List.getElem?_eq_some_iff.1 hi).1
  have hnone : ∀ d, (key, d) ∉ (b.forget key).dah := fun d hd => (Blobs.mem_forget.1 hd).2 rfl
  have hsame : SameOn (Progress.Records key) calls
      (calls.set i (.forgotten key (b.dah.filter fun e => e.1 = key))) := by
    refine sameOn_set hi ?_ id
    intro hrecords
    cases p with
    | written k d n => exact hp key hrecords
    | _ => cases hrecords
  refine ⟨?_, ?_, ?_⟩
  · intro d hd
    rw [hsame.latest, hsame.waits]
    rcases h.due d hd with hlatest | ⟨hwaits, hmem⟩ | ⟨hwaits, -, j, taken, hj, hmem⟩
    · exact .inl hlatest
    · refine .inr (.inr ⟨hsame.waits.not.2 hwaits, hnone, i, _, hset, ?_⟩)
      exact List.mem_filter.2 ⟨hmem, by simp⟩
    · refine .inr (.inr ⟨hsame.waits.not.2 hwaits, hnone, j, taken, ?_, hmem⟩)
      have hne : i ≠ j := by
        rintro rfl
        obtain rfl := Option.some.inj (hi.symm.trans hj)
        exact hp key rfl
      rwa [List.getElem?_set_ne hne]
  · intro d hd
    exact h.latest d ((hsame.latest d).1 hd)
  · intro _ d hd
    exact absurd hd (hnone d)

theorem forget (h : Agrees dir b calls writes a) :
    Agrees dir (b.forget key)
      (calls.set i (.forgotten key (b.dah.filter fun e => e.1 = key))) writes a where
  numbered := h.numbered.set fun _ _ _ heq => by cases heq
  keys := fun e he => h.keys e (Blobs.mem_forget.1 he).1
  blob := h.blob
  heights := by
    intro k
    by_cases hk : k = key
    · subst hk
      exact heights_forget hi hp (h.heights k)
    · have hb : ∀ d, (k, d) ∈ (b.forget key).dah ↔ (k, d) ∈ b.dah := by
        intro d
        rw [Blobs.mem_forget]
        exact and_iff_left hk
      exact (h.heights k).congr (sameOn_set hi (hp k) (Ne.symm hk)) hb fun _ => Iff.rfl

end

theorem remove (h : Agrees dir b calls writes a) (hkey : IsKey key)
    {taken : List (String × UInt64)} (hi : calls[i]? = some (.forgotten key taken))
    (hwaits : ¬ Waits calls key) (hnone : ∀ d, (key, d) ∉ b.dah) :
    Agrees dir (b.remove dir.join key) (calls.set i (.finished .ok)) writes
      ((a.forget key).remove id key) where
  numbered := h.numbered.set fun _ _ _ heq => by cases heq
  keys := h.keys
  blob := by
    intro k hk
    rw [Blobs.blob_remove, Blobs.blob_remove, h.blob k hk]
    exact if_congr (join_inj dir hk hkey) rfl rfl
  heights := by
    intro k
    by_cases hk : k = key
    · subst hk
      have hsame : SameOn (Progress.Records k) calls (calls.set i (.finished .ok)) :=
        sameOn_set hi id id
      refine ⟨?_, ?_, ?_⟩
      · intro d hd
        exact absurd rfl (Blobs.mem_forget.1 hd).2
      · rintro d hlatest
        obtain ⟨j, n, hj, -⟩ := (hsame.latest d).1 hlatest
        exact absurd ⟨j, d, n, hj⟩ hwaits
      · intro _ d hd
        exact absurd hd (hnone d)
    · have ha : ∀ d, (k, d) ∈ ((a.forget key).remove id key).dah ↔ (k, d) ∈ a.dah := by
        intro d
        exact Blobs.mem_forget.trans (and_iff_left hk)
      exact (h.heights k).congr (sameOn_set hi (Ne.symm hk) id) (fun _ => Iff.rfl) ha

section

variable {d : UInt64} {n : ℕ} (hi : calls[i]? = some (.written key d n))

include hi

theorem written_rest (hnumbered : Numbered calls writes) {j : ℕ} {d' : UInt64} {m : ℕ}
    (hj : (calls.set i (.finished .ok))[j]? = some (.written key d' m)) :
    calls[j]? = some (.written key d' m) ∧ m ≠ n := by
  rcases List.getElem?_set_cases hj with ⟨-, heq⟩ | ⟨hne, hj⟩
  · cases heq
  · refine ⟨hj, ?_⟩
    rintro rfl
    exact hne (hnumbered.inj j i key key d' d m hj hi)

theorem written_le {m : ℕ} (hn : n ≤ m)
    (hrest : ∀ (j : ℕ) (d' : UInt64) (m' : ℕ),
      (calls.set i (.finished .ok))[j]? = some (.written key d' m') → m' ≤ m) :
    ∀ (j : ℕ) (d' : UInt64) (m' : ℕ), calls[j]? = some (.written key d' m') → m' ≤ m := by
  intro j d' m' hj
  by_cases hji : j = i
  · subst hji
    obtain ⟨-, -, rfl⟩ := Progress.written.inj (Option.some.inj (hj.symm.trans hi))
    exact hn
  · exact hrest j d' m' (by rwa [List.getElem?_set_ne (Ne.symm hji)])

/-- A `Set` records the height of the key, in the order of the writes. -/
theorem heights_record (h : Heights b calls a key) (hnumbered : Numbered calls writes)
    (hearlier : ∀ (j : ℕ) (d' : UInt64) (m : ℕ), calls[j]? = some (.written key d' m) → m < n →
      d' = d) : Heights (b.record key d) (calls.set i (.finished .ok)) a key where
  due := by
    intro d' hd'
    have hwaits : Waits calls key := ⟨i, d, n, hi⟩
    rcases h.due d' hd' with ⟨j, m, hj, hmax⟩ | ⟨hnot, -⟩ | ⟨hnot, -⟩
    · by_cases hji : j = i
      · -- it wrote last, and the others have the same height
        subst hji
        obtain ⟨-, rfl, rfl⟩ := Progress.written.inj (Option.some.inj (hj.symm.trans hi))
        by_cases hrest : Waits (calls.set j (.finished .ok)) key
        · obtain ⟨d'', j', m', hj', hmax'⟩ := exists_latest hrest fun j' d'' m' hj' =>
            (hnumbered.lt j' key d'' m' (written_rest hi hnumbered hj').1).2
          obtain ⟨hold, hne⟩ := written_rest hi hnumbered hj'
          obtain rfl := hearlier j' d'' m' hold (lt_of_le_of_ne (hmax j' d'' m' hold) hne)
          exact .inl ⟨j', m', hj', hmax'⟩
        · exact .inr (.inl ⟨hrest, Blobs.mem_record_self.2 rfl⟩)
      · refine .inl ⟨j, m, by rwa [List.getElem?_set_ne (Ne.symm hji)], ?_⟩
        intro j' d'' m' hj'
        exact hmax j' d'' m' (written_rest hi hnumbered hj').1
    · exact absurd hwaits hnot
    · exact absurd hwaits hnot
  latest := by
    rintro d' ⟨j, m, hj, hmax⟩
    obtain ⟨hold, hne⟩ := written_rest hi hnumbered hj
    rcases Nat.lt_or_gt_of_ne hne with hlt | hgt
    · -- it wrote last
      obtain rfl := hearlier j d' m hold hlt
      exact h.latest d' ⟨i, n, hi,
        written_le hi le_rfl fun j' d'' m' hj' => (hmax j' d'' m' hj').trans hlt.le⟩
    · exact h.latest d' ⟨j, m, hold, written_le hi hgt.le hmax⟩
  settled := by
    intro hnot d' hd'
    obtain rfl := Blobs.mem_record_self.1 hd'
    exact h.latest d' ⟨i, n, hi,
      written_le hi le_rfl fun j d'' m hj => absurd ⟨j, d'', m, hj⟩ hnot⟩

theorem record (h : Agrees dir b calls writes a)
    (hearlier : ∀ (j : ℕ) (d' : UInt64) (m : ℕ), calls[j]? = some (.written key d' m) → m < n →
      d' = d) :
    Agrees dir (b.record key d) (calls.set i (.finished .ok)) writes a where
  numbered := h.numbered.set fun _ _ _ heq => by cases heq
  keys := by
    intro e he
    rcases Blobs.mem_record.1 he with rfl | ⟨he, -⟩
    · exact (h.numbered.lt i key d n hi).1
    · exact h.keys e he
  blob := h.blob
  heights := by
    intro k
    by_cases hk : k = key
    · subst hk
      exact heights_record hi (h.heights k) h.numbered hearlier
    · exact (h.heights k).congr (sameOn_set hi (Ne.symm hk) id)
        (fun _ => Blobs.mem_record_of_ne hk) fun _ => Iff.rfl

end

section

variable {height : UInt64}

theorem reaches_iff (h : Agrees dir b calls writes a) (ha : Coherent a)
    (hrecorded : ∀ key d, (key, d) ∈ b.dah → Waits calls key → height < d)
    (hpending : ∀ key d, Latest calls key d ∨ Taken b calls key d →
      b.blob (dir.join key) ≠ none → height < d) (hkey : IsKey key) :
    Blobs.Reaches dir.join b height (dir.join key) ↔ Blobs.Reaches id a height key := by
  constructor
  · rintro ⟨⟨k, d⟩, hd, hle, hpath⟩
    obtain rfl := (join_inj dir (h.keys _ hd) hkey).1 hpath
    have hwaits : ¬ Waits calls k := fun hwaits =>
      absurd (hrecorded k d hd hwaits) (UInt64.not_lt.2 hle)
    exact ⟨(k, d), (h.heights k).settled hwaits d hd, hle, rfl⟩
  · rintro ⟨⟨k, d⟩, hd, hle, rfl⟩
    have hblob : b.blob (dir.join k) ≠ none := by
      rw [h.blob k hkey]
      exact ha.blob k d hd
    rcases (h.heights k).due d hd with hlatest | ⟨-, hmem⟩ | htaken
    · exact absurd (hpending k d (.inl hlatest) hblob) (UInt64.not_lt.2 hle)
    · exact ⟨(k, d), hmem, hle, rfl⟩
    · exact absurd (hpending k d (.inr htaken) hblob) (UInt64.not_lt.2 hle)

theorem prune (h : Agrees dir b calls writes a) (ha : Coherent a)
    (hrecorded : ∀ key d, (key, d) ∈ b.dah → Waits calls key → height < d)
    (hpending : ∀ key d, Latest calls key d ∨ Taken b calls key d →
      b.blob (dir.join key) ≠ none → height < d) :
    Agrees dir (b.setCurrentBlockHeight dir.join height fun _ => true) calls writes
      (a.setCurrentBlockHeight id height fun _ => true) where
  numbered := h.numbered
  keys := fun e he => h.keys e (Blobs.mem_dah_setCurrentBlockHeight.1 he).1
  blob := by
    intro k hk
    have hiff := h.reaches_iff ha hrecorded hpending hk
    by_cases hreaches : Blobs.Reaches id a height k
    · rw [Blobs.blob_of_reaches hreaches, Blobs.blob_of_reaches (hiff.2 hreaches)]
    · rw [Blobs.blob_of_not_reaches hreaches, Blobs.blob_of_not_reaches (hiff.not.2 hreaches)]
      exact h.blob k hk
  heights := by
    intro k
    refine ⟨?_, ?_, ?_⟩
    · intro d hd
      obtain ⟨hd, hlt⟩ := Blobs.mem_dah_setCurrentBlockHeight.1 hd
      rcases (h.heights k).due d hd with hlatest | ⟨hwaits, hmem⟩ | ⟨hwaits, hnone, htaken⟩
      · exact .inl hlatest
      · exact .inr (.inl ⟨hwaits, Blobs.mem_dah_setCurrentBlockHeight.2 ⟨hmem, hlt⟩⟩)
      · refine .inr (.inr ⟨hwaits, ?_, htaken⟩)
        intro d' hd'
        exact hnone d' (Blobs.mem_dah_setCurrentBlockHeight.1 hd').1
    · intro d hlatest
      have hd := (h.heights k).latest d hlatest
      obtain ⟨j, n, hj, -⟩ := id hlatest
      have hblob : b.blob (dir.join k) ≠ none := by
        rw [h.blob k (h.numbered.lt j k d n hj).1]
        exact ha.blob k d hd
      exact Blobs.mem_dah_setCurrentBlockHeight.2 ⟨hd, hpending k d (.inl hlatest) hblob⟩
    · intro hwaits d hd
      obtain ⟨hd, hlt⟩ := Blobs.mem_dah_setCurrentBlockHeight.1 hd
      exact Blobs.mem_dah_setCurrentBlockHeight.2 ⟨(h.heights k).settled hwaits d hd, hlt⟩

end

end Agrees

/-! ### The simulation -/

/-- The memory store does the calls in some order, and agrees with the file store. -/
def Follows (dir : AbsPath) (s : State) : Prop :=
  ∃ order, Tracks s.calls s.history order ∧
    Agrees dir s.blobs s.calls s.writes (memory.run .empty (order.map Placed.call))

theorem follows_init (dir : AbsPath) : Follows dir .init := by
  have hnowaits : ∀ key, ¬ Waits [] key := by
    rintro key ⟨i, d, n, hi⟩
    cases hi
  refine ⟨[], ⟨.nil, ?_, ?_, ?_⟩, ⟨⟨?_, ?_⟩, ?_, fun _ _ => rfl, ?_⟩⟩
  · intro i c hmem
    cases hmem
  · intro i p c hi
    cases hi
  · intro i p o hi
    cases hi
  · intro i key d n hi
    cases hi
  · intro i j key key' d d' n hi
    cases hi
  · intro e he
    cases he
  · intro key
    refine ⟨?_, ?_, ?_⟩
    · intro d hd
      cases hd
    · rintro d ⟨i, n, hi, -⟩
      exact absurd ⟨i, d, n, hi⟩ (hnowaits key)
    · intro _ d hd
      cases hd

theorem follows_effect {s : State} {order : List (Placed Call Answer)} {c : Call}
    (h : Tracks s.calls s.history order) (hi : s.calls[i]? = some p) (hc : p.toDo = some c)
    (htoDo : p'.toDo = none)
    (hanswer : p'.answer = some (memory.step (memory.run .empty (order.map Placed.call)) c).2)
    (hagrees : Agrees dir b (s.calls.set i p') writes
      (memory.step (memory.run .empty (order.map Placed.call)) c).1) :
    Follows dir ⟨b, s.calls.set i p', writes, s.history⟩ := by
  refine ⟨_, h.effect hi hc htoDo hanswer, ?_⟩
  rw [List.map_append, Mealy.run_append]
  exact hagrees

theorem Follows.write {s : State} (h : Follows dir s) {data : List UInt8} {d : UInt64}
    (hi : s.calls[i]? = some p) (hp : ∀ k, ¬ p.About k) (hc : p.toDo = some (.set key data d)) :
    Follows dir (s.write dir i key data d) := by
  obtain ⟨order, htracks, hagrees⟩ := h
  have hkey : IsKey key := (htracks.toDo i p _ hi hc).1
  have hwrite := hagrees.write hkey data
  by_cases hd : 0 < d
  · simp only [State.write, hd, ↓reduceIte]
    refine follows_effect htracks hi hc rfl rfl ?_
    rw [step_set, if_pos hd]
    exact Agrees.wait hi hp hwrite hkey d
  · simp only [State.write, hd, ↓reduceIte]
    refine follows_effect htracks hi hc rfl rfl ?_
    rw [step_set, if_neg hd]
    exact (hwrite.move hi hp fun _ => id).succ

theorem Follows.advance {s s' : State} (h : Follows dir s) (hi : s.calls[i]? = some p)
    (hpermits : Permits dir s p) (hst : s.advance dir i p = some s') : Follows dir s' := by
  obtain ⟨order, htracks, hagrees⟩ := id h
  cases p with
  | invoked c =>
    have hp : ∀ k, ¬ (Progress.invoked c).About k := fun k => id
    cases c with
    | set key data d =>
      simp only [State.advance] at hst
      split_ifs at hst
      · obtain rfl := Option.some.inj hst
        exact ⟨order, htracks.move hi rfl rfl, hagrees.move hi hp fun _ => id⟩
      · obtain rfl := Option.some.inj hst
        exact h.write hi hp rfl
    | get key =>
      obtain rfl := Option.some.inj hst
      have hkey : IsKey key := (htracks.toDo i _ _ hi rfl).1
      refine follows_effect htracks hi rfl rfl ?_ (hagrees.move hi hp fun _ => id)
      exact congrArg (fun o => some (Answer.blob o)) (hagrees.blob key hkey)
    | del key =>
      obtain rfl := Option.some.inj hst
      exact ⟨order, htracks.move hi rfl rfl, Agrees.forget hi hp hagrees⟩
    | setCurrentBlockHeight height =>
      obtain rfl := Option.some.inj hst
      have hprune := hagrees.prune (coherent_run _) hpermits.1 hpermits.2
      exact follows_effect htracks hi rfl rfl rfl (hprune.move hi hp fun _ => id)
  | parented key data d =>
    obtain rfl := Option.some.inj hst
    exact h.write hi (fun _ => id) rfl
  | written key d n =>
    obtain rfl := Option.some.inj hst
    exact ⟨order, htracks.move hi rfl rfl, Agrees.record hi hagrees hpermits⟩
  | forgotten key taken =>
    obtain rfl := Option.some.inj hst
    have hkey : IsKey key := (htracks.toDo i _ _ hi rfl).1
    refine follows_effect htracks hi rfl rfl rfl ?_
    rw [step_del]
    exact hagrees.remove hkey hi hpermits.1 hpermits.2
  | finished answer => cases hst
  | returned => cases hst

/-- **Every permitted step is one of the memory store, or nothing to see.** -/
theorem Follows.step {s s' : State} {l : Label} (h : Follows dir s) (hkeyed : l.Keyed)
    (hpermitted : s.Permitted dir l) (hst : (system dir).step s l = some s') : Follows dir s' := by
  cases l with
  | invoke c =>
    obtain ⟨order, htracks, hagrees⟩ := h
    obtain rfl := Option.some.inj hst
    exact ⟨order, htracks.invoke hkeyed, hagrees.invoke c⟩
  | step i =>
    obtain ⟨p, hi, hst⟩ := Option.bind_eq_some_iff.1 hst
    exact h.advance hi (hpermitted p hi) hst
  | ret i =>
    obtain ⟨order, htracks, hagrees⟩ := h
    simp only [system, State.step] at hst
    split at hst
    next answer hi =>
      obtain rfl := Option.some.inj hst
      exact ⟨order, htracks.ret hi, hagrees.move hi (fun _ => id) fun _ => id⟩
    next => cases hst

end

/-! ### What was stored is read back -/

/-- A `Set` or `Del` of the key, or a height that reaches `d`. -/
def Call.Touches (key : String) (d : UInt64) : Call → Prop
  | set k _ _ => k = key
  | get _ => False
  | del k => k = key
  | setCurrentBlockHeight height => d ≤ height

/-- After a `Set` has returned, `Get` returns what it stored, if the other calls that touch the key
had all returned before. -/
def ReadsBack (history : List (Event Call Answer)) : Prop :=
  ∀ i key data d j o, .invoked i (.set key data d) ∈ history →
    [.returned i .ok, .invoked j (.get key)].Sublist history → .returned j o ∈ history →
    (∀ k c, .invoked k c ∈ history → k ≠ i → c.Touches key d →
      ∃ o', [.returned k o', .invoked i (.set key data d)].Sublist history) →
    o = .blob (some data)

/-- The blob is there, with no other height than `d`. -/
structure Kept (key : String) (data : List UInt8) (d : UInt64) (a : Blobs String) : Prop where
  blob : a.blob key = some data
  height : 0 < d → ∀ d', (key, d') ∈ a.dah → d' = d

section

variable {key : String} {data : List UInt8} {d : UInt64} {a : Blobs String}

theorem kept_set (a : Blobs String) :
    Kept key data d (memory.step a (.set key data d)).1 := by
  have hblob : (a.write id key data).blob key = some data := by
    rw [Blobs.blob_write]
    exact if_pos rfl
  rw [step_set]
  split_ifs with hd
  · exact ⟨hblob, fun _ d' hd' => Blobs.mem_record_self.1 hd'⟩
  · exact ⟨hblob, fun hd' => absurd hd' hd⟩

theorem Kept.step (h : Kept key data d a) {c : Call} (hc : ¬ c.Touches key d) :
    Kept key data d (memory.step a c).1 := by
  cases c with
  | set k data' d' =>
    have hk : key ≠ k := fun heq => hc heq.symm
    have hblob : (a.write id k data').blob key = some data := by
      rw [Blobs.blob_write]
      exact (if_neg hk).trans h.blob
    rw [step_set]
    split_ifs
    · exact ⟨hblob, fun hd d'' hd'' => h.height hd d'' ((Blobs.mem_record_of_ne hk).1 hd'')⟩
    · exact ⟨hblob, h.height⟩
  | get k => exact h
  | del k =>
    have hk : key ≠ k := fun heq => hc heq.symm
    rw [step_del]
    refine ⟨?_, fun hd d' hd' => h.height hd d' (Blobs.mem_forget.1 hd').1⟩
    rw [Blobs.blob_remove]
    exact (if_neg hk).trans h.blob
  | setCurrentBlockHeight height =>
    have hlt : height < d := UInt64.not_le.1 hc
    have hpos : 0 < d := UInt64.lt_of_le_of_lt UInt64.zero_le hlt
    have hnot : ¬ Blobs.Reaches id a height key := by
      rintro ⟨⟨k, d'⟩, hd', hle, rfl⟩
      rw [h.height hpos d' hd'] at hle
      exact hc hle
    refine ⟨(Blobs.blob_of_not_reaches hnot).trans h.blob, ?_⟩
    intro hd d' hd'
    exact h.height hd d' (Blobs.mem_dah_setCurrentBlockHeight.1 hd').1

end

theorem readsBack_of_linearizable {history : List (Event Call Answer)}
    (h : Linearizable memory .empty history) : ReadsBack history := by
  intro i key data d j o hi hbefore hj htouch
  obtain ⟨order, hlin⟩ := h
  obtain ⟨pre, mid, post, rfl⟩ := hlin.exists_append hi hbefore hj
  -- nothing between the two calls touches the key
  have hmid : ∀ c ∈ mid.map Placed.call, ¬ c.Touches key d := by
    intro c hc htouches
    obtain ⟨e, he, rfl⟩ := List.mem_map.1 hc
    have hrest : e ∈ mid ++ ⟨j, .get key, o⟩ :: post := List.mem_append_left _ he
    have hne : e.id ≠ i := by
      intro hid
      have hnd := hlin.nodup
      rw [List.map_append, List.map_cons, List.nodup_append, List.nodup_cons] at hnd
      exact hnd.2.1.1 (List.mem_map.2 ⟨e, hrest, hid⟩)
    have hinvoked := hlin.invoked e (List.mem_append_right _ (List.mem_cons_of_mem _ hrest))
    obtain ⟨o', ho'⟩ := htouch e.id e.call hinvoked hne htouches
    exact hlin.not_before hrest o' ho'
  have hkept : Kept key data d
      (memory.run .empty ((pre ++ ⟨i, .set key data d, .ok⟩ :: mid).map Placed.call)) := by
    rw [List.map_append, List.map_cons, Mealy.run_append]
    exact @Mealy.run_invariant _ _ _ memory (Kept key data d) (fun c => ¬ c.Touches key d)
      (fun a c hkept hc => hkept.step hc) _ (kept_set _) _ hmid
  have hsplit : pre ++ ⟨i, .set key data d, .ok⟩ :: (mid ++ ⟨j, .get key, o⟩ :: post) =
      (pre ++ ⟨i, .set key data d, .ok⟩ :: mid) ++ ⟨j, .get key, o⟩ :: post := by
    simp
  rw [hsplit] at hlin
  exact hlin.answer_eq.trans (congrArg Answer.blob hkept.blob)

/-! ### The result -/

/-- **The file store behaves like the memory store** in every run of permitted steps: the calls
could have been made one after the other on the memory store, and what was stored is read back. -/
theorem linearizable (dir : AbsPath) (s : State)
    (hrun : (system dir).Run (fun s l => l.Keyed ∧ s.Permitted dir l) .init s) :
    Linearizable memory .empty s.history ∧ ReadsBack s.history := by
  have hfollows : Follows dir s :=
    hrun.invariant (follows_init dir) fun _ _ _ h hok hst => h.step hok.1 hok.2 hst
  obtain ⟨order, htracks, -⟩ := hfollows
  have hlin : Linearizable memory .empty s.history := ⟨order, htracks.lin⟩
  exact ⟨hlin, readsBack_of_linearizable hlin⟩

def blobDir : AbsPath := ⟨["blobs".toList], by decide⟩

/-- A height is set while a `Set` has written its file and is still to record a later one. -/
def permittedRun : List Label :=
  [.invoke (.set "ab" [1] 5), .step 0, .invoke (.setCurrentBlockHeight 3), .step 1, .ret 1,
    .step 0, .ret 0, .invoke (.get "ab"), .step 2, .ret 2]

theorem permitted_step {dir : AbsPath} {s : State} {i : ℕ} {p : Progress}
    (hi : s.calls[i]? = some p) (h : Permits dir s p) : (Label.step i).Keyed ∧
      s.Permitted dir (.step i) := by
  refine ⟨trivial, ?_⟩
  intro q hq
  obtain rfl := Option.some.inj (hi.symm.trans hq)
  exact h

theorem linearizable_permittedRun :
    ∃ s, (system blobDir).exec .init permittedRun = some s ∧
      .returned 2 (.blob (some [1])) ∈ s.history ∧
      Linearizable memory .empty s.history ∧ ReadsBack s.history := by
  have hkey : IsKey "ab" := .inl (by decide)
  have halong : (system blobDir).Along (fun s l => l.Keyed ∧ s.Permitted blobDir l) .init
      permittedRun := by
    refine .cons ⟨hkey, trivial⟩ rfl (.cons (permitted_step rfl trivial) rfl
      (.cons ⟨trivial, trivial⟩ rfl (.cons (permitted_step rfl ⟨?_, ?_⟩) rfl
      (.cons ⟨trivial, trivial⟩ rfl (.cons (permitted_step rfl ?_) rfl
      (.cons ⟨trivial, trivial⟩ rfl (.cons ⟨hkey, trivial⟩ rfl
      (.cons (permitted_step rfl trivial) rfl (.cons ⟨trivial, trivial⟩ rfl trivial)))))))))
    · intro key d hd
      cases hd
    · -- the only call between two steps is the `Set`
      rintro key d (⟨j, n, hj, -⟩ | ⟨-, -, j, taken, hj, -⟩) -
      · have hmem : Progress.written key d n ∈
            [.written "ab" 5 0, .invoked (.setCurrentBlockHeight 3)] := List.mem_of_getElem? hj
        simp only [List.mem_cons, Progress.written.injEq, reduceCtorEq, List.not_mem_nil,
          or_false] at hmem
        rw [hmem.2.1]
        decide
      · have hmem : Progress.forgotten key taken ∈
            [.written "ab" 5 0, .invoked (.setCurrentBlockHeight 3)] := List.mem_of_getElem? hj
        simp at hmem
    · intro j d m _ hlt
      exact absurd hlt (Nat.not_lt_zero m)
  have hrun := LTS.Run.exec .start halong rfl
  exact ⟨_, rfl, by decide, linearizable blobDir _ hrun⟩

/-- A blob is stored again, and a height that its old height has reached is set before the new one
is recorded. -/
def lostRun : List Label :=
  [.invoke (.set "ab" [1] 5), .step 0, .step 0, .ret 0,
    .invoke (.set "ab" [2] 100), .step 1, .invoke (.setCurrentBlockHeight 10), .step 2, .ret 2,
    .step 1, .ret 1, .invoke (.get "ab"), .step 3, .ret 3]

/-- What the clients see of it. -/
def lostHistory : List (Event Call Answer) :=
  [.invoked 0 (.set "ab" [1] 5), .returned 0 .ok, .invoked 1 (.set "ab" [2] 100),
    .invoked 2 (.setCurrentBlockHeight 10), .returned 2 .ok, .returned 1 .ok,
    .invoked 3 (.get "ab"), .returned 3 (.blob none)]

/-- Without the condition, a blob that was stored with a height which was not reached is gone. -/
theorem not_linearizable :
    (∀ l ∈ lostRun, l.Keyed) ∧
    ∃ s, (system blobDir).exec .init lostRun = some s ∧
      .returned 3 (.blob none) ∈ s.history ∧
      ¬ Linearizable memory .empty s.history ∧ ¬ ReadsBack s.history := by
  have hkey : IsKey "ab" := .inl (by decide)
  have hlost : ¬ ReadsBack lostHistory := by
    intro h
    have hread := h 1 "ab" [2] 100 3 (.blob none) (by decide) (by decide) (by decide) ?_
    · cases hread
    · -- the first `Set` has returned before, and the height 10 does not reach 100
      intro k c hmem hne htouches
      simp only [lostHistory, List.mem_cons, Event.invoked.injEq, reduceCtorEq, false_or,
        List.not_mem_nil, or_false] at hmem
      rcases hmem with ⟨rfl, rfl⟩ | ⟨rfl, rfl⟩ | ⟨rfl, rfl⟩ | ⟨rfl, rfl⟩
      · exact ⟨.ok, by decide⟩
      · exact absurd rfl hne
      · exact absurd htouches (show ¬ (100 : UInt64) ≤ 10 by decide)
      · exact absurd htouches id
  refine ⟨?_, _, rfl, by decide, fun h => hlost (readsBack_of_linearizable h), hlost⟩
  simp [lostRun, Label.Keyed, Call.Keyed, hkey]

end Concurrent

end Store

end MerkleService
